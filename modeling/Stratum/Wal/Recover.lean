import Stratum.Wal.Recovery

/-!
# `Recover`, on any file

`Recover` reads the log as far as it can. When it met something it could not read, it writes the
batches it has to a temporary file next to the log and renames that over it; otherwise it leaves
the log as it is.

* **`recover_cut`**: of a log written in one go and cut at **any byte**, with anything behind the
  cut, every record is recovered whose last physical record is before the cut; with nothing behind
  the cut, these and no others. The reader has one exit for each place a cut can fall: inside a
  header or padding it sees the end of the file, inside a fragment a record that is too short, and
  between the fragments of a record either of them (`Reader.At.readLoop_cut`).
* **`recover_recover`**: on any file at all, recovering once more changes nothing. What `Recover`
  has rewritten is read back as it is: a batch that was decoded fits the codec and has no empty
  value (`decodeBatch_normal`), and the rewritten file is synced only at its end, so it is the log
  that `Append` lays out on a new file (`rewrite_file`).
-/

namespace Stratum.Wal

open ByteCodec

/-- `RecoveryResult`. -/
structure RecoveryResult where
  batches : List Batch
  corruptedAt : ℤ
  truncatedAt : ℤ
  recordsRead : ℕ
  recordsLost : ℕ
deriving DecidableEq, Repr

/-- `Append` for one record after the other, until one fails. -/
def Writer.appendAll : Writer → List Bytes → Writer × Option WalErr
  | w, [] => (w, none)
  | w, record :: records =>
    match w.append record with
    | (w', some e) => (w', some e)
    | (w', none) => w'.appendAll records

/-- The batches go to the temporary file, which is synced and closed; `faults` are the outcomes of
the writes to it. -/
def rewrite (faults : List Bool) (tmp : Option LogFile) (batches : List Batch) :
    Writer × Option WalErr :=
  match ({ Writer.new tmp with faults := faults } : Writer).appendAll
      (batches.map Batch.encode) with
  | (w, some e) => (w.close.1, some e)
  | (w, none) =>
    match w.sync with
    | (w', some e) => (w'.close.1, some e)
    | (w', none) => w'.close

/-- The log, and the temporary file next to it. -/
structure LogDir where
  log : Option Bytes
  tmp : Option LogFile

/-- `Recover`. -/
def recover (faults : List Bool) (d : LogDir) : Except WalErr RecoveryResult × LogDir :=
  match d.log with
  | none => (.ok ⟨[], -1, -1, 0, 0⟩, d)
  | some file =>
    let (batches, corrupted) := recoverLoop (Reader.new file)
    if corrupted then
      match rewrite faults d.tmp batches with
      | (w, some e) => (.error e, { d with tmp := some ⟨w.file, w.pieces⟩ })
      | (w, none) => (.ok ⟨batches, 1, 1, batches.length, 1⟩, ⟨some w.file, none⟩)
    else (.ok ⟨batches, -1, -1, batches.length, 0⟩, d)

/-! ### Records that have begun, and records that are complete -/

/-- The piece is the last physical record of a record. -/
def Piece.EndsRecord : Piece → Prop
  | .frag typ _ => typ = recordFull ∨ typ = recordLast
  | .pad _ => False

instance : (p : Piece) → Decidable p.EndsRecord
  | .frag _ _ => inferInstanceAs (Decidable (_ ∨ _))
  | .pad _ => inferInstanceAs (Decidable False)

/-- The number of records whose last physical record ends at or before `t`; the pieces start at
`pos`. -/
def completeAt (t : ℕ) : ℕ → List Piece → ℕ
  | _, [] => 0
  | pos, p :: ps =>
    (if p.EndsRecord ∧ pos + p.bytes.length ≤ t then 1 else 0) +
      completeAt t (pos + p.bytes.length) ps

theorem completeAt_append (t pos : ℕ) (ps qs : List Piece) :
    completeAt t pos (ps ++ qs) =
      completeAt t pos ps + completeAt t (pos + (ps.flatMap Piece.bytes).length) qs := by
  induction ps generalizing pos with
  | nil => simp [completeAt]
  | cons p ps ih =>
    rw [List.cons_append, completeAt, ih, completeAt, List.flatMap_cons, List.length_append,
      Nat.add_assoc, Nat.add_assoc]

variable {t pos : ℕ} {data : Bytes} {qs : List Piece} {qss : List (List Piece)} {r : Reader}
  {batches : List Batch}

/-- Nothing that starts behind `t` ends before it. -/
theorem completeAt_eq_zero (h : t < pos) (ps : List Piece) :
    completeAt t pos ps = 0 := by
  induction ps generalizing pos with
  | nil => rfl
  | cons p ps ih =>
    rw [completeAt, if_neg (by omega), ih (by omega)]

theorem fragType_endsRecord (first last : Bool) (payload : Bytes) :
    (Piece.frag (Writer.fragType first last) payload).EndsRecord ↔ last = true := by
  cases first <;> cases last <;> simp [Piece.EndsRecord] <;> decide

/-- A record is complete when all its pieces are. -/
theorem Fragments.completeAt {first : Bool} (h : Fragments first data qs) (t pos : ℕ) :
    completeAt t pos qs = if pos + (qs.flatMap Piece.bytes).length ≤ t then 1 else 0 := by
  induction h generalizing pos with
  | last _ => simp [Wal.completeAt, fragType_endsRecord]
  | more _ _ ih =>
    rw [Wal.completeAt, ih, List.flatMap_cons, List.length_append, ← Nat.add_assoc,
      if_neg (by simp [fragType_endsRecord]), Nat.zero_add]
  | pad _ _ _ ih =>
    rw [Wal.completeAt, ih, List.flatMap_cons, List.length_append, ← Nat.add_assoc,
      if_neg (fun hends => hends.1), Nat.zero_add]

/-- The piece is the first physical record of a record. -/
def Piece.StartsRecord : Piece → Prop
  | .frag typ _ => typ = recordFull ∨ typ = recordFirst
  | .pad _ => False

instance : (p : Piece) → Decidable p.StartsRecord
  | .frag _ _ => inferInstanceAs (Decidable (_ ∨ _))
  | .pad _ => inferInstanceAs (Decidable False)

/-- The number of records whose first header ends at or before `t`; the pieces start at `pos`. -/
def startedAt (t : ℕ) : ℕ → List Piece → ℕ
  | _, [] => 0
  | pos, p :: ps =>
    (if p.StartsRecord ∧ pos + headerSize ≤ t then 1 else 0) +
      startedAt t (pos + p.bytes.length) ps

theorem startedAt_append (t pos : ℕ) (ps qs : List Piece) :
    startedAt t pos (ps ++ qs) =
      startedAt t pos ps + startedAt t (pos + (ps.flatMap Piece.bytes).length) qs := by
  induction ps generalizing pos with
  | nil => simp [startedAt]
  | cons p ps ih =>
    rw [List.cons_append, startedAt, ih, startedAt, List.flatMap_cons, List.length_append,
      Nat.add_assoc, Nat.add_assoc]

/-- No header ends before `t` that starts less than seven bytes before it. -/
theorem startedAt_eq_zero (h : t < pos + headerSize) (ps : List Piece) :
    startedAt t pos ps = 0 := by
  induction ps generalizing pos with
  | nil => rfl
  | cons p ps ih =>
    rw [startedAt, if_neg (by omega), ih (by omega)]

theorem fragType_startsRecord (first last : Bool) (payload : Bytes) :
    (Piece.frag (Writer.fragType first last) payload).StartsRecord ↔ first = true := by
  cases first <;> cases last <;> simp [Piece.StartsRecord] <;> decide

theorem startedAt_frag (t pos : ℕ) (first last : Bool) (payload : Bytes) (ps : List Piece) :
    startedAt t pos (.frag (Writer.fragType first last) payload :: ps) =
      (if first = true ∧ pos + headerSize ≤ t then 1 else 0) +
        startedAt t (pos + (headerSize + payload.length)) ps := by
  simp only [startedAt, fragType_startsRecord, length_bytes_frag]

theorem startedAt_pad (t pos n : ℕ) (ps : List Piece) :
    startedAt t pos (.pad n :: ps) = startedAt t (pos + n) ps := by
  rw [startedAt, length_bytes_pad, if_neg (fun hstarts => hstarts.1), Nat.zero_add]

/-- Only the first physical record of a record starts it. -/
theorem Fragments.startedAt_false (h : Fragments false data qs) (t pos : ℕ) :
    startedAt t pos qs = 0 := by
  generalize hfirst : false = first at h
  induction h generalizing pos with
  | last _ =>
    subst hfirst
    rw [startedAt_frag, if_neg (by simp), startedAt]
  | more _ _ ih =>
    subst hfirst
    rw [startedAt_frag, ih _ rfl, if_neg (by simp)]
  | pad _ _ _ ih => rw [startedAt_pad, ih _ hfirst]

/-- A record that is complete has begun. -/
theorem Fragments.startedAt_true (h : Fragments true data qs)
    (hle : pos + (qs.flatMap Piece.bytes).length ≤ t) : startedAt t pos qs = 1 := by
  generalize hfirst : true = first at h
  induction h generalizing pos with
  | last _ =>
    subst hfirst
    rw [List.flatMap_singleton, length_bytes_frag] at hle
    rw [startedAt_frag, if_pos ⟨rfl, by omega⟩, startedAt]
  | more _ hb _ =>
    subst hfirst
    rw [List.flatMap_cons, List.length_append, length_bytes_frag] at hle
    rw [startedAt_frag, if_pos ⟨rfl, by omega⟩, hb.startedAt_false]
  | pad _ _ _ ih =>
    rw [List.flatMap_cons, List.length_append, length_bytes_pad] at hle
    rw [startedAt_pad, ih (by omega) hfirst]

/-- Records that end at or before `t` are complete, and have begun. -/
theorem complete_of_le {records : List Bytes} (hqss : List.Forall₂ (Fragments true) records qss)
    (hle : pos + (qss.flatten.flatMap Piece.bytes).length ≤ t) :
    completeAt t pos qss.flatten = records.length ∧
      startedAt t pos qss.flatten = records.length := by
  induction hqss generalizing pos with
  | nil => exact ⟨rfl, rfl⟩
  | cons hb _ ih =>
    rw [List.flatten_cons, List.flatMap_append, List.length_append] at hle
    rw [← Nat.add_assoc] at hle
    obtain ⟨hcomplete, hstarted⟩ := ih hle
    rw [List.flatten_cons, completeAt_append, startedAt_append, hb.completeAt, if_pos (by omega),
      hb.startedAt_true (by omega), hcomplete, hstarted, List.length_cons, Nat.add_comm 1]
    exact ⟨rfl, rfl⟩

/-! ### A cut at any byte -/

namespace Reader

/-- Too few bytes for a header, and nothing behind them. -/
theorem At.readLoop_few {r : Reader} {pos : ℕ} {bs : Bytes} (h : r.At pos bs)
    (hroom : pos % blockSize + bs.length ≤ blockSize) (hfew : bs.length < headerSize)
    (record : Bytes) (inFragmentedRecord : Bool) :
    (r.readLoop record inFragmentedRecord).2 =
      .error (if inFragmentedRecord then .shortRecord else .eof) := by
  rcases eq_or_ne bs [] with rfl | hne
  · exact h.readLoop_nil record inFragmentedRecord
  · obtain ⟨r₁, hloaded, hread⟩ := h.loaded hne
    rw [hread]
    refine readLoop_eof ?_ ?_ record inFragmentedRecord
    · rw [hloaded.block, List.length_take]
      omega
    · rw [hloaded.rest, List.drop_eq_nil_of_le (by omega)]

/-- A physical record that is cut is not read: a part of its header is the end of the file. -/
theorem At.readLoop_frag_cut {r : Reader} {pos : ℕ} {typ : RecordType} {payload bs : Bytes}
    (h : r.At pos bs) (hfits : (Piece.frag typ payload).Fits pos)
    (hbs : bs <+: (Piece.frag typ payload).bytes)
    (hlt : bs.length < (Piece.frag typ payload).bytes.length) (record : Bytes)
    (inFragmentedRecord : Bool) :
    (r.readLoop record inFragmentedRecord).2 =
      .error (if bs.length < headerSize ∧ inFragmentedRecord = false then .eof
        else .shortRecord) := by
  have hheader : headerSize = 7 := rfl
  have hsize : blockSize = 32768 := rfl
  rw [length_bytes_frag] at hlt
  rw [Piece.Fits] at hfits
  by_cases hfew : bs.length < headerSize
  · rw [h.readLoop_few (by omega) hfew record inFragmentedRecord]
    cases inFragmentedRecord <;> simp [hfew]
  · rw [if_neg fun hand => hfew hand.1]
    -- the header is there, and says that more follows than does
    have hsplit : bs = header typ payload ++ bs.drop headerSize := by
      have htake : bs.take headerSize = header typ payload := by
        obtain ⟨rest, hrest⟩ := hbs
        have hpre : (bs ++ rest).take headerSize = header typ payload := by
          rw [hrest, Piece.bytes, List.take_left' (length_header _ _)]
        rwa [List.take_append_of_le_length (by omega)] at hpre
      rw [← htake, List.take_append_drop]
    have hne : bs ≠ [] := List.ne_nil_of_length_pos (by omega)
    obtain ⟨r₁, hloaded, hread⟩ := h.loaded hne
    rw [hread]
    refine @readLoop_short r₁ typ payload (bs.drop headerSize) ?_ ?_ (by omega) record
      inFragmentedRecord
    · rw [hloaded.block, List.take_of_length_le (by omega)]
      exact hsplit
    · rw [List.length_drop]
      omega

section Cut

variable {bs : Bytes} {p : Piece} {ps : List Piece}

/-- A cut in the first piece leaves a beginning of it. -/
private theorem prefix_bytes_of_lt (hbs : bs <+: (p :: ps).flatMap Piece.bytes)
    (hlt : bs.length < p.bytes.length) : bs <+: p.bytes := by
  rw [List.flatMap_cons] at hbs
  exact List.prefix_of_prefix_length_le hbs (List.prefix_append _ _) hlt.le

/-- A cut behind the first piece is a cut in what follows it. -/
private theorem exists_cut_behind (hbs : bs <+: (p :: ps).flatMap Piece.bytes)
    (hlt : bs.length < ((p :: ps).flatMap Piece.bytes).length)
    (hge : ¬ bs.length < p.bytes.length) :
    ∃ cs, bs = p.bytes ++ cs ∧ cs <+: ps.flatMap Piece.bytes ∧
      cs.length < (ps.flatMap Piece.bytes).length := by
  rw [List.flatMap_cons] at hbs hlt
  obtain ⟨cs, rfl⟩ : p.bytes <+: bs :=
    List.prefix_of_prefix_length_le (List.prefix_append _ _) hbs (by omega)
  refine ⟨cs, rfl, (List.prefix_append_right_inj _).1 hbs, ?_⟩
  simp only [List.length_append] at hlt
  omega

/-- A cut in the first physical record leaves a header, with which the record has begun, or does
not. -/
private theorem few_iff_not_started {pos len : ℕ} {payload : Bytes} {first last : Bool}
    (hlen : len < (Piece.frag (Writer.fragType first last) payload).bytes.length) :
    len < headerSize ∧ (!first) = false ↔ first = true ∧
      startedAt (pos + len) pos (.frag (Writer.fragType first last) payload :: ps) = 0 := by
  rw [length_bytes_frag] at hlen
  rw [startedAt_frag, startedAt_eq_zero (by omega)]
  cases first <;> simp

end Cut

/-- **A record that is cut at any byte is not read.** If no more than a part of its first header is
left, the reader takes that for the end of the file. -/
theorem At.readLoop_cut {first : Bool} {data : Bytes} {qs : List Piece}
    (hqs : Fragments first data qs) {bs : Bytes} (hbs : bs <+: qs.flatMap Piece.bytes)
    (hlt : bs.length < (qs.flatMap Piece.bytes).length) {r : Reader} {pos : ℕ} (h : r.At pos bs)
    (haligned : Aligned pos qs) (record : Bytes) :
    (r.readLoop record (!first)).2 =
      .error (if first = true ∧ startedAt (pos + bs.length) pos qs = 0 then .eof
        else .shortRecord) := by
  induction hqs generalizing bs r pos record with
  | @last first data _ =>
    rw [List.flatMap_singleton] at hbs hlt
    rw [h.readLoop_frag_cut haligned.1 hbs hlt record _, if_congr (few_iff_not_started hlt) rfl rfl]
  | @more first a b ps _ hb ih =>
    by_cases hin : bs.length < (Piece.frag (Writer.fragType first false) a).bytes.length
    · rw [h.readLoop_frag_cut haligned.1 (prefix_bytes_of_lt hbs hin) hin record _,
        if_congr (few_iff_not_started hin) rfl rfl]
    · obtain ⟨cs, rfl, hcs, hlt'⟩ := exists_cut_behind hbs hlt hin
      obtain ⟨r₁, hat, hread⟩ := h.readLoop_frag haligned.1 (Writer.fragType_ne_zero _ _)
      have hbegun : ¬ (first = true ∧ startedAt (pos +
          ((Piece.frag (Writer.fragType first false) a).bytes ++ cs).length) pos
          (.frag (Writer.fragType first false) a :: ps) = 0) := by
        rintro ⟨rfl, hzero⟩
        rw [startedAt_frag, if_pos ⟨rfl, by
          rw [List.length_append, length_bytes_frag]; omega⟩] at hzero
        omega
      have hrest := ih hcs hlt' hat haligned.2 (record ++ a)
      rw [if_neg (by simp)] at hrest
      rw [hread, accept_more, if_neg hbegun]
      exact hrest
  | @pad first data ps n hpos hltn hdata ih =>
    have hfits := haligned.1
    rw [Piece.Fits] at hfits
    rw [startedAt_pad]
    by_cases hin : bs.length ≤ n
    · rw [h.readLoop_few (by omega) (by omega) record _, startedAt_eq_zero (by omega)]
      cases first <;> simp
    · obtain ⟨cs, rfl, hcs, hlt'⟩ :=
        exists_cut_behind hbs hlt (by rw [length_bytes_pad]; omega)
      have hne : cs ≠ [] := by
        rintro rfl
        simp at hin
      obtain ⟨r₁, hat, hread⟩ := h.readLoop_pad haligned.1 hpos hltn hne
      rw [hread, ih hcs hlt' hat haligned.2 record, List.length_append, length_bytes_pad,
        Nat.add_assoc]

end Reader

theorem recoverLoop_of_undecodable {r' : Reader} {record : Bytes} {e : DecodeError}
    (h : r.readRecord = (r', .ok record)) (hdecode : decodeBatch record = .error e) :
    recoverLoop r = ([], true) := by
  rw [recoverLoop]
  split
  · rename_i hread
    rw [hread] at h
    cases h
  · rfl
  · rename_i hread
    rw [hread] at h
    cases h
    rw [hdecode]

/-- **What is recovered from a log that was cut at any byte**, and has anything behind the cut. -/
theorem recoverLoop_of_cut
    (hqss : List.Forall₂ (fun b qs => Fragments true b.encode qs) batches qss)
    (hfits : ∀ b ∈ batches, b.Fits) (k : ℕ) (X : Bytes)
    (h : r.At pos ((qss.flatten.flatMap Piece.bytes).take k ++ X))
    (haligned : Aligned pos qss.flatten) :
    (batches.take (completeAt (pos + k) pos qss.flatten)).map Batch.recovered <+:
      (recoverLoop r).1 := by
  induction hqss generalizing r pos k with
  | nil => exact List.nil_prefix
  | @cons b qs batches qss hb _ ih =>
    rw [List.flatten_cons, List.flatMap_append] at h
    rw [List.flatten_cons, aligned_append] at haligned
    rw [List.flatten_cons, completeAt_append, hb.completeAt]
    by_cases hin : (qs.flatMap Piece.bytes).length ≤ k
    · -- the record is before the cut
      rw [List.take_append, List.take_of_length_le hin, List.append_assoc] at h
      obtain ⟨r', hread, hat⟩ := h.readLoop_fragments hb haligned.1 []
      rw [List.nil_append, Bool.not_true, ← Reader.readRecord] at hread
      have hbfits := hfits b List.mem_cons_self
      have hpos : pos + k = pos + (qs.flatMap Piece.bytes).length +
          (k - (qs.flatMap Piece.bytes).length) := by omega
      have hpre := ih (fun b' hb' => hfits b' (List.mem_cons_of_mem _ hb'))
        (k - (qs.flatMap Piece.bytes).length) hat haligned.2
      rw [← hpos] at hpre
      rw [if_pos (by omega), Nat.add_comm 1, List.take_succ_cons, List.map_cons,
        recoverLoop_of_ok hread (decodeBatch_encode hbfits.1 hbfits.2)]
      exact List.cons_prefix_cons.2 ⟨rfl, hpre⟩
    · -- the cut is inside the record
      rw [if_neg (by omega), completeAt_eq_zero (by omega), Nat.add_zero, List.take_zero,
        List.map_nil]
      exact List.nil_prefix

/-- Nothing is recovered from a record that is cut, and something is wrong when it has begun. -/
private theorem recoverLoop_of_record_cut {record : Bytes} (hqs : Fragments true record qs) {k : ℕ}
    (hlt : k < (qs.flatMap Piece.bytes).length) (h : r.At pos ((qs.flatMap Piece.bytes).take k))
    (haligned : Aligned pos qs) :
    recoverLoop r = ([], decide (0 < startedAt (pos + k) pos qs)) := by
  have hlen : ((qs.flatMap Piece.bytes).take k).length = k := by
    rw [List.length_take]
    omega
  have hread := h.readLoop_cut hqs (List.take_prefix _ _) (by omega) haligned []
  rw [hlen, Bool.not_true, ← Reader.readRecord] at hread
  by_cases hbegun : startedAt (pos + k) pos qs = 0
  · rw [if_pos ⟨rfl, hbegun⟩] at hread
    rw [recoverLoop_of_error hread, hbegun]
    rfl
  · rw [if_neg fun hand => hbegun hand.2] at hread
    rw [recoverLoop_of_error hread, decide_eq_true (Nat.pos_of_ne_zero hbegun)]
    rfl

/-- **What is recovered from a log that ends at the cut.** If the complete records can be decoded,
it is these, and something is wrong when one more has begun; if not, something is wrong. -/
theorem recoverLoop_of_end {records : List Bytes} (hqss : List.Forall₂ (Fragments true) records qss)
    (k : ℕ) (h : r.At pos ((qss.flatten.flatMap Piece.bytes).take k))
    (haligned : Aligned pos qss.flatten) :
    (∀ bs, List.Forall₂ (fun record b => decodeBatch record = .ok b)
        (records.take (completeAt (pos + k) pos qss.flatten)) bs →
      recoverLoop r = (bs, decide (completeAt (pos + k) pos qss.flatten <
        startedAt (pos + k) pos qss.flatten))) ∧
    ((∃ record ∈ records.take (completeAt (pos + k) pos qss.flatten),
        ∃ e, decodeBatch record = .error e) → (recoverLoop r).2 = true) := by
  induction hqss generalizing r pos k with
  | nil =>
    refine ⟨fun bs hbs => ?_, by simp⟩
    rw [List.take_nil, List.forall₂_nil_left_iff] at hbs
    rw [hbs]
    exact recoverLoop_of_error (Reader.At.readRecord_nil (by simpa using h))
  | @cons record qs records qss hb _ ih =>
    rw [List.flatten_cons, List.flatMap_append] at h
    rw [List.flatten_cons, aligned_append] at haligned
    rw [List.flatten_cons, completeAt_append, startedAt_append, hb.completeAt]
    by_cases hin : (qs.flatMap Piece.bytes).length ≤ k
    · -- the record is before the cut
      rw [List.take_append, List.take_of_length_le hin] at h
      obtain ⟨r', hread, hat⟩ := h.readLoop_fragments hb haligned.1 []
      rw [List.nil_append, Bool.not_true, ← Reader.readRecord] at hread
      have hpos : pos + k = pos + (qs.flatMap Piece.bytes).length +
          (k - (qs.flatMap Piece.bytes).length) := by omega
      obtain ⟨hok, herr⟩ := ih (k - (qs.flatMap Piece.bytes).length) hat haligned.2
      rw [← hpos] at hok herr
      rw [if_pos (by omega), hb.startedAt_true (by omega), Nat.add_comm 1, List.take_succ_cons]
      refine ⟨fun bs hbs => ?_, ?_⟩
      · obtain ⟨b, bs, hdecode, hrest, rfl⟩ := List.forall₂_cons_left_iff.1 hbs
        rw [recoverLoop_of_ok hread hdecode, hok bs hrest]
        simp [Nat.add_comm 1]
      · rintro ⟨record', hmem, e, he⟩
        rcases hdecode : decodeBatch record with e' | b
        · rw [recoverLoop_of_undecodable hread hdecode]
        · rw [recoverLoop_of_ok hread hdecode]
          refine herr ⟨record', (List.mem_cons.1 hmem).resolve_left ?_, e, he⟩
          rintro rfl
          rw [hdecode] at he
          cases he
    · -- the cut is inside the record
      have hbehind : pos + k < pos + (qs.flatMap Piece.bytes).length + headerSize := by omega
      rw [if_neg (by omega), completeAt_eq_zero (by omega), startedAt_eq_zero hbehind,
        Nat.add_zero, Nat.add_zero, List.take_zero]
      refine ⟨fun bs hbs => ?_, by simp⟩
      rw [List.forall₂_nil_left_iff.1 hbs]
      rw [List.take_append_of_le_length (by omega)] at h
      exact recoverLoop_of_record_cut hb (Nat.lt_of_not_le hin) h haligned.1

private theorem decode_encode (hfits : ∀ b ∈ batches, b.Fits) :
    List.Forall₂ (fun record b => decodeBatch record = .ok b) (batches.map Batch.encode)
      (batches.map Batch.recovered) := by
  rw [List.forall₂_map_left_iff, List.forall₂_map_right_iff, List.forall₂_same]
  exact fun b hb => decodeBatch_encode (hfits b hb).1 (hfits b hb).2

/-- An aligned log is recovered to its end, and nothing is wrong with it. -/
theorem recoverLoop_of_aligned {pieces : List Piece}
    (hholds : Holds (batches.map Batch.encode) pieces)
    (hnormal : ∀ b ∈ batches, b.Fits ∧ b.recovered = b) (h : r.At pos (pieces.flatMap Piece.bytes))
    (haligned : Aligned pos pieces) :
    recoverLoop r = (batches, false) := by
  obtain ⟨qss, hqss, rfl⟩ := hholds
  rw [← List.take_length (l := qss.flatten.flatMap Piece.bytes)] at h
  obtain ⟨hcomplete, hstarted⟩ := complete_of_le hqss le_rfl
  have hdecode := decode_encode fun b hb => (hnormal b hb).1
  rw [List.map_congr_left fun b hb => (hnormal b hb).2, List.map_id'] at hdecode
  have hend := (recoverLoop_of_end hqss _ h haligned).1 batches
  rw [hcomplete, hstarted, List.take_length, decide_eq_false (Nat.lt_irrefl _)] at hend
  exact hend hdecode

/-- **What is recovered after a crash** from an aligned log that holds the batches: some of the
first of them, and at least the first `m` if their pieces were on disk. -/
theorem recoverBatches_of_onDisk {w : Writer} {m : ℕ}
    (hqss : List.Forall₂ (fun b qs => Fragments true b.encode qs) batches qss)
    (hpieces : w.pieces = qss.flatten) (hfits : ∀ b ∈ batches, b.Fits)
    (haligned : Aligned 0 w.pieces) (hdisk : w.OnDisk (qss.take m).flatten)
    (hm : m ≤ batches.length) :
    ∃ n, m ≤ n ∧ recoverBatches w.file = (batches.take n).map Batch.recovered := by
  obtain ⟨ps, qs, hsplit, hfile, -, hpre⟩ := hdisk
  have htake : w.file = (qss.flatten.flatMap Piece.bytes).take (ps.flatMap Piece.bytes).length := by
    rw [hfile, ← hpieces, hsplit, List.flatMap_append, List.take_left]
  have hat := Reader.at_new w.file
  nth_rewrite 2 [htake] at hat
  rw [← List.forall₂_map_left_iff (f := Batch.encode)] at hqss
  rw [hpieces] at haligned
  have hend := (recoverLoop_of_end hqss _ hat haligned).1
  rw [← List.map_take] at hend
  refine ⟨_, ?_, congrArg Prod.fst (hend _ (decode_encode fun b hb =>
    hfits b (List.mem_of_mem_take hb)))⟩
  -- the first `m` records are complete
  have hle : 0 + ((qss.take m).flatten.flatMap Piece.bytes).length ≤
      0 + (ps.flatMap Piece.bytes).length := by
    obtain ⟨tail, rfl⟩ := hpre
    simp
  have hfirst := (complete_of_le (List.forall₂_take m hqss) hle).1
  rw [List.length_take, List.length_map, Nat.min_eq_left hm] at hfirst
  rw [← List.take_append_drop m qss, List.flatten_append, completeAt_append, hfirst]
  exact Nat.le_add_right ..

/-! ### Rewriting the log -/

theorem Writer.append_of_open {w : Writer} (h : w.closed = false) (record : Bytes) :
    w.append record = w.appendLoop record true := by
  rw [append, if_neg (by simp [h])]

theorem Writer.sync_of_open {w : Writer} (h : w.closed = false) : w.sync = w.flushBlock := by
  rw [sync, if_neg (by simp [h])]

/-- The log that `Append` lays out on a new file, beginning with an empty block. -/
def encoded (records : List Bytes) : LogFile := session none (records.map .append)

/-- A writer that does what `v` does without faults, on a file that has `before` in front. -/
structure Writer.Follows (before : Bytes) (w v : Writer) : Prop where
  file : w.file = before ++ v.file
  block : w.block = v.block
  closed : w.closed = false ∧ v.closed = false
  faults : v.faults = []

namespace Writer.Follows

variable {before : Bytes} {w w' v : Writer}

theorem put (h : w.Follows before v) (p : Piece) : (w.put p).Follows before (v.put p) :=
  ⟨h.file, by rw [Writer.put, Writer.put, h.block], h.closed, h.faults⟩

theorem flushBlock (h : w.Follows before v) (hok : w.flushBlock = (w', none)) :
    w'.Follows before v.flushBlock.1 := by
  obtain ⟨hfaults, hfaults'⟩ := flushBlock_noFaults h.faults
  obtain ⟨hblock, hfile, -, hclosed⟩ := flushBlock_cases hok
  obtain ⟨hblock', hfile', -, hclosed'⟩ := @flushBlock_cases v v.flushBlock.1 (Prod.ext rfl hfaults)
  refine ⟨?_, hblock.trans hblock'.symm, ⟨hclosed.trans h.closed.1, hclosed'.trans h.closed.2⟩,
    hfaults'⟩
  rw [hfile, hfile', h.file, h.block, List.append_assoc]

theorem makeRoom (h : w.Follows before v) (hok : w.makeRoom = (w', none)) :
    ∃ v', v.makeRoom = (v', none) ∧ w'.Follows before v' := by
  refine ⟨v.makeRoom.1, Prod.ext rfl (makeRoom_noFaults h.faults).1, ?_⟩
  simp only [Writer.makeRoom] at hok ⊢
  rw [← h.block]
  split at hok
  · rename_i hrem
    rw [if_pos hrem]
    split at hok
    · rename_i hpos
      rw [if_pos hpos]
      exact (h.put _).flushBlock hok
    · rename_i hpos
      rw [if_neg hpos]
      exact h.flushBlock hok
  · rename_i hrem
    cases hok
    rwa [if_neg hrem]

/-- **Run lemma** for the loop of `Append`. -/
theorem appendLoop {record : Bytes} {first : Bool} (h : w.Follows before v)
    (hok : w.appendLoop record first = (w', none)) :
    w'.Follows before (v.appendLoop record first).1 := by
  induction w, record, first using Writer.appendLoop.induct generalizing v with
  | case1 w record first w₁ e hroom =>
    rw [appendLoop_of_makeRoom_error hroom] at hok
    cases hok
  | case2 w record first w₁ hroom hlast =>
    obtain ⟨v₁, hroom', hfollows⟩ := h.makeRoom hroom
    rw [appendLoop_of_makeRoom hroom, if_pos hlast] at hok
    cases hok
    rw [Writer.avail, hfollows.block, ← Writer.avail] at hlast
    rw [appendLoop_of_makeRoom hroom', if_pos hlast]
    exact hfollows.put _
  | case3 w record first w₁ hroom hlast ih =>
    obtain ⟨v₁, hroom', hfollows⟩ := h.makeRoom hroom
    rw [appendLoop_of_makeRoom hroom, if_neg hlast] at hok
    have havail : w₁.avail = v₁.avail := by rw [Writer.avail, hfollows.block, ← Writer.avail]
    rw [appendLoop_of_makeRoom hroom', ← havail, if_neg hlast]
    exact ih (hfollows.put _) hok

/-- **Run lemma**: appends that succeed, whatever writes are still to fail. -/
theorem appendAll {records : List Bytes} (h : w.Follows before v)
    (hok : w.appendAll records = (w', none)) :
    w'.Follows before ((records.map WalOp.append).foldl Writer.perform v) := by
  induction records generalizing w v with
  | nil =>
    cases hok
    exact h
  | cons record records ih =>
    rw [Writer.appendAll] at hok
    split at hok
    · cases hok
    · rename_i w₁ happend
      rw [append_of_open h.closed.1] at happend
      have hfollows := h.appendLoop happend
      rw [← append_of_open h.closed.2] at hfollows
      exact ih hfollows hok

/-- A writer on a file that may be there. -/
theorem new (faults : List Bool) (tmp : Option LogFile) :
    ({ Writer.new tmp with faults := faults } : Writer).Follows ((tmp.map LogFile.bytes).getD [])
      (Writer.new none) := by
  rcases tmp with _ | f
  · exact ⟨rfl, rfl, ⟨rfl, rfl⟩, rfl⟩
  · exact ⟨(List.append_nil _).symm, rfl, ⟨rfl, rfl⟩, rfl⟩

end Writer.Follows

/-- **What is in the temporary file** when it was written without an error: what was there, and the
batches as `Append` lays them out on a new file. -/
theorem rewrite_file {faults : List Bool} {tmp : Option LogFile} {w : Writer}
    (h : rewrite faults tmp batches = (w, none)) :
    w.file = (tmp.map LogFile.bytes).getD [] ++ (encoded (batches.map Batch.encode)).bytes := by
  rw [rewrite] at h
  split at h
  · cases h
  · rename_i w₁ happend
    split at h
    · cases h
    · rename_i w₂ hsync
      have hw₁ := (Writer.Follows.new faults tmp).appendAll happend
      rw [Writer.sync_of_open hw₁.closed.1] at hsync
      obtain ⟨hnil, -, -, -⟩ := Writer.flushBlock_cases hsync
      have hclose := (Writer.close_of_block_nil hnil).1
      rw [h] at hclose
      have hopen := hw₁.closed.2
      rw [hclose, (hw₁.flushBlock hsync).file, encoded, session, Writer.close,
        if_neg (by rw [hopen]; exact Bool.false_ne_true)]
      simp only [Writer.flushBlock]
      split
      · rfl
      · split <;> rfl

/-- The pieces of a log, record by record. -/
theorem encoded_pieces (records : List Bytes) :
    ∃ qss : List (List Piece), List.Forall₂ (Fragments true) records qss ∧
      ∀ m, (encoded (records.take m)).pieces = (qss.take m).flatten := by
  have hall : ∀ (records : List Bytes) (w : Writer), w.faults = [] → w.closed = false →
      ∃ qss : List (List Piece), List.Forall₂ (Fragments true) records qss ∧
        ∀ m, (((records.take m).map WalOp.append).foldl Writer.perform w).pieces =
          w.pieces ++ (qss.take m).flatten := by
    intro records
    induction records with
    | nil => exact fun w _ _ => ⟨[], .nil, fun m => by simp⟩
    | cons record records ih =>
      intro w hfaults hclosed
      obtain ⟨hok, hfaults'⟩ := Writer.appendLoop_noFaults hfaults record true
      have hclosed' := (w.append_closed record).trans hclosed
      obtain ⟨qs, hqs, hpieces⟩ :=
        @Writer.appendLoop_pieces w (w.appendLoop record true).1 record true (Prod.ext rfl hok)
      rw [← Writer.append_of_open hclosed] at hfaults' hpieces
      obtain ⟨qss, hqss, htake⟩ := ih _ hfaults' hclosed'
      refine ⟨qs :: qss, .cons hqs hqss, fun m => ?_⟩
      cases m with
      | zero => simp
      | succ m =>
        rw [List.take_succ_cons, List.map_cons, List.foldl_cons, Writer.perform, htake, hpieces,
          List.take_succ_cons, List.flatten_cons, List.append_assoc]
  obtain ⟨qss, hqss, htake⟩ := hall records (Writer.new none) rfl rfl
  refine ⟨qss, hqss, fun m => ?_⟩
  rw [encoded, session]
  exact (Writer.close_pieces _).trans (htake m)

theorem encoded_bytes (records : List Bytes) :
    (encoded records).bytes = (encoded records).pieces.flatMap Piece.bytes :=
  (@logFile_holds [records.map .append] (encoded records) rfl).1

theorem aligned_encoded (records : List Bytes) : Aligned 0 (encoded records).pieces :=
  @aligned_of_no_sync (records.map .append) (by simp)

theorem holds_encoded (records : List Bytes) : Holds records (encoded records).pieces := by
  obtain ⟨qss, hqss, htake⟩ := encoded_pieces records
  refine ⟨qss, hqss, ?_⟩
  have hall := htake records.length
  rwa [List.take_length, hqss.length_eq, List.take_length] at hall

/-- Without failing writes the log is rewritten. -/
theorem rewrite_noFaults (tmp : Option LogFile) (batches : List Batch) :
    (rewrite [] tmp batches).2 = none := by
  have hall : ∀ (records : List Bytes) (w : Writer), w.faults = [] → w.closed = false →
      (w.appendAll records).2 = none ∧ (w.appendAll records).1.faults = [] ∧
        (w.appendAll records).1.closed = false := by
    intro records
    induction records with
    | nil => exact fun w hfaults hclosed => ⟨rfl, hfaults, hclosed⟩
    | cons record records ih =>
      intro w hfaults hclosed
      obtain ⟨hok, hfaults'⟩ := Writer.appendLoop_noFaults hfaults record true
      have hclosed' := w.append_closed record
      rw [← Writer.append_of_open hclosed] at hok hfaults'
      rw [hclosed] at hclosed'
      rw [Writer.appendAll]
      split
      · rename_i happend
        rw [happend] at hok
        cases hok
      · rename_i w' happend
        rw [happend] at hfaults' hclosed'
        exact ih w' hfaults' hclosed'
  have hnew : ({ Writer.new tmp with faults := [] } : Writer).closed = false := by
    rcases tmp with _ | f <;> rfl
  obtain ⟨hok, hfaults, hclosed⟩ := hall (batches.map Batch.encode) _ rfl hnew
  rw [rewrite]
  split
  · rename_i happend
    rw [happend] at hok
    cases hok
  · rename_i w happend
    rw [happend] at hfaults hclosed
    have hflush := Writer.flushBlock_noFaults hfaults
    rw [← Writer.sync_of_open hclosed] at hflush
    split
    · rename_i hsync
      rw [hsync] at hflush
      cases hflush.1
    · rename_i w' hsync
      rw [hsync] at hflush
      rw [Writer.close]
      split
      · rfl
      · have hfaults' : ({ w' with closed := true } : Writer).faults = [] := hflush.2
        exact (Writer.flushBlock_noFaults hfaults').1

/-! ### Every complete record is recovered -/

/-- Without failing writes `Recover` returns what the loop read. -/
theorem recover_noFaults (file : Bytes) (tmp : Option LogFile) :
    ∃ res, (recover [] ⟨some file, tmp⟩).1 = .ok res ∧ res.batches = recoverBatches file := by
  rw [recover, recoverBatches]
  dsimp only
  split
  · have hok := rewrite_noFaults tmp (recoverLoop (Reader.new file)).1
    split
    · rename_i hrewrite
      rw [hrewrite] at hok
      cases hok
    · exact ⟨_, rfl, rfl⟩
  · exact ⟨_, rfl, rfl⟩

/-- **Recovery keeps every complete record.** A log is written in one go on a new file, cut at any
byte, and followed by anything. `Recover` returns first the batches whose last physical record ends
at or before the cut; when nothing follows the cut, exactly these. -/
theorem recover_cut {batches : List Batch} (hfits : ∀ b ∈ batches, b.Fits) (t : ℕ) (X : Bytes)
    (tmp : Option LogFile) {L : LogFile}
    (hL : L = session none (batches.map fun b => .append b.encode)) :
    ∃ res, (recover [] ⟨some (L.bytes.take t ++ X), tmp⟩).1 = .ok res ∧
      (batches.take (completeAt t 0 L.pieces)).map Batch.recovered <+: res.batches ∧
      (X = [] →
        res.batches = (batches.take (completeAt t 0 L.pieces)).map Batch.recovered) := by
  obtain rfl : L = encoded (batches.map Batch.encode) := by rw [hL, encoded, List.map_map]; rfl
  generalize hL' : encoded (batches.map Batch.encode) = L
  obtain ⟨qss, hqss, hpieces⟩ := holds_encoded (batches.map Batch.encode)
  have hbytes := encoded_bytes (batches.map Batch.encode)
  have haligned := aligned_encoded (batches.map Batch.encode)
  rw [hL'] at hpieces hbytes haligned
  obtain ⟨res, hres, hread⟩ := recover_noFaults (L.bytes.take t ++ X) tmp
  have hat := Reader.at_new (L.bytes.take t ++ X)
  nth_rewrite 2 [hbytes] at hat
  rw [hpieces] at hat haligned
  have hqss' := List.forall₂_map_left_iff.1 hqss
  have hcut := recoverLoop_of_cut hqss' hfits t X hat haligned
  rw [Nat.zero_add, ← hpieces, ← recoverBatches, ← hread] at hcut
  refine ⟨res, hres, hcut, ?_⟩
  rintro rfl
  rw [List.append_nil] at hread
  rw [List.append_nil, List.append_nil] at hat
  have hend := (recoverLoop_of_end hqss t hat haligned).1
  rw [Nat.zero_add, ← List.map_take] at hend
  rw [hread, recoverBatches, hpieces,
    hend _ (decode_encode fun b hb => hfits b (List.mem_of_mem_take hb))]

/-- A log of two batches, cut inside the second one and followed by a byte that was never
written. -/
theorem recover_cut_two :
    (∀ b ∈ [Batch.mk [⟨opPut, [1], some [2]⟩], ⟨[⟨opDelete, [1], none⟩]⟩], b.Fits) ∧
      ∃ res, (recover [] ⟨some ((session none [.append (Batch.encode ⟨[⟨opPut, [1], some [2]⟩]⟩),
            .append (Batch.encode ⟨[⟨opDelete, [1], none⟩]⟩)]).bytes.take 30 ++ [9]), none⟩).1
          = .ok res ∧ [⟨[⟨opPut, [1], some [2]⟩]⟩] <+: res.batches := by
  have hfits : ∀ b ∈ [Batch.mk [⟨opPut, [1], some [2]⟩], ⟨[⟨opDelete, [1], none⟩]⟩], b.Fits := by
    simp [Batch.Fits, BatchEntry.Fits]
  refine ⟨hfits, ?_⟩
  obtain ⟨res, hres, hpre, -⟩ := recover_cut hfits 30 [9] none rfl
  refine ⟨res, hres, ?_⟩
  have hone : completeAt 30 0 (session none ([Batch.mk [⟨opPut, [1], some [2]⟩],
      ⟨[⟨opDelete, [1], none⟩]⟩].map fun b => .append b.encode)).pieces = 1 := by
    decide +kernel
  rw [hone] at hpre
  exact hpre

/-! ### Recovering once more -/

theorem recoverLoop_normal (r : Reader) : ∀ b ∈ (recoverLoop r).1, b.Fits ∧ b.recovered = b := by
  fun_induction recoverLoop r with
  | case1 => simp
  | case2 => simp
  | case3 => simp
  | case4 r r' record b hread hdecode ih =>
    exact List.forall_mem_cons.2 ⟨decodeBatch_normal hdecode, ih⟩

/-- What `Append` lays out for batches that were decoded is recovered as it is. -/
theorem recoverLoop_encoded (hnormal : ∀ b ∈ batches, b.Fits ∧ b.recovered = b) :
    recoverLoop (Reader.new (encoded (batches.map Batch.encode)).bytes) = (batches, false) := by
  have hat := Reader.at_new (encoded (batches.map Batch.encode)).bytes
  nth_rewrite 2 [encoded_bytes] at hat
  exact recoverLoop_of_aligned (holds_encoded _) hnormal hat (aligned_encoded _)

/-- **`Recover` is idempotent**, on any file. Recovering once more from what a successful `Recover`
left returns the same batches. If the first one rewrote the log, the second finds nothing wrong
with it; if not, the log is as it was and the result is the same. -/
theorem recover_recover {faults : List Bool} {file : Bytes} {res : RecoveryResult} {d : LogDir}
    (h : recover faults ⟨some file, none⟩ = (.ok res, d)) (faults' : List Bool) :
    (res.truncatedAt = 1 ∨ res.truncatedAt = -1) ∧
      (res.truncatedAt = 1 →
        recover faults' d = (.ok ⟨res.batches, -1, -1, res.recordsRead, 0⟩, d)) ∧
      (res.truncatedAt = -1 → d = ⟨some file, none⟩ ∧ recover faults' d = (.ok res, d)) := by
  rw [recover] at h
  dsimp only at h
  split at h
  · split at h
    · cases h
    · rename_i w hrewrite
      cases h
      refine ⟨.inl rfl, fun _ => ?_, fun hne => absurd hne (by simp)⟩
      have hfile := rewrite_file hrewrite
      rw [Option.map_none, Option.getD_none, List.nil_append] at hfile
      have hloop := recoverLoop_encoded (recoverLoop_normal (Reader.new file))
      rw [← hfile] at hloop
      rw [recover]
      simp only [hloop, Bool.false_eq_true, if_false]
  · rename_i hclean
    cases h
    refine ⟨.inr rfl, fun hne => absurd hne (by simp), fun _ => ⟨rfl, ?_⟩⟩
    rw [recover]
    simp only [hclean, Bool.false_eq_true, if_false]

/-- A log of one batch, and behind it eight ones that are no record. -/
def tornLog : Bytes :=
  (encoded [Batch.encode ⟨[⟨opPut, [107], some [1]⟩]⟩]).bytes ++ List.replicate 8 1

/-- The batch is recovered, and the log rewritten without what is behind it. -/
theorem recover_recover_batch :
    ∃ res d, recover [] ⟨some tornLog, none⟩ = (.ok res, d) ∧ res.truncatedAt = 1 ∧
      res.batches = [⟨[⟨opPut, [107], some [1]⟩]⟩] ∧
      recover [] d = (.ok ⟨res.batches, -1, -1, res.recordsRead, 0⟩, d) := by
  obtain ⟨res, hres, -⟩ := recover_noFaults tornLog none
  have hrun : recover [] ⟨some tornLog, none⟩ =
      (.ok res, (recover [] ⟨some tornLog, none⟩).2) := Prod.ext hres rfl
  have hone : (recover [] ⟨some tornLog, none⟩).1.toOption.any fun res =>
      decide (res.truncatedAt = 1 ∧ res.batches = [⟨[⟨opPut, [107], some [1]⟩]⟩]) := by
    decide +kernel
  rw [hres] at hone
  obtain ⟨htrunc, hbatches⟩ := of_decide_eq_true hone
  exact ⟨res, _, hrun, htrunc, hbatches, (recover_recover hrun []).2.1 htrunc⟩

end Stratum.Wal
