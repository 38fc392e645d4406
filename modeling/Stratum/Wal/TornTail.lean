import Stratum.Wal.Recover

/-!
# What `Recover` leaves of a log that was cut

A log is written in one go and cut at any byte. `Recover` either rewrites it, which leaves the
batches as `Append` lays them out on a new file, or takes it as it is. It should leave nothing else
behind: a writer that opens the log again puts its records behind whatever is there.

The reader has two ways to say that the log ends inside a record. Behind the first header of the
record it says `ErrShortRecord`, and the log is rewritten. But **one to six bytes of a header** are
fewer than it reads at a time, and it says `io.EOF` as it does for padding; `Recover` keeps them.

* `InHeader t pos ps`: the cut is strictly inside the first header of a record.
* `NoTornBytes`: the log is what `Append` lays out for the batches, and zero padding.
* **`noTornBytes_iff`**: for batches whose lengths fit 32 bits, nothing torn is left exactly when
  the cut is not inside such a header.
-/

namespace Stratum.Wal

open ByteCodec

/-! ### A cut inside a header -/

/-- The cut at `t` leaves a part of the first header of a record; the pieces start at `pos`. -/
def InHeader (t : ℕ) : ℕ → List Piece → Prop
  | _, [] => False
  | pos, p :: ps =>
    (p.StartsRecord ∧ pos < t ∧ t < pos + headerSize) ∨ InHeader t (pos + p.bytes.length) ps

instance InHeader.decidable (t : ℕ) : (pos : ℕ) → (ps : List Piece) → Decidable (InHeader t pos ps)
  | _, [] => inferInstanceAs (Decidable False)
  | pos, p :: ps =>
    have := InHeader.decidable t (pos + p.bytes.length) ps
    inferInstanceAs (Decidable (_ ∨ _))

variable {t : ℕ} {qs : List Piece} {data : Bytes} {records : List Bytes}

theorem inHeader_append {pos : ℕ} {ps : List Piece} :
    InHeader t pos (ps ++ qs) ↔
      InHeader t pos ps ∨ InHeader t (pos + (ps.flatMap Piece.bytes).length) qs := by
  induction ps generalizing pos with
  | nil => simp [InHeader]
  | cons p ps ih =>
    rw [List.cons_append, InHeader, ih, InHeader, List.flatMap_cons, List.length_append,
      Nat.add_assoc, or_assoc]

/-- What starts behind the cut is not cut. -/
theorem not_inHeader_of_le {pos : ℕ} (h : t ≤ pos) (ps : List Piece) : ¬ InHeader t pos ps := by
  induction ps generalizing pos with
  | nil => exact id
  | cons p ps ih =>
    rintro (⟨-, hlt, -⟩ | hin)
    · omega
    · exact ih (by omega) hin

/-- What ends before the cut is not cut. -/
theorem not_inHeader_of_end {pos : ℕ} {ps : List Piece}
    (h : pos + (ps.flatMap Piece.bytes).length ≤ t) : ¬ InHeader t pos ps := by
  induction ps generalizing pos with
  | nil => exact id
  | cons p ps ih =>
    rw [List.flatMap_cons, List.length_append] at h
    rintro (⟨hstarts, -, hlt⟩ | hin)
    · cases p with
      | frag typ payload =>
        rw [length_bytes_frag] at h
        omega
      | pad n => exact hstarts
    · exact ih (by omega) hin

theorem inHeader_frag {pos : ℕ} {first last : Bool} {payload : Bytes} {ps : List Piece} :
    InHeader t pos (.frag (Writer.fragType first last) payload :: ps) ↔
      (first = true ∧ pos < t ∧ t < pos + headerSize) ∨
        InHeader t (pos + (headerSize + payload.length)) ps := by
  rw [InHeader, length_bytes_frag, fragType_startsRecord]

theorem inHeader_pad {pos n : ℕ} {ps : List Piece} :
    InHeader t pos (.pad n :: ps) ↔ InHeader t (pos + n) ps := by
  rw [InHeader, length_bytes_pad]
  exact or_iff_right fun hand => hand.1

theorem Fragments.not_inHeader_false (h : Fragments false data qs) (t pos : ℕ) :
    ¬ InHeader t pos qs := by
  generalize hfirst : false = first at h
  induction h generalizing pos with
  | last _ =>
    subst hfirst
    rw [inHeader_frag]
    simp [InHeader]
  | more _ _ ih =>
    subst hfirst
    rw [inHeader_frag]
    simpa using ih _ rfl
  | pad _ _ _ ih =>
    rw [inHeader_pad]
    exact ih _ hfirst

/-- A record that is cut inside its first header has not begun. -/
theorem Fragments.startedAt_of_inHeader (h : Fragments true data qs) {pos : ℕ}
    (hin : InHeader t pos qs) :
    startedAt t pos qs = 0 := by
  generalize hfirst : true = first at h
  induction h generalizing pos with
  | last _ =>
    rcases inHeader_frag.1 hin with ⟨-, -, hlt⟩ | hfalse
    · exact startedAt_eq_zero hlt _
    · exact hfalse.elim
  | more _ hb _ =>
    rcases inHeader_frag.1 hin with ⟨-, -, hlt⟩ | hrest
    · exact startedAt_eq_zero hlt _
    · exact absurd hrest (hb.not_inHeader_false _ _)
  | pad _ _ _ ih =>
    rw [startedAt_pad]
    exact ih (inHeader_pad.1 hin) hfirst

/-- In a log that is cut inside a header, no record has begun that is not complete. -/
theorem not_begun_of_inHeader {qss : List (List Piece)}
    (hqss : List.Forall₂ (Fragments true) records qss) {pos : ℕ}
    (hin : InHeader t pos qss.flatten) :
    ¬ completeAt t pos qss.flatten < startedAt t pos qss.flatten := by
  induction hqss generalizing pos with
  | nil => exact hin.elim
  | @cons record qs records qss hb _ ih =>
    rw [List.flatten_cons, inHeader_append] at hin
    rw [List.flatten_cons, completeAt_append, startedAt_append, hb.completeAt]
    by_cases hle : pos + (qs.flatMap Piece.bytes).length ≤ t
    · have hrest := ih (hin.resolve_left (not_inHeader_of_end hle))
      rw [if_pos hle, hb.startedAt_true hle]
      omega
    · have hqs := hin.resolve_right (not_inHeader_of_le (by omega) _)
      rw [hb.startedAt_of_inHeader hqs, startedAt_eq_zero (by omega)]
      omega

/-! ### Padding -/

/-- Zeros at the end of a block, behind `pos`, where `Append` has no room for a header. -/
def ZeroPadding (pos : ℕ) (zs : Bytes) : Prop :=
  zs = [] ∨ (blockSize < pos % blockSize + headerSize ∧
    pos % blockSize + zs.length ≤ blockSize ∧ ∀ z ∈ zs, z = 0)

private theorem not_zeroPadding_frag {pos : ℕ} {zs : Bytes} {typ : RecordType} {payload : Bytes}
    (hfits : (Piece.frag typ payload).Fits pos) (hne : 0 < zs.length) : ¬ ZeroPadding pos zs := by
  rw [Piece.Fits] at hfits
  rintro (rfl | ⟨hroom, -⟩)
  · exact absurd hne (Nat.lt_irrefl 0)
  · omega

section Frag

variable {pos : ℕ} {bs : Bytes} {last : Bool} {payload : Bytes} {ps : List Piece}

/-- Some bytes of a record that has not begun: they are a part of its first header. -/
private theorem pos_iff_inHeader
    (hbegun : startedAt (pos + bs.length) pos (.frag (Writer.fragType true last) payload :: ps)
      = 0) :
    0 < bs.length ↔
      InHeader (pos + bs.length) pos (.frag (Writer.fragType true last) payload :: ps) := by
  rw [startedAt_frag] at hbegun
  have hlt : bs.length < headerSize := by
    by_contra hge
    rw [if_pos ⟨rfl, by omega⟩] at hbegun
    omega
  rw [inHeader_frag]
  refine ⟨fun hpos => .inl ⟨rfl, by omega, by omega⟩, ?_⟩
  rintro (⟨-, hpos, -⟩ | hin)
  · omega
  · exact absurd hin (not_inHeader_of_le (by omega) _)

private theorem zeroPadding_frag_iff
    (hfits : (Piece.frag (Writer.fragType true last) payload).Fits pos)
    (hbegun : startedAt (pos + bs.length) pos (.frag (Writer.fragType true last) payload :: ps)
      = 0) :
    ZeroPadding pos bs ↔
      ¬ InHeader (pos + bs.length) pos (.frag (Writer.fragType true last) payload :: ps) := by
  rw [← pos_iff_inHeader hbegun]
  refine ⟨fun hpad hpos => not_zeroPadding_frag hfits hpos hpad, fun hnil => .inl ?_⟩
  exact List.eq_nil_of_length_eq_zero (by omega)

end Frag

/-- The beginning of a record whose first header is not all there: padding, unless there is a part
of the header. -/
theorem Fragments.zeroPadding_iff (h : Fragments true data qs) {bs : Bytes}
    (hbs : bs <+: qs.flatMap Piece.bytes) {pos : ℕ} (haligned : Aligned pos qs)
    (hbegun : startedAt (pos + bs.length) pos qs = 0) :
    ZeroPadding pos bs ↔ ¬ InHeader (pos + bs.length) pos qs := by
  cases h with
  | last _ | more _ _ => exact zeroPadding_frag_iff haligned.1 hbegun
  | @pad _ _ ps n hpos hlt hps =>
    have hfits := haligned.1
    rw [Piece.Fits] at hfits
    have hheader : headerSize = 7 := rfl
    have hsize : blockSize = 32768 := rfl
    rw [startedAt_pad] at hbegun
    rw [inHeader_pad]
    by_cases hle : bs.length ≤ n
    · -- the cut is inside the padding
      refine iff_of_true (.inr ⟨by omega, by omega, ?_⟩) (not_inHeader_of_le (by omega) _)
      rw [List.flatMap_cons] at hbs
      have hpre : bs <+: List.replicate n 0 :=
        List.prefix_of_prefix_length_le hbs (List.prefix_append _ _) (by simpa [Piece.bytes])
      exact fun z hz => List.eq_of_mem_replicate (hpre.subset hz)
    · -- it is behind it, where a block begins: there is no padding there
      have hzero : (pos + n) % blockSize = 0 := by
        rw [← Nat.div_add_mod pos blockSize, Nat.add_assoc, hfits, Nat.mul_add_mod_self_left,
          Nat.mod_self]
      have haligned' : Aligned (pos + n) ps := by
        have := haligned.2
        rwa [length_bytes_pad] at this
      have hsplit : pos + bs.length = pos + n + (bs.drop n).length := by
        rw [List.length_drop]
        omega
      have hcut : 0 < (bs.drop n).length := by
        rw [List.length_drop]
        omega
      refine iff_of_false ?_ (not_not.2 ?_)
      · rintro (rfl | ⟨-, hroom, -⟩)
        · simp at hle
        · omega
      · rw [hsplit] at hbegun ⊢
        cases hps with
        | last _ => exact (pos_iff_inHeader hbegun).1 hcut
        | more _ _ => exact (pos_iff_inHeader hbegun).1 hcut
        | pad _ hlt' _ =>
          have hfits' := haligned'.1
          rw [Piece.Fits] at hfits'
          omega

/-- **The log up to the cut**, when no record is cut behind its first header: the complete records,
and something that is padding unless it has a part of a header. -/
theorem cut_eq_complete_append {qss : List (List Piece)}
    (hqss : List.Forall₂ (Fragments true) records qss) {pos : ℕ} (k : ℕ)
    (haligned : Aligned pos qss.flatten)
    (hbegun : ¬ completeAt (pos + k) pos qss.flatten < startedAt (pos + k) pos qss.flatten) :
    ∃ zs, (qss.flatten.flatMap Piece.bytes).take k =
        (qss.take (completeAt (pos + k) pos qss.flatten)).flatten.flatMap Piece.bytes ++ zs ∧
      (ZeroPadding (pos + ((qss.take (completeAt (pos + k) pos qss.flatten)).flatten.flatMap
          Piece.bytes).length) zs ↔ ¬ InHeader (pos + k) pos qss.flatten) := by
  induction hqss generalizing pos k with
  | nil => exact ⟨[], by simp, iff_of_true (.inl rfl) id⟩
  | @cons record qs records qss hb _ ih =>
    rw [List.flatten_cons, aligned_append] at haligned
    rw [List.flatten_cons, completeAt_append, startedAt_append, hb.completeAt] at hbegun
    rw [List.flatten_cons, completeAt_append, hb.completeAt, List.flatMap_append, inHeader_append]
    by_cases hin : (qs.flatMap Piece.bytes).length ≤ k
    · -- the record is before the cut
      have hpos : pos + k = pos + (qs.flatMap Piece.bytes).length +
          (k - (qs.flatMap Piece.bytes).length) := by omega
      rw [if_pos (by omega), hb.startedAt_true (by omega)] at hbegun
      obtain ⟨zs, htake, hiff⟩ := ih (k - (qs.flatMap Piece.bytes).length) haligned.2
        (by rw [← hpos]; omega)
      rw [← hpos] at htake hiff
      rw [if_pos (by omega), Nat.add_comm 1, List.take_succ_cons, List.flatten_cons,
        List.flatMap_append, List.length_append, ← Nat.add_assoc]
      refine ⟨zs, ?_, hiff.trans (not_congr ?_)⟩
      · rw [List.take_append, List.take_of_length_le hin, htake, List.append_assoc]
      · exact (or_iff_right (not_inHeader_of_end (by omega))).symm
    · -- the cut is inside the record
      have hbehind : pos + k < pos + (qs.flatMap Piece.bytes).length + headerSize := by omega
      rw [if_neg (by omega), completeAt_eq_zero (by omega), startedAt_eq_zero hbehind] at hbegun
      rw [if_neg (by omega), completeAt_eq_zero (by omega), Nat.add_zero, List.take_zero]
      have hlen : ((qs.flatMap Piece.bytes).take k).length = k := by
        rw [List.length_take]
        omega
      refine ⟨(qs.flatMap Piece.bytes).take k, ?_, ?_⟩
      · rw [List.take_append_of_le_length (by omega)]
        rfl
      · have hiff := hb.zeroPadding_iff (List.take_prefix k _) haligned.1 (by rw [hlen]; omega)
        rw [hlen] at hiff
        refine hiff.trans (not_congr ?_)
        exact (or_iff_left (not_inHeader_of_le (by omega) _)).symm

/-! ### What is left in the log -/

/-- The log is what `Append` lays out on a new file for the batches that were recovered, followed by
nothing but zero padding. -/
def NoTornBytes (res : RecoveryResult) (d : LogDir) : Prop :=
  ∃ zs, d.log = some ((encoded (res.batches.map Batch.encode)).bytes ++ zs) ∧
    ZeroPadding (encoded (res.batches.map Batch.encode)).bytes.length zs

/-- **A log says which records it begins with.** -/
theorem encoded_append_inj {records' : List Bytes} {X X' : Bytes}
    (hlen : records.length = records'.length)
    (h : (encoded records).bytes ++ X = (encoded records').bytes ++ X') : records = records' := by
  have hread : ∀ (records : List Bytes) (X : Bytes),
      (Reader.new ((encoded records).bytes ++ X)).readRecords records.length = (records, none) := by
    intro records X
    have hat := Reader.at_new ((encoded records).bytes ++ X)
    nth_rewrite 2 [encoded_bytes] at hat
    obtain ⟨r', -, hread⟩ :=
      hat.readRecords_append (holds_encoded records) (aligned_encoded records)
    rw [← Nat.add_zero records.length, hread, Reader.readRecords, List.append_nil]
  have hread' := hread records' X'
  rw [← h, ← hlen, hread] at hread'
  exact (Prod.mk.inj hread').1

/-- The records are decoded, all of them, or one of them is not. -/
private theorem decodable_or (records : List Bytes) :
    (∃ bs, List.Forall₂ (fun record b => decodeBatch record = .ok b) records bs ∧
        ¬ ∃ record ∈ records, ∃ e, decodeBatch record = .error e) ∨
      ∃ record ∈ records, ∃ e, decodeBatch record = .error e := by
  induction records with
  | nil => exact .inl ⟨[], .nil, by simp⟩
  | cons record records ih =>
    rcases hdecode : decodeBatch record with e | b
    · exact .inr ⟨record, List.mem_cons_self, e, hdecode⟩
    · rcases ih with ⟨bs, hbs, hnone⟩ | ⟨record', hmem, he⟩
      · refine .inl ⟨b :: bs, .cons hdecode hbs, ?_⟩
        rintro ⟨record', hmem, e, he⟩
        rcases List.mem_cons.1 hmem with rfl | hmem
        · rw [hdecode] at he
          cases he
        · exact hnone ⟨record', hmem, e, he⟩
      · exact .inr ⟨record', List.mem_cons_of_mem _ hmem, he⟩

/-- The batches that were decoded are encoded to the same records. -/
private theorem map_encode_eq_iff {batches bs : List Batch}
    (h : List.Forall₂ (fun b b' => decodeBatch b.encode = .ok b') batches bs) :
    bs.map Batch.encode = batches.map Batch.encode ↔
      ∀ b ∈ batches, ∀ b', decodeBatch b.encode = .ok b' → b'.encode = b.encode := by
  induction h with
  | nil => simp
  | @cons b b' batches bs hb _ ih =>
    rw [List.map_cons, List.map_cons, List.cons.injEq, ih, List.forall_mem_cons]
    refine and_congr_left fun _ => ⟨fun heq b'' hb'' => ?_, fun hall => hall b' hb⟩
    rw [hb] at hb''
    rwa [← Except.ok.inj hb'']

private theorem noTornBytes_unchanged {batches bs : List Batch} {L : LogFile}
    (hL : L = encoded (batches.map Batch.encode))
    (hbs : List.Forall₂ (fun b b' => decodeBatch b.encode = .ok b')
      (batches.take (completeAt t 0 L.pieces)) bs)
    (hbegun : ¬ completeAt t 0 L.pieces < startedAt t 0 L.pieces) :
    (∃ zs, L.bytes.take t = (encoded (bs.map Batch.encode)).bytes ++ zs ∧
        ZeroPadding (encoded (bs.map Batch.encode)).bytes.length zs) ↔
      (∀ b ∈ batches.take (completeAt t 0 L.pieces), ∀ b', decodeBatch b.encode = .ok b' →
        b'.encode = b.encode) ∧ ¬ InHeader t 0 L.pieces := by
  obtain ⟨qss, hqss, htake⟩ := encoded_pieces (batches.map Batch.encode)
  have hpieces : L.pieces = qss.flatten := by
    have hall := htake (batches.map Batch.encode).length
    rwa [List.take_length, hqss.length_eq, List.take_length, ← hL] at hall
  have haligned : Aligned 0 L.pieces := hL ▸ aligned_encoded _
  have hbytes : L.bytes = L.pieces.flatMap Piece.bytes := hL ▸ encoded_bytes _
  rw [hpieces] at haligned hbegun
  obtain ⟨zs, hcut, hpad⟩ := cut_eq_complete_append hqss t haligned (by rwa [Nat.zero_add])
  simp only [Nat.zero_add, ← hpieces, ← hbytes, ← htake, ← encoded_bytes,
    ← List.map_take] at hcut hpad
  rw [← map_encode_eq_iff hbs, ← hpad]
  constructor
  · rintro ⟨zs', hzs', hpad'⟩
    have hsame : bs.map Batch.encode =
        (batches.take (completeAt t 0 L.pieces)).map Batch.encode := by
      refine encoded_append_inj ?_ (hzs'.symm.trans hcut)
      rw [List.length_map, List.length_map, hbs.length_eq]
    rw [hsame] at hzs' hpad'
    refine ⟨hsame, ?_⟩
    rwa [List.append_cancel_left (hcut.symm.trans hzs')]
  · rintro ⟨hsame, hpadding⟩
    rw [hsame]
    exact ⟨zs, hcut, hpadding⟩

/-- When `Recover` finds something wrong with a log that was cut. -/
private theorem recoverLoop_corrupted_iff {batches : List Batch} {t : ℕ} {L : LogFile}
    (hL : L = encoded (batches.map Batch.encode)) :
    ((recoverLoop (Reader.new (L.bytes.take t))).2 = true ↔
      (∃ b ∈ batches.take (completeAt t 0 L.pieces), ∃ e, decodeBatch b.encode = .error e) ∨
        completeAt t 0 L.pieces < startedAt t 0 L.pieces) ∧
    ((recoverLoop (Reader.new (L.bytes.take t))).2 = false →
      List.Forall₂ (fun b b' => decodeBatch b.encode = .ok b')
        (batches.take (completeAt t 0 L.pieces))
        (recoverLoop (Reader.new (L.bytes.take t))).1) := by
  obtain ⟨qss, hqss, hpieces⟩ := holds_encoded (batches.map Batch.encode)
  have haligned := aligned_encoded (batches.map Batch.encode)
  have hat := Reader.at_new (L.bytes.take t)
  nth_rewrite 2 [hL] at hat
  rw [encoded_bytes] at hat
  rw [hpieces] at haligned hat
  obtain ⟨hok, herr⟩ := recoverLoop_of_end hqss t hat haligned
  rw [Nat.zero_add, ← hpieces, ← hL, ← List.map_take] at hok herr
  rcases decodable_or ((batches.take (completeAt t 0 L.pieces)).map Batch.encode) with
    ⟨bs, hbs, hnone⟩ | ⟨record, hmem, e, he⟩
  · have hloop := hok bs hbs
    rw [List.forall₂_map_left_iff] at hbs
    rw [hloop]
    refine ⟨?_, fun _ => hbs⟩
    rw [decide_eq_true_iff]
    refine (or_iff_right ?_).symm
    rintro ⟨b, hb, e, he⟩
    exact hnone ⟨b.encode, List.mem_map_of_mem hb, e, he⟩
  · have hloop := herr ⟨record, hmem, e, he⟩
    obtain ⟨b, hb, rfl⟩ := List.mem_map.1 hmem
    rw [hloop]
    exact ⟨iff_of_true rfl (.inl ⟨b, hb, e, he⟩), nofun⟩

/-- **Recovery leaves no torn bytes, unless the cut is inside a header.** A log is written in one go
on a new file and cut at `t`, and `Recover` succeeds on it. If one of the complete records cannot be
decoded, or another record is cut behind its first header, the log is rewritten and nothing else is
left. Otherwise nothing torn is left exactly when the complete records are encoded again as they
were, and the cut is not inside a header. When all lengths fit 32 bits, this is all that counts. -/
theorem noTornBytes_iff {batches : List Batch} {t : ℕ} {L : LogFile} {faults : List Bool}
    {res : RecoveryResult} {d : LogDir}
    (hL : L = encoded (batches.map Batch.encode))
    (h : recover faults ⟨some (L.bytes.take t), none⟩ = (.ok res, d)) :
    (NoTornBytes res d ↔
      (∃ b ∈ batches.take (completeAt t 0 L.pieces), ∃ e, decodeBatch b.encode = .error e) ∨
      completeAt t 0 L.pieces < startedAt t 0 L.pieces ∨
      ((∀ b ∈ batches.take (completeAt t 0 L.pieces), ∀ b', decodeBatch b.encode = .ok b' →
        b'.encode = b.encode) ∧ ¬ InHeader t 0 L.pieces)) ∧
    ((∀ b ∈ batches, b.Fits) → (NoTornBytes res d ↔ ¬ InHeader t 0 L.pieces)) := by
  obtain ⟨hcorrupted, hdecoded⟩ := @recoverLoop_corrupted_iff batches t L hL
  have hiff : NoTornBytes res d ↔ (recoverLoop (Reader.new (L.bytes.take t))).2 = true ∨
      ((∀ b ∈ batches.take (completeAt t 0 L.pieces), ∀ b', decodeBatch b.encode = .ok b' →
        b'.encode = b.encode) ∧ ¬ InHeader t 0 L.pieces) := by
    rw [recover] at h
    dsimp only at h
    split at h
    · -- the log is rewritten
      rename_i hbad
      split at h
      · cases h
      · rename_i w hrewrite
        cases h
        refine iff_of_true ⟨[], ?_, .inl rfl⟩ (.inl hbad)
        rw [rewrite_file hrewrite, List.append_nil]
        rfl
    · rename_i hgood
      cases h
      have hbegun := fun hlt => hgood (hcorrupted.2 (.inr hlt))
      rw [or_iff_right hgood, NoTornBytes,
        ← noTornBytes_unchanged hL (hdecoded (Bool.eq_false_of_not_eq_true hgood)) hbegun]
      simp only [Option.some.injEq]
  rw [hiff, hcorrupted, or_assoc]
  refine ⟨Iff.rfl, fun hfits => ⟨?_, fun hout => .inr (.inr ⟨?_, hout⟩)⟩⟩
  · obtain ⟨qss, hqss, hpieces⟩ := holds_encoded (batches.map Batch.encode)
    rw [← hL] at hpieces
    rintro (⟨b, hb, e, he⟩ | hbegun | ⟨-, hout⟩) hin
    · have hbfits := hfits b (List.mem_of_mem_take hb)
      rw [decodeBatch_encode hbfits.1 hbfits.2] at he
      cases he
    · rw [hpieces] at hin hbegun
      exact not_begun_of_inHeader hqss hin hbegun
    · exact hout hin
  · exact fun b hb b' hb' => (hfits b (List.mem_of_mem_take hb)).encode_decoded hb'

/-- A log of one put, cut behind its header: it is rewritten to the empty log. -/
theorem noTornBytes_cut_behind_header :
    ∃ res d, recover [] ⟨some ((encoded [Batch.encode ⟨[⟨opPut, [1], some [2]⟩]⟩]).bytes.take 9),
      none⟩ = (.ok res, d) ∧ NoTornBytes res d := by
  obtain ⟨res, hres, -⟩ := recover_noFaults
    ((encoded [Batch.encode ⟨[⟨opPut, [1], some [2]⟩]⟩]).bytes.take 9) none
  refine ⟨res, _, Prod.ext hres rfl, ?_⟩
  refine (@noTornBytes_iff [⟨[⟨opPut, [1], some [2]⟩]⟩] 9 _ [] res _ rfl (Prod.ext hres rfl)).1.2
    (.inr (.inl ?_))
  decide +kernel

/-- **A torn header is kept, and the next record is lost.** A log of one put is cut behind three
bytes, inside the header. `Recover` returns no batch and leaves the three bytes. A put that is then
logged behind them is not recovered. -/
theorem recover_keeps_torn_header :
    ∃ res d torn, recover [] ⟨some
        ((encoded [Batch.encode ⟨[⟨opPut, [1], some [2]⟩]⟩]).bytes.take 3), none⟩ = (.ok res, d) ∧
      res.batches = [] ∧ d.log = some torn ∧ torn.length = 3 ∧ ¬ NoTornBytes res d ∧
      recoverBatches (session (some ⟨torn, []⟩)
        [.append (Batch.encode ⟨[⟨opPut, [3], some [4]⟩]⟩)]).bytes = [] := by
  obtain ⟨res, hres, hread⟩ := recover_noFaults
    ((encoded [Batch.encode ⟨[⟨opPut, [1], some [2]⟩]⟩]).bytes.take 3) none
  have hnone : res.batches = [] := hread.trans (by decide +kernel)
  have hlog : (recover [] ⟨some
      ((encoded [Batch.encode ⟨[⟨opPut, [1], some [2]⟩]⟩]).bytes.take 3), none⟩).2.log =
        some ((encoded [Batch.encode ⟨[⟨opPut, [1], some [2]⟩]⟩]).bytes.take 3) := by
    decide +kernel
  have hlen : ((encoded [Batch.encode ⟨[⟨opPut, [1], some [2]⟩]⟩]).bytes.take 3).length = 3 := by
    decide +kernel
  refine ⟨res, _, _, Prod.ext hres rfl, hnone, hlog, hlen, ?_, by decide +kernel⟩
  rintro ⟨zs, hzs, hpad⟩
  rw [hlog, hnone] at hzs
  rw [hnone] at hpad
  have hempty : (encoded ([].map Batch.encode)).bytes = [] := rfl
  rw [hempty, List.nil_append, Option.some.injEq] at hzs
  rw [hempty, ← hzs] at hpad
  rcases hpad with hnil | ⟨hroom, -⟩
  · rw [hnil] at hlen
    cases hlen
  · exact absurd hroom (by decide)

end Stratum.Wal
