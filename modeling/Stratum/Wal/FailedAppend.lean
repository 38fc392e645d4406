import Stratum.Wal.Layout
import Stratum.Wal.Recover

/-!
# An `Append` that fails

A write to the file can fail without writing anything, and `Append` then returns the error. The
writer goes on: the block stays full, and the next `Append` tries to write it out once more. So an
`Append` that fails **before** its first fragment leaves nothing but padding, and the log is as if
it had not been called.

But between two fragments of one record the first of them is in the block already, and nobody takes
it out. The reader finds the beginning of a record there, and behind it, instead of its rest, the
beginning of another record (`ErrCorruptRecord`) or the end of the file (`ErrShortRecord`). It does
not come to the records behind it.

* `Attempts accepted clean ps`: the pieces `ps` are those of some `Append`s, of which the accepted
  ones returned nil; `clean` says that none of the others left a fragment.
* **`reads_accepted_iff`**: the log gives back just the records whose `Append` returned nil, exactly
  when no `Append` failed behind a fragment of its own.
-/

namespace Stratum.Wal

open ByteCodec

/-- A physical record, not padding. -/
def Piece.isFrag (p : Piece) : Bool := p.span.isFrag

namespace Writer

/-- `NewWriter` on a file that is created, with the outcomes of the writes to come. -/
def create (faults : List Bool) : Writer := { Writer.new none with faults := faults }

/-- `Append` for one record after the other, whatever it returns; and the records for which it
returned nil. -/
def appendEach : Writer → List Bytes → Writer × List Bytes
  | w, [] => (w, [])
  | w, record :: records =>
    match w.append record with
    | (w', some _) => w'.appendEach records
    | (w', none) => ((w'.appendEach records).1, record :: (w'.appendEach records).2)

theorem appendEach_of_ok {w w' : Writer} {record : Bytes} (h : w.append record = (w', none))
    (records : List Bytes) : w.appendEach (record :: records) =
      ((w'.appendEach records).1, record :: (w'.appendEach records).2) := by
  rw [appendEach, h]

theorem appendEach_of_error {w w' : Writer} {record : Bytes} {e : WalErr}
    (h : w.append record = (w', some e)) (records : List Bytes) :
    w.appendEach (record :: records) = w'.appendEach records := by
  rw [appendEach, h]

/-- `Append` fails, and a physical record of its own is in the block or in the file. -/
def leavesFragment (w : Writer) (record : Bytes) : Bool :=
  (w.append record).2.isSome &&
    ((w.append record).1.pieces.drop w.pieces.length).any Piece.isFrag

/-- No `Append` does. -/
def noneLeavesFragment : Writer → List Bytes → Bool
  | _, [] => true
  | w, record :: records =>
    !w.leavesFragment record && (w.append record).1.noneLeavesFragment records

end Writer

/-- **No write between two fragments fails**, when records of these lengths are appended from a
block with `fill` bytes on. A failing write before the first fragment ends the `Append` and leaves a
full block, which the next one writes out. -/
def noneFailsBetween : ℕ → List Bool → List ℕ → Bool
  | _, _, [] => true
  | fill, faults, n :: ns =>
    if (faults.take (writesBefore fill)).any id then noneFailsBetween blockSize faults.tail ns
    else
      !((faults.drop (writesBefore fill)).take (writesBetween fill n)).any id &&
        noneFailsBetween (fillAfter fill n)
          (faults.drop (writesBefore fill + writesBetween fill n)) ns

/-- A fragment is left by an `Append` that fails between two of them. -/
theorem Writer.noneLeavesFragment_eq {w : Writer} (hopen : w.closed = false)
    (hle : w.block.length ≤ blockSize) (records : List Bytes) :
    w.noneLeavesFragment records =
      noneFailsBetween w.block.length w.faults (records.map List.length) := by
  induction records generalizing w with
  | nil => rfl
  | cons record records ih =>
    have hopen' := (w.append_closed record).trans hopen
    have happend := append_of_open hopen record
    -- what is emitted, in terms of what the spans are
    have hany : ∀ {w' : Writer} {ss : List Span},
        w'.pieces.map Piece.span = w.pieces.map Piece.span ++ ss →
          (w'.pieces.drop w.pieces.length).any Piece.isFrag = ss.any Span.isFrag := by
      intro w' ss hss
      have hdrop := congrArg (List.drop w.pieces.length) hss
      rw [List.drop_left' (List.length_map _), ← List.map_drop] at hdrop
      rw [← hdrop, List.any_map]
      rfl
    rw [List.map_cons, noneLeavesFragment, noneFailsBetween, leavesFragment]
    rcases appendLoop_layout hle record true with ⟨hfault, w', hw', hblock, hfaults, hspans⟩ |
      ⟨hnone, hfault, w', ss, hw', -, -, hss, hspans⟩ |
      ⟨hnone, hok, w', hw', hblock, hle', hfaults, -⟩
    · rw [happend, hw'] at hopen' ⊢
      have hpadding : (padding w.block.length).any Span.isFrag = false := by
        rw [padding]
        split <;> rfl
      simp only [hfault, if_true, hany hspans, hpadding, Bool.and_false, Bool.not_false,
        Bool.true_and]
      rw [ih hopen' hblock.le, hblock, hfaults]
    · rw [happend, hw']
      simp [hnone, hfault, hany hspans, hss]
    · rw [happend, hw'] at hopen' ⊢
      simp only [hnone, hok, Option.isSome_none, Bool.false_and, Bool.not_false, Bool.true_and]
      rw [ih hopen' hle', hblock, hfaults]
      rfl

/-! ### What is emitted -/

/-- The pieces of a record that was not finished: some of its fragments, with padding before any of
them, and the last one missing. -/
inductive Unfinished : Bool → List Piece → Prop
  | nil {first} : Unfinished first []
  | more {first a ps} (h : Unfinished false ps) :
      Unfinished first (.frag (Writer.fragType first false) a :: ps)
  | pad {first ps n} (hpos : 0 < n) (hlt : n < headerSize) (h : Unfinished first ps) :
      Unfinished first (.pad n :: ps)

variable {w : Writer} {ps : List Piece} {records : List Bytes} {clean : Bool}

/-- **A record that fails is emitted in part.** -/
theorem Writer.appendLoop_pieces_of_error {w' : Writer} {record : Bytes} {first : Bool} {e : WalErr}
    (h : w.appendLoop record first = (w', some e)) :
    ∃ ps, Unfinished first ps ∧ w'.pieces = w.pieces ++ ps := by
  induction w, record, first using Writer.appendLoop.induct with
  | case1 w record first w₁ e hroom =>
    rw [appendLoop_of_makeRoom_error hroom] at h
    cases h
    obtain ⟨ps, hps, heq⟩ := makeRoom_append (fun _ _ => .pad) hroom (@Unfinished.nil first)
    exact ⟨ps, hps, by rw [← heq, List.append_nil]⟩
  | case2 w record first w₁ hroom hlast =>
    rw [appendLoop_of_makeRoom hroom, if_pos hlast] at h
    cases h
  | case3 w record first w₁ hroom hlast ih =>
    rw [appendLoop_of_makeRoom hroom, if_neg hlast] at h
    obtain ⟨ps, hps, heq⟩ := ih h
    obtain ⟨ps', hps', heq'⟩ :=
      makeRoom_append (fun _ _ => .pad) hroom (@Unfinished.more first (record.take w₁.avail) ps hps)
    refine ⟨ps', hps', ?_⟩
    rw [heq, ← heq']
    simp [put]

/-- The pieces of some `Append`s: the records of those that returned nil, and whether none of the
others left a fragment. -/
inductive Attempts : List Bytes → Bool → List Piece → Prop
  | nil : Attempts [] true []
  | accepted {record qs records clean ps} (hqs : Fragments true record qs)
      (h : Attempts records clean ps) : Attempts (record :: records) clean (qs ++ ps)
  | failed {qs records clean ps} (hqs : Unfinished true qs) (h : Attempts records clean ps) :
      Attempts records (!qs.any Piece.isFrag && clean) (qs ++ ps)

/-- **Run lemma**: the pieces of the `Append`s on an open writer, and what they keep. -/
theorem Writer.appendEach_attempts {w : Writer} (hopen : w.closed = false) (hblock : BlockInv w)
    (records : List Bytes) :
    (w.appendEach records).1.closed = false ∧ BlockInv (w.appendEach records).1 ∧
      ∃ ps, Attempts (w.appendEach records).2 (w.noneLeavesFragment records) ps ∧
        (w.appendEach records).1.pieces = w.pieces ++ ps := by
  induction records generalizing w with
  | nil => exact ⟨hopen, hblock, [], .nil, (List.append_nil _).symm⟩
  | cons record records ih =>
    have hopen' := (w.append_closed record).trans hopen
    have hblock' := hblock.appendLoop record true
    rw [← append_of_open hopen] at hblock'
    rcases happend : w.append record with ⟨w', err⟩
    rw [happend] at hopen' hblock'
    obtain ⟨hclosed, hinv, ps, hps, hpieces⟩ := ih hopen' hblock'
    have hloop := happend
    rw [append_of_open hopen] at hloop
    cases err with
    | none =>
      obtain ⟨qs, hqs, hqspieces⟩ := appendLoop_pieces hloop
      rw [appendEach_of_ok happend]
      simp only [noneLeavesFragment, leavesFragment, happend, Option.isSome_none, Bool.false_and,
        Bool.not_false, Bool.true_and]
      refine ⟨hclosed, hinv, qs ++ ps, .accepted hqs hps, ?_⟩
      rw [hpieces, hqspieces, List.append_assoc]
    | some e =>
      obtain ⟨qs, hqs, hqspieces⟩ := appendLoop_pieces_of_error hloop
      rw [appendEach_of_error happend]
      simp only [noneLeavesFragment, leavesFragment, happend, Option.isSome_some, Bool.true_and,
        hqspieces, List.drop_left' rfl]
      refine ⟨hclosed, hinv, qs ++ ps, .failed hqs hps, ?_⟩
      rw [hpieces, hqspieces, List.append_assoc]

/-! ### What is read -/

/-- Padding, and then nothing or the first physical record of a record. -/
inductive Fresh : List Piece → Prop
  | nil : Fresh []
  | pad {ps n} (hpos : 0 < n) (hlt : n < headerSize) (h : Fresh ps) : Fresh (.pad n :: ps)
  | frag {typ payload ps} (htyp : typ = recordFull ∨ typ = recordFirst) :
      Fresh (.frag typ payload :: ps)

theorem Fragments.fresh_append {data : Bytes} {qs : List Piece} (h : Fragments true data qs)
    (ps : List Piece) : Fresh (qs ++ ps) := by
  generalize hfirst : true = first at h
  induction h with
  | last _ => exact .frag (hfirst ▸ .inl rfl)
  | more _ _ _ => exact .frag (hfirst ▸ .inr rfl)
  | pad hpos hlt _ ih => exact .pad hpos hlt (ih hfirst)

theorem Unfinished.fresh_append {qs : List Piece} (h : Unfinished true qs) (hps : Fresh ps) :
    Fresh (qs ++ ps) := by
  generalize hfirst : true = first at h
  induction h with
  | nil => exact hps
  | more _ _ => exact .frag (hfirst ▸ .inr rfl)
  | pad hpos hlt _ ih => exact .pad hpos hlt (ih hfirst)

theorem Attempts.fresh (h : Attempts records clean ps) : Fresh ps := by
  induction h with
  | nil => exact .nil
  | accepted hqs _ _ => exact hqs.fresh_append _
  | failed hqs _ ih => exact hqs.fresh_append ih

namespace Reader

variable {r : Reader} {pos : ℕ} {ps : List Piece}

/-- Padding is skipped, or ends the log. -/
theorem At.readLoop_pad_or_end {n : ℕ} {tail : Bytes} (h : r.At pos ((Piece.pad n).bytes ++ tail))
    (hfits : (Piece.pad n).Fits pos) (hpos : 0 < n) (hlt : n < headerSize) :
    (tail = [] ∧ ∀ record inFragmentedRecord, (r.readLoop record inFragmentedRecord).2 =
      .error (if inFragmentedRecord then .shortRecord else .eof)) ∨
    ∃ r' : Reader, r'.At (pos + n) tail ∧ ∀ record inFragmentedRecord,
      r.readLoop record inFragmentedRecord = r'.readLoop record inFragmentedRecord := by
  by_cases hnil : tail = []
  · subst hnil
    rw [List.append_nil] at h
    rw [Piece.Fits] at hfits
    refine .inl ⟨rfl, h.readLoop_few ?_ ?_⟩
    · rw [length_bytes_pad]
      omega
    · rwa [length_bytes_pad]
  · obtain ⟨r', hat, hread⟩ := h.readLoop_pad hfits hpos hlt hnil
    rw [length_bytes_pad] at hat
    exact .inr ⟨r', hat, hread⟩

/-- **Inside a record, the beginning of another one is an error**, and so is the end of the file. -/
theorem At.readLoop_fresh (hps : Fresh ps) (h : r.At pos (ps.flatMap Piece.bytes))
    (haligned : Aligned pos ps) (record : Bytes) :
    ∃ e, e ≠ .eof ∧ (r.readLoop record true).2 = .error e := by
  induction hps generalizing r pos with
  | nil => exact ⟨.shortRecord, by simp, h.readLoop_nil record true⟩
  | @pad ps n hpos hlt _ ih =>
    rw [List.flatMap_cons] at h
    obtain ⟨-, hend⟩ | ⟨r', hat, hread⟩ := h.readLoop_pad_or_end haligned.1 hpos hlt
    · exact ⟨.shortRecord, by simp, hend record true⟩
    · have hrest := haligned.2
      rw [length_bytes_pad] at hrest
      rw [hread]
      exact ih hat hrest
  | @frag typ payload ps htyp =>
    rw [List.flatMap_cons] at h
    have hne : typ ≠ 0 := by rcases htyp with rfl | rfl <;> decide
    obtain ⟨r', -, hread⟩ := h.readLoop_frag haligned.1 hne
    refine ⟨.corruptRecord, by simp, ?_⟩
    rw [hread, accept, if_neg (by simp), if_neg (by rcases htyp with rfl | rfl <;> decide),
      if_neg (by rcases htyp with rfl | rfl <;> decide)]

/-- **A record that was not finished is an error**, once a fragment of it was read. -/
theorem At.readLoop_unfinished {first : Bool} {qs : List Piece} (hqs : Unfinished first qs)
    (hfrag : first = true → qs.any Piece.isFrag = true) (hps : Fresh ps)
    (h : r.At pos ((qs ++ ps).flatMap Piece.bytes)) (haligned : Aligned pos (qs ++ ps))
    (record : Bytes) :
    ∃ e, e ≠ .eof ∧ (r.readLoop record (!first)).2 = .error e := by
  induction hqs generalizing r pos record with
  | @nil first =>
    cases first with
    | false => exact h.readLoop_fresh hps haligned record
    | true => exact absurd (hfrag rfl) (by simp)
  | @more first a qs _ ih =>
    rw [List.cons_append, List.flatMap_cons] at h
    obtain ⟨r', hat, hread⟩ := h.readLoop_frag haligned.1 (Writer.fragType_ne_zero _ _)
    rw [hread, accept_more]
    exact ih nofun hat haligned.2 (record ++ a)
  | @pad first qs n hpos hlt _ ih =>
    rw [List.cons_append, List.flatMap_cons] at h
    have hfrag' : first = true → qs.any Piece.isFrag = true := hfrag
    obtain ⟨hnil, hend⟩ | ⟨r', hat, hread⟩ := h.readLoop_pad_or_end haligned.1 hpos hlt
    · cases first with
      | false => exact ⟨.shortRecord, by simp, hend record true⟩
      | true =>
        -- a fragment is to come, so the log does not end here
        obtain ⟨p, hp, hp'⟩ := List.any_eq_true.1 (hfrag' rfl)
        have hp := List.flatMap_eq_nil_iff.1 hnil p (List.mem_append_left _ hp)
        cases p with
        | frag typ payload =>
          have hlen := congrArg List.length hp
          simp [headerSize] at hlen
        | pad n => cases hp'
    · have hrest := haligned.2
      rw [length_bytes_pad] at hrest
      rw [hread]
      exact ih hfrag' hat hrest record

/-- What an `Append` left that failed before its first fragment is skipped, or ends the log. -/
theorem At.readLoop_skip {first : Bool} {qs : List Piece} (hqs : Unfinished first qs)
    (hnone : qs.any Piece.isFrag = false) (h : r.At pos ((qs ++ ps).flatMap Piece.bytes))
    (haligned : Aligned pos (qs ++ ps)) :
    (ps.flatMap Piece.bytes = [] ∧ r.readRecord.2 = .error .eof) ∨
      ∃ r' : Reader, ∃ pos', r'.At pos' (ps.flatMap Piece.bytes) ∧ Aligned pos' ps ∧
        r.readRecord = r'.readRecord := by
  induction hqs generalizing r pos with
  | nil => exact .inr ⟨r, pos, h, haligned, rfl⟩
  | more _ _ => cases hnone
  | @pad first qs n hpos hlt _ ih =>
    rw [List.cons_append, List.flatMap_cons] at h
    obtain ⟨hnil, hend⟩ | ⟨r', hat, hread⟩ := h.readLoop_pad_or_end haligned.1 hpos hlt
    · rw [List.flatMap_append, List.append_eq_nil_iff] at hnil
      exact .inl ⟨hnil.2, hend [] false⟩
    · have hrest := haligned.2
      rw [length_bytes_pad] at hrest
      rw [readRecord, hread, ← readRecord]
      exact ih hnone hat hrest

end Reader

/-- Nothing was accepted, and no fragment was left, when there is nothing in the log. -/
theorem Attempts.of_bytes_nil (h : Attempts records clean ps) (hnil : ps.flatMap Piece.bytes = []) :
    records = [] ∧ clean = true := by
  induction h with
  | nil => exact ⟨rfl, rfl⟩
  | accepted hqs _ _ =>
    rw [List.flatMap_append, List.append_eq_nil_iff] at hnil
    exact absurd hnil.1 hqs.bytes_ne_nil
  | @failed qs records clean ps hqs _ ih =>
    rw [List.flatMap_append, List.append_eq_nil_iff] at hnil
    have hnone : qs.any Piece.isFrag = false := by
      rw [List.any_eq_false]
      intro p hp hfrag
      have hbytes := List.flatMap_eq_nil_iff.1 hnil.1 p hp
      cases p with
      | frag typ payload =>
        have hlen := congrArg List.length hbytes
        simp [headerSize] at hlen
      | pad n => cases hfrag
    obtain ⟨hrecords, hclean⟩ := ih hnil.2
    exact ⟨hrecords, by rw [hnone, hclean]; rfl⟩

/-- **Reading what the `Append`s left.** -/
theorem Attempts.readRecords_iff (hps : Attempts records clean ps) {r : Reader} {pos : ℕ}
    (h : r.At pos (ps.flatMap Piece.bytes)) (haligned : Aligned pos ps) :
    r.readRecords (records.length + 1) = (records, some .eof) ↔ clean = true := by
  induction hps generalizing r pos with
  | nil => exact iff_of_true (Reader.readRecords_of_error h.readRecord_nil 0) rfl
  | @accepted record qs records clean ps hqs _ ih =>
    rw [List.flatMap_append] at h
    rw [aligned_append] at haligned
    obtain ⟨r', hread, hat⟩ := h.readLoop_fragments hqs haligned.1 []
    rw [List.nil_append, Bool.not_true, ← Reader.readRecord] at hread
    rw [List.length_cons, Reader.readRecords, hread, ← ih hat haligned.2]
    simp only [Prod.mk.injEq, List.cons.injEq, true_and]
    exact (Prod.ext_iff (x := r'.readRecords (records.length + 1)) (y := (records, some .eof))).symm
  | @failed qs records clean ps hqs hps ih =>
    by_cases hfrag : qs.any Piece.isFrag = true
    · -- the reader stops inside the record
      obtain ⟨e, hne, he⟩ :=
        h.readLoop_unfinished hqs (fun _ => hfrag) hps.fresh haligned []
      refine iff_of_false ?_ (by simp [hfrag])
      rw [Reader.readRecords_of_error he]
      intro heq
      exact hne (Option.some.inj (Prod.mk.inj heq).2)
    · have hnone := Bool.eq_false_of_not_eq_true hfrag
      rw [hnone, Bool.not_false, Bool.true_and]
      obtain ⟨hnil, heof⟩ | ⟨r', pos', hat, haligned', hread⟩ :=
        h.readLoop_skip hqs hnone haligned
      · obtain ⟨rfl, hclean⟩ := hps.of_bytes_nil hnil
        exact iff_of_true (Reader.readRecords_of_error heof 0) hclean
      · rw [← ih hat haligned', Reader.readRecords, Reader.readRecords, hread]

/-- A writer that is closed without an error leaves its pieces in the file. -/
theorem Writer.close_file {w' : Writer} (hopen : w.closed = false) (hblock : BlockInv w)
    (h : w.close = (w', none)) : w'.file = w.pieces.flatMap Piece.bytes := by
  rw [close, if_neg (by simp [hopen])] at h
  obtain ⟨-, hfile, -, -⟩ := flushBlock_cases h
  rw [hfile]
  exact hblock.disk.bytes_eq

/-- **A failed `Append` has no effect, unless it fails between two fragments.** Some records are
appended to a new log, any writes may fail, and `Close` succeeds. Reading the file returns exactly
the records whose `Append` returned nil, in order, and then the end of the file, if and only if no
block write that fails is one between two fragments of a record. -/
theorem reads_accepted_iff {faults : List Bool} {records : List Bytes} {w' : Writer}
    (hclose : ((Writer.create faults).appendEach records).1.close = (w', none)) :
    (Reader.new w'.file).readRecords (((Writer.create faults).appendEach records).2.length + 1) =
        (((Writer.create faults).appendEach records).2, some .eof) ↔
      noneFailsBetween 0 faults (records.map List.length) = true := by
  obtain ⟨hopen, hblock, ps, hps, hpieces⟩ :=
    @Writer.appendEach_attempts (Writer.create faults) rfl (.new faults) records
  rw [@Writer.noneLeavesFragment_eq (Writer.create faults) rfl (Nat.zero_le _)] at hps
  have hfile := Writer.close_file hopen hblock hclose
  have haligned := hblock.aligned
  rw [hpieces] at hfile haligned
  exact hps.readRecords_iff (hfile ▸ Reader.at_new w'.file) haligned

/-- Without a failing write the record is accepted, and `Close` succeeds. -/
private theorem appendEach_noFaults (hopen : w.closed = false) (hfaults : w.faults = [])
    (record : Bytes) :
    ∃ w', w.appendEach [record] = (w', [record]) ∧ w'.close = (w'.close.1, none) := by
  obtain ⟨hok, hfaults'⟩ := Writer.appendLoop_noFaults hfaults record true
  have hopen' := (w.appendLoop_closed record true).trans hopen
  rcases happend : w.appendLoop record true with ⟨w', e⟩
  rw [happend] at hok hfaults' hopen'
  obtain rfl : e = none := hok
  rw [← Writer.append_of_open hopen] at happend
  refine ⟨w', Writer.appendEach_of_ok happend [], Prod.ext rfl ?_⟩
  rw [Writer.close, if_neg (Bool.not_eq_true _ ▸ hopen')]
  exact (@Writer.flushBlock_noFaults { w' with closed := true } hfaults').1

/-- A record that fills the block, one whose `Append` fails when that block is written out, and one
whose `Append` tries again. -/
private theorem appendEach_full {big : Bytes} (hbig : big.length = 32761) :
    ∃ w, (Writer.create [true]).appendEach [big, [1], [2]] = (w, [big, [2]]) ∧
      w.close = (w.close.1, none) := by
  have h₁ := @Writer.appendLoop_layout (.create [true]) (Nat.zero_le _) big true
  have hopen₁ := (Writer.create [true]).append_closed big
  rw [hbig] at h₁
  obtain ⟨h, -⟩ | ⟨-, h, -⟩ | ⟨-, -, w₁, hw₁, hfill₁, hle₁, hfaults₁, -⟩ := h₁
  · exact absurd h (by decide)
  · exact absurd h (by decide)
  rw [← Writer.append_of_open rfl] at hw₁
  rw [hw₁] at hopen₁
  have h₂ := w₁.appendLoop_layout hle₁ [1] true
  have hopen₂ := w₁.append_closed [1]
  rw [hfill₁, hfaults₁] at h₂
  obtain ⟨-, w₂, hw₂, -, hfaults₂, -⟩ | ⟨h, -⟩ | ⟨h, -⟩ := h₂
  · rw [← Writer.append_of_open hopen₁] at hw₂
    rw [hw₂] at hopen₂
    obtain ⟨w₃, hw₃, hclose⟩ := appendEach_noFaults (hopen₂.trans hopen₁) hfaults₂ [2]
    exact ⟨w₃, by rw [Writer.appendEach_of_ok hw₁, Writer.appendEach_of_error hw₂, hw₃], hclose⟩
  · exact absurd h (by decide)
  · exact absurd h (by decide)

/-- The second `Append` fails and has no effect. -/
theorem reads_accepted_full :
    ∃ w', ((Writer.create [true]).appendEach [List.replicate 32761 0, [1], [2]]).1.close =
        (w', none) ∧
      (Reader.new w'.file).readRecords 3 = ([List.replicate 32761 0, [2]], some .eof) := by
  obtain ⟨big, hbig, hlen⟩ : ∃ big : Bytes, big = List.replicate 32761 0 ∧ big.length = 32761 :=
    ⟨_, rfl, List.length_replicate⟩
  rw [← hbig]
  obtain ⟨w, heach, hclose⟩ := appendEach_full hlen
  have hclose : ((Writer.create [true]).appendEach [big, [1], [2]]).1.close =
      (w.close.1, none) := by rwa [heach]
  have hnone : noneFailsBetween 0 [true] ([big, [1], [2]].map List.length) = true := by
    rw [List.map_cons, hlen]
    decide
  have hread := (reads_accepted_iff hclose).2 hnone
  rw [heach] at hread
  exact ⟨_, hclose, hread⟩

/-- A record that does not fit a block, and one that does: only the second is accepted. -/
private theorem appendEach_between {big : Bytes} (hbig : big.length = 32762) :
    ∃ w, (Writer.create [true]).appendEach [big, [1]] = (w, [[1]]) ∧
      w.close = (w.close.1, none) := by
  have h₁ := @Writer.appendLoop_layout (.create [true]) (Nat.zero_le _) big true
  have hopen := (Writer.create [true]).append_closed big
  rw [hbig] at h₁
  obtain ⟨h, -⟩ | ⟨-, -, w₁, -, hw₁, -, hfewer, -⟩ | ⟨-, h, -⟩ := h₁
  · exact absurd h (by decide)
  · rw [← Writer.append_of_open rfl] at hw₁
    rw [hw₁] at hopen
    obtain ⟨w₂, hw₂, hclose⟩ := appendEach_noFaults hopen
      (List.eq_nil_of_length_eq_zero (Nat.lt_one_iff.1 hfewer)) [1]
    exact ⟨w₂, (Writer.appendEach_of_error hw₁ [[1]]).trans hw₂, hclose⟩
  · exact absurd h (by decide)

/-- **A failed `Append` hides what follows.** A record of 32762 zeros does not fit a block, and
writing the block out between its two fragments fails. `Append` returns an error for it and nil for
the record behind it, and `Close` returns nil. Reading the file finds the first fragment, and the
second record where the rest of the first should be, so the second record is not returned. -/
theorem not_reads_behind_failed :
    ∃ w', ((Writer.create [true]).appendEach [List.replicate 32762 0, [1]]).1.close = (w', none) ∧
      ((Writer.create [true]).appendEach [List.replicate 32762 0, [1]]).2 = [[1]] ∧
      (Reader.new w'.file).readRecords 2 ≠ ([[1]], some .eof) := by
  obtain ⟨big, hbig, hlen⟩ : ∃ big : Bytes, big = List.replicate 32762 0 ∧ big.length = 32762 :=
    ⟨_, rfl, List.length_replicate⟩
  rw [← hbig]
  obtain ⟨w, heach, hclose⟩ := appendEach_between hlen
  obtain ⟨hopen, hblock, ps, hps, hpieces⟩ :=
    @Writer.appendEach_attempts (Writer.create [true]) rfl (.new _) [big, [1]]
  rw [@Writer.noneLeavesFragment_eq (Writer.create [true]) rfl (Nat.zero_le _), heach] at hps
  rw [heach] at hopen hblock hpieces ⊢
  have hfile := Writer.close_file hopen hblock hclose
  have haligned := hblock.aligned
  rw [hpieces] at hfile haligned
  refine ⟨_, hclose, rfl, fun hread => ?_⟩
  have hfails := (hps.readRecords_iff (hfile ▸ Reader.at_new _) haligned).1 hread
  rw [List.map_cons, hlen] at hfails
  exact absurd hfails (by decide)

end Stratum.Wal
