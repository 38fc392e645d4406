import Stratum.Wal.Physical

/-!
# Where the pieces of the log go

The writer counts bytes: how it cuts a record depends on its length and on how full the open block
is, not on what is in it. `Span` is a piece without its bytes. `fragments room n` are the lengths
that a record of `n` bytes is cut into when its first fragment goes to a block with `room` bytes
left: one fragment, or one that fills the block, some that fill a block each, and a rest.

`Writer.appendLoop_layout` is the loop of `Append` in these terms. It writes a block out between any
two fragments, and it fails exactly when one of these writes does.
-/

namespace Stratum.Wal

/-- A piece of the log, without its bytes. -/
inductive Span
  | frag (n : ℕ)
  | pad (n : ℕ)
deriving DecidableEq, Repr

/-- The span of a piece. -/
def Piece.span : Piece → Span
  | .frag _ payload => .frag payload.length
  | .pad n => .pad n

/-- A physical record, not padding. -/
def Span.isFrag : Span → Bool
  | .frag _ => true
  | .pad _ => false

/-- The lengths of the fragments of a record of `n` bytes, the first of which goes to a block with
`room` bytes left. -/
def fragments (room n : ℕ) : List ℕ :=
  let full := blockSize - headerSize
  let behind := n - (room - headerSize)
  if behind = 0 then [n]
  else (room - headerSize) ::
    (List.replicate ((behind - 1) / full) full ++ [behind - (behind - 1) / full * full])

/-- The room that the first fragment finds: that of a new block, when there is none for a header. -/
def roomFor (fill : ℕ) : ℕ :=
  if blockSize - fill < headerSize then blockSize else blockSize - fill

/-- How full the block is after the fragments, the first of which went to a block with `fill`
bytes. -/
def endFill (fill : ℕ) : List ℕ → ℕ
  | [] => fill
  | [n] => fill + headerSize + n
  | _ :: fs => endFill 0 fs

/-- How full the block is after a record of `n` bytes. -/
def fillAfter (fill n : ℕ) : ℕ :=
  endFill (blockSize - roomFor fill) (fragments (roomFor fill) n)

/-- The zeros before the first fragment. -/
def padding (fill : ℕ) : List Span :=
  if 0 < blockSize - fill ∧ blockSize - fill < headerSize then [.pad (blockSize - fill)] else []

/-- The spans of a record of `n` bytes. -/
def spans (fill n : ℕ) : List Span :=
  padding fill ++ (fragments (roomFor fill) n).map .frag

/-- How many blocks are written out before the first fragment. -/
def writesBefore (fill : ℕ) : ℕ :=
  if blockSize - fill < headerSize then 1 else 0

/-- How many blocks are written out between the fragments. -/
def writesBetween (fill n : ℕ) : ℕ :=
  (fragments (roomFor fill) n).length - 1

theorem fragments_of_le {room n : ℕ} (h : n ≤ room - headerSize) : fragments room n = [n] :=
  if_pos (Nat.sub_eq_zero_of_le h)

/-- The loop, in numbers. -/
theorem fragments_of_gt {room n : ℕ} (h : room - headerSize < n) :
    fragments room n =
      (room - headerSize) :: fragments blockSize (n - (room - headerSize)) := by
  obtain ⟨behind, hbehind, hpos⟩ : ∃ behind, n - (room - headerSize) = behind ∧ 0 < behind :=
    ⟨_, rfl, Nat.sub_pos_of_lt h⟩
  have hfull : blockSize - headerSize = 32761 := rfl
  simp only [fragments, hbehind, hfull]
  rw [if_neg hpos.ne']
  by_cases hlast : behind ≤ 32761
  · have hzero : (behind - 1) / 32761 = 0 := Nat.div_eq_of_lt (by omega)
    rw [if_pos (Nat.sub_eq_zero_of_le hlast), hzero, List.replicate_zero, Nat.zero_mul,
      Nat.sub_zero, List.nil_append]
  · obtain ⟨q, hq⟩ : ∃ q, (behind - 32761 - 1) / 32761 = q := ⟨_, rfl⟩
    have hq' : (behind - 1) / 32761 = q + 1 := by omega
    have hrest : behind - (q + 1) * 32761 = behind - 32761 - q * 32761 := by omega
    rw [if_neg (by omega), hq, hq', hrest, List.replicate_succ, List.cons_append]

theorem fragments_ne_nil (room n : ℕ) : fragments room n ≠ [] := by
  simp only [fragments]
  split <;> simp

namespace Writer

variable {w : Writer}

/-- A block that is not empty is written out, unless the write fails. -/
theorem flushBlock_layout (hblock : w.block ≠ []) :
    (w.faults.head? = some true ∧ w.flushBlock = ({ w with faults := w.faults.tail }, some .io)) ∨
      (w.faults.head? ≠ some true ∧ w.flushBlock =
        ({ w with file := w.file ++ w.block, block := [], faults := w.faults.tail }, none)) := by
  rw [flushBlock, if_neg hblock]
  rcases hf : w.faults with _ | ⟨_ | _, faults⟩
  · exact .inr ⟨by simp, rfl⟩
  · exact .inr ⟨by simp, rfl⟩
  · exact .inl ⟨rfl, rfl⟩

/-- The write before the first fragment fails, or there is none, or it succeeds. -/
theorem makeRoom_layout (hle : w.block.length ≤ blockSize) :
    ((w.faults.take (writesBefore w.block.length)).any id = true ∧
        ∃ w', w.makeRoom = (w', some .io) ∧ w'.block.length = blockSize ∧
          w'.faults = w.faults.tail ∧
          w'.pieces.map Piece.span = w.pieces.map Piece.span ++ padding w.block.length) ∨
      ((w.faults.take (writesBefore w.block.length)).any id = false ∧
        ∃ w', w.makeRoom = (w', none) ∧ w'.block.length = blockSize - roomFor w.block.length ∧
          w'.faults = w.faults.drop (writesBefore w.block.length) ∧
          w'.pieces.map Piece.span = w.pieces.map Piece.span ++ padding w.block.length) := by
  have hheader : headerSize = 7 := rfl
  have hsize : blockSize = 32768 := rfl
  by_cases hneeds : blockSize - w.block.length < headerSize
  · -- the block is full before it is written out
    obtain ⟨v, hv, hfull, hfaults, hspans⟩ : ∃ v : Writer, w.makeRoom = v.flushBlock ∧
        v.block.length = blockSize ∧ v.faults = w.faults ∧
          v.pieces.map Piece.span = w.pieces.map Piece.span ++ padding w.block.length := by
      by_cases hpos : 0 < blockSize - w.block.length
      · refine ⟨w.put (.pad (blockSize - w.block.length)), ?_, ?_, rfl, ?_⟩
        · simp only [makeRoom, if_pos hneeds, if_pos hpos]
        · rw [put, List.length_append, length_bytes_pad]
          omega
        · simp [put, padding, hneeds, hpos, Piece.span]
      · refine ⟨w, ?_, by omega, rfl, ?_⟩
        · simp only [makeRoom, if_pos hneeds, if_neg hpos]
        · simp [padding, hpos]
    have hne : v.block ≠ [] := by
      intro hnil
      rw [hnil] at hfull
      cases hfull
    have htake : (w.faults.take 1).any id = true ↔ w.faults.head? = some true := by
      rcases w.faults with _ | ⟨_ | _, _⟩ <;> simp
    rw [writesBefore, if_pos hneeds, roomFor, if_pos hneeds, hv]
    rcases flushBlock_layout hne with ⟨hhead, hflush⟩ | ⟨hhead, hflush⟩
    · rw [hfaults] at hhead hflush
      exact .inl ⟨htake.2 hhead, _, hflush, hfull, rfl, hspans⟩
    · rw [hfaults] at hhead hflush
      refine .inr ⟨Bool.eq_false_of_not_eq_true fun h => hhead (htake.1 h), _, hflush, ?_, ?_,
        hspans⟩
      · simp
      · exact List.drop_one.symm
  · refine .inr ⟨?_, w, ?_, ?_, ?_, ?_⟩
    · simp [writesBefore, hneeds]
    · simp only [makeRoom, if_neg hneeds]
    · rw [roomFor, if_neg hneeds]
      omega
    · simp [writesBefore, hneeds]
    · simp [padding, hneeds]

private theorem avail_eq {fill : ℕ} (hblock : w.block.length = blockSize - roomFor fill) :
    w.avail = roomFor fill - headerSize := by
  have hroom : roomFor fill ≤ blockSize := by
    rw [roomFor]
    split <;> omega
  rw [avail, hblock]
  omega

/-- The block is full behind a fragment that is not the last one. -/
theorem length_block_put_take (hleft : w.block.length + headerSize ≤ blockSize) {record : Bytes}
    (hlast : ¬ record.length ≤ w.avail) (typ : RecordType) :
    (w.put (.frag typ (record.take w.avail))).block.length = blockSize := by
  rw [put, List.length_append, length_bytes_frag, List.length_take]
  rw [avail] at hlast ⊢
  omega

/-- What the numbers of a record are when it does not fit: those of its first fragment, and of the
rest from a full block on. -/
private theorem layout_of_gt {fill n : ℕ} (h : roomFor fill - headerSize < n) :
    writesBetween fill n = 1 + writesBetween blockSize (n - (roomFor fill - headerSize)) ∧
      fillAfter fill n = fillAfter blockSize (n - (roomFor fill - headerSize)) ∧
      spans fill n = padding fill ++ [.frag (roomFor fill - headerSize)] ++
        spans blockSize (n - (roomFor fill - headerSize)) := by
  have hroom : roomFor blockSize = blockSize := rfl
  have hpadding : padding blockSize = [] := rfl
  rw [writesBetween, fillAfter, spans, fragments_of_gt h, writesBetween, fillAfter, spans, hroom,
    hpadding, Nat.sub_self]
  obtain ⟨m, fs, hfs⟩ := List.exists_cons_of_ne_nil
    (fragments_ne_nil blockSize (n - (roomFor fill - headerSize)))
  rw [hfs]
  refine ⟨?_, rfl, by simp⟩
  simp only [List.length_cons, Nat.add_sub_cancel]
  omega

/-- **The loop of `Append`, in numbers.** The write before the first fragment fails, or one between
two fragments does, or the record is appended. -/
theorem appendLoop_layout (hle : w.block.length ≤ blockSize) (record : Bytes) (first : Bool) :
    ((w.faults.take (writesBefore w.block.length)).any id = true ∧
        ∃ w', w.appendLoop record first = (w', some .io) ∧ w'.block.length = blockSize ∧
          w'.faults = w.faults.tail ∧
          w'.pieces.map Piece.span = w.pieces.map Piece.span ++ padding w.block.length) ∨
      ((w.faults.take (writesBefore w.block.length)).any id = false ∧
        ((w.faults.drop (writesBefore w.block.length)).take
          (writesBetween w.block.length record.length)).any id = true ∧
        ∃ w' ss, w.appendLoop record first = (w', some .io) ∧ w'.block.length = blockSize ∧
          w'.faults.length < w.faults.length ∧ ss.any Span.isFrag = true ∧
          w'.pieces.map Piece.span = w.pieces.map Piece.span ++ ss) ∨
      ((w.faults.take (writesBefore w.block.length)).any id = false ∧
        ((w.faults.drop (writesBefore w.block.length)).take
          (writesBetween w.block.length record.length)).any id = false ∧
        ∃ w', w.appendLoop record first = (w', none) ∧
          w'.block.length = fillAfter w.block.length record.length ∧ w'.block.length ≤ blockSize ∧
          w'.faults = w.faults.drop
            (writesBefore w.block.length + writesBetween w.block.length record.length) ∧
          w'.pieces.map Piece.span =
            w.pieces.map Piece.span ++ spans w.block.length record.length) := by
  induction w, record, first using appendLoop.induct with
  | case1 w record first w₁ e hroom =>
    rcases makeRoom_layout hle with ⟨hfault, w', hw', hrest⟩ | ⟨-, w', hw', -⟩
    · exact .inl ⟨hfault, w', appendLoop_of_makeRoom_error hw' record first, hrest⟩
    · rw [hw'] at hroom
      cases hroom
  | case2 w record first w₁ hroom hlast =>
    rcases makeRoom_layout hle with ⟨-, w', hw', -⟩ | ⟨hnone, w', hw', hblock, hfaults, hspans⟩
    · rw [hw'] at hroom
      cases hroom
    obtain ⟨rfl, -⟩ := Prod.mk.inj (hw'.symm.trans hroom)
    have hone : fragments (roomFor w.block.length) record.length = [record.length] :=
      fragments_of_le (avail_eq hblock ▸ hlast)
    refine .inr (.inr ⟨hnone, by simp [writesBetween, hone], _,
      (appendLoop_of_makeRoom hroom record first).trans (if_pos hlast), ?_, ?_, ?_, ?_⟩)
    · rw [put, List.length_append, length_bytes_frag, hblock, fillAfter, hone, endFill,
        Nat.add_assoc]
    · have hleft := makeRoom_room hroom
      rw [avail] at hlast
      rw [put, List.length_append, length_bytes_frag]
      omega
    · rw [writesBetween, hone]
      exact hfaults
    · simp [put, hspans, spans, hone, Piece.span]
  | case3 w record first w₁ hroom hlast ih =>
    rcases makeRoom_layout hle with ⟨-, w', hw', -⟩ | ⟨hnone, w', hw', hblock, hfaults, hspans⟩
    · rw [hw'] at hroom
      cases hroom
    obtain ⟨rfl, -⟩ := Prod.mk.inj (hw'.symm.trans hroom)
    obtain ⟨hbetween, hfill, hspan⟩ :=
      layout_of_gt (n := record.length) (avail_eq hblock ▸ not_le.1 hlast)
    rw [← avail_eq hblock] at hbetween hfill hspan
    have hfull := length_block_put_take (makeRoom_room hroom) hlast (fragType first false)
    have hput : (w'.put (.frag (fragType first false) (record.take w'.avail))).pieces.map
        Piece.span = w.pieces.map Piece.span ++ (padding w.block.length ++ [.frag w'.avail]) := by
      rw [put, List.map_append, hspans, List.append_assoc]
      simp [Piece.span, (not_le.1 hlast).le]
    have hnext := ih hfull.le
    rw [hfull, List.length_drop, hput] at hnext
    rw [(appendLoop_of_makeRoom hroom record first).trans (if_neg hlast), hbetween, hfill, hspan,
      List.take_add, List.any_append, ← hfaults]
    have hfewer : w'.faults.length ≤ w.faults.length := by
      rw [hfaults, List.length_drop]
      exact Nat.sub_le _ _
    rcases hnext with ⟨hfault, v, hv, hvblock, hvfaults, hvspans⟩ |
      ⟨hok, hfault, v, ss, hv, hvblock, hvfaults, hss, hvspans⟩ |
      ⟨hok, hnone', v, hv, hvblock, hvle, hvfaults, hvspans⟩
    · refine .inr (.inl ⟨hnone, ?_, v, _, hv, hvblock, ?_, ?_, hvspans.trans
        (List.append_assoc ..)⟩)
      · rw [Bool.or_eq_true]
        exact .inl hfault
      · have hsome : w'.faults ≠ [] := by
          intro hnil
          rw [show (w'.put _).faults = w'.faults from rfl, hnil, List.take_nil] at hfault
          cases hfault
        rw [hvfaults, show (w'.put _).faults = w'.faults from rfl, List.length_tail]
        have := List.length_pos_iff.2 hsome
        omega
      · simp [Span.isFrag]
    · refine .inr (.inl ⟨hnone, ?_, v, _, hv, hvblock, hvfaults.trans_le hfewer, ?_,
        hvspans.trans (List.append_assoc ..)⟩)
      · rw [Bool.or_eq_true]
        exact .inr hfault
      · simp [Span.isFrag]
    · refine .inr (.inr ⟨hnone, ?_, v, hv, hvblock, hvle, ?_, hvspans.trans (List.append_assoc ..)⟩)
      · rw [Bool.or_eq_false_iff]
        exact ⟨hok, hnone'⟩
      · rw [hvfaults, ← Nat.add_assoc]
        exact (congrArg (List.drop _) hfaults).trans (by rw [List.drop_drop, Nat.add_assoc]; rfl)

end Writer

end Stratum.Wal
