import Stratum.Wal.Batch
import Stratum.Wal.RoundTrip

/-!
# The loop of `Recover`

`recoverLoop` decodes record after record until the end of the file, the first record that cannot
be read, or the first that cannot be decoded. It comes to an end because a record that was read is
behind the reader (`Reader.readLoop_left`).
-/

namespace Stratum.Wal

open ByteCodec

/-! ### The loop -/

namespace Reader

/-- The bytes that are left to read. -/
def left (r : Reader) : ℕ := r.rest.length + r.block.length

/-- A record that was read is behind the reader. -/
theorem readLoop_left {r r' : Reader} {record data : Bytes} {inFragmentedRecord : Bool}
    (h : r.readLoop record inFragmentedRecord = (r', .ok data)) : r'.left < r.left := by
  have hheader : headerSize = 7 := rfl
  have hdrop : ∀ (r : Reader) (n : ℕ), ¬ r.block.length < headerSize →
      ({ r with block := r.block.drop (headerSize + n) } : Reader).left < r.left := by
    intro r n hlen
    simp only [left, List.length_drop]
    omega
  fun_induction readLoop r record inFragmentedRecord with
  | case4 r record inf hblock heof r₁ hread ih =>
    refine lt_of_lt_of_le (ih h) ?_
    simp only [readBlock] at hread
    split at hread
    · cases hread
    · cases hread
      simp only [left, List.length_drop, List.length_take]
      omega
  | case5 r record inf hblock crc len typ hfields hpad ih =>
    refine (ih h).trans ?_
    simp only [left, List.length_nil]
    omega
  | case8 r record inf hblock crc len hlen payload r₁ hfirst hfields hpad hcrc
  | case11 r record inf hblock crc len hlen payload r₁ hfirst hfields hpad hcrc =>
    rw [← (Prod.mk.inj h).1]
    exact hdrop r len hblock
  | case9 r record inf hblock crc len hlen payload r₁ hfirst hfields hpad hcrc hne ih
  | case12 r record inf hblock crc len hlen payload r₁ hfirst hfields hpad hcrc hne ih =>
    exact (ih h).trans (hdrop r len hblock)
  | _ => cases (Prod.mk.inj h).2

end Reader

/-- The loop of `Recover`: the batches, and whether it met something it could not read. -/
def recoverLoop (r : Reader) : List Batch × Bool :=
  match _h : r.readRecord with
  | (_, .error .eof) => ([], false)
  | (_, .error _) => ([], true)
  | (r', .ok record) =>
    match decodeBatch record with
    | .error _ => ([], true)
    | .ok b => (b :: (recoverLoop r').1, (recoverLoop r').2)
termination_by r.left
decreasing_by all_goals exact Reader.readLoop_left _h

/-- What `Recover` reads from a log file. -/
def recoverBatches (file : Bytes) : List Batch := (recoverLoop (Reader.new file)).1

theorem recoverLoop_of_error {r : Reader} {e : WalErr} (h : r.readRecord.2 = .error e) :
    recoverLoop r = ([], decide (e ≠ .eof)) := by
  rw [recoverLoop]
  split
  · rename_i hread
    rw [hread] at h
    cases h
    rfl
  · rename_i hne hread
    rw [hread] at h
    cases h
    rw [decide_eq_true (show e ≠ .eof from hne)]
  · rename_i hread
    rw [hread] at h
    cases h

theorem recoverLoop_of_ok {r r' : Reader} {record : Bytes} {b : Batch}
    (h : r.readRecord = (r', .ok record)) (hdecode : decodeBatch record = .ok b) :
    recoverLoop r = (b :: (recoverLoop r').1, (recoverLoop r').2) := by
  rw [recoverLoop]
  split
  · rename_i hread
    rw [hread] at h
    cases h
  · rename_i hread
    rw [hread] at h
    cases h
  · rename_i hread
    rw [hread] at h
    cases h
    rw [hdecode]

/-- Nothing is recovered from an empty file. -/
@[simp] theorem recoverBatches_nil : recoverBatches [] = [] :=
  congrArg Prod.fst (recoverLoop_of_error ((Reader.at_new []).readLoop_nil [] false))

end Stratum.Wal
