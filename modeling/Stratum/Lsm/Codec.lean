import Stratum.Lib.Decoder
import Stratum.Lsm.Manifest

/-!
# The codec of version edits

`DecodeVersionEdit` reads exactly what `VersionEdit.Encode` wrote (`decodeVersionEdit_encode`), and
rejects it when **any of its bytes is missing** (`decodeVersionEdit_cut`). Both hold for edits whose
numbers and lengths fit the fields of the codec (`InFields`); the levels need not exist.
-/

namespace Stratum.Lsm

open ByteCodec

/-- The numbers of a deletion fit their fields. -/
structure DeletedFile.InFields (df : DeletedFile) : Prop where
  level : df.level < 2 ^ 32
  fileNum : df.fileNum < 2 ^ 64

/-- The numbers and the lengths of an added file fit their fields. -/
structure FileMetadata.InFields (f : FileMetadata) : Prop where
  level : f.level < 2 ^ 32
  fileNum : f.fileNum < 2 ^ 64
  fileSize : f.fileSize < 2 ^ 64
  numEntries : f.numEntries < 2 ^ 64
  smallestKey : f.smallestKey.length < 2 ^ 32
  largestKey : f.largestKey.length < 2 ^ 32

/-- The numbers and the lengths of an edit fit their fields. -/
structure VersionEdit.InFields (e : VersionEdit) : Prop where
  nextFileNum : e.nextFileNum < 2 ^ 64
  numDeleted : e.deletedFiles.length < 2 ^ 32
  numAdded : e.addedFiles.length < 2 ^ 32
  deletedFiles : ∀ df ∈ e.deletedFiles, df.InFields
  addedFiles : ∀ f ∈ e.addedFiles, f.InFields

theorem leNat_uint32 {n : ℕ} (h : n < 2 ^ 32) : leNat (leBytes 4 n) = n :=
  leNat_leBytes_of_lt h

theorem leNat_uint64 {n : ℕ} (h : n < 2 ^ 64) : leNat (leBytes 8 n) = n :=
  leNat_leBytes_of_lt h

/-- The bounds check in front of a number. -/
theorem reads_leBytes (w n : ℕ) : Reads (splitBytes w) (leBytes w n) (leBytes w n) :=
  reads_splitBytes (length_leBytes w n)

/-- A key behind its length. -/
theorem reads_key {key : Bytes} (h : key.length < 2 ^ 32) :
    Reads (splitBytes (leNat (leBytes 4 key.length))) key key :=
  reads_splitBytes (leNat_uint32 h).symm

theorem reads_decodeDeletedFile {df : DeletedFile} (h : df.InFields) :
    Reads decodeDeletedFile df.encode df := by
  refine (reads_leBytes 4 df.level).bind ((reads_leBytes 8 df.fileNum).last fun rest => ?_)
  dsimp only
  rw [leNat_uint32 h.level, leNat_uint64 h.fileNum]
  rfl

theorem reads_decodeFileMetadata {f : FileMetadata} (h : f.InFields) :
    Reads decodeFileMetadata f.encode f := by
  rw [FileMetadata.encode]
  simp only [List.append_assoc]
  refine (reads_leBytes 4 f.level).bind ((reads_leBytes 8 f.fileNum).bind
    ((reads_leBytes 8 f.fileSize).bind ((reads_leBytes 8 f.numEntries).bind
    ((reads_leBytes 4 f.smallestKey.length).bind ((reads_key h.smallestKey).bind
    ((reads_leBytes 4 f.largestKey.length).bind ((reads_key h.largestKey).last fun rest => ?_)))))))
  dsimp only
  rw [leNat_uint32 h.level, leNat_uint64 h.fileNum, leNat_uint64 h.fileSize,
    leNat_uint64 h.numEntries]
  rfl

/-- A list that was encoded one by one. -/
theorem reads_decodeTimes {α : Type} {decode : Bytes → Option (α × Bytes)} {encode : α → Bytes}
    {as : List α} (h : ∀ a ∈ as, Reads decode (encode a) a) :
    Reads (decodeTimes decode as.length) (as.flatMap encode) as := by
  induction as with
  | nil => exact ⟨fun _ => rfl, fun _ _ hlt => absurd hlt (Nat.not_lt_zero _)⟩
  | cons a as ih =>
    obtain ⟨ha, has⟩ := List.forall_mem_cons.1 h
    exact ha.bind ((ih has).last fun rest => rfl)

/-- `DecodeVersionEdit` with the bytes that it leaves. -/
def readVersionEdit (data : Bytes) : Option (VersionEdit × Bytes) := do
  let (nextFileNum, data) ← splitBytes 8 data
  let (numDeleted, data) ← splitBytes 4 data
  let (deletedFiles, data) ← decodeTimes decodeDeletedFile (leNat numDeleted) data
  let (numAdded, data) ← splitBytes 4 data
  let (addedFiles, data) ← decodeTimes decodeFileMetadata (leNat numAdded) data
  pure (⟨addedFiles, deletedFiles, leNat nextFileNum⟩, data)

theorem decodeVersionEdit_eq (data : Bytes) :
    decodeVersionEdit data = (readVersionEdit data).map Prod.fst := by
  simp only [decodeVersionEdit, readVersionEdit, Option.bind_eq_bind, Option.map_bind,
    Function.comp_def]
  rfl

theorem reads_readVersionEdit {e : VersionEdit} (h : e.InFields) :
    Reads readVersionEdit e.encode e := by
  have hdeleted : Reads (decodeTimes decodeDeletedFile (leNat (leBytes 4 e.deletedFiles.length)))
      (e.deletedFiles.flatMap DeletedFile.encode) e.deletedFiles := by
    rw [leNat_uint32 h.numDeleted]
    exact reads_decodeTimes fun df hdf => reads_decodeDeletedFile (h.deletedFiles df hdf)
  have hadded : Reads (decodeTimes decodeFileMetadata (leNat (leBytes 4 e.addedFiles.length)))
      (e.addedFiles.flatMap FileMetadata.encode) e.addedFiles := by
    rw [leNat_uint32 h.numAdded]
    exact reads_decodeTimes fun f hf => reads_decodeFileMetadata (h.addedFiles f hf)
  rw [VersionEdit.encode]
  simp only [List.append_assoc]
  refine (reads_leBytes 8 e.nextFileNum).bind ((reads_leBytes 4 e.deletedFiles.length).bind
    (hdeleted.bind ((reads_leBytes 4 e.addedFiles.length).bind (hadded.last fun rest => ?_))))
  rw [leNat_uint64 h.nextFileNum]
  rfl

/-- **Round trip of an edit.** -/
theorem decodeVersionEdit_encode {e : VersionEdit} (h : e.InFields) :
    decodeVersionEdit e.encode = some e := by
  rw [decodeVersionEdit_eq, (reads_readVersionEdit h).eq_some]
  rfl

/-- **An edit that is cut short is rejected.** -/
theorem decodeVersionEdit_cut {e : VersionEdit} (h : e.InFields) {n : ℕ}
    (hn : n < e.encode.length) : decodeVersionEdit (e.encode.take n) = none := by
  rw [decodeVersionEdit_eq, (reads_readVersionEdit h).cut _ (List.take_prefix _ _)]
  · rfl
  · rw [List.length_take]
    omega

end Stratum.Lsm
