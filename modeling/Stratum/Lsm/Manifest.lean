import Stratum.Lsm.Level

/-!
# The manifest

The manifest is an append-only file of version edits, each behind a 32-bit length, together with
the version and the file-number counter that replaying the edits gives. `Manifest.apply` appends
an edit and applies it; `openManifest` reads the file back from the start.

* An edit removes files level by level, then adds files, and sorts the deeper levels
  (`Version.edit`). `levels_edit` says what a level holds after it.
* The counter is **in memory only**: an edit carries a counter value in its `nextFileNum` field,
  and replay takes the largest one it finds, starting from `1`.
* A level that is out of the seven of the version is a Go index panic; `none` stands for it.
-/

namespace Stratum.Lsm

open ByteCodec

/-- `DeletedFile`. -/
structure DeletedFile where
  level : ℕ
  fileNum : ℕ
deriving DecidableEq, Repr

/-- `VersionEdit`; a `nextFileNum` of `0` says nothing. -/
structure VersionEdit where
  addedFiles : List FileMetadata
  deletedFiles : List DeletedFile
  nextFileNum : ℕ
deriving DecidableEq, Repr

/-! ### The codec -/

/-- The twelve bytes of a deletion. -/
def DeletedFile.encode (df : DeletedFile) : Bytes := leBytes 4 df.level ++ leBytes 8 df.fileNum

/-- The bytes of an added file: four numbers and the two keys behind their lengths. -/
def FileMetadata.encode (f : FileMetadata) : Bytes :=
  leBytes 4 f.level ++ leBytes 8 f.fileNum ++ leBytes 8 f.fileSize ++ leBytes 8 f.numEntries
    ++ leBytes 4 f.smallestKey.length ++ f.smallestKey
    ++ leBytes 4 f.largestKey.length ++ f.largestKey

/-- `VersionEdit.Encode`. -/
def VersionEdit.encode (e : VersionEdit) : Bytes :=
  leBytes 8 e.nextFileNum
    ++ leBytes 4 e.deletedFiles.length ++ e.deletedFiles.flatMap DeletedFile.encode
    ++ leBytes 4 e.addedFiles.length ++ e.addedFiles.flatMap FileMetadata.encode

/-- A loop of the decoder, run `count` times. -/
def decodeTimes {α : Type} (decode : Bytes → Option (α × Bytes)) :
    ℕ → Bytes → Option (List α × Bytes)
  | 0, data => some ([], data)
  | count + 1, data => do
    let (a, data) ← decode data
    let (as, data) ← decodeTimes decode count data
    pure (a :: as, data)

/-- One round of the first loop of `DecodeVersionEdit`. -/
def decodeDeletedFile (data : Bytes) : Option (DeletedFile × Bytes) := do
  let (level, data) ← splitBytes 4 data
  let (fileNum, data) ← splitBytes 8 data
  pure (⟨leNat level, leNat fileNum⟩, data)

/-- One round of the second loop. -/
def decodeFileMetadata (data : Bytes) : Option (FileMetadata × Bytes) := do
  let (level, data) ← splitBytes 4 data
  let (fileNum, data) ← splitBytes 8 data
  let (fileSize, data) ← splitBytes 8 data
  let (numEntries, data) ← splitBytes 8 data
  let (smallLen, data) ← splitBytes 4 data
  let (smallestKey, data) ← splitBytes (leNat smallLen) data
  let (largeLen, data) ← splitBytes 4 data
  let (largestKey, data) ← splitBytes (leNat largeLen) data
  pure (⟨leNat level, leNat fileNum, leNat fileSize, smallestKey, largestKey, leNat numEntries⟩,
    data)

/-- `DecodeVersionEdit`; `none` is `os.ErrInvalid`, and bytes behind the edit are ignored. -/
def decodeVersionEdit (data : Bytes) : Option VersionEdit := do
  let (nextFileNum, data) ← splitBytes 8 data
  let (numDeleted, data) ← splitBytes 4 data
  let (deletedFiles, data) ← decodeTimes decodeDeletedFile (leNat numDeleted) data
  let (numAdded, data) ← splitBytes 4 data
  let (addedFiles, _) ← decodeTimes decodeFileMetadata (leNat numAdded) data
  pure ⟨addedFiles, deletedFiles, leNat nextFileNum⟩

/-! ### Applying an edit -/

/-- Remove a file from its level. -/
@[simps]
def Version.deleteFile (v : Version) (df : DeletedFile) : Version :=
  ⟨Function.update v.levels df.level
    ((v.levels df.level).filter fun f => f.fileNum != df.fileNum)⟩

/-- Append a file to its level. -/
@[simps]
def Version.addFile (v : Version) (f : FileMetadata) : Version :=
  ⟨Function.update v.levels f.level (v.levels f.level ++ [f])⟩

/-- Sort the levels from `1` on. -/
@[simps]
def Version.sortLevels (v : Version) : Version :=
  ⟨fun level => if 1 ≤ level ∧ level < maxLevels then sortBySmallestKey (v.levels level)
    else v.levels level⟩

/-- The new version that `applyEditToMemory` builds. -/
def Version.edit (v : Version) (e : VersionEdit) : Version :=
  (e.addedFiles.foldl Version.addFile (e.deletedFiles.foldl Version.deleteFile v)).sortLevels

/-- The levels an edit names exist. -/
def VersionEdit.InRange (e : VersionEdit) : Prop :=
  (∀ df ∈ e.deletedFiles, df.level < maxLevels) ∧ ∀ f ∈ e.addedFiles, f.level < maxLevels

instance (e : VersionEdit) : Decidable e.InRange := inferInstanceAs (Decidable (_ ∧ _))

/-- `Manifest`: the bytes of its file, and what is in memory. -/
structure Manifest where
  file : Bytes
  current : Version
  nextFileNum : ℕ

/-- How `OpenManifest` can fail: an edit that cannot be decoded, or one with a level that does not
exist. -/
inductive ManifestErr
  | invalid
  | outOfRange
deriving DecidableEq, Repr

namespace Manifest

/-- `applyEditToMemory`. -/
def applyEditToMemory (m : Manifest) (e : VersionEdit) : Option Manifest :=
  if e.InRange then
    some { m with
      current := m.current.edit e
      nextFileNum := if e.nextFileNum > m.nextFileNum then e.nextFileNum else m.nextFileNum }
  else none

end Manifest

/-- What `Apply` appends: the length of the edit and the edit. -/
def VersionEdit.frame (e : VersionEdit) : Bytes := leBytes 4 e.encode.length ++ e.encode

/-- The loop of `OpenManifest`. It stops at the end of the file, or where a length or an edit is
cut short; every round takes four bytes at least, so the length of the file is fuel enough. -/
def replayEdits : ℕ → Bytes → Manifest → Except ManifestErr Manifest
  | 0, _, m => .ok m
  | fuel + 1, data, m =>
    match splitBytes 4 data with
    | none => .ok m
    | some (length, data) =>
      match splitBytes (leNat length) data with
      | none => .ok m
      | some (editData, data) =>
        match decodeVersionEdit editData with
        | none => .error .invalid
        | some e =>
          match m.applyEditToMemory e with
          | none => .error .outOfRange
          | some m => replayEdits fuel data m

/-- `OpenManifest` on a file with these bytes; a file that does not exist is created empty. -/
def openManifest (file : Bytes) : Except ManifestErr Manifest :=
  replayEdits file.length file ⟨file, .empty, 1⟩

namespace Manifest

/-- `Apply` without an error. -/
def apply (m : Manifest) (e : VersionEdit) : Option Manifest :=
  { m with file := m.file ++ e.frame }.applyEditToMemory e

/-- `Apply` that fails, or a crash within it, when `n` bytes have reached the file. -/
def applyTorn (m : Manifest) (e : VersionEdit) (n : ℕ) : Manifest :=
  { m with file := m.file ++ e.frame.take n }

/-- `NextFileNumber` returns `nextFileNum` and leaves this behind. -/
@[simps]
def draw (m : Manifest) : Manifest := { m with nextFileNum := m.nextFileNum + 1 }

end Manifest

/-! ### The levels after an edit -/

theorem Version.levels_deleteFiles (v : Version) (dfs : List DeletedFile) (level : ℕ) :
    (dfs.foldl Version.deleteFile v).levels level =
      (v.levels level).filter fun f => decide (⟨level, f.fileNum⟩ ∉ dfs) := by
  induction dfs generalizing v with
  | nil => simp
  | cons df dfs ih =>
    rw [List.foldl_cons, ih, deleteFile_levels]
    by_cases hl : level = df.level
    · subst hl
      rw [Function.update_self, List.filter_filter]
      refine List.filter_congr fun f _ => ?_
      rcases df with ⟨level, num⟩
      by_cases hn : f.fileNum = num <;> simp [hn]
    · rw [Function.update_of_ne hl]
      refine List.filter_congr fun f _ => ?_
      rcases df with ⟨level', num⟩
      have : level ≠ level' := hl
      simp [this]

theorem Version.levels_addFiles (v : Version) (fs : List FileMetadata) (level : ℕ) :
    (fs.foldl Version.addFile v).levels level =
      v.levels level ++ fs.filter fun f => decide (f.level = level) := by
  induction fs generalizing v with
  | nil => simp
  | cons f fs ih =>
    rw [List.foldl_cons, ih, addFile_levels]
    by_cases hl : level = f.level
    · subst hl
      simp
    · rw [Function.update_of_ne hl, List.filter_cons_of_neg (by simpa using Ne.symm hl)]

/-- What a level holds after an edit, but for the order. -/
def VersionEdit.levelAfter (e : VersionEdit) (v : Version) (level : ℕ) : List FileMetadata :=
  (v.levels level).filter (fun f => decide (⟨level, f.fileNum⟩ ∉ e.deletedFiles))
    ++ e.addedFiles.filter fun f => decide (f.level = level)

/-- **A level after an edit**: the files that stay, the files that are added, sorted from level
`1` on. -/
theorem Version.levels_edit (v : Version) (e : VersionEdit) (level : ℕ) :
    (v.edit e).levels level =
      if 1 ≤ level ∧ level < maxLevels then sortBySmallestKey (e.levelAfter v level)
      else e.levelAfter v level := by
  simp only [edit, sortLevels, levels_addFiles, levels_deleteFiles, VersionEdit.levelAfter]

variable {v : Version} {e : VersionEdit} {f : FileMetadata} {m m' : Manifest}

theorem Version.mem_levels_edit {level : ℕ} :
    f ∈ (v.edit e).levels level ↔
      (f ∈ v.levels level ∧ ⟨level, f.fileNum⟩ ∉ e.deletedFiles) ∨
        (f ∈ e.addedFiles ∧ f.level = level) := by
  have hmem : f ∈ (v.edit e).levels level ↔ f ∈ e.levelAfter v level := by
    rw [levels_edit]
    split
    · exact mem_sortBySmallestKey
    · exact Iff.rfl
  rw [hmem, VersionEdit.levelAfter, List.mem_append, List.mem_filter, List.mem_filter,
    decide_eq_true_iff, decide_eq_true_iff]

/-- The live files after an edit come from the version or from the edit. -/
theorem Version.live_edit {n : ℕ} (h : (v.edit e).Live n) :
    v.Live n ∨ ∃ f ∈ e.addedFiles, f.fileNum = n := by
  obtain ⟨level, hlevel, f, hf, rfl⟩ := h
  rcases mem_levels_edit.mp hf with ⟨hf, -⟩ | ⟨hf, -⟩
  · exact .inl ⟨level, hlevel, f, hf, rfl⟩
  · exact .inr ⟨f, hf, rfl⟩

/-- The levels from `1` on are in the order of the smallest keys. -/
def Version.Sorted (v : Version) : Prop :=
  ∀ level, 1 ≤ level → level < maxLevels → (v.levels level).Pairwise FileMetadata.SmallestLe

theorem Version.sorted_edit (v : Version) (e : VersionEdit) : (v.edit e).Sorted := by
  intro level h1 hlt
  rw [levels_edit, if_pos ⟨h1, hlt⟩]
  exact List.pairwise_insertionSort _ _

/-- On sorted levels the edit of a flush is the addition to level `0`. -/
theorem Version.edit_addL0 (hf : f.level = 0) (hsorted : v.Sorted) :
    v.edit ⟨[f], [], 0⟩ = v.addL0 f := by
  refine Version.ext (funext fun level => ?_)
  rw [levels_edit, addL0]
  dsimp only
  by_cases hl : level = 0
  · subst hl
    simp [VersionEdit.levelAfter, hf]
  · have hadd : VersionEdit.levelAfter ⟨[f], [], 0⟩ v level = v.levels level := by
      simp [VersionEdit.levelAfter, hf, Ne.symm hl]
    rw [hadd, Function.update_of_ne hl]
    split
    · rename_i hrange
      exact (hsorted level hrange.1 hrange.2).insertionSort_eq
    · rfl

/-! ### Replay -/

theorem Manifest.applyEditToMemory_eq (h : m.applyEditToMemory e = some m') :
    m'.file = m.file ∧ m'.current = m.current.edit e := by
  rw [applyEditToMemory] at h
  split at h <;> cases h
  exact ⟨rfl, rfl⟩

/-- **Induction rule** of replay: what every edit keeps. -/
theorem replayEdits_invariant {I : Manifest → Prop}
    (hstep : ∀ m e m', I m → m.applyEditToMemory e = some m' → I m') {fuel : ℕ} {data : Bytes}
    (hm : I m) (h : replayEdits fuel data m = .ok m') : I m' := by
  fun_induction replayEdits fuel data m with
  | case1 | case2 | case3 =>
    cases h
    exact hm
  | case4 | case5 => cases h
  | case6 fuel data m length data' hlength editData rest hedit e he m₁ hm₁ ih =>
    exact ih (hstep m e m₁ hm hm₁) h

/-- Replay does not write, and it leaves sorted levels. -/
theorem openManifest_spec {file : Bytes} (h : openManifest file = .ok m) :
    m.file = file ∧ m.current.Sorted := by
  refine replayEdits_invariant (I := fun m => m.file = file ∧ m.current.Sorted) ?_
    ⟨rfl, fun _ _ _ => List.Pairwise.nil⟩ h
  rintro m e m' ⟨hfile, -⟩ he
  obtain ⟨hfile', hcurrent⟩ := Manifest.applyEditToMemory_eq he
  exact ⟨hfile'.trans hfile, hcurrent ▸ m.current.sorted_edit e⟩

end Stratum.Lsm
