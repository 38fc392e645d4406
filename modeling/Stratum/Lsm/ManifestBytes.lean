import Stratum.Lsm.Codec

/-!
# The manifest, access by access

`Indexed` follows `OpenManifest`, `DecodeVersionEdit` and `applyEditToMemory` with the offsets,
slices and array accesses of the source: **every access that is out of range** ends in
`ManifestErr.outOfRange`, which is a Go panic.

* The decoder checks each length before it slices, so it never runs out of range
  (`Indexed.decodeVersionEdit_eq`), and neither does the framing loop.
* The level of a file is taken from the bytes and used as an index without a check. Hence
  `Indexed.openManifest` is `Lsm.openManifest` (`Indexed.openManifest_eq`), and it panics exactly
  when an edit that the loop comes to names a level that does not exist.
-/

namespace Stratum.Lsm

open ByteCodec

namespace Indexed

/-! ### The decoder -/

/-- A `for` loop of the decoder. -/
def decodeTimes {α : Type} (decodeAt : ℕ → Except ManifestErr (α × ℕ)) :
    ℕ → ℕ → Except ManifestErr (List α × ℕ)
  | 0, offset => pure ([], offset)
  | count + 1, offset => do
    let (a, offset) ← decodeAt offset
    let (as, offset) ← decodeTimes decodeAt count offset
    pure (a :: as, offset)

/-- One round of the first loop of `DecodeVersionEdit`: one check for twelve bytes. -/
def decodeDeletedFile (data : Bytes) (offset : ℕ) : Except ManifestErr (DeletedFile × ℕ) := do
  need .invalid data offset 12
  let level ← uintAt .outOfRange data offset 4
  let fileNum ← uintAt .outOfRange data (offset + 4) 8
  pure (⟨level, fileNum⟩, offset + 4 + 8)

/-- One round of the second loop: one check for the four numbers, one for each length and key. -/
def decodeFileMetadata (data : Bytes) (offset : ℕ) : Except ManifestErr (FileMetadata × ℕ) := do
  need .invalid data offset 28
  let level ← uintAt .outOfRange data offset 4
  let fileNum ← uintAt .outOfRange data (offset + 4) 8
  let fileSize ← uintAt .outOfRange data (offset + 4 + 8) 8
  let numEntries ← uintAt .outOfRange data (offset + 4 + 8 + 8) 8
  let offset := offset + 4 + 8 + 8 + 8
  need .invalid data offset 4
  let smallLen ← uintAt .outOfRange data offset 4
  need .invalid data (offset + 4) smallLen
  let smallestKey ← slice .outOfRange data (offset + 4) (offset + 4 + smallLen)
  let offset := offset + 4 + smallLen
  need .invalid data offset 4
  let largeLen ← uintAt .outOfRange data offset 4
  need .invalid data (offset + 4) largeLen
  let largestKey ← slice .outOfRange data (offset + 4) (offset + 4 + largeLen)
  pure (⟨level, fileNum, fileSize, smallestKey, largestKey, numEntries⟩, offset + 4 + largeLen)

/-- `DecodeVersionEdit`, with the offset behind the edit. -/
def readVersionEdit (data : Bytes) : Except ManifestErr (VersionEdit × ℕ) := do
  need .invalid data 0 8
  let nextFileNum ← uintAt .outOfRange data 0 8
  need .invalid data 8 4
  let numDeleted ← uintAt .outOfRange data 8 4
  let (deletedFiles, offset) ← decodeTimes (decodeDeletedFile data) numDeleted (8 + 4)
  need .invalid data offset 4
  let numAdded ← uintAt .outOfRange data offset 4
  let (addedFiles, offset) ← decodeTimes (decodeFileMetadata data) numAdded (offset + 4)
  pure (⟨addedFiles, deletedFiles, nextFileNum⟩, offset)

/-- `DecodeVersionEdit`. -/
def decodeVersionEdit (data : Bytes) : Except ManifestErr VersionEdit := do
  let (v, _) ← readVersionEdit data
  pure v

/-! ### Applying an edit -/

/-- The array access `Levels[level]`. -/
def levelAt (v : Version) (level : ℕ) : Except ManifestErr (List FileMetadata) :=
  if level < maxLevels then .ok (v.levels level) else .error .outOfRange

/-- The array assignment `Levels[level] = files`. -/
def setLevelAt (v : Version) (level : ℕ) (files : List FileMetadata) :
    Except ManifestErr Version :=
  if level < maxLevels then .ok ⟨Function.update v.levels level files⟩ else .error .outOfRange

/-- A round of the loop over the deletions. -/
def deleteFile (v : Version) (df : DeletedFile) : Except ManifestErr Version := do
  let files ← levelAt v df.level
  setLevelAt v df.level (files.filter fun f => f.fileNum != df.fileNum)

/-- A round of the loop over the additions. -/
def addFile (v : Version) (af : FileMetadata) : Except ManifestErr Version := do
  let files ← levelAt v af.level
  setLevelAt v af.level (files ++ [af])

/-- A round of the loop that sorts. -/
def sortLevel (v : Version) (i : ℕ) : Except ManifestErr Version := do
  let files ← levelAt v i
  if files.length > 1 then setLevelAt v i (sortBySmallestKey files) else pure v

/-- `applyEditToMemory`; the clone is the version itself. -/
def applyEditToMemory (m : Manifest) (e : VersionEdit) : Except ManifestErr Manifest := do
  let newV ← e.deletedFiles.foldlM deleteFile m.current
  let newV ← e.addedFiles.foldlM addFile newV
  let newV ← (List.range' 1 (maxLevels - 1)).foldlM sortLevel newV
  pure { m with
    current := newV
    nextFileNum := if e.nextFileNum > m.nextFileNum then e.nextFileNum else m.nextFileNum }

/-! ### Opening the manifest -/

/-- The loop of `OpenManifest`, from an offset on. -/
def replayEdits (data : Bytes) (offset : ℕ) (m : Manifest) : Except ManifestErr Manifest :=
  if offset < data.length then
    if offset + 4 > data.length then .ok m
    else do
      let length ← uintAt .outOfRange data offset 4
      if offset + 4 + length > data.length then .ok m
      else
        let editData ← slice .outOfRange data (offset + 4) (offset + 4 + length)
        let edit ← decodeVersionEdit editData
        let m ← applyEditToMemory m edit
        replayEdits data (offset + 4 + length) m
  else .ok m
termination_by data.length - offset

/-- `OpenManifest` on a file with these bytes. -/
def openManifest (file : Bytes) : Except ManifestErr Manifest :=
  if file.length > 0 then replayEdits file 0 ⟨file, .empty, 1⟩ else .ok ⟨file, .empty, 1⟩

/-! ### The decoder stays in range -/

variable {data : Bytes} {offset : ℕ} {α : Type}

theorem agrees_decodeDeletedFile (h : offset ≤ data.length) :
    Agrees .invalid data (decodeDeletedFile data offset)
      (Lsm.decodeDeletedFile (data.drop offset)) := by
  refine agrees_need (fun hshort => ?_) (fun hlen => ?_) h
  · exact bind_splitBytes_eq_none (n := 8) hshort fun _ rest hrest =>
      bind_splitBytes_eq_none (n := 0) hrest fun _ _ h0 => absurd h0 (Nat.not_lt_zero _)
  · refine agrees_uintAt (by omega) fun level => agrees_uintAt (by omega) fun fileNum => ?_
    exact ⟨offset + 4 + 8, by omega, rfl, rfl⟩

theorem agrees_decodeFileMetadata (h : offset ≤ data.length) :
    Agrees .invalid data (decodeFileMetadata data offset)
      (Lsm.decodeFileMetadata (data.drop offset)) := by
  refine agrees_need (fun hshort => ?_) (fun hlen => ?_) h
  · exact bind_splitBytes_eq_none (n := 24) hshort fun _ rest hrest =>
      bind_splitBytes_eq_none (n := 16) hrest fun _ rest hrest =>
      bind_splitBytes_eq_none (n := 8) hrest fun _ rest hrest =>
      bind_splitBytes_eq_none (n := 0) hrest fun _ _ h0 => absurd h0 (Nat.not_lt_zero _)
  · -- the four numbers are behind one check, what follows has its own
    refine agrees_uintAt (by omega) fun level => agrees_uintAt (by omega) fun fileNum =>
      agrees_uintAt (by omega) fun fileSize => agrees_uintAt (by omega) fun numEntries => ?_
    refine agrees_need_uintAt (by omega) 4 fun smallLen hsmall => ?_
    refine agrees_need_slice hsmall _ fun smallestKey hkey => ?_
    refine agrees_need_uintAt hkey 4 fun largeLen hlarge => ?_
    refine agrees_need_slice hlarge _ fun largestKey hend => ?_
    exact ⟨_, hend, rfl, rfl⟩

theorem agrees_decodeTimes {decodeAt : ℕ → Except ManifestErr (α × ℕ)}
    {decode : Bytes → Option (α × Bytes)}
    (hround : ∀ offset ≤ data.length,
      Agrees .invalid data (decodeAt offset) (decode (data.drop offset))) (count : ℕ)
    (h : offset ≤ data.length) :
    Agrees .invalid data (decodeTimes decodeAt count offset)
      (Lsm.decodeTimes decode count (data.drop offset)) := by
  induction count generalizing offset with
  | zero => exact ⟨offset, h, rfl, rfl⟩
  | succ count ih =>
    refine (hround offset h).bind fun a offset h => (ih h).bind fun as offset h => ?_
    exact ⟨offset, h, rfl, rfl⟩

theorem agrees_readVersionEdit (data : Bytes) :
    Agrees .invalid data (readVersionEdit data) (Lsm.readVersionEdit data) := by
  have hstart : 0 ≤ data.length := Nat.zero_le _
  refine agrees_need_uintAt hstart 8 fun nextFileNum h => ?_
  refine agrees_need_uintAt h 4 fun numDeleted h => ?_
  refine (agrees_decodeTimes (fun _ => agrees_decodeDeletedFile) _ h).bind
    fun deletedFiles offset h => ?_
  refine agrees_need_uintAt h 4 fun numAdded h => ?_
  refine (agrees_decodeTimes (fun _ => agrees_decodeFileMetadata) _ h).bind
    fun addedFiles offset h => ?_
  exact ⟨offset, h, rfl, rfl⟩

/-- **The decoder is never out of range**: it gives the edit or `os.ErrInvalid`. -/
theorem decodeVersionEdit_eq (data : Bytes) :
    decodeVersionEdit data = (Lsm.decodeVersionEdit data).elim (.error .invalid) .ok := by
  rw [Lsm.decodeVersionEdit_eq, decodeVersionEdit]
  obtain ⟨hr, hd⟩ | ⟨v, offset, -, hr, hd⟩ := (agrees_readVersionEdit data).cases
  · rw [hr, hd]
    rfl
  · rw [hr, hd]
    rfl

/-! ### Which edits can be applied -/

/-- A loop whose rounds only fail on a check of their element. -/
theorem foldlM_check {σ E : Type} {f : σ → α → Except E σ} {g : σ → α → σ} {ok : α → Prop}
    [DecidablePred ok] {err : E} (hf : ∀ s a, f s a = if ok a then .ok (g s a) else .error err)
    (l : List α) (s : σ) :
    l.foldlM f s = if ∀ a ∈ l, ok a then .ok (l.foldl g s) else .error err := by
  induction l generalizing s with
  | nil => simp [pure, Except.pure]
  | cons a l ih =>
    rw [List.foldlM_cons, hf]
    by_cases ha : ok a
    · have hall : (∀ b ∈ a :: l, ok b) ↔ ∀ b ∈ l, ok b := by simp [ha]
      rw [if_pos ha, List.foldl_cons]
      simp only [hall]
      exact ih (g s a)
    · rw [if_neg ha, if_neg fun h => ha (h a (by simp))]
      rfl

theorem deleteFile_eq (v : Version) (df : DeletedFile) :
    deleteFile v df = if df.level < maxLevels then .ok (v.deleteFile df)
      else .error .outOfRange := by
  by_cases h : df.level < maxLevels
  · simp [deleteFile, levelAt, setLevelAt, h, bind, Except.bind, Version.deleteFile]
  · simp [deleteFile, levelAt, h, bind, Except.bind]

theorem addFile_eq (v : Version) (af : FileMetadata) :
    addFile v af = if af.level < maxLevels then .ok (v.addFile af) else .error .outOfRange := by
  by_cases h : af.level < maxLevels
  · simp [addFile, levelAt, setLevelAt, h, bind, Except.bind, Version.addFile]
  · simp [addFile, levelAt, h, bind, Except.bind]

/-- One level sorted. -/
private def sorted (v : Version) (i : ℕ) : Version :=
  ⟨Function.update v.levels i (sortBySmallestKey (v.levels i))⟩

private theorem sortLevel_eq (v : Version) (i : ℕ) :
    sortLevel v i = if i < maxLevels then .ok (sorted v i) else .error .outOfRange := by
  by_cases h : i < maxLevels
  · by_cases hlen : (v.levels i).length > 1
    · simp [sortLevel, levelAt, setLevelAt, h, hlen, bind, Except.bind, sorted]
    · -- a level of one file or none is sorted as it is
      have hself : sortBySmallestKey (v.levels i) = v.levels i := by
        revert hlen
        rcases v.levels i with _ | ⟨f, _ | ⟨g, fs⟩⟩
        · exact fun _ => rfl
        · exact fun _ => rfl
        · simp
      simp [sortLevel, levelAt, h, hlen, bind, Except.bind, pure, Except.pure, sorted, hself]
  · simp [sortLevel, levelAt, h, bind, Except.bind]

private theorem levels_foldl_sorted {l : List ℕ} (hl : l.Nodup) (v : Version) (level : ℕ) :
    (l.foldl sorted v).levels level =
      if level ∈ l then sortBySmallestKey (v.levels level) else v.levels level := by
  induction l generalizing v with
  | nil => simp
  | cons i l ih =>
    obtain ⟨hi, hl⟩ := List.nodup_cons.1 hl
    rw [List.foldl_cons, ih hl, sorted]
    dsimp only
    by_cases hlevel : level = i
    · subst hlevel
      rw [if_neg hi, Function.update_self, if_pos (by simp)]
    · rw [Function.update_of_ne hlevel]
      simp [hlevel]

private theorem foldl_sorted (v : Version) :
    (List.range' 1 (maxLevels - 1)).foldl sorted v = v.sortLevels := by
  refine Version.ext (funext fun level => ?_)
  rw [levels_foldl_sorted List.nodup_range', Version.sortLevels_levels]
  have hmem : level ∈ List.range' 1 (maxLevels - 1) ↔ 1 ≤ level ∧ level < maxLevels := by
    rw [List.mem_range'_1]
    exact Iff.rfl
  simp only [hmem]

/-- **An edit is applied in range exactly when its levels exist.** -/
theorem applyEditToMemory_eq (m : Manifest) (e : VersionEdit) :
    applyEditToMemory m e = (m.applyEditToMemory e).elim (.error .outOfRange) .ok := by
  have hsort : ∀ i ∈ List.range' 1 (maxLevels - 1), i < maxLevels := by decide
  have hrange : e.InRange ↔ (∀ df ∈ e.deletedFiles, df.level < maxLevels) ∧
      ∀ f ∈ e.addedFiles, f.level < maxLevels := Iff.rfl
  rw [applyEditToMemory, foldlM_check deleteFile_eq, Manifest.applyEditToMemory]
  by_cases hdel : ∀ df ∈ e.deletedFiles, df.level < maxLevels
  · rw [if_pos hdel]
    change (e.addedFiles.foldlM addFile _ >>= _) = _
    rw [foldlM_check addFile_eq]
    by_cases hadd : ∀ f ∈ e.addedFiles, f.level < maxLevels
    · rw [if_pos hadd, if_pos (hrange.2 ⟨hdel, hadd⟩)]
      change ((List.range' 1 (maxLevels - 1)).foldlM sortLevel _ >>= _) = _
      rw [foldlM_check sortLevel_eq, if_pos hsort, foldl_sorted]
      rfl
    · rw [if_neg hadd, if_neg fun h => hadd (hrange.1 h).2]
      rfl
  · rw [if_neg hdel, if_neg fun h => hdel (hrange.1 h).1]
    rfl

/-! ### The loop -/

theorem replayEdits_eq (data : Bytes) {fuel : ℕ} (m : Manifest) (hle : offset ≤ data.length)
    (hfuel : data.length ≤ offset + fuel) :
    replayEdits data offset m = Lsm.replayEdits fuel (data.drop offset) m := by
  induction fuel generalizing offset m with
  | zero =>
    rw [replayEdits, if_neg (by omega)]
    rfl
  | succ fuel ih =>
    rw [replayEdits, Lsm.replayEdits]
    by_cases hhead : offset + 4 ≤ data.length
    · rw [if_pos (by omega), if_neg (by omega), uintAt_of_le _ hhead, splitBytes_drop hhead]
      set length := leNat ((data.drop offset).take 4) with hlength
      change (if offset + 4 + length > data.length then _ else _) = _
      dsimp only
      by_cases hbody : offset + 4 + length ≤ data.length
      · rw [if_neg (by omega), slice_of_le _ hbody, splitBytes_drop hbody]
        change (decodeVersionEdit _ >>= _) = _
        rw [decodeVersionEdit_eq]
        dsimp only
        cases Lsm.decodeVersionEdit ((data.drop (offset + 4)).take length) with
        | none => rfl
        | some e =>
          change (applyEditToMemory m e >>= _) = _
          rw [applyEditToMemory_eq]
          dsimp only
          cases m.applyEditToMemory e with
          | none => rfl
          | some m' => exact ih m' hbody (by omega)
      · rw [if_pos (by omega), splitBytes_drop_eq_none hhead (by omega)]
    · -- at the end of the file, or within the length of an edit
      rw [splitBytes_drop_eq_none hle (by omega)]
      by_cases hend : offset < data.length
      · rw [if_pos hend, if_pos (by omega)]
      · rw [if_neg hend]

/-- **Access by access, `OpenManifest` is the function of the manifest module.** -/
theorem openManifest_eq (file : Bytes) : openManifest file = Lsm.openManifest file := by
  rw [openManifest, Lsm.openManifest]
  by_cases h : file.length > 0
  · rw [if_pos h, replayEdits_eq file _ (Nat.zero_le _) (Nat.le_add_left _ _), List.drop_zero]
  · rw [if_neg h, Nat.eq_zero_of_not_pos h]
    rfl

end Indexed

/-! ### When opening panics -/

/-- The edits that the loop of `OpenManifest` decodes: up to the end of the file, to a frame that is
cut short or to one that cannot be decoded. -/
def decodedEdits : ℕ → Bytes → List VersionEdit
  | 0, _ => []
  | fuel + 1, data =>
    match splitBytes 4 data with
    | none => []
    | some (length, data) =>
      match splitBytes (leNat length) data with
      | none => []
      | some (editData, data) =>
        match decodeVersionEdit editData with
        | none => []
        | some e => e :: decodedEdits fuel data

theorem replayEdits_ne_outOfRange {fuel : ℕ} {data : Bytes} {m : Manifest} :
    replayEdits fuel data m ≠ .error .outOfRange ↔ ∀ e ∈ decodedEdits fuel data, e.InRange := by
  induction fuel generalizing data m with
  | zero => simp [replayEdits, decodedEdits]
  | succ fuel ih =>
    rw [replayEdits, decodedEdits]
    rcases splitBytes 4 data with _ | ⟨length, data⟩
    · simp
    · dsimp only
      rcases splitBytes (leNat length) data with _ | ⟨editData, data⟩
      · simp
      · dsimp only
        rcases decodeVersionEdit editData with _ | e
        · simp
        · rw [List.forall_mem_cons]
          dsimp only
          by_cases he : e.InRange
          · rw [Manifest.applyEditToMemory, if_pos he]
            simpa [he] using ih
          · rw [Manifest.applyEditToMemory, if_neg he]
            simp [he]

/-- **Opening a manifest is in range exactly when its edits are.** For every content of the file,
`OpenManifest` returns a manifest or an error, with no slice and no array access out of range, if
and only if every edit that it decodes names levels that exist. -/
theorem openManifest_in_range_iff (file : Bytes) :
    Indexed.openManifest file ≠ .error .outOfRange ↔
      ∀ e ∈ decodedEdits file.length file, e.InRange := by
  rw [Indexed.openManifest_eq]
  exact replayEdits_ne_outOfRange

/-- A well-formed file with one deletion at level `7`. -/
theorem openManifest_level_seven :
    Indexed.openManifest (VersionEdit.frame ⟨[], [⟨7, 0⟩], 0⟩) = .error .outOfRange := by
  rw [Indexed.openManifest_eq]
  rfl

end Stratum.Lsm
