import Mathlib.Data.List.Flatten
import Stratum.Lib.Run
import Stratum.Lsm.Codec

/-!
# Recovery of the manifest

A manifest is opened, edits are applied to it, and it is closed or its process dies; then it is
opened again. Any `Apply` may be cut short after some of its bytes: the process dies in it, or a
write returns an error and the session goes on. `Sessions` is such a history of one file, and
`complete` the edits whose bytes have all reached the file.

Replay reads frames, a length and an edit each, and stops at a frame that is cut short. It leaves
the torn bytes where they are, and the next `Apply` appends **behind** them.

* `openManifest_frames`: frames, and at the end a part of one, are replayed as the edits of the
  whole frames.
* `Sessions.recovers_of_intact`: as long as no `Apply` appends to a file with a torn edit, opening
  the manifest succeeds and applies exactly the complete edits.
* `Sessions.complete_edit_lost`: an edit that is applied behind one torn byte is gone after the
  next start.
-/

namespace Stratum.Lsm

open ByteCodec

/-! ### Edits that fit the file -/

/-- The numbers of a deletion fit their fields, and its level exists. -/
structure DeletedFile.Fits (df : DeletedFile) : Prop where
  level : df.level < maxLevels
  fileNum : df.fileNum < 2 ^ 64

/-- The numbers and the lengths of an added file fit their fields, and its level exists. -/
structure FileMetadata.Fits (f : FileMetadata) : Prop where
  level : f.level < maxLevels
  fileNum : f.fileNum < 2 ^ 64
  fileSize : f.fileSize < 2 ^ 64
  numEntries : f.numEntries < 2 ^ 64
  smallestKey : f.smallestKey.length < 2 ^ 32
  largestKey : f.largestKey.length < 2 ^ 32

/-- The numbers and the lengths of an edit fit their fields, and its levels exist. -/
structure VersionEdit.Fits (e : VersionEdit) : Prop where
  nextFileNum : e.nextFileNum < 2 ^ 64
  deletedFiles : ∀ df ∈ e.deletedFiles, df.Fits
  addedFiles : ∀ f ∈ e.addedFiles, f.Fits
  /-- the lists are not longer than the edit -/
  length : e.encode.length < 2 ^ 32

theorem VersionEdit.Fits.inRange {e : VersionEdit} (h : e.Fits) : e.InRange :=
  ⟨fun df hdf => (h.deletedFiles df hdf).level, fun f hf => (h.addedFiles f hf).level⟩

/-- Each element of an encoded list takes bytes, so the list is not longer than its bytes. -/
private theorem length_le_flatMap {α : Type} {encode : α → Bytes}
    (h : ∀ a, 0 < (encode a).length) (as : List α) : as.length ≤ (as.flatMap encode).length := by
  induction as with
  | nil => simp
  | cons a as ih =>
    have := h a
    rw [List.flatMap_cons, List.length_append, List.length_cons]
    omega

theorem VersionEdit.Fits.length_deletedFiles {e : VersionEdit} (h : e.Fits) :
    e.deletedFiles.length < 2 ^ 32 := by
  have hle : e.deletedFiles.length ≤ (e.deletedFiles.flatMap DeletedFile.encode).length :=
    length_le_flatMap (fun df => by simp [DeletedFile.encode]) _
  have := h.length
  simp only [encode, List.length_append] at this
  omega

theorem VersionEdit.Fits.length_addedFiles {e : VersionEdit} (h : e.Fits) :
    e.addedFiles.length < 2 ^ 32 := by
  have hle : e.addedFiles.length ≤ (e.addedFiles.flatMap FileMetadata.encode).length :=
    length_le_flatMap (fun f => by simp [FileMetadata.encode]) _
  have := h.length
  simp only [encode, List.length_append] at this
  omega

theorem VersionEdit.Fits.inFields {e : VersionEdit} (h : e.Fits) : e.InFields where
  nextFileNum := h.nextFileNum
  numDeleted := h.length_deletedFiles
  numAdded := h.length_addedFiles
  deletedFiles df hdf :=
    let hfits := h.deletedFiles df hdf
    ⟨hfits.level.trans (by decide), hfits.fileNum⟩
  addedFiles f hf :=
    let hfits := h.addedFiles f hf
    ⟨hfits.level.trans (by decide), hfits.fileNum, hfits.fileSize, hfits.numEntries,
      hfits.smallestKey, hfits.largestKey⟩

/-! ### Replay -/

/-- The bytes are a part of the frame of an edit, cut short. -/
def IsTorn (tail : Bytes) : Prop := ∃ e : VersionEdit, e.Fits ∧ ∃ n < e.frame.length,
  tail = e.frame.take n

theorem isTorn_nil : IsTorn [] :=
  ⟨⟨[], [], 0⟩, ⟨by decide, by simp, by simp, by decide⟩, 0, by decide, rfl⟩

/-- Replay stops at a torn frame. -/
theorem replayEdits_torn {tail : Bytes} (h : IsTorn tail) (fuel : ℕ) (m : Manifest) :
    replayEdits fuel tail m = .ok m := by
  obtain ⟨e, he, n, hn, rfl⟩ := h
  cases fuel with
  | zero => rfl
  | succ fuel =>
    by_cases hprefix : n < 4
    · -- not even the length is there
      have hsplit : splitBytes 4 (e.frame.take n) = none := by
        rw [splitBytes, if_pos]
        rw [List.length_take]
        omega
      simp only [replayEdits, hsplit]
    · have hframe : e.frame.take n = leBytes 4 e.encode.length ++ e.encode.take (n - 4) := by
        rw [VersionEdit.frame, List.take_append, List.take_of_length_le (by simp; omega),
          length_leBytes]
      have hsplit : splitBytes e.encode.length (e.encode.take (n - 4)) = none := by
        rw [VersionEdit.frame, List.length_append, length_leBytes] at hn
        rw [splitBytes, if_pos]
        rw [List.length_take]
        omega
      simp only [replayEdits, hframe, (reads_leBytes 4 _).append, leNat_uint32 he.length, hsplit]

/-- The version that a sequence of edits builds. -/
def Version.ofEdits (es : List VersionEdit) : Version := es.foldl Version.edit .empty

/-- Replay of whole frames, and then of what is left. -/
theorem replayEdits_frames {es : List VersionEdit} (h : ∀ e ∈ es, e.Fits) (tail : Bytes)
    (fuel : ℕ) (m : Manifest) :
    ∃ m', replayEdits (es.length + fuel) (es.flatMap VersionEdit.frame ++ tail) m =
        replayEdits fuel tail m' ∧
      m'.current = es.foldl Version.edit m.current ∧
      m'.nextFileNum = es.foldl (fun n e => max n e.nextFileNum) m.nextFileNum := by
  induction es generalizing m with
  | nil => exact ⟨m, by simp, rfl, rfl⟩
  | cons e es ih =>
    have he := h e List.mem_cons_self
    obtain ⟨m₁, hm₁, hcurrent, hnext⟩ : ∃ m₁, m.applyEditToMemory e = some m₁ ∧
        m₁.current = m.current.edit e ∧ m₁.nextFileNum = max m.nextFileNum e.nextFileNum := by
      refine ⟨_, if_pos he.inRange, rfl, ?_⟩
      dsimp only
      split <;> omega
    obtain ⟨m', hm', hcurrent', hnext'⟩ :=
      ih (fun e' he' => h e' (List.mem_cons_of_mem _ he')) m₁
    refine ⟨m', ?_, by rw [hcurrent', hcurrent, List.foldl_cons],
      by rw [hnext', hnext, List.foldl_cons]⟩
    rw [List.length_cons, Nat.add_right_comm, List.flatMap_cons, VersionEdit.frame,
      List.append_assoc, List.append_assoc, replayEdits, (reads_leBytes 4 _).append]
    simp only [leNat_uint32 he.length, splitBytes_append, decodeVersionEdit_encode he.inFields, hm₁]
    exact hm'

theorem VersionEdit.length_le_frames (es : List VersionEdit) :
    es.length ≤ (es.flatMap VersionEdit.frame).length :=
  length_le_flatMap (fun e => by simp [VersionEdit.frame]) es

/-- **Replay of a manifest with a torn end**: the edits of the whole frames are applied, and the
counter is the largest number that one of them carries, but at least `1`. -/
theorem openManifest_frames {es : List VersionEdit} (h : ∀ e ∈ es, e.Fits) {tail : Bytes}
    (htail : IsTorn tail) :
    ∃ m, openManifest (es.flatMap VersionEdit.frame ++ tail) = .ok m ∧
      m.current = Version.ofEdits es ∧
      m.nextFileNum = es.foldl (fun n e => max n e.nextFileNum) 1 := by
  have hle := VersionEdit.length_le_frames es
  obtain ⟨fuel, hfuel⟩ := Nat.exists_eq_add_of_le
    (hle.trans (Nat.le_add_right _ tail.length))
  obtain ⟨m, hm, hrest⟩ := replayEdits_frames h tail fuel ⟨es.flatMap VersionEdit.frame ++ tail,
    .empty, 1⟩
  refine ⟨m, ?_, hrest⟩
  rw [openManifest, List.length_append, hfuel, hm, replayEdits_torn htail]

/-! ### Sessions on one manifest -/

/-- The manifest over several sessions; `complete` is the list of the edits all of whose bytes
have reached the file. -/
structure Sessions where
  manifest : Manifest
  opened : Bool
  complete : List VersionEdit

/-- What happens to a manifest. A crash is a torn `Apply` and the end of the session. -/
inductive SessionAct
  | openManifest
  | apply (e : VersionEdit)
  /-- `Apply` that stops after `n` bytes with an error -/
  | applyTorn (e : VersionEdit) (n : ℕ)
  | close
deriving DecidableEq

namespace Sessions

/-- A directory without a manifest. -/
def init : Sessions := ⟨⟨[], .empty, 1⟩, false, []⟩

/-- What a step does; `none` when it is not enabled. -/
def step (s : Sessions) : SessionAct → Option Sessions
  | .openManifest =>
    if s.opened then none
    else match Lsm.openManifest s.manifest.file with
      | .error _ => none
      | .ok m => some { s with manifest := m, opened := true }
  | .apply e =>
    if s.opened then
      match s.manifest.apply e with
      | some m => some { s with manifest := m, complete := s.complete ++ [e] }
      -- the index panic comes after the bytes were written
      | none => some ⟨s.manifest.applyTorn e e.frame.length, false, s.complete ++ [e]⟩
    else none
  | .applyTorn e n =>
    if s.opened then
      some { s with
        manifest := s.manifest.applyTorn e n
        complete := if e.frame.length ≤ n then s.complete ++ [e] else s.complete }
    else none
  | .close => if s.opened then some { s with opened := false } else none

/-- Opening the manifest succeeds and applies exactly the complete edits, in their order. -/
def Recovers (s : Sessions) : Prop :=
  ∃ m, Lsm.openManifest s.manifest.file = .ok m ∧ m.current = Version.ofEdits s.complete

/-- The file holds the complete edits and nothing else. -/
def Intact (s : Sessions) : Prop :=
  s.manifest.file = s.complete.flatMap VersionEdit.frame

/-- The condition on a step: an edit is only applied to an intact file, and it fits its fields. -/
def AppliesIntact (s : Sessions) : SessionAct → Prop
  | .apply e | .applyTorn e _ => e.Fits ∧ s.Intact
  | _ => True

/-- The file holds the complete edits, and behind them at most a part of one. -/
structure Framed (s : Sessions) : Prop where
  fits : ∀ e ∈ s.complete, e.Fits
  file : ∃ tail, IsTorn tail ∧ s.manifest.file = s.complete.flatMap VersionEdit.frame ++ tail

theorem framed_init : init.Framed := ⟨by simp [init], [], isTorn_nil, rfl⟩

theorem Framed.recovers {s : Sessions} (h : s.Framed) : s.Recovers := by
  obtain ⟨tail, htail, hfile⟩ := h.file
  rw [Recovers, hfile]
  obtain ⟨m, hm, hcurrent, -⟩ := openManifest_frames h.fits htail
  exact ⟨m, hm, hcurrent⟩

variable {s s' : Sessions} {e : VersionEdit} {m : Manifest}

/-- Bytes of an edit are appended to an intact file: all of them. -/
private theorem Framed.append (h : s.Framed) (he : e.Fits) (hintact : s.Intact)
    (hm : m.file = s.manifest.file ++ e.frame) (opened : Bool) :
    Framed ⟨m, opened, s.complete ++ [e]⟩ where
  fits e' he' := by
    rcases List.mem_append.mp he' with he' | he'
    · exact h.fits e' he'
    · exact List.mem_singleton.mp he' ▸ he
  file := by
    refine ⟨[], isTorn_nil, ?_⟩
    rw [List.append_nil, List.flatMap_append, List.flatMap_singleton, hm, hintact]

/-- Bytes of an edit are appended to an intact file: not all of them. -/
private theorem Framed.tear (h : s.Framed) (he : e.Fits) (hintact : s.Intact) {n : ℕ}
    (hn : n < e.frame.length) (hm : m.file = s.manifest.file ++ e.frame.take n) (opened : Bool) :
    Framed ⟨m, opened, s.complete⟩ where
  fits := h.fits
  file := ⟨e.frame.take n, ⟨e, he, n, hn, rfl⟩, by rw [hm, hintact]⟩

theorem Framed.step {a : SessionAct} (h : s.Framed) (hg : s.AppliesIntact a)
    (hs : s.step a = some s') : s'.Framed := by
  cases a with
  | openManifest =>
    simp only [Sessions.step] at hs
    split at hs
    · cases hs
    · split at hs <;> cases hs
      rename_i m hm
      have hfile : m.file = s.manifest.file := (openManifest_spec hm).1
      exact ⟨h.fits, hfile.symm ▸ h.file⟩
  | apply e =>
    simp only [Sessions.step] at hs
    split at hs
    · split at hs <;> cases hs
      · rename_i m hm
        exact h.append hg.1 hg.2 (Manifest.applyEditToMemory_eq hm).1 _
      · exact h.append hg.1 hg.2 (by rw [Manifest.applyTorn, List.take_length]) _
    · cases hs
  | applyTorn e n =>
    simp only [Sessions.step] at hs
    split at hs <;> cases hs
    split
    · rename_i hn
      exact h.append hg.1 hg.2 (by rw [Manifest.applyTorn, List.take_of_length_le hn]) _
    · rename_i hn
      exact h.tear hg.1 hg.2 (Nat.lt_of_not_le hn) rfl _
  | close =>
    simp only [Sessions.step] at hs
    split at hs <;> cases hs
    exact ⟨h.fits, h.file⟩

/-- **Recovery.** In every state of every history of sessions in which no edit is applied to a file
with a torn edit, opening the manifest succeeds and gives the version of the complete edits. -/
theorem recovers_of_intact {tr : List SessionAct}
    (hg : Machine.Guarded step AppliesIntact init tr) (hr : Machine.run step init tr = some s) :
    s.Recovers :=
  (Machine.run_guarded_invariant (I := Framed) (fun _ _ _ h hg hs => h.step hg hs)
    framed_init hg hr).recovers

/-- An edit that adds one small file. -/
def addOneFile : VersionEdit := ⟨[⟨0, 1, 10, [107], [107], 1⟩], [], 0⟩

theorem fits_addOneFile : addOneFile.Fits where
  nextFileNum := by decide
  deletedFiles := by simp [addOneFile]
  addedFiles f hf := by
    obtain rfl := List.mem_singleton.mp hf
    exact ⟨by decide, by decide, by decide, by decide, by decide, by decide⟩
  length := by decide

/-- An edit is applied, and the process dies in the next one after five bytes. -/
theorem recovers_after_torn_end :
    ∃ s, Machine.run step init
        [.openManifest, .apply addOneFile, .applyTorn addOneFile 5, .close] = some s ∧
      s.complete = [addOneFile] ∧ s.Recovers := by
  have hg : Machine.Guarded step AppliesIntact init
      [.openManifest, .apply addOneFile, .applyTorn addOneFile 5, .close] :=
    .cons rfl trivial <| .cons rfl ⟨fits_addOneFile, rfl⟩ <|
      .cons rfl ⟨fits_addOneFile, rfl⟩ <| .cons rfl trivial trivial
  exact ⟨_, rfl, rfl, recovers_of_intact hg rfl⟩

/-- **An applied edit is lost.** One byte of a first `Apply` reaches the file before it fails; the
second `Apply` succeeds, and replay takes the byte and the next three for a length. -/
theorem complete_edit_lost :
    ∃ s, Machine.run step init
        [.openManifest, .applyTorn addOneFile 1, .apply addOneFile, .close] = some s ∧
      s.complete = [addOneFile] ∧ ¬ s.Recovers := by
  refine ⟨_, rfl, rfl, ?_⟩
  rintro ⟨m, hm, hcurrent⟩
  cases hm
  exact absurd (congrFun (congrArg Version.levels hcurrent) 0) (by decide)

end Sessions

end Stratum.Lsm
