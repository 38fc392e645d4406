import Stratum.Lsm.Recovery

/-!
# A manifest opened again

Edits are applied to a fresh manifest and the file is opened again. Replay does to the empty version
what `Apply` did, edit by edit, so the levels come out the same, file for file (`reopens_of_short`).

The length in front of an edit has 32 bits, and `Apply` does not check that it fits: for an edit of
**4 GiB or more** it writes the length modulo `2^32`. Replay then decodes a beginning of the edit,
which is never an edit (`decodeVersionEdit_cut`), and `OpenManifest` fails
(`openManifest_long`).
-/

namespace Stratum.Lsm

open ByteCodec

/-- What `OpenManifest` makes of a file that does not exist. -/
def Manifest.fresh : Manifest := ⟨[], .empty, 1⟩

/-- `Apply` for one edit after the other, all without an error. -/
def Manifest.applyAll (m : Manifest) (es : List VersionEdit) : Option Manifest :=
  es.foldlM Manifest.apply m

variable {m m' : Manifest} {es : List VersionEdit} {n : ℕ}

/-- What the edits leave, on disk and in memory. -/
theorem Manifest.applyAll_eq (h : m.applyAll es = some m') :
    m'.file = m.file ++ es.flatMap VersionEdit.frame ∧
      m'.current = es.foldl Version.edit m.current ∧ ∀ e ∈ es, e.InRange := by
  induction es generalizing m with
  | nil =>
    cases h
    simp
  | cons e es ih =>
    rw [applyAll, List.foldlM_cons, Option.bind_eq_bind, Option.bind_eq_some_iff] at h
    obtain ⟨m₁, hm₁, hrest⟩ := h
    rw [apply, applyEditToMemory] at hm₁
    split at hm₁
    · rename_i hrange
      cases hm₁
      obtain ⟨hfile, hcurrent, hranges⟩ := ih hrest
      refine ⟨?_, hcurrent, List.forall_mem_cons.2 ⟨hrange, hranges⟩⟩
      rw [hfile, List.flatMap_cons, List.append_assoc]
    · cases hm₁

/-- An edit that fits the fields, with levels that exist and a length that fits too. -/
theorem VersionEdit.InFields.fits {e : VersionEdit} (h : e.InFields) (hrange : e.InRange)
    (hlen : e.encode.length < 2 ^ 32) : e.Fits where
  nextFileNum := h.nextFileNum
  deletedFiles df hdf := ⟨hrange.1 df hdf, (h.deletedFiles df hdf).fileNum⟩
  addedFiles f hf :=
    have hin := h.addedFiles f hf
    ⟨hrange.2 f hf, hin.fileNum, hin.fileSize, hin.numEntries, hin.smallestKey, hin.largestKey⟩
  length := hlen

/-- Edits whose lengths fit are replayed to the same version. -/
theorem Manifest.reopens_of_short (hfields : ∀ e ∈ es, e.InFields) (h : fresh.applyAll es = some m)
    (hlen : ∀ e ∈ es, e.encode.length < 2 ^ 32) :
    ∃ m', openManifest m.file = .ok m' ∧ m'.current = m.current := by
  obtain ⟨hfile, hcurrent, hrange⟩ := applyAll_eq h
  have hfits : ∀ e ∈ es, e.Fits := fun e he => (hfields e he).fits (hrange e he) (hlen e he)
  obtain ⟨m', hm', hcurrent', -⟩ := openManifest_frames hfits isTorn_nil
  refine ⟨m', ?_, hcurrent'.trans hcurrent.symm⟩
  rw [hfile]
  simpa [fresh] using hm'

/-- **An edit whose length does not fit cannot be replayed.** -/
theorem openManifest_long {es : List VersionEdit} (hfits : ∀ e ∈ es, e.Fits) {e : VersionEdit}
    (he : e.InFields) (hlen : 2 ^ 32 ≤ e.encode.length) (tail : Bytes) :
    openManifest (es.flatMap VersionEdit.frame ++ (e.frame ++ tail)) = .error .invalid := by
  have hfuel : es.length + 1 ≤ (es.flatMap VersionEdit.frame ++ (e.frame ++ tail)).length := by
    have hle := VersionEdit.length_le_frames es
    have hframe : 4 ≤ e.frame.length := by
      rw [VersionEdit.frame, List.length_append, length_leBytes]
      omega
    rw [List.length_append, List.length_append]
    omega
  obtain ⟨fuel, hfuel⟩ := Nat.exists_eq_add_of_le hfuel
  obtain ⟨m, hm, -⟩ := replayEdits_frames hfits (e.frame ++ tail) (1 + fuel)
    ⟨es.flatMap VersionEdit.frame ++ (e.frame ++ tail), .empty, 1⟩
  -- the length is taken modulo `2^32`, and so many bytes of the edit are decoded
  have hmod : leNat (leBytes 4 e.encode.length) < e.encode.length := by
    have hlt := leNat_lt (leBytes 4 e.encode.length)
    rw [length_leBytes] at hlt
    have : (256 : ℕ) ^ 4 = 2 ^ 32 := by decide
    omega
  have hsplit : splitBytes (leNat (leBytes 4 e.encode.length)) (e.encode ++ tail) =
      some (e.encode.take (leNat (leBytes 4 e.encode.length)),
        (e.encode ++ tail).drop (leNat (leBytes 4 e.encode.length))) := by
    rw [splitBytes, if_neg (by rw [List.length_append]; omega),
      List.take_append_of_le_length hmod.le]
  rw [openManifest, hfuel, Nat.add_assoc, hm, Nat.add_comm 1 fuel, replayEdits, VersionEdit.frame,
    List.append_assoc, (reads_leBytes 4 _).append]
  simp only [hsplit, decodeVersionEdit_cut he hmod]

/-- Edits that are replayed have lengths that fit. -/
theorem Manifest.short_of_reopens (hfields : ∀ e ∈ es, e.InFields) (h : fresh.applyAll es = some m)
    (hm' : openManifest m.file = .ok m') : ∀ e ∈ es, e.encode.length < 2 ^ 32 := by
  by_contra hlong
  -- the first edit that is too long
  obtain ⟨e, hfind⟩ : ∃ e, es.find? (fun e => decide (2 ^ 32 ≤ e.encode.length)) = some e := by
    rw [← Option.isSome_iff_exists, List.find?_isSome]
    simpa using hlong
  obtain ⟨hlen, before, after, rfl, hshort⟩ := List.find?_eq_some_iff_append.1 hfind
  obtain ⟨hfile, -, hrange⟩ := applyAll_eq h
  have hfits : ∀ e ∈ before, e.Fits := by
    intro e' he'
    have hmem := List.mem_append_left (e :: after) he'
    exact (hfields e' hmem).fits (hrange e' hmem) (by simpa using hshort e' he')
  rw [hfile, List.flatMap_append, List.flatMap_cons] at hm'
  have herr := openManifest_long hfits (hfields e (by simp)) (by simpa using hlen)
    (after.flatMap VersionEdit.frame)
  rw [show fresh.file = [] from rfl, List.nil_append, herr] at hm'
  cases hm'

/-- **Codec and replay of the manifest.** An edit that fits the fields is decoded to itself, and no
part of its encoding is decoded at all. After edits were applied to a fresh manifest, opening its
file again gives the same levels, exactly when each edit is encoded in less than `2^32` bytes. -/
theorem Manifest.codec_and_reopen_iff {e : VersionEdit} (he : e.InFields) {es : List VersionEdit}
    {m : Manifest} (hfields : ∀ e ∈ es, e.InFields) (h : fresh.applyAll es = some m) :
    decodeVersionEdit e.encode = some e ∧
      (∀ p, p <+: e.encode → p ≠ e.encode → decodeVersionEdit p = none) ∧
      ((∃ m', openManifest m.file = .ok m' ∧ m'.current = m.current) ↔
        ∀ e ∈ es, e.encode.length < 2 ^ 32) := by
  refine ⟨decodeVersionEdit_encode he, fun p hp hne => ?_, ?_, reopens_of_short hfields h⟩
  · rw [List.prefix_iff_eq_take.1 hp]
    exact decodeVersionEdit_cut he
      (lt_of_le_of_ne hp.length_le fun hlen => hne (hp.eq_of_length hlen))
  · rintro ⟨m', hm', -⟩
    exact short_of_reopens hfields h hm'

/-- A manifest with one small edit is opened again. -/
theorem Manifest.reopen_addOneFile :
    ∃ m, fresh.applyAll [Sessions.addOneFile] = some m ∧
      ∃ m', openManifest m.file = .ok m' ∧ m'.current = m.current := by
  have hfields := Sessions.fits_addOneFile.inFields
  refine ⟨_, rfl, (codec_and_reopen_iff hfields (List.forall_mem_singleton.2 hfields) rfl).2.2.2 ?_⟩
  exact List.forall_mem_singleton.2 Sessions.fits_addOneFile.length

/-- An edit that adds one file whose smallest key has `n` bytes. -/
def addWideFile (n : ℕ) : VersionEdit := ⟨[⟨0, 1, 0, List.replicate n 0, [], 0⟩], [], 0⟩

theorem length_encode_addWideFile (n : ℕ) : (addWideFile n).encode.length = n + 52 := by
  simp only [addWideFile, VersionEdit.encode, List.flatMap_nil, List.flatMap_singleton,
    FileMetadata.encode, List.length_append, length_leBytes, List.length_replicate,
    List.length_nil]
  omega

theorem inFields_addWideFile (h : n < 2 ^ 32) : (addWideFile n).InFields where
  nextFileNum := by simp [addWideFile]
  numDeleted := by simp [addWideFile]
  numAdded := by simp [addWideFile]
  deletedFiles := by simp [addWideFile]
  addedFiles := by
    refine List.forall_mem_singleton.2 ⟨by simp, by simp, by simp, by simp, ?_, by simp⟩
    rwa [List.length_replicate]

private theorem reopen_addWideFile (h : n < 2 ^ 32) (hlong : 2 ^ 32 ≤ n + 52) :
    ∃ m, Manifest.fresh.applyAll [addWideFile n] = some m ∧
      openManifest m.file = .error .invalid := by
  have hrange : (addWideFile n).InRange := by
    refine ⟨by simp [addWideFile], List.forall_mem_singleton.2 ?_⟩
    change 0 < maxLevels
    decide
  have hlen : 2 ^ 32 ≤ (addWideFile n).encode.length := by rwa [length_encode_addWideFile]
  have happly : Manifest.fresh.apply (addWideFile n) =
      some ⟨(addWideFile n).frame, Version.empty.edit (addWideFile n), 1⟩ := by
    rw [Manifest.apply, Manifest.applyEditToMemory, if_pos hrange]
    simp [Manifest.fresh, addWideFile]
  have herr := @openManifest_long [] (by simp) _ (inFields_addWideFile h) hlen []
  rw [List.flatMap_nil, List.nil_append, List.append_nil] at herr
  exact ⟨_, by rw [Manifest.applyAll, List.foldlM_cons, happly]; rfl, herr⟩

/-- **A manifest that cannot be opened again.** The only edit adds a file with a smallest key of
`2^32 - 52` bytes. It is encoded in `2^32` bytes, the length in front of it is zero, and
`OpenManifest` fails on the empty edit. -/
theorem Manifest.reopen_fails :
    (addWideFile (2 ^ 32 - 52)).InFields ∧
      ∃ m, fresh.applyAll [addWideFile (2 ^ 32 - 52)] = some m ∧
        openManifest m.file = .error .invalid :=
  ⟨inFields_addWideFile (by decide), reopen_addWideFile (by decide) (by decide)⟩

end Stratum.Lsm
