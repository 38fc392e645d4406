import Stratum.Mvcc.Key

/-!
# Versions and point lookups

A `Version` is the layout of the tree: for each level the metadata of its files. Level `0` is in
flush order and its files may overlap; the deeper levels are meant to be sorted and disjoint.
`Version.get` is `LSMTree.Get`: it scans level `0` from the last file to the first, then asks on
each deeper level the one file that a binary search over the key ranges finds. A file without a
reader is skipped silently, and an error of a reader ends the lookup.

The lookup is generic in the readers: `readers` is the map from file numbers to open readers and
`rget` the lookup in one of them.
-/

namespace Stratum.Lsm

open Mvcc

/-- `MaxLevels`. -/
def maxLevels : ℕ := 7

/-- `FileMetadata`. -/
structure FileMetadata where
  level : ℕ
  fileNum : ℕ
  fileSize : ℕ
  smallestKey : Bytes
  largestKey : Bytes
  numEntries : ℕ
deriving DecidableEq, Repr

/-- `Version`: the files of each level; levels from `maxLevels` on are never used. -/
@[ext]
structure Version where
  levels : ℕ → List FileMetadata

/-- The version of a fresh manifest. -/
def Version.empty : Version := ⟨fun _ => []⟩

/-- The file is part of the version. -/
def Version.Live (v : Version) (num : ℕ) : Prop :=
  ∃ level < maxLevels, ∃ f ∈ v.levels level, f.fileNum = num

section Lookup

variable {R E α β : Type*}

/-- Ask one after the other until one answers or fails. -/
def firstHit (ask : α → Except E (Option β)) : List α → Except E (Option β)
  | [] => .ok none
  | a :: as =>
    match ask a with
    | .error e => .error e
    | .ok (some b) => .ok (some b)
    | .ok none => firstHit ask as

/-- The lookup in one file; a file that has no reader has no answer. -/
def askFile (readers : ℕ → Option R) (rget : R → Bytes → Except E (Option (Option Bytes)))
    (key : Bytes) (f : FileMetadata) : Except E (Option (Option Bytes)) :=
  match readers f.fileNum with
  | none => .ok none
  | some r => rget r key

/-- The key lies in the range of the file. -/
def FileMetadata.covers (f : FileMetadata) (key : Bytes) : Bool :=
  compareKeys key f.smallestKey != .lt && compareKeys key f.largestKey != .gt

/-- The binary search of `LSMTree.Get` over the files `lo, …, hi - 1` of a level (`right` is
`hi - 1`). Each round shrinks the range, so the length of the range is fuel enough. -/
def searchLevel (files : List FileMetadata) (key : Bytes) :
    ℕ → ℕ → ℕ → Option FileMetadata
  | 0, _, _ => none
  | fuel + 1, lo, hi =>
    if lo < hi then
      let mid := lo + (hi - 1 - lo) / 2
      match files[mid]? with
      | none => none
      | some f =>
        if f.covers key then some f
        else if compareKeys key f.smallestKey = .lt then searchLevel files key fuel lo mid
        else searchLevel files key fuel (mid + 1) hi
    else none

/-- The file of a deeper level that a lookup asks. -/
def targetFile (files : List FileMetadata) (key : Bytes) : Option FileMetadata :=
  searchLevel files key files.length 0 files.length

/-- The lookup on one of the levels from `1` on. -/
def askLevel (readers : ℕ → Option R) (rget : R → Bytes → Except E (Option (Option Bytes)))
    (v : Version) (key : Bytes) (level : ℕ) : Except E (Option (Option Bytes)) :=
  match targetFile (v.levels level) key with
  | none => .ok none
  | some f => askFile readers rget key f

/-- `LSMTree.Get`. -/
def Version.get (v : Version) (readers : ℕ → Option R)
    (rget : R → Bytes → Except E (Option (Option Bytes))) (key : Bytes) :
    Except E (Option (Option Bytes)) :=
  match firstHit (askFile readers rget key) (v.levels 0).reverse with
  | .error e => .error e
  | .ok (some val) => .ok (some val)
  | .ok none => firstHit (askLevel readers rget v key) [1, 2, 3, 4, 5, 6]

/-- An answer from above, or else what the tree says. -/
def orTree (above : Option β) (below : Except E (Option β)) : Except E (Option β) :=
  match above with
  | some b => .ok (some b)
  | none => below

theorem orTree_or (a b : Option β) (below : Except E (Option β)) :
    orTree (a.or b) below = orTree a (orTree b below) := by
  cases a <;> rfl

theorem orTree_ok (a b : Option β) : orTree a (.ok b : Except E (Option β)) = .ok (a.or b) := by
  cases a <;> rfl

/-! ### Lookups and changes of the version -/

theorem firstHit_congr {ask ask' : α → Except E (Option β)} {l : List α}
    (h : ∀ a ∈ l, ask a = ask' a) : firstHit ask l = firstHit ask' l := by
  induction l with
  | nil => rfl
  | cons a as ih =>
    rw [firstHit, firstHit, h a (by simp), ih fun b hb => h b (by simp [hb])]

/-- Asking one after the other, when all of them answer. -/
theorem firstHit_ok {ask : α → Except E (Option β)} {g : α → Option β} {l : List α}
    (h : ∀ a ∈ l, ask a = .ok (g a)) : firstHit ask l = .ok (l.findSome? g) := by
  induction l with
  | nil => rfl
  | cons a as ih =>
    rw [firstHit, h a (by simp), List.findSome?_cons]
    cases g a with
    | none => exact ih fun b hb => h b (by simp [hb])
    | some b => rfl

variable {key : Bytes} {f : FileMetadata} {v : Version} {readers : ℕ → Option R}
  {rget : R → Bytes → Except E (Option (Option Bytes))}

theorem searchLevel_eq_some {files : List FileMetadata} {fuel lo hi : ℕ}
    (h : searchLevel files key fuel lo hi = some f) : f ∈ files ∧ f.covers key = true := by
  induction fuel generalizing lo hi with
  | zero => simp [searchLevel] at h
  | succ fuel ih =>
    simp only [searchLevel] at h
    split at h
    · split at h
      · cases h
      · rename_i g hg
        split at h
        · cases h
          exact ⟨List.mem_of_getElem? hg, ‹_›⟩
        · split at h <;> exact ih h
    · cases h

theorem targetFile_mem {files : List FileMetadata} (h : targetFile files key = some f) :
    f ∈ files := (searchLevel_eq_some h).1

/-- A lookup only depends on the readers of the files of the version. -/
theorem Version.get_congr {readers' : ℕ → Option R} (h : ∀ n, v.Live n → readers n = readers' n)
    (key : Bytes) :
    v.get readers rget key = v.get readers' rget key := by
  have h0 : firstHit (askFile readers rget key) (v.levels 0).reverse
      = firstHit (askFile readers' rget key) (v.levels 0).reverse := by
    refine firstHit_congr fun f hf => ?_
    rw [askFile, askFile,
      h f.fileNum ⟨0, by decide, f, List.mem_reverse.mp hf, rfl⟩]
  have h1 : firstHit (askLevel readers rget v key) [1, 2, 3, 4, 5, 6]
      = firstHit (askLevel readers' rget v key) [1, 2, 3, 4, 5, 6] := by
    refine firstHit_congr fun level hlevel => ?_
    have hlt : level < maxLevels := by
      simp only [List.mem_cons, List.not_mem_nil, or_false] at hlevel
      rw [maxLevels]
      omega
    simp only [askLevel]
    cases ht : targetFile (v.levels level) key with
    | none => rfl
    | some f =>
      simp only [askFile]
      rw [h f.fileNum ⟨level, hlt, f, targetFile_mem ht, rfl⟩]
  rw [Version.get, Version.get, h0, h1]

/-- When no file has an answer, the lookup finds nothing. -/
theorem Version.get_eq_none
    (h : ∀ level < maxLevels, ∀ f ∈ v.levels level, askFile readers rget key f = .ok none) :
    v.get readers rget key = .ok none := by
  have h0 : firstHit (askFile readers rget key) (v.levels 0).reverse = .ok none :=
    (firstHit_ok fun f hf => h 0 (by decide) f (List.mem_reverse.mp hf)).trans (by simp)
  have hdeep : firstHit (askLevel readers rget v key) [1, 2, 3, 4, 5, 6] = .ok none := by
    refine (firstHit_ok (g := fun _ => none) fun level hlevel => ?_).trans (by simp)
    have hlt : level < maxLevels := by
      simp only [List.mem_cons, List.not_mem_nil, or_false] at hlevel
      rw [maxLevels]
      omega
    rw [askLevel]
    cases ht : targetFile (v.levels level) key with
    | none => rfl
    | some f => exact h level hlt f (targetFile_mem ht)
  rw [Version.get, h0]
  exact hdeep

/-- A file added to level `0` is the last one there. -/
def Version.addL0 (v : Version) (f : FileMetadata) : Version :=
  ⟨Function.update v.levels 0 (v.levels 0 ++ [f])⟩

theorem Version.levels_addL0_zero (v : Version) (f : FileMetadata) :
    (v.addL0 f).levels 0 = v.levels 0 ++ [f] := by
  simp [addL0]

theorem Version.levels_addL0_of_pos (v : Version) (f : FileMetadata) {level : ℕ}
    (h : 1 ≤ level) : (v.addL0 f).levels level = v.levels level := by
  simp [addL0, Nat.pos_iff_ne_zero.mp h]

theorem Version.live_addL0 {n : ℕ} :
    (v.addL0 f).Live n ↔ v.Live n ∨ f.fileNum = n := by
  constructor
  · rintro ⟨level, hlevel, g, hg, rfl⟩
    by_cases h0 : level = 0
    · subst h0
      simp only [addL0, Function.update_self, List.mem_append, List.mem_singleton] at hg
      rcases hg with hg | rfl
      · exact .inl ⟨0, hlevel, g, hg, rfl⟩
      · exact .inr rfl
    · simp only [addL0, Function.update_of_ne h0] at hg
      exact .inl ⟨level, hlevel, g, hg, rfl⟩
  · rintro (⟨level, hlevel, g, hg, rfl⟩ | rfl)
    · refine ⟨level, hlevel, g, ?_, rfl⟩
      by_cases h0 : level = 0
      · subst h0
        simp [addL0, hg]
      · simpa [addL0, Function.update_of_ne h0] using hg
    · exact ⟨0, by decide, f, by simp [addL0], rfl⟩

/-- **The newest file is asked first.** -/
theorem Version.get_addL0 :
    (v.addL0 f).get readers rget key =
      match askFile readers rget key f with
      | .error e => .error e
      | .ok (some val) => .ok (some val)
      | .ok none => v.get readers rget key := by
  have hdeep : firstHit (askLevel readers rget (v.addL0 f) key) [1, 2, 3, 4, 5, 6]
      = firstHit (askLevel readers rget v key) [1, 2, 3, 4, 5, 6] := by
    refine firstHit_congr fun level hlevel => ?_
    have h0 : level ≠ 0 := by
      rintro rfl
      simp at hlevel
    simp only [askLevel, addL0, Function.update_of_ne h0]
  have h0 : ((v.addL0 f).levels 0).reverse = f :: (v.levels 0).reverse := by
    simp [addL0]
  rw [Version.get, h0, firstHit, hdeep, Version.get]
  cases askFile readers rget key f with
  | error e => rfl
  | ok r => cases r <;> rfl

end Lookup

end Stratum.Lsm
