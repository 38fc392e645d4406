import Mathlib.Tactic.FieldSimp
import Mathlib.Tactic.Linarith
import Stratum.Lsm.Compaction

/-!
# What the picker picks

`Picked v c` says all that later proofs use of a compaction `c` that `PickCompaction` chooses on the
version `v`: its source files are files of its level, at least one, all of them on level `0` and
one on a deeper level; they lie in a range `[lo, hi]` of keys; and its target files are the files
of the next level that meet that range.

The target files are a **convex** part of their level: a file of the level that is not among them
lies on one side of everything that the compaction reads (`Picked.left_or_right`). Outputs made of
what was read therefore fit between the files that stay (`Picked.levelSorted_edit`).
-/

namespace Stratum.Lsm

open Mvcc

/-- The range contains the ranges of the files. -/
def Spans (lo hi : Bytes) (files : List FileMetadata) : Prop :=
  ∀ f ∈ files, compareKeys f.smallestKey lo ≠ .lt ∧ compareKeys hi f.largestKey ≠ .lt

/-- What `PickCompaction` chooses on a version. -/
structure Picked (v : Version) (c : Compaction) : Prop where
  level_lt : c.level + 1 < maxLevels
  outputLevel_eq : c.outputLevel = c.level + 1
  source_ne_nil : c.inputFiles.1 ≠ []
  source_mem : ∀ f ∈ c.inputFiles.1, f ∈ v.levels c.level
  source_zero : c.level = 0 → c.inputFiles.1 = v.levels 0
  source_deep : c.level ≠ 0 → ∃ f, c.inputFiles.1 = [f]
  target_eq : ∃ lo hi, Spans lo hi c.inputFiles.1 ∧
    c.inputFiles.2 = getOverlappingFiles (v.levels (c.level + 1)) lo hi

/-! ### The range of level `0` -/

private theorem foldl_keyRange (fs : List FileMetadata) (lo hi : Bytes) :
    let range := fs.foldl (fun range g =>
      (if compareKeys g.smallestKey range.1 = .lt then g.smallestKey else range.1,
        if compareKeys g.largestKey range.2 = .gt then g.largestKey else range.2)) (lo, hi)
    compareKeys lo range.1 ≠ .lt ∧ compareKeys range.2 hi ≠ .lt ∧ Spans range.1 range.2 fs := by
  induction fs generalizing lo hi with
  | nil => simp [Spans]
  | cons g fs ih =>
    simp only [List.foldl_cons]
    set lo' := if compareKeys g.smallestKey lo = .lt then g.smallestKey else lo with hlo'
    set hi' := if compareKeys g.largestKey hi = .gt then g.largestKey else hi with hhi'
    -- the range after one file contains the range before it, and the range of the file
    have hlo : compareKeys lo lo' ≠ .lt ∧ compareKeys g.smallestKey lo' ≠ .lt := by
      rw [hlo']
      split
      · rename_i hlt
        refine ⟨fun h => ?_, by simp⟩
        have := compareKeys_lt_trans hlt h
        simp at this
      · exact ⟨by simp, ‹_›⟩
    have hhi : compareKeys hi' hi ≠ .lt ∧ compareKeys hi' g.largestKey ≠ .lt := by
      rw [hhi']
      split
      · rename_i hgt
        refine ⟨fun h => ?_, by simp⟩
        rw [hgt] at h
        cases h
      · rename_i hgt
        exact ⟨by simp, fun h => hgt (compareKeys_gt_iff.mpr h)⟩
    obtain ⟨hlo₁, hhi₁, hspans⟩ := ih lo' hi'
    refine ⟨compareKeys_not_lt_trans hlo₁ hlo.1, compareKeys_not_lt_trans hhi.1 hhi₁, ?_⟩
    intro f hf
    rcases List.mem_cons.mp hf with rfl | hf
    · exact ⟨compareKeys_not_lt_trans hlo₁ hlo.2, compareKeys_not_lt_trans hhi.2 hhi₁⟩
    · exact hspans f hf

theorem spans_keyRange (fs : List FileMetadata) : Spans (keyRange fs).1 (keyRange fs).2 fs := by
  cases fs with
  | nil => nofun
  | cons f fs =>
    obtain ⟨hlo, hhi, hspans⟩ := foldl_keyRange fs f.smallestKey f.largestKey
    intro g hg
    rcases List.mem_cons.mp hg with rfl | hg
    · exact ⟨hlo, hhi⟩
    · exact hspans g hg

/-! ### The level, and the largest file of it -/

variable {fs : List FileMetadata} {v : Version} {level : ℕ} {c : Compaction}

variable {f g : FileMetadata} {added : List FileMetadata}

theorem largestFile_mem (h : largestFile fs = some f) : f ∈ fs := by
  cases fs with
  | nil => cases h
  | cons g gs =>
    have hfold : ∀ (gs : List FileMetadata) (g : FileMetadata),
        gs.foldl (fun largest g => if g.fileSize > largest.fileSize then g else largest) g
          ∈ g :: gs := by
      intro gs
      induction gs with
      | nil => simp
      | cons x xs ih =>
        intro g
        rw [List.foldl_cons]
        have hmem := ih (if x.fileSize > g.fileSize then x else g)
        rcases List.mem_cons.mp hmem with heq | hmem
        · rw [heq]
          split <;> simp
        · exact List.mem_cons_of_mem _ (List.mem_cons_of_mem _ hmem)
    cases h
    exact hfold gs g

/-- The best level is one of the levels that are asked, with its score. -/
theorem bestLevel_spec (h : (bestLevel v).1 = some level) :
    level + 1 < maxLevels ∧ (bestLevel v).2 = compactionScore level (v.levels level) := by
  have hfold : ∀ (ls : List ℕ) (best : Option ℕ × ℚ),
      (∀ level ∈ best.1, level + 1 < maxLevels ∧ best.2 = compactionScore level (v.levels level)) →
      (∀ level ∈ ls, level + 1 < maxLevels) →
      ∀ level ∈ (ls.foldl (betterLevel v) best).1, level + 1 < maxLevels ∧
        (ls.foldl (betterLevel v) best).2 = compactionScore level (v.levels level) := by
    intro ls
    induction ls with
    | nil => exact fun best hbest _ => hbest
    | cons l ls ih =>
      intro best hbest hls
      refine ih _ ?_ fun level hlevel => hls level (List.mem_cons_of_mem _ hlevel)
      rw [betterLevel]
      split
      · rintro _ ⟨⟩
        exact ⟨hls l (by simp), rfl⟩
      · exact hbest
  have hrange : ∀ l ∈ List.range (maxLevels - 1), l + 1 < maxLevels := fun l hl =>
    Nat.add_lt_of_lt_sub (List.mem_range.mp hl)
  exact hfold (List.range (maxLevels - 1)) (none, -1) (fun _ => nofun) hrange level h

/-- A level whose score is above `1` is not empty. -/
theorem ne_nil_of_score (h : 1 < compactionScore level fs) :
    fs ≠ [] := by
  rintro rfl
  rw [compactionScore] at h
  split at h <;> norm_num at h

/-- A version that asks for no compaction. -/
structure Version.Balanced (v : Version) : Prop where
  level0 : (v.levels 0).length ≤ l0CompactionTrigger
  total_le : ∀ level, 1 ≤ level → level + 1 < maxLevels →
    ((v.levels level).map FileMetadata.fileSize).sum ≤ targetSize level

/-- The best score is that of a level when there is a level with a better one than `-1`, and no
level has a better one. -/
private theorem bestLevel_best (v : Version) :
    ((bestLevel v).1 = none → (bestLevel v).2 = -1) ∧
      ∀ level, level + 1 < maxLevels →
        compactionScore level (v.levels level) ≤ (bestLevel v).2 := by
  have hfold : ∀ (ls : List ℕ) (best : Option ℕ × ℚ), (best.1 = none → best.2 = -1) →
      ((ls.foldl (betterLevel v) best).1 = none → (ls.foldl (betterLevel v) best).2 = -1) ∧
      best.2 ≤ (ls.foldl (betterLevel v) best).2 ∧
      ∀ level ∈ ls, compactionScore level (v.levels level) ≤ (ls.foldl (betterLevel v) best).2 := by
    intro ls
    induction ls with
    | nil => exact fun best hbest => ⟨hbest, le_rfl, nofun⟩
    | cons l ls ih =>
      intro best hbest
      have hstep : ((betterLevel v best l).1 = none → (betterLevel v best l).2 = -1) ∧
          best.2 ≤ (betterLevel v best l).2 ∧
          compactionScore l (v.levels l) ≤ (betterLevel v best l).2 := by
        rw [betterLevel]
        split
        · rename_i hgt
          exact ⟨nofun, hgt.le, le_rfl⟩
        · rename_i hle
          exact ⟨hbest, le_rfl, le_of_not_gt hle⟩
      obtain ⟨hnone, hle, hall⟩ := ih (betterLevel v best l) hstep.1
      refine ⟨hnone, hstep.2.1.trans hle, fun level hlevel => ?_⟩
      rcases List.mem_cons.mp hlevel with rfl | hlevel
      · exact hstep.2.2.trans hle
      · exact hall level hlevel
  obtain ⟨hnone, -, hall⟩ := hfold (List.range (maxLevels - 1)) (none, -1) fun _ => rfl
  exact ⟨hnone, fun level hlevel => hall level (List.mem_range.mpr (Nat.lt_sub_of_add_lt hlevel))⟩

theorem compactionAt_ne_none (h : v.levels level ≠ []) :
    compactionAt v level ≠ none := by
  cases level with
  | zero => exact nofun
  | succ level =>
    obtain ⟨f, fs, hfs⟩ := List.exists_cons_of_ne_nil h
    rw [compactionAt, hfs]
    exact nofun

/-- The picker picks nothing exactly when no level has a score above `1`. -/
theorem pickCompaction_eq_none_iff_score :
    pickCompaction v = none ↔
      ∀ level, level + 1 < maxLevels → compactionScore level (v.levels level) ≤ 1 := by
  obtain ⟨hnone, hbest⟩ := bestLevel_best v
  rw [pickCompaction]
  split
  · rename_i hle
    exact iff_of_true rfl fun level hlevel => (hbest level hlevel).trans hle
  · rename_i hgt
    rcases hl : (bestLevel v).1 with _ | level
    · rw [hnone hl] at hgt
      exact absurd (by norm_num) hgt
    · obtain ⟨hlevel, hscore⟩ := bestLevel_spec hl
      rw [hscore] at hgt
      refine iff_of_false ?_ fun h => hgt (h level hlevel)
      exact compactionAt_ne_none (ne_nil_of_score (lt_of_not_ge hgt))

theorem targetSize_pos (h : 1 ≤ level) : 0 < targetSize level := by
  induction level, h using Nat.le_induction with
  | base => decide
  | succ level hle ih =>
    obtain ⟨k, rfl⟩ := Nat.exists_eq_add_of_le' hle
    exact Nat.mul_pos ih (by decide)

/-- A score of at most `1`, without the quotient. -/
theorem compactionScore_le_one_iff :
    compactionScore level fs ≤ 1 ↔
      if level = 0 then fs.length ≤ l0CompactionTrigger
      else (fs.map FileMetadata.fileSize).sum ≤ targetSize level := by
  rw [compactionScore]
  split
  · rw [div_le_one₀ (by norm_num [l0CompactionTrigger]), Nat.cast_le]
  · rename_i hne
    rw [div_le_one₀ (by exact_mod_cast targetSize_pos (Nat.pos_of_ne_zero hne)), Nat.cast_le]

/-- **When the loop stops**: the picker picks nothing exactly on a balanced version. -/
theorem pickCompaction_eq_none_iff : pickCompaction v = none ↔ v.Balanced := by
  rw [pickCompaction_eq_none_iff_score]
  simp only [compactionScore_le_one_iff]
  constructor
  · intro h
    refine ⟨by simpa using h 0 (by decide), fun level hpos hlevel => ?_⟩
    simpa [Nat.one_le_iff_ne_zero.mp hpos] using h level hlevel
  · intro h level hlevel
    split
    · rename_i hzero
      exact hzero ▸ h.level0
    · rename_i hne
      exact h.total_le level (Nat.one_le_iff_ne_zero.mpr hne) hlevel

private theorem pickCompaction_cases (h : pickCompaction v = some c) :
    ∃ level, (bestLevel v).1 = some level ∧ 1 < (bestLevel v).2 ∧
      compactionAt v level = some c := by
  rw [pickCompaction, Option.ite_none_left_eq_some, Option.bind_eq_some_iff] at h
  obtain ⟨hgt, level, hlevel, hc⟩ := h
  exact ⟨level, hlevel, lt_of_not_ge hgt, hc⟩

/-- **What the picker picks.** -/
theorem picked_of_pickCompaction (h : pickCompaction v = some c) : Picked v c := by
  obtain ⟨level, hbest, hgt, hc⟩ := pickCompaction_cases h
  obtain ⟨hlevel, hscore⟩ := bestLevel_spec hbest
  have hne := ne_nil_of_score (hscore ▸ hgt)
  cases level with
  | zero =>
    cases hc
    exact
      { level_lt := hlevel
        outputLevel_eq := rfl
        source_ne_nil := hne
        source_mem := fun f hf => hf
        source_zero := fun _ => rfl
        source_deep := fun h => absurd rfl h
        target_eq := ⟨_, _, spans_keyRange _, rfl⟩ }
  | succ level =>
    obtain ⟨f, hf, rfl⟩ := Option.map_eq_some_iff.mp hc
    refine
      { level_lt := hlevel
        outputLevel_eq := rfl
        source_ne_nil := by simp
        source_mem := fun g hg => ?_
        source_zero := nofun
        source_deep := fun _ => ⟨f, rfl⟩
        target_eq := ⟨f.smallestKey, f.largestKey, fun g hg => ?_, rfl⟩ }
    · obtain rfl := List.mem_singleton.mp hg
      exact largestFile_mem hf
    · obtain rfl := List.mem_singleton.mp hg
      simp

/-! ### The convex part -/

/-- The compaction reads a file that covers the key. -/
def Compaction.Reads (c : Compaction) (key : Bytes) : Prop := ∃ f ∈ c.inputs, f.covers key = true

/-- The keys that are read lie above the file, or they lie below it. -/
def Compaction.BesideOf (c : Compaction) (g : FileMetadata) : Prop :=
  (∀ key, c.Reads key → compareKeys g.largestKey key = .lt) ∨
    ∀ key, c.Reads key → compareKeys key g.smallestKey = .lt

theorem Picked.target_mem (h : Picked v c) (hf : f ∈ c.inputFiles.2) :
    f ∈ v.levels (c.level + 1) := by
  obtain ⟨lo, hi, -, htarget⟩ := h.target_eq
  rw [htarget] at hf
  exact List.mem_of_mem_filter hf

theorem live_of_mem_inputs (hpick : pickCompaction v = some c) (hf : f ∈ c.inputs) :
    ∃ level < maxLevels, f ∈ v.levels level := by
  have hpicked := picked_of_pickCompaction hpick
  have hlt := hpicked.level_lt
  rcases List.mem_append.mp hf with hf | hf
  · exact ⟨c.level, by omega, hpicked.source_mem f hf⟩
  · exact ⟨c.level + 1, hlt, hpicked.target_mem hf⟩

/-- The source files stand in their level, in this order. -/
theorem Picked.source_sublist (h : Picked v c) :
    c.inputFiles.1.Sublist (v.levels c.level) := by
  by_cases hzero : c.level = 0
  · rw [h.source_zero hzero, hzero]
  · obtain ⟨f, hf⟩ := h.source_deep hzero
    rw [hf, List.singleton_sublist]
    exact h.source_mem f (by rw [hf]; exact List.mem_singleton_self f)

theorem Picked.target_sublist (h : Picked v c) :
    c.inputFiles.2.Sublist (v.levels (c.level + 1)) := by
  obtain ⟨lo, hi, -, htarget⟩ := h.target_eq
  rw [htarget]
  exact List.filter_sublist

/-- **Convexity**: a file of the output level that is not read lies on one side of all that is. -/
theorem Picked.left_or_right (h : Picked v c) (hsorted : LevelSorted (v.levels (c.level + 1)))
    (hg : g ∈ v.levels (c.level + 1)) (hnot : g ∉ c.inputFiles.2) :
    c.BesideOf g := by
  obtain ⟨lo, hi, hspans, htarget⟩ := h.target_eq
  have hmiss : ¬ g.overlaps lo hi = true := fun hover => by
    rw [htarget] at hnot
    exact hnot (List.mem_filter.mpr ⟨hg, hover⟩)
  have htarget_mem : ∀ f ∈ c.inputFiles.2, f ∈ v.levels (c.level + 1) ∧ f ≠ g ∧
      compareKeys f.largestKey lo ≠ .lt ∧ compareKeys hi f.smallestKey ≠ .lt := by
    intro f hf
    have hne : f ≠ g := by
      rintro rfl
      exact hnot hf
    rw [htarget] at hf
    obtain ⟨hmem, hover⟩ := List.mem_filter.mp hf
    exact ⟨hmem, hne, FileMetadata.overlaps_iff.mp hover⟩
  have hgrange := hsorted.range g hg
  rw [FileMetadata.overlaps_iff, not_and_or, not_not, not_not] at hmiss
  rcases hmiss with hleft | hright
  · -- `g` ends below the range
    refine .inl fun key ⟨f, hf, hcov⟩ => ?_
    rw [FileMetadata.covers_iff] at hcov
    rcases List.mem_append.mp hf with hf | hf
    · exact compareKeys_lt_of_lt_of_not_lt hleft
        (compareKeys_not_lt_trans (hspans f hf).1 hcov.1)
    · obtain ⟨hmem, hne, hflo, -⟩ := htarget_mem f hf
      rcases hsorted.before_or hmem hg hne with hbef | hbef
      · -- `f` before `g` would end below the range as well
        have hlt := compareKeys_lt_of_lt_of_not_lt hbef hgrange
        exact absurd (compareKeys_lt_trans hlt hleft) hflo
      · exact compareKeys_lt_of_lt_of_not_lt hbef hcov.1
  · refine .inr fun key ⟨f, hf, hcov⟩ => ?_
    rw [FileMetadata.covers_iff] at hcov
    rcases List.mem_append.mp hf with hf | hf
    · exact compareKeys_lt_of_not_lt_of_lt
        (compareKeys_not_lt_trans hcov.2 (hspans f hf).2) hright
    · obtain ⟨hmem, hne, -, hfhi⟩ := htarget_mem f hf
      rcases hsorted.before_or hmem hg hne with hbef | hbef
      · exact compareKeys_lt_of_not_lt_of_lt hcov.2 hbef
      · have hlt := compareKeys_lt_of_not_lt_of_lt hgrange hbef
        exact absurd (compareKeys_lt_trans hright hlt) hfhi

/-! ### The levels after the compaction -/

theorem LevelSorted.sublist {files files' : List FileMetadata} (h : LevelSorted files)
    (hsub : files'.Sublist files) : LevelSorted files' :=
  ⟨fun f hf => h.range f (hsub.mem hf), h.before.sublist hsub⟩

/-- A file of the output level that the edit leaves is not a target file. -/
theorem notMem_target (h : ⟨c.level + 1, g.fileNum⟩ ∉ (compactionEdit c added).deletedFiles) :
    g ∉ c.inputFiles.2 := fun hg =>
  h (List.mem_append_right _ (List.mem_map.mpr ⟨g, hg, rfl⟩))

/-- **The levels stay sorted.** Outputs that are sorted and made of keys that were read fit between
the files that stay; since the pick, files may have been added to level `0` only. -/
theorem Picked.levelSorted_edit {v₀ : Version} (h : Picked v₀ c)
    (hv : ∀ level, 1 ≤ level → v.levels level = v₀.levels level)
    (hsorted : ∀ level, 1 ≤ level → level < maxLevels → LevelSorted (v.levels level))
    (hlevel : ∀ f ∈ added, f.level = c.outputLevel) (hadded : LevelSorted added)
    (hreads : ∀ f ∈ added, c.Reads f.smallestKey ∧ c.Reads f.largestKey) (h1 : 1 ≤ level)
    (hlt : level < maxLevels) :
    LevelSorted ((v.edit (compactionEdit c added)).levels level) := by
  rw [Version.levels_edit, if_pos ⟨h1, hlt⟩, VersionEdit.levelAfter]
  have hkept : LevelSorted ((v.levels level).filter fun f =>
      decide (⟨level, f.fileNum⟩ ∉ (compactionEdit c added).deletedFiles)) :=
    (hsorted level h1 hlt).sublist List.filter_sublist
  by_cases hout : level = c.outputLevel
  · have hfilter : (compactionEdit c added).addedFiles.filter (fun f => decide (f.level = level))
        = added := List.filter_eq_self.mpr fun f hf => by simp [hlevel f hf, hout]
    rw [hfilter]
    refine levelSorted_sortBySmallestKey (fun f hf => ?_) ?_
    · rcases List.mem_append.mp hf with hf | hf
      · exact hkept.range f hf
      · exact hadded.range f hf
    · refine List.pairwise_append.mpr ⟨hkept.before.imp .inl, hadded.before.imp .inl, ?_⟩
      intro g hg f hf
      obtain ⟨hmem, hnot⟩ := List.mem_filter.mp hg
      rw [decide_eq_true_iff] at hnot
      rw [hout, h.outputLevel_eq] at hnot hmem h1 hlt
      have hbeside : c.BesideOf g :=
        h.left_or_right (hv _ h1 ▸ hsorted _ h1 hlt) (hv _ h1 ▸ hmem) (notMem_target hnot)
      obtain ⟨hsmall, hlarge⟩ := hreads f hf
      exact hbeside.imp (fun hb => hb _ hsmall) fun hb => hb _ hlarge
  · have hfilter : (compactionEdit c added).addedFiles.filter (fun f => decide (f.level = level))
        = [] := List.filter_eq_nil_iff.mpr fun f hf => by simp [hlevel f hf, Ne.symm hout]
    rw [hfilter, List.append_nil, sortBySmallestKey_of_levelSorted hkept]
    exact hkept

end Stratum.Lsm
