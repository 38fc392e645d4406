import Mathlib.Algebra.Order.Ring.Unbundled.Rat
import Mathlib.Data.List.Pairwise
import Mathlib.Data.List.Sort
import Stratum.Lsm.Version

/-!
# The levels of the tree

The functions of `level.go`: which files of a level a key range touches, the order of the files
of a level, the size a level may have, and how urgent its compaction is. Scores are rational
numbers here, where the source has floating-point quotients of file counts and byte counts.

`LevelSorted` is what the levels from `1` on are meant to be: the ranges of the files follow one
another. On such a level the binary search of a lookup finds the file that covers the key
(`targetFile_eq_some_iff`), and sorting files whose ranges are apart gives such a level
(`levelSorted_sortBySmallestKey`).
-/

namespace Stratum.Lsm

open Mvcc

/-- `L0CompactionTrigger`. -/
def l0CompactionTrigger : ℕ := 4

/-- `LevelSizeRatio`. -/
def levelSizeRatio : ℕ := 10

/-- `BaseLevelSize`: 10 MB. -/
def baseLevelSize : ℕ := 10 * 1024 * 1024

/-- The range of the file meets the range of keys. -/
def FileMetadata.overlaps (f : FileMetadata) (smallest largest : Bytes) : Bool :=
  compareKeys f.largestKey smallest != .lt && compareKeys f.smallestKey largest != .gt

/-- `GetOverlappingFiles`. -/
def getOverlappingFiles (files : List FileMetadata) (smallest largest : Bytes) :
    List FileMetadata :=
  files.filter fun f => f.overlaps smallest largest

/-- The order that `SortBySmallestKey` sorts by. -/
def FileMetadata.SmallestLe (f g : FileMetadata) : Prop :=
  compareKeys f.smallestKey g.smallestKey ≠ .gt

instance : DecidableRel FileMetadata.SmallestLe :=
  fun f g => inferInstanceAs (Decidable (compareKeys f.smallestKey g.smallestKey ≠ .gt))

/-- `SortBySmallestKey`. -/
def sortBySmallestKey (files : List FileMetadata) : List FileMetadata :=
  files.insertionSort FileMetadata.SmallestLe

/-- `TargetSize`. -/
def targetSize : ℕ → ℕ
  | 0 => 0
  | 1 => baseLevelSize
  | level + 2 => targetSize (level + 1) * levelSizeRatio

/-- `CompactionScore`. -/
def compactionScore (level : ℕ) (files : List FileMetadata) : ℚ :=
  if level = 0 then (files.length : ℚ) / (l0CompactionTrigger : ℚ)
  else ((files.map FileMetadata.fileSize).sum : ℚ) / (targetSize level : ℚ)

/-! ### Ranges that follow one another -/

/-- The smallest key is not above the largest. -/
def FileMetadata.IsRange (f : FileMetadata) : Prop :=
  compareKeys f.largestKey f.smallestKey ≠ .lt

/-- All keys of one file are below all keys of the other. -/
def FileMetadata.Before (f g : FileMetadata) : Prop :=
  compareKeys f.largestKey g.smallestKey = .lt

/-- **A sorted level**: the ranges of its files follow one another. -/
structure LevelSorted (files : List FileMetadata) : Prop where
  range : ∀ f ∈ files, f.IsRange
  before : files.Pairwise FileMetadata.Before

variable {f g : FileMetadata} {key : Bytes} {files : List FileMetadata}

theorem FileMetadata.covers_iff :
    f.covers key = true ↔
      compareKeys key f.smallestKey ≠ .lt ∧ compareKeys f.largestKey key ≠ .lt := by
  simp [covers, ← compareKeys_gt_iff]

theorem FileMetadata.overlaps_iff {smallest largest : Bytes} :
    f.overlaps smallest largest = true ↔
      compareKeys f.largestKey smallest ≠ .lt ∧ compareKeys largest f.smallestKey ≠ .lt := by
  simp [overlaps, ← compareKeys_gt_iff]

/-- Files one of which is before the other do not cover a common key. -/
theorem FileMetadata.Before.not_covers (h : f.Before g) (hf : f.covers key = true) :
    g.covers key = false := by
  rw [← Bool.not_eq_true, covers_iff]
  rw [covers_iff] at hf
  exact fun hg => hg.1 (compareKeys_lt_of_not_lt_of_lt hf.2 h)

/-- Of two files of a sorted level one is before the other. -/
theorem LevelSorted.before_or (h : LevelSorted files) (hf : f ∈ files) (hg : g ∈ files)
    (hne : f ≠ g) :
    f.Before g ∨ g.Before f := by
  have hsymm : Std.Symm fun a b : FileMetadata => a.Before b ∨ b.Before a :=
    ⟨fun _ _ => Or.symm⟩
  have hpair : files.Pairwise fun a b => a.Before b ∨ b.Before a := h.before.imp .inl
  exact hpair.forall hf hg hne

/-- A sorted level has at most one file for a key. -/
theorem LevelSorted.eq_of_covers (h : LevelSorted files) (hf : f ∈ files) (hg : g ∈ files)
    (hfk : f.covers key = true) (hgk : g.covers key = true) : f = g := by
  by_contra hne
  rcases h.before_or hf hg hne with hrel | hrel
  · rw [hrel.not_covers hfk] at hgk
    cases hgk
  · rw [hrel.not_covers hgk] at hfk
    cases hfk

/-! ### The binary search of a lookup -/

/-- The search finds a file that covers the key, wherever in the interval it lies. -/
private theorem searchLevel_of_covers (h : LevelSorted files) {i : ℕ} (hget : files[i]? = some f)
    (hf : f.covers key = true) {fuel lo hi : ℕ} (hlo : lo ≤ i) (hhi : i < hi)
    (hlen : hi ≤ files.length) (hfuel : hi - lo ≤ fuel) :
    searchLevel files key fuel lo hi = some f := by
  have hmem : f ∈ files := List.mem_of_getElem? hget
  have hcov := FileMetadata.covers_iff.mp hf
  -- the files at two positions, in the order of the positions
  have hbefore : ∀ {a b : ℕ} {x y : FileMetadata}, files[a]? = some x → files[b]? = some y →
      a < b → x.Before y := by
    intro a b x y hx hy hab
    obtain ⟨ha, rfl⟩ := List.getElem?_eq_some_iff.mp hx
    obtain ⟨hb, rfl⟩ := List.getElem?_eq_some_iff.mp hy
    exact List.pairwise_iff_getElem.mp h.before a b ha hb hab
  induction fuel generalizing lo hi with
  | zero => omega
  | succ fuel ih =>
    rw [searchLevel, if_pos (by omega)]
    dsimp only
    set mid := lo + (hi - 1 - lo) / 2 with hmid
    have hmid_lt : mid < files.length := by omega
    obtain ⟨g, hg⟩ : ∃ g, files[mid]? = some g := ⟨_, List.getElem?_eq_getElem hmid_lt⟩
    have hgmem : g ∈ files := List.mem_of_getElem? hg
    simp only [hg]
    by_cases hgk : g.covers key = true
    · rw [if_pos hgk, h.eq_of_covers hgmem hmem hgk hf]
    · rw [if_neg hgk]
      have hne : mid ≠ i := by
        rintro heq
        rw [heq, hget] at hg
        cases hg
        exact hgk hf
      by_cases hlt : compareKeys key g.smallestKey = .lt
      · rw [if_pos hlt]
        refine ih hlo ?_ (by omega) (by omega)
        -- a file before `f` is below the key
        by_contra hge
        have hbef := hbefore hg hget (by omega)
        have hkey := compareKeys_lt_of_lt_of_not_lt hbef hcov.1
        exact h.range g hgmem (compareKeys_lt_trans hkey hlt)
      · rw [if_neg hlt]
        refine ih ?_ hhi hlen (by omega)
        by_contra hle
        have hbef := hbefore hget hg (by omega)
        exact hlt (compareKeys_lt_of_not_lt_of_lt hcov.2 hbef)

/-- **The binary search is right on a sorted level**: it finds the file that covers the key. -/
theorem targetFile_eq_some_iff (h : LevelSorted files) :
    targetFile files key = some f ↔ f ∈ files ∧ f.covers key = true := by
  refine ⟨fun ht => searchLevel_eq_some ht, fun ⟨hmem, hf⟩ => ?_⟩
  obtain ⟨i, hi, hget⟩ := List.mem_iff_getElem.mp hmem
  exact searchLevel_of_covers h (List.getElem?_eq_some_iff.mpr ⟨hi, hget⟩) hf (Nat.zero_le i) hi
    le_rfl (by omega)

/-! ### Sorting -/

instance : Std.Total FileMetadata.SmallestLe where
  total f g := by
    rw [FileMetadata.SmallestLe, FileMetadata.SmallestLe, ← not_and_or]
    rintro ⟨hfg, hgf⟩
    rw [compareKeys_gt_iff] at hfg
    rw [hfg] at hgf
    cases hgf

instance : IsTrans FileMetadata FileMetadata.SmallestLe where
  trans f g h hfg hgh := by
    intro hgt
    rw [FileMetadata.SmallestLe, Ne, compareKeys_gt_iff] at hfg hgh
    exact hgh (compareKeys_lt_of_lt_of_not_lt (compareKeys_gt_iff.mp hgt) hfg)

theorem mem_sortBySmallestKey :
    f ∈ sortBySmallestKey files ↔ f ∈ files := List.mem_insertionSort _

theorem LevelSorted.pairwise (h : LevelSorted files) :
    files.Pairwise FileMetadata.SmallestLe := by
  refine h.before.imp_of_mem fun {f g} hf _ hbef => ?_
  rw [FileMetadata.SmallestLe, Ne, compareKeys_gt_iff]
  exact fun hlt => h.range f hf (compareKeys_lt_trans hbef hlt)

/-- Sorting leaves a sorted level as it is. -/
theorem sortBySmallestKey_of_levelSorted (h : LevelSorted files) :
    sortBySmallestKey files = files := h.pairwise.insertionSort_eq

/-- **Files whose ranges are apart make a sorted level**. -/
theorem levelSorted_sortBySmallestKey (hrange : ∀ f ∈ files, f.IsRange)
    (hapart : files.Pairwise fun f g => f.Before g ∨ g.Before f) :
    LevelSorted (sortBySmallestKey files) := by
  refine ⟨fun f hf => hrange f (mem_sortBySmallestKey.mp hf), ?_⟩
  have hperm : List.Perm (sortBySmallestKey files) files := List.perm_insertionSort _ _
  have hapart' : (sortBySmallestKey files).Pairwise fun f g => f.Before g ∨ g.Before f :=
    (hperm.pairwise_iff fun {_ _} => Or.symm).mpr hapart
  have hsorted : (sortBySmallestKey files).Pairwise FileMetadata.SmallestLe :=
    List.pairwise_insertionSort _ _
  refine (hapart'.and hsorted).imp_of_mem fun {f g} hf hg hfg => ?_
  refine hfg.1.resolve_right fun hbef => ?_
  -- `g` before `f`, and yet with the larger smallest key
  have hlt := compareKeys_lt_of_not_lt_of_lt (hrange g (mem_sortBySmallestKey.mp hg)) hbef
  exact hfg.2 (compareKeys_gt_iff.mpr hlt)

end Stratum.Lsm
