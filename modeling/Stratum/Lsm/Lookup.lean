import Stratum.Lsm.LevelInvariant
import Stratum.Lsm.Round

/-!
# Lookups in a healthy tree

`Tree.Healthy` is the state that a tree is meant to be in: the levels are sorted, the metadata of
the files bound their contents, every live file is on disk and has a reader that answers for its
contents, and live files have different numbers. There a lookup is a search through **all** files,
from the newest to the oldest (`Bounded.get_eq_find`): the binary search and the filters only save
work. `Version.Describes.get_eq` is the same for any version and readers that answer for the tables
it describes.

On a sorted level the order of the files does not matter (`Bounded.lookAt_eq_some_iff`).
-/

namespace Stratum.Lsm

open Mvcc Memtable Sstable

/-- The files of a level in the order in which a lookup asks them. -/
def Version.readOrder (v : Version) (level : ℕ) : List FileMetadata :=
  if level = 0 then (v.levels 0).reverse else v.levels level

theorem Version.mem_readOrder {v : Version} {level : ℕ} {f : FileMetadata} :
    f ∈ v.readOrder level ↔ f ∈ v.levels level := by
  rw [readOrder]
  split
  · rename_i h
    rw [h, List.mem_reverse]
  · exact Iff.rfl

theorem findSome?_congr {α β : Type*} {f g : α → Option β} {l : List α}
    (h : ∀ a ∈ l, f a = g a) : l.findSome? f = l.findSome? g := by
  induction l with
  | nil => rfl
  | cons a as ih =>
    rw [List.findSome?_cons, List.findSome?_cons, h a (by simp), ih fun b hb => h b (by simp [hb])]

/-- When one element at most has an answer, the order does not matter. -/
theorem findSome?_eq_some_iff_of_unique {α β : Type*} {g : α → Option β} {l : List α}
    (h : ∀ a ∈ l, ∀ b ∈ l, g a ≠ none → g b ≠ none → a = b) {v : β} :
    l.findSome? g = some v ↔ ∃ a ∈ l, g a = some v := by
  refine ⟨List.exists_of_findSome?_eq_some, fun ⟨a, ha, hv⟩ => ?_⟩
  cases hfind : l.findSome? g with
  | none => rw [List.findSome?_eq_none_iff.mp hfind a ha] at hv; cases hv
  | some w =>
    obtain ⟨b, hb, hw⟩ := List.exists_of_findSome?_eq_some hfind
    obtain rfl := h a ha b hb (by simp [hv]) (by simp [hw])
    rw [← hv, ← hw]

/-! ### Versions and the tables they describe -/

namespace Version

/-- The levels from `1` on are sorted, and the metadata of the files bound the tables. -/
structure Describes (v : Version) (tables : ℕ → List Entry) : Prop where
  sorted : ∀ level, 1 ≤ level → level < maxLevels → LevelSorted (v.levels level)
  entries : ∀ level < maxLevels, ∀ f ∈ v.levels level, EntriesSorted (tables f.fileNum)
  covers : ∀ level < maxLevels, ∀ f ∈ v.levels level, ∀ e ∈ tables f.fileNum,
    f.covers e.1 = true

/-- What the file has for the key. -/
def lookIn (tables : ℕ → List Entry) (key : Bytes) (f : FileMetadata) : Option (Option Bytes) :=
  (tables f.fileNum).lookup key

variable {R E : Type*} {v : Version} {tables : ℕ → List Entry} {key : Bytes}
  {readers : ℕ → Option R} {rget : R → Bytes → Except E (Option (Option Bytes))}

/-- A file that has the key covers it. -/
theorem Describes.covers_of_lookIn (h : v.Describes tables) {level : ℕ}
    (hlevel : level < maxLevels) {f : FileMetadata} (hf : f ∈ v.levels level)
    (hlook : lookIn tables key f ≠ none) : f.covers key = true := by
  obtain ⟨w, hw⟩ := Option.ne_none_iff_exists'.mp hlook
  have hmem : (key, w) ∈ tables f.fileNum :=
    (KWayMerge.lookup_eq_some_iff (h.entries level hlevel f hf)).mp hw
  exact h.covers level hlevel f hf _ hmem

/-- On a sorted level one file at most has the key. -/
theorem Describes.eq_of_lookIn (h : v.Describes tables) {level : ℕ} (h1 : 1 ≤ level)
    (hlevel : level < maxLevels) {f g : FileMetadata} (hf : f ∈ v.levels level)
    (hg : g ∈ v.levels level) (hlf : lookIn tables key f ≠ none)
    (hlg : lookIn tables key g ≠ none) : f = g :=
  (h.sorted level h1 hlevel).eq_of_covers hf hg (h.covers_of_lookIn hlevel hf hlf)
    (h.covers_of_lookIn hlevel hg hlg)

/-- **The binary search loses nothing**: it leads to the file of the level that has the key, if
there is one. -/
theorem Describes.askLevel_eq (h : v.Describes tables) {level : ℕ} (h1 : 1 ≤ level)
    (hlevel : level < maxLevels)
    (hask : ∀ f ∈ v.levels level, askFile readers rget key f = .ok (lookIn tables key f)) :
    askLevel readers rget v key level = .ok ((v.levels level).findSome? (lookIn tables key)) := by
  have hsorted := h.sorted level h1 hlevel
  rw [askLevel]
  cases htarget : targetFile (v.levels level) key with
  | none =>
    have hnone : (v.levels level).findSome? (lookIn tables key) = none := by
      rw [List.findSome?_eq_none_iff]
      intro f hf
      by_contra hne
      have := (targetFile_eq_some_iff hsorted).mpr ⟨hf, h.covers_of_lookIn hlevel hf hne⟩
      rw [htarget] at this
      cases this
    rw [hnone]
  | some f =>
    obtain ⟨hf, hcov⟩ := (targetFile_eq_some_iff hsorted).mp htarget
    dsimp only
    rw [hask f hf]
    congr 1
    refine Option.ext fun w => ?_
    rw [findSome?_eq_some_iff_of_unique fun f hf g hg => h.eq_of_lookIn h1 hlevel hf hg]
    refine ⟨fun hw => ⟨f, hf, hw⟩, ?_⟩
    rintro ⟨g, hg, hw⟩
    obtain rfl := hsorted.eq_of_covers hf hg hcov (h.covers_of_lookIn hlevel hg (by simp [hw]))
    exact hw

/-- **A lookup is a search through all files**, when each file answers for its table. -/
theorem Describes.get_eq (h : v.Describes tables)
    (hask : ∀ level < maxLevels, ∀ f ∈ v.levels level,
      askFile readers rget key f = .ok (lookIn tables key f)) :
    v.get readers rget key = .ok ((List.range maxLevels).findSome? fun level =>
      (v.readOrder level).findSome? (lookIn tables key)) := by
  have hrange : List.range maxLevels = 0 :: [1, 2, 3, 4, 5, 6] := rfl
  have h0 : firstHit (askFile readers rget key) (v.levels 0).reverse
      = .ok ((v.readOrder 0).findSome? (lookIn tables key)) :=
    firstHit_ok fun f hf => hask 0 (by decide) f (List.mem_reverse.mp hf)
  have hdeep : firstHit (askLevel readers rget v key) [1, 2, 3, 4, 5, 6]
      = .ok ([1, 2, 3, 4, 5, 6].findSome? fun level =>
        (v.readOrder level).findSome? (lookIn tables key)) := by
    refine firstHit_ok fun level hlevel => ?_
    have : 1 ≤ level ∧ level < maxLevels := by
      simp only [List.mem_cons, List.not_mem_nil, or_false] at hlevel
      rw [maxLevels]
      omega
    rw [readOrder, if_neg (by omega)]
    exact h.askLevel_eq this.1 this.2 (hask level this.2)
  rw [Version.get, h0, hdeep, hrange, @List.findSome?_cons _ _ 0]
  cases (v.readOrder 0).findSome? (lookIn tables key) <;> rfl

/-- The files have numbers of their own. -/
abbrev Distinct (v : Version) : Prop :=
  ∀ level < maxLevels, ∀ f ∈ v.levels level, ∀ level' < maxLevels, ∀ f' ∈ v.levels level',
    f.fileNum = f'.fileNum → level = level' ∧ f = f'

end Version

namespace Tree

variable {fmt : TableFormat} {t : Tree fmt} {key : Bytes}

/-- What the file has for the key. -/
def look (t : Tree fmt) (key : Bytes) (f : FileMetadata) : Option (Option Bytes) :=
  (t.contents f.fileNum).lookup key

/-- What a level has for the key. -/
def lookAt (t : Tree fmt) (key : Bytes) (level : ℕ) : Option (Option Bytes) :=
  (t.version.readOrder level).findSome? (t.look key)

/-- **What the tree has for the key**: the answer of the first file that has one. -/
def find (t : Tree fmt) (key : Bytes) : Option (Option Bytes) :=
  (List.range maxLevels).findSome? (t.lookAt key)

/-- The levels from `1` on are sorted, and the metadata of the files bound their contents. -/
structure Bounded (t : Tree fmt) : Prop where
  sorted : ∀ level, 1 ≤ level → level < maxLevels → LevelSorted (t.version.levels level)
  entries : ∀ level < maxLevels, ∀ f ∈ t.version.levels level,
    EntriesSorted (t.contents f.fileNum)
  covers : ∀ level < maxLevels, ∀ f ∈ t.version.levels level, ∀ e ∈ t.contents f.fileNum,
    f.covers e.1 = true

/-- Every live file has a reader that answers for its contents. -/
def Served (t : Tree fmt) : Prop :=
  ∀ level < maxLevels, ∀ f ∈ t.version.levels level,
    ∃ r, t.readers f.fileNum = some r ∧ fmt.Readable (t.contents f.fileNum) r

/-- The tables of the version are on disk under numbers of their own, and can be read. -/
structure Consistent (t : Tree fmt) : Prop extends t.Bounded where
  readable : ∀ level < maxLevels, ∀ f ∈ t.version.levels level,
    ∃ r, fmt.Readable (t.contents f.fileNum) r
  file : ∀ level < maxLevels, ∀ f ∈ t.version.levels level,
    t.files f.fileNum = some (fmt.write (t.contents f.fileNum))
  distinct : t.version.Distinct

/-- **The state that a tree is meant to be in**: all its tables have readers, and a number that is
not drawn yet has none. -/
structure Healthy (t : Tree fmt) : Prop extends t.Consistent where
  served : t.Served
  unserved : ∀ n, t.counter ≤ n → ¬ t.version.Live n → t.readers n = none

theorem Bounded.describes (h : t.Bounded) : t.version.Describes t.contents :=
  ⟨h.sorted, h.entries, h.covers⟩

/-- A file that has the key covers it. -/
theorem Bounded.covers_of_look (h : t.Bounded) {level : ℕ} (hlevel : level < maxLevels)
    {f : FileMetadata} (hf : f ∈ t.version.levels level) (hlook : t.look key f ≠ none) :
    f.covers key = true := h.describes.covers_of_lookIn hlevel hf hlook

/-- On a sorted level one file at most has the key. -/
theorem Bounded.eq_of_look (h : t.Bounded) {level : ℕ} (h1 : 1 ≤ level) (hlevel : level < maxLevels)
    {f g : FileMetadata} (hf : f ∈ t.version.levels level) (hg : g ∈ t.version.levels level)
    (hlf : t.look key f ≠ none) (hlg : t.look key g ≠ none) : f = g :=
  h.describes.eq_of_lookIn h1 hlevel hf hg hlf hlg

theorem Bounded.lookAt_eq_some_iff (h : t.Bounded) {level : ℕ} (h1 : 1 ≤ level)
    (hlevel : level < maxLevels) {v : Option Bytes} :
    t.lookAt key level = some v ↔ ∃ f ∈ t.version.levels level, t.look key f = some v := by
  rw [lookAt, Version.readOrder, if_neg (by omega)]
  exact findSome?_eq_some_iff_of_unique fun f hf g hg => h.eq_of_look h1 hlevel hf hg

/-- Each file answers for its contents. -/
theorem Served.askFile_eq (h : t.Served) {level : ℕ} (hlevel : level < maxLevels)
    {f : FileMetadata} (hf : f ∈ t.version.levels level) :
    askFile t.readers fmt.get key f = .ok (t.look key f) := by
  obtain ⟨r, hr, hread⟩ := h level hlevel f hf
  simp only [askFile, hr, hread.get_eq]
  rfl

/-- **A lookup is a search through all files.** -/
theorem Bounded.get_eq_find (h : t.Bounded) (hs : t.Served) (key : Bytes) :
    t.get key = .ok (t.find key) :=
  h.describes.get_eq fun _ hlevel _ hf => hs.askFile_eq hlevel hf

end Tree

/-! ### Trees with given tables -/

/-- The version of these files, each on its level. -/
def Version.ofFiles (fs : List FileMetadata) : Version :=
  ⟨fun level => fs.filter fun f => decide (f.level = level)⟩

theorem Version.mem_ofFiles {fs : List FileMetadata} {level : ℕ} {f : FileMetadata} :
    f ∈ (ofFiles fs).levels level ↔ f ∈ fs ∧ f.level = level := by
  simp [ofFiles]

/-- The metadata of a table of one key. -/
def keyFile (level num size : ℕ) (key : Bytes) : FileMetadata := ⟨level, num, size, key, key, 1⟩

namespace Tree

/-- A tree about to pick, with these tables in place and nothing else. -/
def ofTables (cfg : Config) (v : Version) (counter : ℕ) (tables : ℕ → List Entry) :
    Tree cfg.format where
  files n := if n ∈ v.fileNums then some (cfg.write (tables n)) else none
  manifest := ⟨[], v, counter⟩
  readers n := if n ∈ v.fileNums then some (cfg.readerOf (tables n)) else none
  opened := true
  stalled := false
  compactCh := false
  flush := .idle
  compact := .looping
  lookups := fun _ => .idle
  contents := tables
  found := v

/-- Such a tree is healthy when its entries are small. -/
theorem healthy_ofTables {cfg : Config} {v : Version} {counter : ℕ} {tables : ℕ → List Entry}
    (hb : (ofTables cfg v counter tables).Bounded)
    (hsmall : ∀ n, v.Live n → cfg.SmallEntries (tables n) ∧ totalLen (tables n) < 2 ^ 61)
    (hdistinct : v.Distinct) : (ofTables cfg v counter tables).Healthy := by
  have hlive : ∀ level < maxLevels, ∀ f ∈ v.levels level, v.Live f.fileNum :=
    fun level hlevel f hf => ⟨level, hlevel, f, hf, rfl⟩
  have hserved : (ofTables cfg v counter tables).Served := by
    intro level hlevel f hf
    have hn := hlive level hlevel f hf
    refine ⟨_, if_pos (Version.mem_fileNums.mpr hn), ?_⟩
    exact (hsmall _ hn).1.readable (hb.entries level hlevel f hf) (hsmall _ hn).2
  refine
    { toBounded := hb
      served := hserved
      unserved := fun n _ hn => if_neg fun hmem => hn (Version.mem_fileNums.mp hmem)
      readable := fun level hlevel f hf => ?_
      file := fun level hlevel f hf => if_pos (Version.mem_fileNums.mpr (hlive level hlevel f hf))
      distinct := hdistinct }
  obtain ⟨r, -, hread⟩ := hserved level hlevel f hf
  exact ⟨r, hread⟩

theorem smallEntries_ofFiles {cfg : Config} {fs : List FileMetadata} {tables : ℕ → List Entry}
    (htables : ∀ f ∈ fs, ∃ v, tables f.fileNum = [(f.smallestKey, v)] ∧
      cfg.blockSize + encodedLen (f.smallestKey, v) ≤ 8 * defaultBlockSize) {level : ℕ}
    {f : FileMetadata} (hf : f ∈ (Version.ofFiles fs).levels level) :
    cfg.SmallEntries (tables f.fileNum) := by
  obtain ⟨v, hv, hsmall⟩ := htables f (Version.mem_ofFiles.mp hf).1
  intro e he
  rw [hv, List.mem_singleton] at he
  rw [he]
  exact hsmall

/-- Tables of one small entry each, with different numbers and at most one on a deeper level. -/
theorem healthy_ofFiles {cfg : Config} {fs : List FileMetadata} {counter : ℕ}
    {tables : ℕ → List Entry}
    (htables : ∀ f ∈ fs, ∃ v, tables f.fileNum = [(f.smallestKey, v)] ∧
      cfg.blockSize + encodedLen (f.smallestKey, v) ≤ 8 * defaultBlockSize)
    (hkeys : ∀ f ∈ fs, f.largestKey = f.smallestKey)
    (hnums : ∀ f ∈ fs, ∀ g ∈ fs, f.fileNum = g.fileNum → f = g)
    (hdeep : ∀ f ∈ fs, ∀ g ∈ fs, f.level = g.level → 1 ≤ f.level → f = g)
    (hnodup : fs.Nodup) : (ofTables cfg (.ofFiles fs) counter tables).Healthy := by
  refine healthy_ofTables ⟨fun level h1 _ => ⟨fun f hf => ?_, ?_⟩, fun level _ f hf => ?_,
    fun level _ f hf e he => ?_⟩ ?_ ?_
  · rw [FileMetadata.IsRange, hkeys f (Version.mem_ofFiles.mp hf).1]
    simp
  · -- two different files on one level cannot be
    refine (hnodup.filter _).imp_of_mem fun {f g} hf hg hne => absurd ?_ hne
    obtain ⟨hf, hfl⟩ := Version.mem_ofFiles.mp hf
    obtain ⟨hg, hgl⟩ := Version.mem_ofFiles.mp hg
    exact hdeep f hf g hg (hfl.trans hgl.symm) (hfl ▸ h1)
  · obtain ⟨v, hv, -⟩ := htables f (Version.mem_ofFiles.mp hf).1
    show EntriesSorted (tables f.fileNum)
    rw [hv]
    exact List.pairwise_singleton _ _
  · have hf := (Version.mem_ofFiles.mp hf).1
    obtain ⟨v, hv, -⟩ := htables f hf
    have he : e ∈ tables f.fileNum := he
    rw [hv, List.mem_singleton] at he
    rw [he, FileMetadata.covers_iff, hkeys f hf]
    simp
  · rintro n ⟨level, -, f, hf, rfl⟩
    refine ⟨smallEntries_ofFiles htables hf, ?_⟩
    obtain ⟨v, hv, hsmall⟩ := htables f (Version.mem_ofFiles.mp hf).1
    rw [hv]
    have hlen : totalLen [(f.smallestKey, v)] = encodedLen (f.smallestKey, v) := by
      simp [totalLen]
    rw [hlen]
    rw [defaultBlockSize] at hsmall
    omega
  · intro level _ f hf level' _ f' hf' hnum
    obtain ⟨hf, hfl⟩ := Version.mem_ofFiles.mp hf
    obtain ⟨hf', hfl'⟩ := Version.mem_ofFiles.mp hf'
    obtain rfl := hnums f hf f' hf' hnum
    exact ⟨hfl.symm.trans hfl', rfl⟩

end Tree

end Stratum.Lsm
