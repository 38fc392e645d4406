import Stratum.Lsm.Outcome

/-!
# Lookups before and after a compaction

A compaction without a registered snapshot keeps every entry that is not hidden by another input.
The merge lets the input with the **lowest index** win, and level `0` hands its files over in flush
order, the oldest first, while a lookup asks the newest first.

* `Applied.find_zero`: after the round a lookup finds what it finds in the source files *in the
  order of the inputs*, where it found before what they have in the order of a lookup.
* From a deeper level there is one source file, so nothing changes
  (`Tree.get_round_deep`). From level `0` a key keeps its value exactly when the oldest and the
  newest file that have it agree (`Tree.get_round_zero_iff`).
-/

namespace Stratum.Lsm

open Mvcc Memtable Sstable

theorem findSome?_cons_or {α β : Type*} (g : α → Option β) (a : α) (l : List α) :
    (a :: l).findSome? g = (g a).or (l.findSome? g) := by
  rw [List.findSome?_cons]
  cases g a <;> rfl

namespace Tree

variable {fmt : TableFormat} {cuts : ℕ → Option ℕ} {M : UInt64 → Prop} {t₀ u t : Tree fmt}
  {c : Compaction} {added : List FileMetadata} {kept : List Entry} {key : Bytes}

/-- The steps of a round whose iterators all come to their end, with no snapshot registered. -/
abbrev PlainRound : TreeAct → Prop := InRound (fun _ => none) (· = 0)

section Find

variable (hh : t₀.Consistent) (hm : t₀.Merged (fun _ => none) (· = 0) c added kept u)
  (ha : u.Applied c added t) (hfresh : t₀.Fresh t)

include hh hm

/-- A key is looked up in what is kept as in the inputs from the first to the last. -/
theorem Merged.lookup_kept (key : Bytes) :
    kept.lookup key = c.inputs.findSome? (t₀.look key) := by
  obtain ⟨gc, rs, done, hrs, hmerge, hM, hgc⟩ := hm.selects
  have hkept : kept = merge (streams rs fun _ => none) := by
    rw [hmerge, List.append_nil, ← gcRun_zero hM, hgc]
  rw [hkept, merge, KWayMerge.lookup_merge (hh.sorted_streams hm.pick hrs),
    hh.streams_none hm.pick hrs, List.findSome?_map]
  rfl

include ha

/-- The outputs have what was kept. -/
theorem Applied.exists_added_iff {v : Option Bytes} :
    (∃ f ∈ added, t.look key f = some v) ↔ kept.lookup key = some v := by
  have hkept := hm.entriesSorted_kept hh
  rw [KWayMerge.lookup_eq_some_iff hkept, hm.finished.kept_eq, List.mem_flatMap]
  refine exists_congr fun f => and_congr_right fun hf => ?_
  rw [look, ha.contents]
  exact KWayMerge.lookup_eq_some_iff (hm.finished.entriesSorted hkept hf)

include hfresh

/-- **The output level** has what the source files have, in the order of the inputs, and else what
it had. -/
theorem Applied.lookAt_output :
    t.lookAt key (c.level + 1)
      = (c.inputFiles.1.findSome? (t₀.look key)).or (t₀.lookAt key (c.level + 1)) := by
  have hpicked := picked_of_pickCompaction hm.pick
  have hlt := hpicked.level_lt
  have hb := ha.bounded hh hm hfresh
  -- what the level has now: the files that stay, and the merged inputs
  have hnow : ∀ v, t.lookAt key (c.level + 1) = some v ↔
      (∃ f ∈ t₀.version.levels (c.level + 1), f ∉ c.inputFiles.2 ∧ t₀.look key f = some v) ∨
        (c.inputFiles.1 ++ c.inputFiles.2).findSome? (t₀.look key) = some v := by
    intro v
    rw [hb.lookAt_eq_some_iff (by omega) hlt, ← Compaction.inputs, ← hm.lookup_kept hh,
      ← ha.exists_added_iff hh hm]
    constructor
    · rintro ⟨f, hf, hv⟩
      rcases (ha.mem_levels hm hh.distinct hlt).mp hf with ⟨hold, hnot⟩ | ⟨hnew, -⟩
      · rw [ha.look_eq hm hfresh hlt hold] at hv
        exact .inl ⟨f, hold, fun hmem => hnot (List.mem_append_right _ hmem), hv⟩
      · exact .inr ⟨f, hnew, hv⟩
    · rintro (⟨f, hold, hnot, hv⟩ | ⟨f, hnew, hv⟩)
      · refine ⟨f, (ha.mem_levels hm hh.distinct hlt).mpr (.inl ⟨hold, fun hmem => ?_⟩), ?_⟩
        · rcases List.mem_append.mp hmem with hmem | hmem
          · have := (hh.distinct _ hlt f hold c.level (by omega) f
              (hpicked.source_mem f hmem) rfl).1
            omega
          · exact hnot hmem
        · rwa [ha.look_eq hm hfresh hlt hold]
      · exact ⟨f, (ha.mem_levels hm hh.distinct hlt).mpr (.inr ⟨hnew, rfl⟩), hv⟩
  refine Option.ext fun v => ?_
  rw [hnow, List.findSome?_append]
  cases hsource : c.inputFiles.1.findSome? (t₀.look key) with
  | some w =>
    -- a file that has the key and stays would lie beside it
    obtain ⟨f, hf, hw⟩ := List.exists_of_findSome?_eq_some hsource
    have hreads : c.Reads key := ⟨f, List.mem_append_left _ hf,
      hh.covers_of_look (by omega) (hpicked.source_mem f hf) (by simp [hw])⟩
    simp only [Option.some_or]
    refine ⟨fun hor => hor.resolve_left ?_, .inr⟩
    rintro ⟨g, hg, hnot, hv⟩
    have hcov := FileMetadata.covers_iff.mp (hh.covers_of_look hlt hg
      (by rw [hv]; exact Option.some_ne_none _))
    rcases hpicked.left_or_right (hh.sorted _ (by omega) hlt) hg hnot with hbeside | hbeside
    · exact hcov.2 (hbeside key hreads)
    · exact hcov.1 (hbeside key hreads)
  | none =>
    simp only [Option.none_or]
    have htarget : c.inputFiles.2.findSome? (t₀.look key) = some v ↔
        ∃ f ∈ c.inputFiles.2, t₀.look key f = some v :=
      findSome?_eq_some_iff_of_unique fun f hf g hg =>
        hh.eq_of_look (by omega) hlt (hpicked.target_mem hf) (hpicked.target_mem hg)
    rw [htarget, hh.lookAt_eq_some_iff (by omega) hlt]
    constructor
    · rintro (⟨f, hf, -, hv⟩ | ⟨f, hf, hv⟩)
      · exact ⟨f, hf, hv⟩
      · exact ⟨f, hpicked.target_mem hf, hv⟩
    · rintro ⟨f, hf, hv⟩
      by_cases hmem : f ∈ c.inputFiles.2
      · exact .inr ⟨f, hmem, hv⟩
      · exact .inl ⟨f, hf, hmem, hv⟩

/-- The levels that the compaction does not touch. -/
theorem Applied.lookAt_other {level : ℕ} (hlevel : level < maxLevels) (hs : level ≠ c.level)
    (ho : level ≠ c.level + 1) : t.lookAt key level = t₀.lookAt key level := by
  have hlevels : t.version.levels level = t₀.version.levels level := by
    have hafter : (compactionEdit c added).levelAfter t₀.version level
        = t₀.version.levels level := by
      rw [VersionEdit.levelAfter, List.filter_eq_self.mpr, List.filter_eq_nil_iff.mpr,
        List.append_nil]
      · intro f hf
        rw [hm.finished.level hf, (picked_of_pickCompaction hm.pick).outputLevel_eq]
        simpa using Ne.symm ho
      · intro f hf
        simp [compactionEdit, Ne.symm hs, Ne.symm ho]
    rw [ha.version, hm.beside.version, Version.levels_edit, hafter]
    split
    · rename_i hrange
      exact sortBySmallestKey_of_levelSorted (hh.sorted level hrange.1 hrange.2)
    · rfl
  have hmem : ∀ f ∈ t₀.version.readOrder level, t.look key f = t₀.look key f := fun f hf =>
    ha.look_eq hm hfresh hlevel (Version.mem_readOrder.mp hf) key
  have horder : t.version.readOrder level = t₀.version.readOrder level := by
    by_cases hzero : level = 0
    · subst hzero
      simp only [Version.readOrder, if_true, hlevels]
    · simp only [Version.readOrder, if_neg hzero, hlevels]
  rw [lookAt, lookAt, horder]
  exact findSome?_congr hmem

/-- From level `0`: the source files are asked in the order of the inputs. -/
theorem Applied.find_zero (hzero : c.level = 0) :
    t.find key = ((t₀.version.levels 0).findSome? (t₀.look key)).or
      ([1, 2, 3, 4, 5, 6].findSome? (t₀.lookAt key)) := by
  have hpicked := picked_of_pickCompaction hm.pick
  have hsource : c.inputFiles.1 = t₀.version.levels 0 := hpicked.source_zero hzero
  have hempty : t.lookAt key 0 = none := by
    rw [lookAt, List.findSome?_eq_none_iff]
    intro f hf
    rcases (ha.mem_levels hm hh.distinct (by decide)).mp (Version.mem_readOrder.mp hf) with
      ⟨hold, hnot⟩ | ⟨-, hout⟩
    · exact absurd (List.mem_append_left _ (hsource ▸ hold)) hnot
    · omega
  have hout : t.lookAt key (c.level + 1) = _ := ha.lookAt_output hh hm hfresh
  rw [hzero, hsource] at hout
  have hrange : List.range maxLevels = 0 :: 1 :: [2, 3, 4, 5, 6] := rfl
  have hrest : [2, 3, 4, 5, 6].findSome? (t.lookAt key)
      = [2, 3, 4, 5, 6].findSome? (t₀.lookAt key) := by
    refine findSome?_congr fun level hlevel => ?_
    have hlevel' : 2 ≤ level ∧ level < maxLevels := by
      simp only [List.mem_cons, List.not_mem_nil, or_false] at hlevel
      rw [maxLevels]
      omega
    exact ha.lookAt_other hh hm hfresh hlevel'.2 (by omega) (by omega)
  rw [find, hrange, findSome?_cons_or, findSome?_cons_or, hempty, hout, hrest, Option.none_or,
    Option.or_assoc, ← findSome?_cons_or]

end Find

/-! ### Whole rounds -/

variable {trigger : ℕ} {tr : List TreeAct}

/-- A round on a healthy tree can be carried through. -/
theorem Consistent.exists_plainRound (hh : t₀.Consistent) (ho : t₀.opened = true)
    (hc : t₀.compact = .looping) (hpick : pickCompaction t₀.version = some c) :
    ∃ tr t, (∀ a ∈ tr, PlainRound a) ∧ Machine.run (step trigger) t₀ tr = some t ∧
      t.compact = .swapped c := by
  obtain ⟨rs, hrs⟩ := hh.exists_openInputs hpick
  obtain ⟨t, ⟨tr, htr, hr⟩, hend⟩ := exists_round (M := (· = 0)) ho hc hpick hrs rfl
  exact ⟨tr, t, fun a ha => (htr a ha).1, hr, hend⟩

/-- Outputs of small entries can be read. -/
theorem Merged.readable {cfg : Config} {t₀ u : Tree cfg.format} (hh : t₀.Consistent)
    (hm : t₀.Merged cuts M c added kept u)
    (hsmall : ∀ level < maxLevels, ∀ f ∈ t₀.version.levels level,
      cfg.SmallEntries (t₀.contents f.fileNum)) {f : FileMetadata} (hf : f ∈ added) :
    ∃ r, cfg.format.Readable (u.contents f.fileNum) r := by
  have hsmall' : cfg.SmallEntries (u.contents f.fileNum) := by
    intro e he
    obtain ⟨g, hg, hmem⟩ := hm.mem_input hh (hm.finished.mem_kept hf he)
    obtain ⟨level, hlevel, hlive⟩ := live_of_mem_inputs hm.pick hg
    exact hsmall level hlevel g hlive e hmem
  have hsorted := hm.finished.entriesSorted (hm.entriesSorted_kept hh) hf
  have hout : IsOutput (u.contents f.fileNum) := by
    obtain ⟨x, hx, hcw, rfl⟩ := hm.finished
    exact hx.finished f hf
  exact ⟨_, hsmall'.readable hsorted (totalLen_lt_of_isOutput hsmall'.fits hout)⟩

/-- After a round on small entries every live file can be read. -/
theorem Applied.readable {cfg : Config} {t₀ u t : Tree cfg.format} (hh : t₀.Consistent)
    (hm : t₀.Merged cuts M c added kept u) (ha : u.Applied c added t) (hfresh : t₀.Fresh t)
    (hsmall : ∀ level < maxLevels, ∀ f ∈ t₀.version.levels level,
      cfg.SmallEntries (t₀.contents f.fileNum)) :
    ∀ level < maxLevels, ∀ f ∈ t.version.levels level,
      ∃ r, cfg.format.Readable (t.contents f.fileNum) r := by
  intro level hlevel f hf
  rcases (ha.mem_levels hm hh.distinct hlevel).mp hf with ⟨hold, -⟩ | ⟨hnew, -⟩
  · rw [ha.contents_eq hm hfresh hlevel hold]
    exact hh.readable level hlevel f hold
  · rw [ha.contents]
    exact hm.readable hh hsmall hnew

/-! ### Compactions from level `0` -/

/-- **A compaction from level `0`** without an error, with readers that answer for all live files
after it: a key is found as before exactly when the oldest and the newest file of level `0` that
have it agree. -/
theorem get_round_zero_iff (hh : t₀.Healthy) (ho : t₀.opened = true) (hc : t₀.compact = .looping)
    (htr : ∀ a ∈ tr, PlainRound a) (hr : Machine.run (step trigger) t₀ tr = some t)
    (hend : t.compact = .swapped c) (hzero : c.level = 0) (hfresh : t₀.Fresh t)
    (hread : ∀ level < maxLevels, ∀ f ∈ t.version.levels level,
      ∃ r, fmt.Readable (t.contents f.fileNum) r) (key : Bytes) :
    t.get key = t₀.get key ↔
      (t₀.version.levels 0).findSome? (t₀.look key)
        = (t₀.version.levels 0).reverse.findSome? (t₀.look key) := by
  have hround := roundAt_of_run ho hc htr hr
  rw [hend] at hround
  obtain ⟨added, kept, u, hm, ha, hreaders⟩ := hround
  have hlt := (picked_of_pickCompaction hm.pick).level_lt
  have hserved : t.Served := ha.served hm hfresh hh hreaders fun f hf =>
    hread _ hlt f ((ha.mem_levels hm hh.distinct hlt).mpr (.inr ⟨hf, rfl⟩))
  have hbefore : t₀.find key = ((t₀.version.levels 0).reverse.findSome? (t₀.look key)).or
      ([1, 2, 3, 4, 5, 6].findSome? (t₀.lookAt key)) := by
    have hrange : List.range maxLevels = 0 :: [1, 2, 3, 4, 5, 6] := rfl
    rw [find, hrange, findSome?_cons_or]
    rfl
  rw [(ha.bounded hh.toConsistent hm hfresh).get_eq_find hserved, hh.get_eq_find hh.served,
    ha.find_zero hh.toConsistent hm hfresh hzero, hbefore, Except.ok.injEq]
  -- either both orders find something in level `0`, or none of them does
  have hnone : (t₀.version.levels 0).findSome? (t₀.look key) = none ↔
      (t₀.version.levels 0).reverse.findSome? (t₀.look key) = none := by
    simp only [List.findSome?_eq_none_iff, List.mem_reverse]
  cases hfst : (t₀.version.levels 0).findSome? (t₀.look key) with
  | none => simp [hnone.mp hfst]
  | some v =>
    cases hlst : (t₀.version.levels 0).reverse.findSome? (t₀.look key) with
    | none => rw [hnone.mpr hlst] at hfst; cases hfst
    | some w => simp

/-- Five files on level `0`; the first two have the key `k`, with different values. -/
def stackedFiles : List FileMetadata :=
  [keyFile 0 1 100 [107], keyFile 0 2 100 [107], keyFile 0 3 100 [108], keyFile 0 4 100 [109],
    keyFile 0 5 100 [110]]

def stackedTables : ℕ → List Entry
  | 1 => [([107], some [1])]
  | 2 => [([107], some [2])]
  | 3 => [([108], some [3])]
  | 4 => [([109], some [4])]
  | _ => [([110], some [5])]

/-- The tree of these files. -/
def stacked : Tree Config.plain.format :=
  ofTables Config.plain (.ofFiles stackedFiles) 6 stackedTables

private theorem stackedTables_small : ∀ f ∈ stackedFiles, ∃ v,
    stackedTables f.fileNum = [(f.smallestKey, v)] ∧
      Config.plain.blockSize + encodedLen (f.smallestKey, v) ≤ 8 * defaultBlockSize := by
  simp [stackedFiles, keyFile, stackedTables, Config.plain, encodedLen, defaultBlockSize]

theorem healthy_stacked : stacked.Healthy :=
  healthy_ofFiles stackedTables_small (by decide) (by decide) (by decide) (by decide)

theorem pick_stacked : pickCompaction stacked.version = some ⟨0, (stackedFiles, []), 1⟩ := by
  decide +kernel

private theorem round_stacked : ∃ tr t added kept u,
    (∀ a ∈ tr, PlainRound a) ∧ Machine.run (step 8) stacked tr = some t ∧
      t.compact = .swapped ⟨0, (stackedFiles, []), 1⟩ ∧ stacked.Fresh t ∧
      stacked.Merged (fun _ => none) (· = 0) ⟨0, (stackedFiles, []), 1⟩ added kept u ∧
      u.Applied ⟨0, (stackedFiles, []), 1⟩ added t ∧
      t.readers = swapReaders { t with readers := stacked.readers } ⟨0, (stackedFiles, []), 1⟩ := by
  obtain ⟨tr, t, htr, hr, hend⟩ : ∃ tr t, (∀ a ∈ tr, PlainRound a) ∧
      Machine.run (step 8) stacked tr = some t ∧ t.compact = .swapped ⟨0, (stackedFiles, []), 1⟩ :=
    healthy_stacked.exists_plainRound rfl rfl pick_stacked
  have hround := roundAt_of_run rfl rfl htr hr
  rw [hend] at hround
  obtain ⟨added, kept, u, hm, ha, hreaders⟩ := hround
  refine ⟨tr, t, added, kept, u, htr, hr, hend, fresh_of_lt ?_, hm, ha, hreaders⟩
  rintro n ⟨level, -, f, hf, rfl⟩
  have hlt : ∀ f ∈ stackedFiles, f.fileNum < 6 := by decide
  exact hlt f (Version.mem_ofFiles.mp hf).1

/-- The key `l` is in one file only, and keeps its value. -/
theorem get_round_zero_single : ∃ tr t, (∀ a ∈ tr, PlainRound a) ∧
    Machine.run (step 8) stacked tr = some t ∧ t.get [108] = stacked.get [108] := by
  obtain ⟨tr, t, added, kept, u, htr, hr, hend, hfresh, hm, ha, -⟩ := round_stacked
  refine ⟨tr, t, htr, hr, ?_⟩
  exact (get_round_zero_iff healthy_stacked rfl rfl htr hr hend rfl hfresh
    (ha.readable healthy_stacked.toConsistent hm hfresh fun _ _ _ hf =>
      smallEntries_ofFiles stackedTables_small hf) [108]).mpr (by decide)

/-- **An overwritten value comes back.** Of the two values of the key `k` a lookup finds the newer
one before the compaction and the older one after it. -/
theorem get_round_zero_changes : ∃ tr t, (∀ a ∈ tr, PlainRound a) ∧
    Machine.run (step 8) stacked tr = some t ∧ t.compact = .swapped ⟨0, (stackedFiles, []), 1⟩ ∧
    stacked.get [107] = .ok (some (some [2])) ∧ t.get [107] = .ok (some (some [1])) := by
  obtain ⟨tr, t, added, kept, u, htr, hr, hend, hfresh, hm, ha, hreaders⟩ := round_stacked
  have hserved : t.Served := ha.served hm hfresh healthy_stacked hreaders fun f hf => by
    rw [ha.contents]
    exact hm.readable healthy_stacked.toConsistent
      (fun _ _ _ hf => smallEntries_ofFiles stackedTables_small hf) hf
  refine ⟨tr, t, htr, hr, hend, ?_, ?_⟩
  · rw [healthy_stacked.get_eq_find healthy_stacked.served]
    exact congrArg Except.ok (by decide)
  · have hfirst : (stacked.version.levels 0).findSome? (stacked.look [107])
        = some (some [1]) := by decide
    rw [(ha.bounded healthy_stacked.toConsistent hm hfresh).get_eq_find hserved,
      ha.find_zero healthy_stacked.toConsistent hm hfresh rfl, hfirst, Option.some_or]

/-! ### Compactions from a deeper level -/

/-- A file on level `1` that is over its size, with the key `z`, and one on level `3` with the key
`a`; `counter` is the next file number. -/
def deepFiles : List FileMetadata :=
  [keyFile 1 2 (2 * baseLevelSize) [122], keyFile 3 1 100 [97]]

def deepTables : ℕ → List Entry
  | 1 => [([97], some [26])]
  | _ => [([122], some [1])]

def deepTree (counter : ℕ) : Tree Config.plain.format :=
  ofTables Config.plain (.ofFiles deepFiles) counter deepTables

/-- The compaction that is picked there. -/
def deepCompaction : Compaction := ⟨1, ([keyFile 1 2 (2 * baseLevelSize) [122]], []), 2⟩

theorem deepTables_small : ∀ f ∈ deepFiles, ∃ v,
    deepTables f.fileNum = [(f.smallestKey, v)] ∧
      Config.plain.blockSize + encodedLen (f.smallestKey, v) ≤ 8 * defaultBlockSize := by
  simp [deepFiles, keyFile, deepTables, Config.plain, encodedLen, defaultBlockSize]

theorem healthy_deepTree (counter : ℕ) : (deepTree counter).Healthy :=
  healthy_ofFiles deepTables_small (by decide) (by decide) (by decide) (by decide)

theorem pick_deepTree (counter : ℕ) :
    pickCompaction (deepTree counter).version = some deepCompaction :=
  show pickCompaction (.ofFiles deepFiles) = some deepCompaction by decide +kernel

theorem live_lt_deepTree : ∀ n, (deepTree 3).version.Live n → n < (deepTree 3).counter := by
  rintro n ⟨level, -, f, hf, rfl⟩
  have hlt : ∀ f ∈ deepFiles, f.fileNum < 3 := by decide
  exact hlt f (Version.mem_ofFiles.mp hf).1

end Tree

end Stratum.Lsm
