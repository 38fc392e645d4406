import Mathlib.Data.List.Induction
import Stratum.Lib.Versions
import Stratum.Lsm.CompactionReads

/-!
# Old versions and the snapshots that need them

Of the versions of a user key that lie below `minActiveSnapshot`, `Execute` writes the newest one
and drops the others; a tombstone is dropped too when the output goes to the deepest occupied level.
The rule sees **the inputs only**. Files are selected by ranges of encoded keys, so that another
file, on the source level or on the output level, may have older versions of the same user key.

* `mem_gcRun_iff` is the rule over a sorted stream: what is kept of it does not depend on the local
  variables of the loop.
* `Applied.stores_iff` is what the tree stores after the round, in terms of the inputs and of the
  rest.
* `Tree.sees_round_iff`: the snapshots from `minActiveSnapshot` on see what they saw exactly when no
  dropped tombstone had hidden a version in the rest, and `Tree.sees_round_resurrects` is a round
  that brings a deleted value back.
-/

namespace Stratum.Lsm

open Mvcc Memtable Sstable
open scoped Versions

/-! ### The rule over a sorted stream -/

section Rule

variable {out occ : ℕ} {m : UInt64} {st : GcState} {e : Entry} {done : List (Entry × UInt64)}

/-- An entry that lies below the answer given for it. -/
def IsOld (p : Entry × UInt64) : Prop := (decodeKey p.1.1).2 < p.2

theorem gcStep_fst :
    (gcStep out occ m st e).1.lastUserKey = (decodeKey e.1).1 ∧
      ((gcStep out occ m st e).1.seenOlderThanMinActive = true ↔
        (st.lastUserKey = (decodeKey e.1).1 ∧ st.seenOlderThanMinActive = true) ∨
          IsOld (e, m)) := by
  simp only [gcStep, IsOld]
  by_cases hkey : (decodeKey e.1).1 = st.lastUserKey
  · by_cases hold : (decodeKey e.1).2 < m
    · cases hseen : st.seenOlderThanMinActive <;> simp [hkey, hold, hseen]
    · simp [hkey, hold]
  · by_cases hold : (decodeKey e.1).2 < m
    · simp [hkey, hold]
    · simp [hkey, hold, Ne.symm hkey]

theorem gcStep_snd :
    (gcStep out occ m st e).2 = true ↔ (IsOld (e, m) →
      ¬ (st.lastUserKey = (decodeKey e.1).1 ∧ st.seenOlderThanMinActive = true) ∧
        ¬ (e.2 = none ∧ occ ≤ out)) := by
  simp only [gcStep, IsOld]
  by_cases hold : (decodeKey e.1).2 < m
  · by_cases hkey : (decodeKey e.1).1 = st.lastUserKey
    · cases hseen : st.seenOlderThanMinActive <;> simp [hkey, hold, hseen, imp_iff_not_or]
    · simp [hkey, hold, Ne.symm hkey, imp_iff_not_or]
  · simp [hold]

/-- An older entry of the same user key has gone before. -/
def SeenBefore (done : List (Entry × UInt64)) (e : Entry) : Prop :=
  ∃ p ∈ done, compareKeys p.1.1 e.1 = .lt ∧ (decodeKey p.1.1).1 = (decodeKey e.1).1 ∧ IsOld p

/-- What the variables of the loop say about the entries read so far. -/
structure GcInv (st : GcState) (done : List (Entry × UInt64)) : Prop where
  last : ∀ p, done.getLast? = some p → (decodeKey p.1.1).1 = st.lastUserKey
  seen : st.seenOlderThanMinActive = true ↔
    ∃ p ∈ done, (decodeKey p.1.1).1 = st.lastUserKey ∧ IsOld p

/-- Keys between two keys of one user key have that user key. -/
private theorem decodeKey_fst_eq {a b c : Bytes} (hac : (decodeKey a).1 = (decodeKey c).1)
    (hab : a = b ∨ compareKeys a b = .lt) (hbc : compareKeys b c = .lt) :
    (decodeKey b).1 = (decodeKey c).1 := by
  rcases hab with rfl | hab
  · exact hac
  · have h₁ := compare_userKey_ne_gt hab
    have h₂ := compare_userKey_ne_gt hbc
    rw [userKey_eq_decodeKey, userKey_eq_decodeKey] at h₁ h₂
    rw [hac] at h₁
    cases hcmp : compare (decodeKey b).1 (decodeKey c).1 with
    | lt => exact absurd (Std.OrientedCmp.gt_of_lt hcmp) h₁
    | eq => exact Std.LawfulEqCmp.eq_of_compare hcmp
    | gt => exact absurd hcmp h₂

/-- The versions of a user key stand together, so that the last entry read decides. -/
theorem GcInv.seenBefore_iff (h : GcInv st done)
    (hsorted : EntriesSorted ((done ++ [(e, m)]).map Prod.fst)) :
    (st.lastUserKey = (decodeKey e.1).1 ∧ st.seenOlderThanMinActive = true) ↔
      SeenBefore done e := by
  rw [List.map_append] at hsorted
  obtain ⟨hdone, -, hlt⟩ := List.pairwise_append.mp hsorted
  have hlt : ∀ p ∈ done, compareKeys p.1.1 e.1 = .lt := fun p hp =>
    hlt p.1 (List.mem_map_of_mem hp) e (by simp)
  constructor
  · rintro ⟨hkey, hseen⟩
    obtain ⟨p, hp, hpkey, hold⟩ := h.seen.mp hseen
    exact ⟨p, hp, hlt p hp, hpkey.trans hkey, hold⟩
  · rintro ⟨p, hp, -, hpkey, hold⟩
    -- `q` is the last entry read
    obtain ⟨init, q, rfl⟩ : ∃ init q, done = init ++ [q] :=
      (List.eq_nil_or_concat' done).resolve_left (List.ne_nil_of_mem hp)
    have hpq : p.1.1 = q.1.1 ∨ compareKeys p.1.1 q.1.1 = .lt := by
      rcases List.mem_append.mp hp with hp | hp
      · rw [List.map_append] at hdone
        exact .inr ((List.pairwise_append.mp hdone).2.2 p.1 (List.mem_map_of_mem hp) q.1 (by simp))
      · exact .inl (by rw [List.mem_singleton.mp hp])
    have hlast := h.last q (by simp)
    have hkey : st.lastUserKey = (decodeKey e.1).1 :=
      hlast.symm.trans (decodeKey_fst_eq hpkey hpq (hlt q (by simp)))
    exact ⟨hkey, h.seen.mpr ⟨p, hp, hpkey.trans hkey.symm, hold⟩⟩

/-- One entry more. -/
theorem GcInv.step (h : GcInv st done)
    (hsorted : EntriesSorted ((done ++ [(e, m)]).map Prod.fst)) :
    GcInv (gcStep out occ m st e).1 (done ++ [(e, m)]) := by
  obtain ⟨hlast, hseen⟩ := @gcStep_fst out occ m st e
  refine ⟨fun p hp => ?_, ?_⟩
  · rw [List.getLast?_concat, Option.some.injEq] at hp
    rw [← hp, hlast]
  · rw [hseen, h.seenBefore_iff hsorted, hlast]
    constructor
    · rintro (⟨p, hp, -, hkey, hold⟩ | hold)
      · exact ⟨p, List.mem_append_left _ hp, hkey, hold⟩
      · exact ⟨(e, m), by simp, rfl, hold⟩
    · rintro ⟨p, hp, hkey, hold⟩
      rcases List.mem_append.mp hp with hp | hp
      · rw [List.map_append] at hsorted
        exact .inl ⟨p, hp, (List.pairwise_append.mp hsorted).2.2 p.1 (List.mem_map_of_mem hp) e
          (by simp), hkey, hold⟩
      · rw [List.mem_singleton.mp hp] at hold
        exact .inr hold

/-- What comes later does not matter. -/
private theorem seenBefore_concat_iff {p : Entry × UInt64} (h : compareKeys p.1.1 e.1 ≠ .lt) :
    SeenBefore (done ++ [p]) e ↔ SeenBefore done e := by
  constructor
  · rintro ⟨q, hq, hlt, hrest⟩
    rcases List.mem_append.mp hq with hq | hq
    · exact ⟨q, hq, hlt, hrest⟩
    · rw [List.mem_singleton.mp hq] at hlt
      exact absurd hlt h
  · rintro ⟨q, hq, hrest⟩
    exact ⟨q, List.mem_append_left _ hq, hrest⟩

/-- **The rule**, without its variables: an old entry is kept if no old entry of its user key has
gone before, and if it is not a tombstone for the deepest level. -/
theorem mem_gcRun_iff (hsorted : EntriesSorted (done.map Prod.fst)) :
    e ∈ (gcRun out occ ⟨[], false⟩ done).2 ↔ ∃ m, (e, m) ∈ done ∧
      (IsOld (e, m) → ¬ SeenBefore done e ∧ ¬ (e.2 = none ∧ occ ≤ out)) := by
  suffices h : GcInv (gcRun out occ ⟨[], false⟩ done).1 done ∧ ∀ e,
      e ∈ (gcRun out occ ⟨[], false⟩ done).2 ↔ ∃ m, (e, m) ∈ done ∧
        (IsOld (e, m) → ¬ SeenBefore done e ∧ ¬ (e.2 = none ∧ occ ≤ out)) from h.2 e
  induction done using List.reverseRecOn with
  | nil => exact ⟨⟨by simp, by simp [gcRun]⟩, by simp [gcRun]⟩
  | append_singleton done p ih =>
    obtain ⟨hinv, hmem⟩ := ih (by
      rw [List.map_append] at hsorted
      exact (List.pairwise_append.mp hsorted).1)
    obtain ⟨e', m⟩ := p
    rw [gcRun_concat]
    refine ⟨hinv.step hsorted, fun e => ?_⟩
    have hlt : ∀ p ∈ done, compareKeys p.1.1 e'.1 = .lt := fun p hp => by
      rw [List.map_append] at hsorted
      exact (List.pairwise_append.mp hsorted).2.2 p.1 (List.mem_map_of_mem hp) e' (by simp)
    rw [List.mem_append, hmem]
    simp only [List.mem_append, List.mem_singleton, Prod.mk.injEq, or_and_right, exists_or]
    refine or_congr (exists_congr fun m' => and_congr_right fun hin => ?_) ?_
    · rw [seenBefore_concat_iff fun h => compareKeys_ne_of_lt
        (compareKeys_lt_trans (hlt _ hin) h) rfl]
    · rw [List.mem_ite_nil_right, List.mem_singleton, gcStep_snd, hinv.seenBefore_iff hsorted]
      constructor
      · rintro ⟨hkeep, rfl⟩
        refine ⟨m, ⟨rfl, rfl⟩, ?_⟩
        rwa [seenBefore_concat_iff fun h => compareKeys_ne_of_lt h rfl]
      · rintro ⟨m', ⟨rfl, rfl⟩, hkeep⟩
        rw [seenBefore_concat_iff fun h => compareKeys_ne_of_lt h rfl] at hkeep
        exact ⟨hkeep, rfl⟩

end Rule

/-! ### The versions in the tree -/

namespace Tree

variable {fmt : TableFormat} {trigger : ℕ} {m : UInt64} {t₀ u t : Tree fmt} {c : Compaction}
  {added : List FileMetadata} {kept : List Entry} {tr : List TreeAct} {k : Bytes} {ts : UInt64}
  {v : Option Bytes}

/-- A live file has this version of the user key. -/
def Stores (t : Tree fmt) (k : Bytes) (ts : UInt64) (v : Option Bytes) : Prop :=
  ∃ level < maxLevels, ∃ f ∈ t.version.levels level, (encodeKey k ts, v) ∈ t.contents f.fileNum

/-- An input of the compaction has it. -/
def StoresIn (t : Tree fmt) (c : Compaction) (k : Bytes) (ts : UInt64) (v : Option Bytes) : Prop :=
  ∃ f ∈ c.inputs, (encodeKey k ts, v) ∈ t.contents f.fileNum

/-- Another live file has it. -/
def StoresBeside (t : Tree fmt) (c : Compaction) (k : Bytes) (ts : UInt64) (v : Option Bytes) :
    Prop :=
  ∃ level < maxLevels, ∃ f ∈ t.version.levels level, f ∉ c.inputs ∧
    (encodeKey k ts, v) ∈ t.contents f.fileNum

/-- **What a snapshot sees**: the value of the newest version up to `s`, unless that is a
tombstone. -/
def Sees (t : Tree fmt) (k : Bytes) (s : UInt64) (x : Bytes) : Prop :=
  Versions.Visible (t.Stores k) s x

/-- The tree stores encoded keys, each one in one file. -/
structure Versioned (t : Tree fmt) : Prop where
  encoded : ∀ level < maxLevels, ∀ f ∈ t.version.levels level, ∀ e ∈ t.contents f.fileNum,
    ∃ k ts, e.1 = encodeKey k ts
  once : ∀ level < maxLevels, ∀ f ∈ t.version.levels level, ∀ level' < maxLevels,
    ∀ g ∈ t.version.levels level', ∀ e ∈ t.contents f.fileNum, ∀ e' ∈ t.contents g.fileNum,
      e.1 = e'.1 → level = level' ∧ f = g

section Before

variable (hh : t₀.Consistent) (hv : t₀.Versioned) (hpick : pickCompaction t₀.version = some c)

include hpick

/-- A version is in an input or beside them. -/
theorem stores_iff_storesIn_or :
    t₀.Stores k ts v ↔ t₀.StoresIn c k ts v ∨ t₀.StoresBeside c k ts v := by
  constructor
  · rintro ⟨level, hlevel, f, hf, hmem⟩
    by_cases hin : f ∈ c.inputs
    · exact .inl ⟨f, hin, hmem⟩
    · exact .inr ⟨level, hlevel, f, hf, hin, hmem⟩
  · rintro (⟨f, hin, hmem⟩ | ⟨level, hlevel, f, hf, -, hmem⟩)
    · obtain ⟨level, hlevel, hf⟩ := live_of_mem_inputs hpick hin
      exact ⟨level, hlevel, f, hf, hmem⟩
    · exact ⟨level, hlevel, f, hf, hmem⟩

include hv

theorem Versioned.storesBeside_of_storesIn {v' : Option Bytes} (h : t₀.StoresIn c k ts v) :
    ¬ t₀.StoresBeside c k ts v' := by
  obtain ⟨f, hin, hmem⟩ := h
  obtain ⟨level, hlevel, hf⟩ := live_of_mem_inputs hpick hin
  rintro ⟨level', hlevel', g, hg, hnot, hmem'⟩
  obtain ⟨-, rfl⟩ := hv.once level hlevel f hf level' hlevel' g hg _ hmem _ hmem' rfl
  exact hnot hin

include hh

theorem Versioned.storesIn_unique {v' : Option Bytes} (h : t₀.StoresIn c k ts v)
    (h' : t₀.StoresIn c k ts v') : v = v' := by
  obtain ⟨f, hin, hmem⟩ := h
  obtain ⟨g, hin', hmem'⟩ := h'
  obtain ⟨level, hlevel, hf⟩ := live_of_mem_inputs hpick hin
  obtain ⟨level', hlevel', hg⟩ := live_of_mem_inputs hpick hin'
  obtain ⟨-, rfl⟩ := hv.once level hlevel f hf level' hlevel' g hg _ hmem _ hmem' rfl
  have hsorted := hh.entries level hlevel f hf
  rw [← KWayMerge.lookup_eq_some_iff hsorted] at hmem hmem'
  rw [hmem] at hmem'
  exact Option.some.inj hmem'

/-- The merged entries are those of the inputs. -/
theorem Versioned.mem_merge_iff {rs : List fmt.Reader} (hrs : t₀.openInputs c.inputs = some rs)
    {e : Entry} :
    e ∈ merge (streams rs fun _ => none) ↔ ∃ f ∈ c.inputs, e ∈ t₀.contents f.fileNum := by
  have hlook : ∀ f ∈ c.inputs, ∀ w, t₀.look e.1 f = some w ↔ (e.1, w) ∈ t₀.contents f.fileNum := by
    intro f hin w
    obtain ⟨level, hlevel, hf⟩ := live_of_mem_inputs hpick hin
    exact KWayMerge.lookup_eq_some_iff (hh.entries level hlevel f hf)
  -- at most one input has the key
  have hunique : ∀ f ∈ c.inputs, ∀ g ∈ c.inputs, t₀.look e.1 f ≠ none → t₀.look e.1 g ≠ none →
      f = g := by
    intro f hin g hin' hne hne'
    obtain ⟨w, hw⟩ := Option.ne_none_iff_exists'.mp hne
    obtain ⟨w', hw'⟩ := Option.ne_none_iff_exists'.mp hne'
    obtain ⟨level, hlevel, hf⟩ := live_of_mem_inputs hpick hin
    obtain ⟨level', hlevel', hg⟩ := live_of_mem_inputs hpick hin'
    exact (hv.once level hlevel f hf level' hlevel' g hg _ ((hlook f hin w).mp hw) _
      ((hlook g hin' w').mp hw') rfl).2
  rw [merge, KWayMerge.mem_merge_iff_findSome? (hh.sorted_streams hpick hrs),
    hh.streams_none hpick hrs, List.findSome?_map]
  refine (findSome?_eq_some_iff_of_unique hunique).trans (exists_congr fun f => ?_)
  exact and_congr_right fun hin => hlook f hin e.2

end Before

/-! ### The versions after a round -/

section Round

variable (hh : t₀.Consistent) (hv : t₀.Versioned)
  (hm : t₀.Merged (fun _ => none) (· = m) c added kept u)

include hh hv hm

/-- What is written is what the rule keeps of the inputs, user key by user key. -/
theorem Merged.mem_kept_iff : (encodeKey k ts, v) ∈ kept ↔
    Versions.Pruned (t₀.StoresIn c k) m (maxOccupiedLevel t₀.version ≤ c.outputLevel) ts v := by
  obtain ⟨gc, rs, done, hrs, hmerge, hM, hgc⟩ := hm.selects
  rw [List.append_nil] at hmerge
  have hsorted : EntriesSorted (done.map Prod.fst) :=
    hmerge ▸ KWayMerge.sorted_merge (hh.sorted_streams hm.pick hrs)
  have hmem : ∀ e, (∃ f ∈ c.inputs, e ∈ t₀.contents f.fileNum) ↔ (e, m) ∈ done := by
    intro e
    rw [← hv.mem_merge_iff hh hm.pick hrs, hmerge, List.mem_map]
    constructor
    · rintro ⟨p, hp, rfl⟩
      rwa [← hM p hp]
    · exact fun hp => ⟨_, hp, rfl⟩
  have hseen : SeenBefore done (encodeKey k ts, v) ↔
      ∃ ts' v', t₀.StoresIn c k ts' v' ∧ ts' < m ∧ ts < ts' := by
    constructor
    · rintro ⟨⟨⟨key, v'⟩, m'⟩, hp, hlt, hkey, hold⟩
      obtain rfl : m' = m := hM _ hp
      obtain ⟨f, hin, hf⟩ := (hmem _).mpr hp
      obtain ⟨level, hlevel, hlive⟩ := live_of_mem_inputs hm.pick hin
      obtain ⟨k', ts', rfl⟩ := hv.encoded level hlevel f hlive _ hf
      simp only [decodeKey_encodeKey, IsOld] at hkey hold
      subst hkey
      exact ⟨ts', v', ⟨f, hin, hf⟩, hold, compareKeys_encodeKey_lt.mp hlt⟩
    · rintro ⟨ts', v', hin, hlt, hgt⟩
      refine ⟨((encodeKey k ts', v'), m), (hmem _).mp hin, compareKeys_encodeKey_lt.mpr hgt, ?_, ?_⟩
      · simp
      · simpa [IsOld] using hlt
  have hnewest : ¬ SeenBefore done (encodeKey k ts, v) ↔
      Versions.NewestBelow (t₀.StoresIn c k) m ts := by
    rw [hseen]
    constructor
    · exact fun h ts' v' hin hlt => not_lt.mp fun hgt => h ⟨ts', v', hin, hlt, hgt⟩
    · rintro h ⟨ts', v', hin, hlt, hgt⟩
      exact absurd hgt (not_lt.mpr (h ts' v' hin hlt))
  have hrun := @mem_gcRun_iff c.outputLevel (maxOccupiedLevel t₀.version) (encodeKey k ts, v) done
    hsorted
  rw [hgc] at hrun
  rw [hrun, hnewest, Versions.Pruned, StoresIn, hmem]
  constructor
  · rintro ⟨m', hp, hkeep⟩
    obtain rfl : m' = m := hM _ hp
    exact ⟨hp, fun hlt => hkeep (by simpa [IsOld] using hlt)⟩
  · rintro ⟨hp, hkeep⟩
    exact ⟨m, hp, fun hold => hkeep (by simpa [IsOld] using hold)⟩

/-- **What the tree stores after a round.** -/
theorem Applied.stores_iff (ha : u.Applied c added t) (hfresh : t₀.Fresh t) :
    t.Stores k ts v ↔
      Versions.Pruned (t₀.StoresIn c k) m (maxOccupiedLevel t₀.version ≤ c.outputLevel) ts v ∨
        t₀.StoresBeside c k ts v := by
  have hlt := (picked_of_pickCompaction hm.pick).level_lt
  rw [← hm.mem_kept_iff hh hv, hm.finished.kept_eq, List.mem_flatMap, ← ha.contents]
  constructor
  · rintro ⟨level, hlevel, f, hf, hmem⟩
    rcases (ha.mem_levels hm hh.distinct hlevel).mp hf with ⟨hold, hnot⟩ | ⟨hnew, -⟩
    · rw [ha.contents_eq hm hfresh hlevel hold] at hmem
      exact .inr ⟨level, hlevel, f, hold, hnot, hmem⟩
    · exact .inl ⟨f, hnew, hmem⟩
  · rintro (⟨f, hnew, hmem⟩ | ⟨level, hlevel, f, hold, hnot, hmem⟩)
    · exact ⟨c.level + 1, hlt, f, (ha.mem_levels hm hh.distinct hlt).mpr (.inr ⟨hnew, rfl⟩), hmem⟩
    · rw [← ha.contents_eq hm hfresh hlevel hold] at hmem
      exact ⟨level, hlevel, f, (ha.mem_levels hm hh.distinct hlevel).mpr (.inl ⟨hold, hnot⟩), hmem⟩

end Round

/-- **When a compaction cannot be seen.** The inputs are read without an error and
`minActiveSnapshot` always answers `m`. The snapshots from `m` on see the same of a user key before
and after exactly when, for each of its tombstones that the rule drops, there is a newer version up
to `m`, or the newest older version in a file that is not an input is no value. -/
theorem sees_round_iff (hh : t₀.Consistent) (hv : t₀.Versioned) (ho : t₀.opened = true)
    (hc : t₀.compact = .looping) (htr : ∀ a ∈ tr, InRound (fun _ => none) (· = m) a)
    (hr : Machine.run (step trigger) t₀ tr = some t) (hend : t.compact = .swapped c)
    (hfresh : t₀.Fresh t) (k : Bytes) :
    (∀ s, m ≤ s → ∀ x, t.Sees k s x ↔ t₀.Sees k s x) ↔
      ∀ ts, Versions.Dropped (t₀.StoresIn c k) m (maxOccupiedLevel t₀.version ≤ c.outputLevel) ts →
        (∃ ts' v, t₀.Stores k ts' v ∧ ts < ts' ∧ ts' ≤ m) ∨
          Versions.Quiet (t₀.StoresBeside c k) ts := by
  have hround := roundAt_of_run ho hc htr hr
  rw [hend] at hround
  obtain ⟨added, kept, u, hm, ha, -⟩ := hround
  have hbefore : t₀.Stores k = fun ts v => t₀.StoresIn c k ts v ∨ t₀.StoresBeside c k ts v :=
    funext₂ fun ts v => propext (stores_iff_storesIn_or hm.pick)
  have hafter : t.Stores k = fun ts v =>
      Versions.Pruned (t₀.StoresIn c k) m (maxOccupiedLevel t₀.version ≤ c.outputLevel) ts v ∨
        t₀.StoresBeside c k ts v :=
    funext₂ fun ts v => propext (ha.stores_iff hh hv hm hfresh)
  simp only [Sees, hbefore, hafter]
  exact Versions.visible_pruned_iff (fun _ _ _ => hv.storesIn_unique hh hm.pick)
    fun _ _ _ => hv.storesBeside_of_storesIn hm.pick

/-- A deleted key: the tombstone of time `10` is on level `1`, whose file is over its size, and the
value of time `5` on level `2`. The ranges of the two files do not overlap. -/
def deletedFiles : List FileMetadata :=
  [keyFile 1 2 (2 * baseLevelSize) (encodeKey [107] 10), keyFile 2 1 100 (encodeKey [107] 5)]

def deletedTables : ℕ → List Entry
  | 1 => [(encodeKey [107] 5, some [1])]
  | _ => [(encodeKey [107] 10, none)]

def deletedTree : Tree Config.plain.format :=
  ofTables Config.plain (.ofFiles deletedFiles) 3 deletedTables

/-- The compaction that is picked there. -/
def deletedCompaction : Compaction :=
  ⟨1, ([keyFile 1 2 (2 * baseLevelSize) (encodeKey [107] 10)], []), 2⟩

private theorem healthy_deletedTree : deletedTree.Healthy := by
  refine healthy_ofFiles ?_ (by decide) (by decide) (by decide) (by decide)
  simp [deletedFiles, keyFile, deletedTables, Config.plain, encodedLen, defaultBlockSize]

private theorem pick_deletedTree : pickCompaction deletedTree.version = some deletedCompaction :=
  show pickCompaction (.ofFiles deletedFiles) = some deletedCompaction by decide +kernel

private theorem live_lt_deletedTree :
    ∀ n, deletedTree.version.Live n → n < deletedTree.counter := by
  rintro n ⟨level, -, f, hf, rfl⟩
  have hlt : ∀ f ∈ deletedFiles, f.fileNum < 3 := by decide
  exact hlt f (Version.mem_ofFiles.mp hf).1

private theorem versioned_deletedTree : deletedTree.Versioned := by
  refine ⟨fun level _ f hf e he => ?_, fun level _ f hf level' _ g hg e he e' he' heq => ?_⟩
  · have hkey : ∀ f ∈ deletedFiles, ∀ e ∈ deletedTables f.fileNum,
        e.1 = encodeKey [107] 10 ∨ e.1 = encodeKey [107] 5 := by decide
    rcases hkey f (Version.mem_ofFiles.mp hf).1 e he with h | h
    · exact ⟨_, _, h⟩
    · exact ⟨_, _, h⟩
  · have honce : ∀ f ∈ deletedFiles, ∀ g ∈ deletedFiles, ∀ e ∈ deletedTables f.fileNum,
        ∀ e' ∈ deletedTables g.fileNum, e.1 = e'.1 → f = g := by decide
    obtain ⟨hfile, hlevel⟩ := Version.mem_ofFiles.mp hf
    obtain ⟨hfile', hlevel'⟩ := Version.mem_ofFiles.mp hg
    obtain rfl := honce f hfile g hfile' e he e' he' heq
    exact ⟨hlevel.symm.trans hlevel', rfl⟩

private theorem storesIn_deletedTree {ts : UInt64} {v : Option Bytes} :
    deletedTree.StoresIn deletedCompaction [107] ts v ↔ ts = 10 ∧ v = none := by
  constructor
  · rintro ⟨f, hin, hmem⟩
    obtain rfl : f = keyFile 1 2 (2 * baseLevelSize) (encodeKey [107] 10) :=
      List.mem_singleton.mp hin
    obtain ⟨hkey, hv⟩ := Prod.mk.inj (List.mem_singleton.mp hmem)
    exact ⟨(encodeKey_inj.mp hkey).2, hv⟩
  · rintro ⟨rfl, rfl⟩
    exact ⟨_, List.mem_singleton_self _, List.mem_singleton_self _⟩

private theorem storesBeside_deletedTree {ts : UInt64} {v : Option Bytes} :
    deletedTree.StoresBeside deletedCompaction [107] ts v ↔ ts = 5 ∧ v = some [1] := by
  constructor
  · rintro ⟨level, -, f, hf, hnot, hmem⟩
    have hother : ∀ f ∈ deletedFiles, f ∉ deletedCompaction.inputs →
        deletedTables f.fileNum = [(encodeKey [107] 5, some [1])] := by decide
    change _ ∈ deletedTables f.fileNum at hmem
    rw [hother f (Version.mem_ofFiles.mp hf).1 hnot] at hmem
    obtain ⟨hkey, hv⟩ := Prod.mk.inj (List.mem_singleton.mp hmem)
    exact ⟨(encodeKey_inj.mp hkey).2, hv⟩
  · rintro ⟨rfl, rfl⟩
    exact ⟨2, by decide, keyFile 2 1 100 (encodeKey [107] 5), by decide, by decide,
      List.mem_singleton_self _⟩

/-- A round there, for any answer of `minActiveSnapshot`. -/
private theorem round_deletedTree (m : UInt64) : ∃ tr t,
    (∀ a ∈ tr, InRound (fun _ => none) (· = m) a) ∧
      Machine.run (step 8) deletedTree tr = some t ∧ t.compact = .swapped deletedCompaction := by
  obtain ⟨rs, hrs⟩ := healthy_deletedTree.exists_openInputs pick_deletedTree
  obtain ⟨t, ⟨tr, htr, hr⟩, hend⟩ : ∃ t, Reaches 8 (fun _ => none) (· = m) deletedTree t ∧
      t.compact = .swapped deletedCompaction := exists_round rfl rfl pick_deletedTree hrs rfl
  exact ⟨tr, t, fun a ha => (htr a ha).1, hr, hend⟩

theorem sees_round_keeps_tombstone : ∃ tr t,
    (∀ a ∈ tr, InRound (fun _ => none) (· = 7) a) ∧
      Machine.run (step 8) deletedTree tr = some t ∧
      ∀ s, 7 ≤ s → ∀ x, t.Sees [107] s x ↔ deletedTree.Sees [107] s x := by
  obtain ⟨tr, t, htr, hr, hend⟩ := round_deletedTree 7
  refine ⟨tr, t, htr, hr, (sees_round_iff healthy_deletedTree.toConsistent versioned_deletedTree rfl
    rfl htr hr hend (fresh_of_lt live_lt_deletedTree) [107]).mpr fun ts hd => ?_⟩
  -- the tombstone lies above the bound
  have hlt := hd.lt
  rw [(storesIn_deletedTree.mp hd.tombstone).1] at hlt
  exact absurd hlt (by decide)

/-- **A deleted value comes back.** With `minActiveSnapshot` at `20` the tombstone is dropped, since
nothing lies below level `2`; the file of level `2` is not an input, and its version is seen again
at `20`. -/
theorem sees_round_resurrects : deletedTree.Healthy ∧ deletedTree.Versioned ∧ ∃ tr t,
    (∀ a ∈ tr, InRound (fun _ => none) (· = 20) a) ∧
      Machine.run (step 8) deletedTree tr = some t ∧ t.compact = .swapped deletedCompaction ∧
      (∀ x, ¬ deletedTree.Sees [107] 20 x) ∧ t.Sees [107] 20 [1] := by
  obtain ⟨tr, t, htr, hr, hend⟩ := round_deletedTree 20
  refine ⟨healthy_deletedTree, versioned_deletedTree, tr, t, htr, hr, hend, ?_, ?_⟩
  · rintro x ⟨ts, -, hx, hmax⟩
    have hle : (10 : UInt64) ≤ ts := hmax 10 none ((stores_iff_storesIn_or pick_deletedTree).mpr
      (.inl (storesIn_deletedTree.mpr ⟨rfl, rfl⟩))) (by decide)
    rcases (stores_iff_storesIn_or pick_deletedTree).mp hx with hx | hx
    · exact absurd (storesIn_deletedTree.mp hx).2 nofun
    · rw [(storesBeside_deletedTree.mp hx).1] at hle
      exact absurd hle (by decide)
  · have hround := roundAt_of_run rfl rfl htr hr
    rw [hend] at hround
    obtain ⟨added, kept, u, hm, ha, -⟩ := hround
    have hstores : ∀ ts v, t.Stores [107] ts v ↔ ts = 5 ∧ v = some [1] := by
      intro ts v
      rw [ha.stores_iff healthy_deletedTree.toConsistent versioned_deletedTree hm
        (fresh_of_lt live_lt_deletedTree), storesBeside_deletedTree]
      refine or_iff_right fun ⟨hin, hkeep⟩ => ?_
      obtain ⟨rfl, rfl⟩ := storesIn_deletedTree.mp hin
      exact (hkeep (by decide)).2 ⟨rfl, by decide⟩
    refine ⟨5, by decide, (hstores 5 _).mpr ⟨rfl, rfl⟩, fun ts v hts _ => ?_⟩
    rw [((hstores ts v).mp hts).1]

end Tree

end Stratum.Lsm
