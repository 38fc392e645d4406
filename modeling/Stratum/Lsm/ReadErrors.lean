import Stratum.Lsm.CompactionReads

/-!
# Inputs that cannot be read to their end

An iterator over a table stops at the first block that it cannot read, with `Err` set. The merge
takes an iterator that has stopped for one that is **exhausted**, `Execute` never asks for `Err`,
and the edit that it applies deletes the inputs all the same.

`Tree.SortedOut` says what becomes of the entries that are passed, and `Tree.Accounted` that no
entry is lost: each one is written, or hidden by an input of lower index, or dropped by the rule for
old versions. `Tree.accounted_round_iff` is what this takes, key by key, for arbitrary read errors,
and that an early stop never keeps the edit back. In `Tree.accounted_round_fails` the only block of
a table cannot be read and its key is gone.
-/

namespace Stratum.Lsm

open Mvcc Memtable Sstable

/-- What the rule drops of a list of entries. -/
def gcDropped (outputLevel maxOccupied : ℕ) : GcState → List (Entry × UInt64) → List Entry
  | _, [] => []
  | st, (e, minActive) :: es =>
    let step := gcStep outputLevel maxOccupied minActive st e
    let rest := gcDropped outputLevel maxOccupied step.1 es
    if step.2 then rest else e :: rest

/-- The rule keeps an entry or drops it. -/
theorem mem_gcRun_or_gcDropped {out occ : ℕ} {st : GcState} {es : List (Entry × UInt64)}
    {e : Entry} :
    e ∈ (gcRun out occ st es).2 ∨ e ∈ gcDropped out occ st es ↔ e ∈ es.map Prod.fst := by
  induction es generalizing st with
  | nil => simp [gcRun, gcDropped]
  | cons p es ih =>
    have ih := @ih (gcStep out occ p.2 st p.1).1
    rw [List.map_cons, List.mem_cons, ← ih, gcRun, gcDropped]
    cases (gcStep out occ p.2 st p.1).2 with
    | true => simp [or_assoc]
    | false => simp [or_left_comm]

namespace Tree

variable {fmt : TableFormat} {trigger : ℕ} {cuts : ℕ → Option ℕ} {M : UInt64 → Prop}
  {t₀ u t : Tree fmt} {c : Compaction} {added : List FileMetadata} {kept dropped : List Entry}
  {tr : List TreeAct}

/-- What becomes of the inputs of a round: their iterators stop where `cuts` says, and of the merged
entries `kept` are written and `dropped` fall under the rule for old versions. -/
def SortedOut (t₀ : Tree fmt) (cuts : ℕ → Option ℕ) (M : UInt64 → Prop) (c : Compaction)
    (kept dropped : List Entry) : Prop :=
  ∃ rs done, t₀.openInputs c.inputs = some rs ∧ merge (streams rs cuts) = done.map Prod.fst ∧
    (∀ p ∈ done, M p.2) ∧
    (gcRun c.outputLevel (maxOccupiedLevel t₀.version) ⟨[], false⟩ done).2 = kept ∧
    gcDropped c.outputLevel (maxOccupiedLevel t₀.version) ⟨[], false⟩ done = dropped

/-- **No entry is lost**: every entry of every input is written, or an input of lower index has
its key, or it is dropped by the rule. -/
def Accounted (t₀ : Tree fmt) (c : Compaction) (written dropped : List Entry) : Prop :=
  ∀ (i : ℕ) (f : FileMetadata), c.inputs[i]? = some f → ∀ e ∈ t₀.contents f.fileNum,
    e ∈ written ∨
      (∃ j < i, ∃ g : FileMetadata, c.inputs[j]? = some g ∧ ∃ v, (e.1, v) ∈ t₀.contents g.fileNum) ∨
      e ∈ dropped

/-- What the first input that **passes** the key passes for it. -/
def firstPassed (t₀ : Tree fmt) (cuts : ℕ → Option ℕ) (c : Compaction) (key : Bytes) :
    Option (Option Bytes) :=
  c.inputs.zipIdx.findSome? fun p => (stopAt (t₀.contents p.1.fileNum) (cuts p.2)).lookup key

/-- What the first input that **has** the key has for it. -/
def firstStored (t₀ : Tree fmt) (c : Compaction) (key : Bytes) : Option (Option Bytes) :=
  c.inputs.findSome? (t₀.look key)

section Merge

variable (hh : t₀.Consistent) (hpick : pickCompaction t₀.version = some c)

include hh hpick

/-- The first input that has an entry for a key. -/
theorem Consistent.firstStored_eq_some_iff {key : Bytes} {v : Option Bytes} :
    t₀.firstStored c key = some v ↔ ∃ (i : ℕ) (f : FileMetadata), c.inputs[i]? = some f ∧
      (key, v) ∈ t₀.contents f.fileNum ∧ ∀ (j : ℕ) (g : FileMetadata) (w : Option Bytes),
        c.inputs[j]? = some g → (key, w) ∈ t₀.contents g.fileNum → i ≤ j := by
  have hlook : ∀ {i : ℕ} {f : FileMetadata} {w : Option Bytes}, c.inputs[i]? = some f →
      (t₀.look key f = some w ↔ (key, w) ∈ t₀.contents f.fileNum) := by
    intro i f w hf
    obtain ⟨level, hlevel, hlive⟩ := live_of_mem_inputs hpick (List.mem_of_getElem? hf)
    exact KWayMerge.lookup_eq_some_iff (hh.entries level hlevel f hlive)
  rw [firstStored, KWayMerge.findSome?_eq_some_iff_getElem?]
  refine exists₂_congr fun i f => and_congr_right fun hf => and_congr (hlook hf) ?_
  constructor
  · intro h j g w hg hw
    refine h j g hg ?_
    rw [(hlook hg).mpr hw]
    nofun
  · intro h j g hg hne
    obtain ⟨w, hw⟩ := Option.ne_none_iff_exists'.mp hne
    exact h j g w hg ((hlook hg).mp hw)

/-- The merged entries are those that are passed first. -/
theorem Consistent.mem_merge_streams_iff {rs : List fmt.Reader}
    (hrs : t₀.openInputs c.inputs = some rs) {e : Entry} :
    e ∈ merge (streams rs cuts) ↔ t₀.firstPassed cuts c e.1 = some e.2 := by
  rw [merge, KWayMerge.mem_merge_iff_findSome? (hh.sorted_streams hpick hrs),
    hh.streams_eq hpick hrs, List.findSome?_map]
  rfl

/-- What is passed is written or dropped. -/
theorem SortedOut.mem_or_mem_iff (h : t₀.SortedOut cuts M c kept dropped) {e : Entry} :
    e ∈ kept ∨ e ∈ dropped ↔ t₀.firstPassed cuts c e.1 = some e.2 := by
  obtain ⟨rs, done, hrs, hmerge, -, rfl, rfl⟩ := h
  rw [mem_gcRun_or_gcDropped, ← hmerge]
  exact hh.mem_merge_streams_iff hpick hrs

private theorem firstStored_ne_none {key : Bytes} {v : Option Bytes}
    (h : t₀.firstPassed cuts c key = some v) : t₀.firstStored c key ≠ none := by
  obtain ⟨⟨f, i⟩, hp, hv⟩ := List.exists_of_findSome?_eq_some h
  obtain ⟨level, hlevel, hlive⟩ :=
    live_of_mem_inputs hpick (List.fst_mem_of_mem_zipIdx hp)
  have hsub : (stopAt (t₀.contents f.fileNum) (cuts i)).Sublist (t₀.contents f.fileNum) := by
    cases cuts i with
    | none => exact List.Sublist.refl _
    | some n => exact List.take_sublist n _
  have hsorted := hh.entries level hlevel f hlive
  have hmem := hsub.mem ((KWayMerge.lookup_eq_some_iff (hsorted.sublist hsub)).mp hv)
  intro hnone
  have hlook := List.findSome?_eq_none_iff.mp hnone f (List.fst_mem_of_mem_zipIdx hp)
  rw [look, (KWayMerge.lookup_eq_some_iff hsorted).mpr hmem] at hlook
  cases hlook

/-- **When no entry is lost**, in terms of the entries that are merged. -/
theorem SortedOut.accounted_iff (h : t₀.SortedOut cuts M c kept dropped) :
    t₀.Accounted c kept dropped ↔
      ∀ key, t₀.firstPassed cuts c key = t₀.firstStored c key := by
  constructor
  · intro hacc key
    cases hstored : t₀.firstStored c key with
    | none =>
      by_contra hne
      obtain ⟨v, hv⟩ := Option.ne_none_iff_exists'.mp hne
      exact firstStored_ne_none hh hpick hv hstored
    | some v =>
      -- the first input that has the key has nothing before it
      obtain ⟨i, f, hf, hmem, hfirst⟩ := (hh.firstStored_eq_some_iff hpick).mp hstored
      rcases hacc i f hf (key, v) hmem with hw | ⟨j, hj, g, hg, w, hgw⟩ | hd
      · exact (h.mem_or_mem_iff hh hpick).mp (.inl hw)
      · exact absurd (hfirst j g w hg hgw) (Nat.not_le_of_lt hj)
      · exact (h.mem_or_mem_iff hh hpick).mp (.inr hd)
  · intro hcond i f hf e he
    by_cases hlower : ∃ j < i, ∃ g : FileMetadata, c.inputs[j]? = some g ∧
        ∃ v, (e.1, v) ∈ t₀.contents g.fileNum
    · exact .inr (.inl hlower)
    · have hstored : t₀.firstStored c e.1 = some e.2 := by
        refine (hh.firstStored_eq_some_iff hpick).mpr ⟨i, f, hf, he, fun j g w hg hw => ?_⟩
        by_contra hlt
        exact hlower ⟨j, Nat.lt_of_not_le hlt, g, hg, w, hw⟩
      rcases (h.mem_or_mem_iff hh hpick).mpr ((hcond e.1).trans hstored) with hw | hd
      · exact .inl hw
      · exact .inr (.inr hd)

end Merge

/-- The iterator of some input stops before the last entry. -/
def StopsEarly (t₀ : Tree fmt) (cuts : ℕ → Option ℕ) (c : Compaction) : Prop :=
  ∃ (i : ℕ) (f : FileMetadata) (n : ℕ), c.inputs[i]? = some f ∧ cuts i = some n ∧
    n < (t₀.contents f.fileNum).length

/-- The edit of a round changes the version: a file of the level that is compacted is gone. -/
theorem Merged.version_ne (hh : t₀.Consistent) (hm : t₀.Merged cuts M c added kept u)
    (ha : u.Applied c added t) : t.version ≠ t₀.version := by
  have hpicked := picked_of_pickCompaction hm.pick
  obtain ⟨f, hf⟩ := List.exists_mem_of_ne_nil _ hpicked.source_ne_nil
  have hlive := hpicked.source_mem f hf
  intro heq
  have hlevel : c.level < maxLevels := Nat.lt_of_succ_lt hpicked.level_lt
  rcases (ha.mem_levels hm hh.distinct hlevel).mp (heq ▸ hlive) with ⟨-, hnot⟩ | ⟨-, hsucc⟩
  · exact hnot (List.mem_append_left _ hf)
  · exact absurd hsucc (Nat.ne_of_lt (Nat.lt_succ_self _))

/-- **When a compaction loses nothing.** The loop has come to its end and the edit is applied, which
is when `Execute` returns without an error. An early stop leaves the version unchanged only if there
is none. No entry is lost exactly when, for each key, the first input that passes it passes what the
first input that has it has for it. -/
theorem accounted_round_iff (hh : t₀.Consistent) (ho : t₀.opened = true)
    (hc : t₀.compact = .looping) (htr : ∀ a ∈ tr, InRound cuts M a)
    (hr : Machine.run (step trigger) t₀ tr = some u) (hend : u.compact = .finished c added)
    (hs : u.step trigger .compactApply = some t) :
    ((t₀.StopsEarly cuts c → t.version = t₀.version) ↔ ¬ t₀.StopsEarly cuts c) ∧
      ∃ dropped, t₀.SortedOut cuts M c (added.flatMap fun f => t.contents f.fileNum) dropped ∧
        (t₀.Accounted c (added.flatMap fun f => t.contents f.fileNum) dropped ↔
          ∀ key, t₀.firstPassed cuts c key = t₀.firstStored c key) := by
  have hround := roundAt_of_run ho hc htr hr
  rw [hend] at hround
  obtain ⟨kept, hm⟩ := hround
  have ha := Applied.of_step hend hs
  refine ⟨imp_congr_right fun _ => iff_of_false (hm.version_ne hh ha) id, ?_⟩
  obtain ⟨gc, rs, done, hrs, hmerge, hM, hgc⟩ := hm.selects
  have hkept : (gcRun c.outputLevel (maxOccupiedLevel t₀.version) ⟨[], false⟩ done).2 =
      added.flatMap fun f => t.contents f.fileNum := by
    rw [hgc, ha.contents]
    exact hm.finished.kept_eq
  rw [List.append_nil] at hmerge
  have hsorted : t₀.SortedOut cuts M c (added.flatMap fun f => t.contents f.fileNum) _ :=
    ⟨rs, done, hrs, hmerge, hM, hkept, rfl⟩
  exact ⟨_, hsorted, hsorted.accounted_iff hh hm.pick⟩

/-- A round can be carried up to its edit, wherever the iterators stop. -/
theorem Consistent.exists_applied (hh : t₀.Consistent) (ho : t₀.opened = true)
    (hc : t₀.compact = .looping) (hpick : pickCompaction t₀.version = some c)
    (trigger : ℕ) (cuts : ℕ → Option ℕ) :
    ∃ tr u added t, (∀ a ∈ tr, InRound cuts (· = 0) a) ∧
      Machine.run (step trigger) t₀ tr = some u ∧ u.compact = .finished c added ∧
      u.step trigger .compactApply = some t := by
  obtain ⟨rs, hrs⟩ := hh.exists_openInputs hpick
  obtain ⟨u, added, hreach, hend⟩ : ∃ u added, Reaches trigger cuts (· = 0) t₀ u ∧
      u.compact = .finished c added := exists_finished ho hc hpick hrs (m := 0) rfl
  obtain ⟨t, hs, -⟩ := exists_apply (hreach.roundAt (roundAt_start ho hc)) hend
  obtain ⟨tr, htr, hr⟩ := hreach
  exact ⟨tr, u, added, t, fun a ha => (htr a ha).1, hr, hend, hs⟩

/-- The second of the tables with the key `k` cannot be read; its entry is hidden by the first. -/
theorem accounted_round_hidden : ∃ tr u added t dropped,
    (∀ a ∈ tr, InRound (Function.update (fun _ => none) 1 (some 0)) (· = 0) a) ∧
    Machine.run (step 8) stacked tr = some u ∧
    u.compact = .finished ⟨0, (stackedFiles, []), 1⟩ added ∧ u.step 8 .compactApply = some t ∧
    stacked.StopsEarly (Function.update (fun _ => none) 1 (some 0)) ⟨0, (stackedFiles, []), 1⟩ ∧
    stacked.Accounted ⟨0, (stackedFiles, []), 1⟩ (added.flatMap fun f => t.contents f.fileNum)
      dropped := by
  have hh := healthy_stacked.toConsistent
  obtain ⟨tr, u, added, t, htr, hr, hend, hs⟩ :=
    hh.exists_applied rfl rfl pick_stacked 8 (Function.update (fun _ => none) 1 (some 0))
  obtain ⟨-, dropped, -, hiff⟩ := accounted_round_iff hh rfl rfl htr hr hend hs
  refine ⟨tr, u, added, t, dropped, htr, hr, hend, hs, ⟨1, _, 0, rfl, rfl, by decide⟩,
    hiff.mpr fun key => ?_⟩
  have htables : stacked.contents = stackedTables := rfl
  by_cases hkey : key = [107]
  · subst hkey
    decide
  · have hmiss : (key == [107]) = false := by simpa using hkey
    simp [firstPassed, firstStored, look, htables, Compaction.inputs, stackedFiles, keyFile, stopAt,
      stackedTables, List.findSome?_cons, List.lookup_cons, hmiss]

/-- **A table that cannot be read is deleted.** The iterator over the table with the key `z` stops
before its first entry. The round goes on, its edit is applied, and then no live file has the key,
which is neither written nor hidden by another input nor dropped by the rule. -/
theorem accounted_round_fails : ∃ tr u added t,
    (∀ a ∈ tr, InRound (fun _ => some 0) (· = 0) a) ∧
    Machine.run (step 8) (deepTree 3) tr = some u ∧ u.compact = .finished deepCompaction added ∧
    u.step 8 .compactApply = some t ∧ (deepTree 3).get [122] = .ok (some (some [1])) ∧
    (∀ level < maxLevels, ∀ f ∈ t.version.levels level, t.look [122] f = none) ∧
    ∀ dropped, (deepTree 3).SortedOut (fun _ => some 0) (· = 0) deepCompaction
        (added.flatMap fun f => t.contents f.fileNum) dropped →
      ¬ (deepTree 3).Accounted deepCompaction (added.flatMap fun f => t.contents f.fileNum)
        dropped := by
  have hrun : (Machine.run (step 8) (deepTree 3)
      [.compactPick, .compactOpen fun _ => some 0, .compactFinish]).any fun u =>
      (u.step 8 .compactApply).any fun t => decide (u.compact = .finished deepCompaction [] ∧
        (deepTree 3).get [122] = .ok (some (some [1])) ∧
        ∀ level < maxLevels, ∀ f ∈ t.version.levels level, t.look [122] f = none) := by
    decide +kernel
  obtain ⟨u, hu, hrun⟩ := (Option.any_eq_true _ _).mp hrun
  obtain ⟨t, ht, hrun⟩ := (Option.any_eq_true _ _).mp hrun
  obtain ⟨hend, hget, hlook⟩ := of_decide_eq_true hrun
  refine ⟨_, u, [], t, by simp [InRound], hu, hend, ht, hget, hlook, fun dropped hout hacc => ?_⟩
  have hfirst := (hout.accounted_iff (healthy_deepTree 3).toConsistent (pick_deepTree 3)).mp hacc
    [122]
  exact absurd hfirst (by decide)

end Tree

end Stratum.Lsm
