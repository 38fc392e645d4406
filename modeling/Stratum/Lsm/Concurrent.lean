import Mathlib.Data.List.Induction
import Stratum.Lsm.CompactionReads

/-!
# A lookup beside a compaction

`Get` takes the version and searches it later, with the readers that are open then; the compaction
loop applies its edit and exchanges the readers later. Between the two steps of either side the
version and the readers **do not belong together**, and a file without a reader is skipped
silently.

`Tree.get_beside_round_iff` goes through all interleavings, for a key that one live file has and
whose file the compaction takes up: the lookup finds the value exactly when it sees the version and
the readers both of before or both of after the compaction. `Healthy.exists_get_missed` says that
**each such key can be missed**.
-/

namespace Stratum.Lsm

open Mvcc Memtable Sstable

/-- The edit of the round is applied. -/
def CompactPc.applied : CompactPc → Bool
  | .removing _ _ | .swapped _ => true
  | _ => false

/-- The readers are exchanged. -/
def CompactPc.exchanged : CompactPc → Bool
  | .swapped _ => true
  | _ => false

namespace Tree

variable {fmt : TableFormat} {trigger : ℕ} {cuts : ℕ → Option ℕ} {M : UInt64 → Prop}
  {t₀ u t t' : Tree fmt} {c : Compaction} {added : List FileMetadata} {kept : List Entry}
  {a : TreeAct} {tr tr₁ tr₂ : List TreeAct} {i : ℕ} {key : Bytes} {v : Option Bytes}

/-- A live file has this for the key. -/
def Holds (t : Tree fmt) (key : Bytes) (v : Option Bytes) : Prop :=
  ∃ level < maxLevels, ∃ f ∈ t.version.levels level, t.look key f = some v

/-- When all files that have the key agree, they are what is found. -/
theorem find_eq_some_iff_holds
    (h : ∀ level < maxLevels, ∀ f ∈ t.version.levels level,
      t.look key f = none ∨ t.look key f = some v) : t.find key = some v ↔ t.Holds key v := by
  constructor
  · intro hfind
    obtain ⟨level, hlevel, hat⟩ := List.exists_of_findSome?_eq_some hfind
    obtain ⟨f, hf, hv⟩ := List.exists_of_findSome?_eq_some hat
    exact ⟨level, List.mem_range.mp hlevel, f, Version.mem_readOrder.mp hf, hv⟩
  · rintro ⟨level, hlevel, f, hf, hv⟩
    cases hfind : t.find key with
    | none =>
      have hat := List.findSome?_eq_none_iff.mp hfind level (List.mem_range.mpr hlevel)
      have := List.findSome?_eq_none_iff.mp hat f (Version.mem_readOrder.mpr hf)
      rw [hv] at this
      cases this
    | some w =>
      obtain ⟨level', hlevel', hat⟩ := List.exists_of_findSome?_eq_some hfind
      obtain ⟨g, hg, hw⟩ := List.exists_of_findSome?_eq_some hat
      rcases h level' (List.mem_range.mp hlevel') g (Version.mem_readOrder.mp hg) with hnone | hsome
      · rw [hnone] at hw
        cases hw
      · exact hw.symm.trans hsome

/-! ### How far the round has come -/

/-- A step of the round applies the edit, or does not change whether it is applied. -/
private theorem applied_step (h : t₀.RoundAt cuts M t t.compact) (ha : InRound cuts M a)
    (hs : t.step trigger a = some t') :
    (t'.compact.applied = true ↔ t.compact.applied = true ∨ a = .compactApply) ∧
      (t'.compact.exchanged = true ↔ t.compact.exchanged = true ∨ a = .compactSwap) := by
  cases step_cases hs with
  | openTree | close | kill => exact ha.elim
  | flush ho hs => cases hs <;> exact ha.elim
  | lookup ho hs => cases hs <;> simp
  | compact ho hs =>
    cases hs with
    | recv | torn | err | swapErr | release => exact ha.elim
    | openNone hc he =>
      rw [hc] at h
      exact absurd he (picked_of_pickCompaction h.2.1).source_ne_nil
    | pickNone hc | pick hc | openInputs hc | next hc | finish hc | apply hc | remove hc
    | swap hc =>
      simp [hc, CompactPc.applied, CompactPc.exchanged]

/-- The history of the round can be read off its pc. -/
private theorem applied_of_run (h₀ : t₀.RoundAt cuts M t₀ t₀.compact)
    (hc : t₀.compact = .looping) (htr : ∀ a ∈ tr, InRound cuts M a)
    (hr : Machine.run (step trigger) t₀ tr = some t) :
    t₀.RoundAt cuts M t t.compact ∧
      (t.compact.applied = true ↔ .compactApply ∈ tr) ∧
      (t.compact.exchanged = true ↔ .compactSwap ∈ tr) := by
  induction tr using List.reverseRecOn generalizing t with
  | nil =>
    cases hr
    exact ⟨h₀, by simp [hc, CompactPc.applied], by simp [hc, CompactPc.exchanged]⟩
  | append_singleton tr a ih =>
    obtain ⟨s, hr, hs⟩ := Machine.run_concat.mp hr
    obtain ⟨hround, happ, hexc⟩ := ih (fun b hb => htr b (by simp [hb])) hr
    have ha := htr a (by simp)
    obtain ⟨happ', hexc'⟩ := applied_step hround ha hs
    refine ⟨hround.step ha hs, ?_, ?_⟩
    · rw [happ', happ, List.mem_append, List.mem_singleton, eq_comm]
    · rw [hexc', hexc, List.mem_append, List.mem_singleton, eq_comm]

/-- Once the edit is applied, the version stays; a lookup that has begun keeps its version. -/
private theorem stays_step (ha : InRound cuts M a)
    (hne : a ≠ .getSearch i) (hs : t.step trigger a = some t') {vs : Version}
    (hl : t.lookups i = .snapped key vs) :
    t'.lookups i = .snapped key vs ∧ (t.compact.applied = true → t'.version = t.version) := by
  cases step_cases hs with
  | openTree | close | kill => exact ha.elim
  | flush ho hs => cases hs <;> exact ha.elim
  | lookup ho hs =>
    cases hs with
    | @version j key' hj | @stop j key' r hj =>
      refine ⟨?_, fun _ => rfl⟩
      have hij : i ≠ j := by
        rintro rfl
        rw [hl] at hj
        cases hj
      exact (Function.update_of_ne hij _ _).trans hl
    | @search j key' v hj =>
      refine ⟨?_, fun _ => rfl⟩
      have hij : i ≠ j := by
        rintro rfl
        exact hne rfl
      exact (Function.update_of_ne hij _ _).trans hl
  | compact ho hs =>
    cases hs with
    | recv | torn | err | swapErr | release => exact ha.elim
    | @next c occ x e rest m t₁ x' hc hx hn =>
      rw [hc]
      have hlookups : t₁.lookups = t.lookups := by rw [nextEntry_frame hn]
      exact ⟨(congrFun hlookups i).trans hl, nofun⟩
    | @finish c occ x t₁ x' hc hx hn =>
      rw [hc]
      have hlookups : t₁.lookups = t.lookups := by rw [finishLoop_frame hn]
      exact ⟨(congrFun hlookups i).trans hl, nofun⟩
    | apply hc hm =>
      refine ⟨hl, fun happ => ?_⟩
      rw [hc] at happ
      cases happ
    | _ => exact ⟨hl, fun _ => rfl⟩

/-- The same over the part of a run between the two steps of a lookup. -/
private theorem stays_of_run (h : t₀.RoundAt cuts M t t.compact)
    (htr : ∀ a ∈ tr, InRound cuts M a ∧ a ≠ .getSearch i)
    (hr : Machine.run (step trigger) t tr = some t') {vs : Version}
    (hl : t.lookups i = .snapped key vs) :
    t'.lookups i = .snapped key vs ∧ (t.compact.applied = true → t'.version = t.version) := by
  let I (s : Tree fmt) : Prop := t₀.RoundAt cuts M s s.compact ∧
    s.lookups i = .snapped key vs ∧
    (t.compact.applied = true → s.compact.applied = true ∧ s.version = t.version)
  have hI : I t' := by
    refine Machine.run_guarded_invariant (I := I) (fun s a s' ⟨hround, hl, happ⟩ ha hs => ?_)
      ⟨h, hl, fun happ => ⟨happ, rfl⟩⟩ (Machine.guarded_of_forall_mem fun a ha _ => htr a ha) hr
    obtain ⟨hl', hversion⟩ := stays_step ha.1 ha.2 hs hl
    refine ⟨hround.step ha.1 hs, hl', fun h => ?_⟩
    obtain ⟨happ, hv⟩ := happ h
    exact ⟨(applied_step hround ha.1 hs).1.mpr (.inl happ), (hversion happ).trans hv⟩
  exact ⟨hI.2.1, fun happ => (hI.2.2 happ).2⟩

/-! ### The four views -/

private theorem RoundAt.version_before (h : t₀.RoundAt cuts M t t.compact)
    (happ : t.compact.applied = false) : t.version = t₀.version := by
  cases hc : t.compact with
  | idle | looping =>
    rw [hc] at h
    exact Beside.version h
  | picked c occ | executing c occ x =>
    rw [hc] at h
    exact h.1.version
  | finished c added =>
    rw [hc] at h
    obtain ⟨kept, hm⟩ := h
    exact hm.beside.version
  | removing c dfs | swapped c => simp [hc, CompactPc.applied] at happ

private theorem RoundAt.readers_before (h : t₀.RoundAt cuts M t t.compact)
    (hexc : t.compact.exchanged = false) : t.readers = t₀.readers := by
  cases hc : t.compact with
  | idle | looping =>
    rw [hc] at h
    exact Beside.readers h
  | picked c occ =>
    rw [hc] at h
    exact h.1.readers
  | executing c occ x =>
    rw [hc] at h
    exact h.1.readers
  | finished c added =>
    rw [hc] at h
    obtain ⟨kept, hm⟩ := h
    exact hm.beside.readers
  | removing c dfs =>
    rw [hc] at h
    obtain ⟨added, kept, u, -, -, hreaders, -⟩ := h
    exact hreaders
  | swapped c => simp [hc, CompactPc.exchanged] at hexc

private theorem RoundAt.of_applied (h : t₀.RoundAt cuts M t t.compact)
    (happ : t.compact.applied = true) (hpick : pickCompaction t₀.version = some c) :
    ∃ added kept u, t₀.Merged cuts M c added kept u ∧ u.Applied c added t ∧
      (t.compact.exchanged = true →
        t.readers = swapReaders { t with readers := t₀.readers } c) := by
  cases hc : t.compact with
  | removing c' dfs =>
    rw [hc] at h
    obtain ⟨added, kept, u, hm, ha, -, -⟩ := h
    have hcc := hm.pick
    rw [hpick] at hcc
    cases hcc
    exact ⟨added, kept, u, hm, ha, nofun⟩
  | swapped c' =>
    rw [hc] at h
    obtain ⟨added, kept, u, hm, ha, hreaders⟩ := h
    have hcc := hm.pick
    rw [hpick] at hcc
    cases hcc
    exact ⟨added, kept, u, hm, ha, fun _ => hreaders⟩
  | _ => simp [hc, CompactPc.applied] at happ

/-- The key is stored in one live file, and that file is an input. -/
structure Moves (t₀ : Tree fmt) (c : Compaction) (key : Bytes) (v : Option Bytes) : Prop where
  holds : t₀.Holds key v
  unique : ∀ level < maxLevels, ∀ f ∈ t₀.version.levels level, t₀.look key f ≠ none →
    t₀.look key f = some v ∧ f ∈ c.inputs

/-- A live file that is not an input does not have the key. -/
private theorem Moves.look_of_not_input (h : t₀.Moves c key v) {level : ℕ}
    (hlevel : level < maxLevels) {f : FileMetadata} (hf : f ∈ t₀.version.levels level)
    (hnot : f ∉ c.inputs) : t₀.look key f = none := by
  by_contra hne
  exact hnot (h.unique level hlevel f hf hne).2

section Views

variable (hh : t₀.Healthy) (hmoves : t₀.Moves c key v)
  (hm : t₀.Merged cuts M c added kept u) (ha : u.Applied c added t) (hfresh : t₀.Fresh t)

include hh hmoves

/-- Version and readers of before. -/
private theorem view_before : t₀.version.get t₀.readers fmt.get key = .ok (some v) := by
  have hfind : t₀.find key = some v := by
    refine (find_eq_some_iff_holds fun level hlevel f hf => ?_).mpr hmoves.holds
    by_cases hnone : t₀.look key f = none
    · exact .inl hnone
    · exact .inr (hmoves.unique level hlevel f hf hnone).1
  exact (hh.get_eq_find hh.served key).trans (congrArg Except.ok hfind)

include hm ha hfresh

/-- The version of before with the readers of after: the inputs have no reader. -/
private theorem view_old_new
    (hreaders : t.readers = swapReaders { t with readers := t₀.readers } c) :
    t₀.version.get t.readers fmt.get key = .ok none := by
  refine Version.get_eq_none fun level hlevel f hf => ?_
  by_cases hmem : f ∈ c.inputs
  · have hnum : f.fileNum ∈ c.inputs.map FileMetadata.fileNum := List.mem_map_of_mem hmem
    have hnone : f.fileNum ∉ (t.version.levels c.outputLevel).map FileMetadata.fileNum := by
      rintro hout
      have hlt := (picked_of_pickCompaction hm.pick).level_lt
      rw [(picked_of_pickCompaction hm.pick).outputLevel_eq] at hout
      obtain ⟨g, hg, hgf⟩ := List.mem_map.mp hout
      rcases (ha.mem_levels hm hh.distinct hlt).mp hg with ⟨hold, hnot⟩ | ⟨hnew, -⟩
      · obtain ⟨-, rfl⟩ := hh.distinct _ hlt g hold level hlevel f hf hgf
        exact hnot hmem
      · exact ha.notLive hm hfresh hnew ⟨level, hlevel, f, hf, hgf.symm⟩
    have hreader : t.readers f.fileNum = none := by
      simp only [hreaders, swapReaders, if_pos hnum, if_neg hnone]
    simp only [askFile, hreader]
  · have hnum := hm.num_notMem hh.distinct hlevel hf hmem
    obtain ⟨r, hr, hread⟩ := hh.served level hlevel f hf
    have hreader : t.readers f.fileNum = some r := by
      simp only [hreaders, swapReaders, if_neg hnum, hr]
    simp only [askFile, hreader, hread.get_eq]
    exact congrArg Except.ok (hmoves.look_of_not_input hlevel hf hmem)

/-- The version of after with the readers of before: the outputs have no reader. -/
private theorem view_new_old : t.version.get t₀.readers fmt.get key = .ok none := by
  refine Version.get_eq_none fun level hlevel f hf => ?_
  rcases (ha.mem_levels hm hh.distinct hlevel).mp hf with ⟨hold, hnot⟩ | ⟨hnew, -⟩
  · rw [hh.served.askFile_eq hlevel hold, hmoves.look_of_not_input hlevel hold hnot]
  · simp only [askFile, hh.unserved _ (ha.drawn hm hnew).1 (ha.notLive hm hfresh hnew)]

/-- Version and readers of after: what the outputs have. -/
private theorem view_after
    (hreaders : t.readers = swapReaders { t with readers := t₀.readers } c)
    (hread : ∀ f ∈ added, ∃ r, fmt.Readable (t.contents f.fileNum) r) :
    t.version.get t.readers fmt.get key = .ok (some v) ↔ t.Holds key v := by
  have hget : t.version.get t.readers fmt.get key = .ok (t.find key) :=
    (ha.bounded hh.toConsistent hm hfresh).get_eq_find (ha.served hm hfresh hh hreaders hread) key
  rw [hget, Except.ok.injEq]
  refine find_eq_some_iff_holds fun level hlevel f hf => ?_
  rcases (ha.mem_levels hm hh.distinct hlevel).mp hf with ⟨hold, hnot⟩ | ⟨hnew, -⟩
  · rw [ha.look_eq hm hfresh hlevel hold]
    exact .inl (hmoves.look_of_not_input hlevel hold hnot)
  · -- what an output has of the key comes from an input
    cases hlook : t.look key f with
    | none => exact .inl rfl
    | some w =>
      have hmem : (key, w) ∈ t.contents f.fileNum := (KWayMerge.lookup_eq_some_iff
        ((ha.bounded hh.toConsistent hm hfresh).entries level hlevel f hf)).mp hlook
      rw [ha.contents] at hmem
      obtain ⟨g, hg, hin⟩ := hm.mem_input hh.toConsistent (hm.finished.mem_kept hnew hmem)
      obtain ⟨level', hlevel', hlive⟩ := live_of_mem_inputs hm.pick hg
      have hw : t₀.look key g = some w :=
        (KWayMerge.lookup_eq_some_iff (hh.entries level' hlevel' g hlive)).mpr hin
      have hv := (hmoves.unique level' hlevel' g hlive (by rw [hw]; nofun)).1
      rw [hw] at hv
      exact .inr hv

end Views

/-! ### All interleavings -/

/-- A lookup inside a round: it uses the version of the state `t₁` in which it began, and the
readers of the state `t₃` in which it ends. -/
private theorem lookup_of_run (ho : t₀.opened = true) (hc : t₀.compact = .looping)
    (htr : ∀ a ∈ tr₁ ++ tr₂, InRound cuts M a) (hnot : .getSearch i ∉ tr₂)
    (hr : Machine.run (step trigger) t₀ (tr₁ ++ .getVersion i key :: tr₂ ++ [.getSearch i]) =
      some t) :
    ∃ t₁ t₃, t₀.RoundAt cuts M t₁ t₁.compact ∧ t₀.RoundAt cuts M t₃ t₃.compact ∧
      (t₁.compact.applied = true ↔ .compactApply ∈ tr₁) ∧
      (t₃.compact.exchanged = true ↔ .compactSwap ∈ tr₁ ++ tr₂) ∧
      (t₁.compact.applied = true → t₃.compact.applied = true ∧ t₃.version = t₁.version) ∧
      t = { t₃ with lookups :=
        Function.update t₃.lookups i (.done key (t₁.version.get t₃.readers fmt.get key)) } := by
  obtain ⟨t₃, hr, hsearch⟩ := Machine.run_concat.mp hr
  have htr' : ∀ a ∈ tr₁ ++ .getVersion i key :: tr₂, InRound cuts M a := by
    intro a ha
    rcases List.mem_append.mp ha with ha | ha
    · exact htr a (List.mem_append_left _ ha)
    · rcases List.mem_cons.mp ha with rfl | ha
      · trivial
      · exact htr a (List.mem_append_right _ ha)
  have h₀ : t₀.RoundAt cuts M t₀ t₀.compact := roundAt_start ho hc
  obtain ⟨hround₃, happ₃, hexc₃⟩ := applied_of_run h₀ hc htr' hr
  obtain ⟨t₁, hr₁, hr⟩ := Machine.run_append.mp hr
  obtain ⟨hround₁, happ₁, -⟩ :=
    applied_of_run h₀ hc (fun a ha => htr a (List.mem_append_left _ ha)) hr₁
  obtain ⟨t₂, hversion, hr₂⟩ := Machine.run_cons_eq_some.mp hr
  have hround₂ := hround₁.step (a := .getVersion i key) trivial hversion
  -- the lookup takes the version
  obtain ⟨hidle, rfl⟩ : t₁.lookups i = .idle ∧
      t₂ = { t₁ with lookups := Function.update t₁.lookups i (.snapped key t₁.version) } := by
    cases step_cases hversion with
    | flush ho hs => cases hs
    | compact ho hs => cases hs
    | lookup ho hs =>
      cases hs with
      | version hl => exact ⟨hl, rfl⟩
  obtain ⟨hl, hstays⟩ := stays_of_run hround₂ (fun a ha => ⟨htr a (List.mem_append_right _ ha),
    fun h => hnot (h ▸ ha)⟩) hr₂ (Function.update_self i _ _)
  refine ⟨t₁, t₃, hround₁, hround₃, happ₁, ?_, fun happ => ⟨?_, hstays happ⟩, ?_⟩
  · rw [hexc₃]
    simp
  · exact happ₃.mpr (List.mem_append_left _ (happ₁.mp happ))
  · cases step_cases hsearch with
    | flush ho hs => cases hs
    | compact ho hs => cases hs
    | lookup ho hs =>
      cases hs with
      | search hl' =>
        rw [hl] at hl'
        cases hl'
        rfl

/-- **A lookup beside a compaction.** The key is stored in a file that the compaction takes up, and
in no other live file. The lookup takes the version after the steps `tr₁`, and it searches the
version after the further steps `tr₂`. It finds the value exactly when the edit had been applied
*then* if and only if the readers have been exchanged *now*, and if, in the case that it sees the
tree of after the compaction, the key is still in there. -/
theorem get_beside_round_iff (hh : t₀.Healthy) (ho : t₀.opened = true)
    (hc : t₀.compact = .looping) (hpick : pickCompaction t₀.version = some c)
    (hmoves : t₀.Moves c key v) (htr : ∀ a ∈ tr₁ ++ tr₂, InRound cuts M a)
    (hnot : .getSearch i ∉ tr₂)
    (hr : Machine.run (step trigger) t₀ (tr₁ ++ .getVersion i key :: tr₂ ++ [.getSearch i]) =
      some t) (hfresh : t₀.Fresh t)
    (hread : ∀ level < maxLevels, ∀ f ∈ t.version.levels level,
      ∃ r, fmt.Readable (t.contents f.fileNum) r) :
    t.lookups i = .done key (.ok (some v)) ↔
      (.compactApply ∈ tr₁ ↔ .compactSwap ∈ tr₁ ++ tr₂) ∧
        (.compactApply ∈ tr₁ → t.Holds key v) := by
  obtain ⟨t₁, t₃, hround₁, hround₃, happ, hexc, hstays, rfl⟩ := lookup_of_run ho hc htr hnot hr
  have hdone : Function.update t₃.lookups i (.done key (t₁.version.get t₃.readers fmt.get key)) i =
      .done key (.ok (some v)) ↔ t₁.version.get t₃.readers fmt.get key = .ok (some v) := by
    rw [Function.update_self, LookupPc.done.injEq, and_iff_right rfl]
  rw [← happ, ← hexc]
  refine hdone.trans ?_
  cases happ₁ : t₁.compact.applied with
  | false =>
    rw [hround₁.version_before happ₁]
    cases hexc₃ : t₃.compact.exchanged with
    | false =>
      rw [hround₃.readers_before hexc₃]
      simp [view_before hh hmoves]
    | true =>
      have happ₃ : t₃.compact.applied = true := by
        cases hpc : t₃.compact <;> simp_all [CompactPc.applied, CompactPc.exchanged]
      obtain ⟨added, kept, u, hm, ha, hreaders⟩ := hround₃.of_applied happ₃ hpick
      simp [view_old_new hh hmoves hm ha hfresh (hreaders hexc₃)]
  | true =>
    obtain ⟨happ₃, hversion⟩ := hstays happ₁
    obtain ⟨added, kept, u, hm, ha, hreaders⟩ := hround₃.of_applied happ₃ hpick
    rw [← hversion]
    cases hexc₃ : t₃.compact.exchanged with
    | false =>
      rw [hround₃.readers_before hexc₃]
      simp [view_new_old hh hmoves hm ha hfresh]
    | true =>
      have hread : ∀ f ∈ added, ∃ r, fmt.Readable (t₃.contents f.fileNum) r := by
        intro f hf
        have hlt := (picked_of_pickCompaction hpick).level_lt
        exact hread _ hlt f ((ha.mem_levels hm hh.distinct hlt).mpr (.inr ⟨hf, rfl⟩))
      refine (view_after hh hmoves hm ha hfresh (hreaders hexc₃) hread).trans ?_
      simp only [iff_self, true_and, forall_const]
      rfl

/-- The lookup of the key on level `1` is one that the compaction there moves. -/
private theorem moves_deepTree : (deepTree 3).Moves deepCompaction [122] (some [1]) := by
  have hlive : ∀ f ∈ deepFiles, (deepTree 3).look [122] f ≠ none →
      (deepTree 3).look [122] f = some (some [1]) ∧ f ∈ deepCompaction.inputs := by decide
  exact ⟨⟨1, by decide, keyFile 1 2 (2 * baseLevelSize) [122], by decide, by decide⟩,
    fun level _ f hf => hlive f (Version.mem_ofFiles.mp hf).1⟩

/-- The version is taken, the compaction runs for a while, and the version is searched. -/
private theorem Reaches.lookup (ho : t₀.opened = true) (hc : t₀.compact = .looping)
    (hidle : t₀.lookups i = .idle) (hreach : Reaches trigger cuts M
      { t₀ with lookups := Function.update t₀.lookups i (.snapped key t₀.version) } t) :
    t₀.RoundAt cuts M t t.compact ∧ ∃ tr, (∀ a ∈ tr, InRound cuts M a ∧ a.isLookup = false) ∧
      (t.compact.applied = true ↔ .compactApply ∈ tr) ∧
      (t.compact.exchanged = true ↔ .compactSwap ∈ tr) ∧
      Machine.run (step trigger) t₀ (.getVersion i key :: tr ++ [.getSearch i]) =
        some { t with lookups :=
          Function.update t.lookups i (.done key (t₀.version.get t.readers fmt.get key)) } := by
  have hs : t₀.step trigger (.getVersion i key) = some _ := LookupStep.step_eq (.version hidle) ho
  have h₀ : t₀.RoundAt cuts M t₀ t₀.compact := roundAt_start ho hc
  have hround₁ := h₀.step (a := .getVersion i key) trivial hs
  have hround := hreach.roundAt hround₁
  obtain ⟨tr, htr, hr⟩ := hreach
  have hother : ∀ a ∈ tr, InRound cuts M a ∧ a ≠ .getSearch i := by
    refine fun a ha => ⟨(htr a ha).1, ?_⟩
    rintro rfl
    exact Bool.noConfusion (htr _ ha).2
  have hl := (stays_of_run hround₁ hother hr (Function.update_self i _ _)).1
  have hrun := Machine.run_cons_eq_some.mpr ⟨_, hs, hr⟩
  have hall : ∀ a ∈ .getVersion i key :: tr, InRound cuts M a :=
    List.forall_mem_cons.mpr ⟨trivial, fun a ha => (htr a ha).1⟩
  obtain ⟨-, happ, hexc⟩ := applied_of_run h₀ hc hall hrun
  refine ⟨hround, tr, htr, by simpa using happ, by simpa using hexc,
    Machine.run_concat.mpr ⟨t, hrun, LookupStep.step_eq (.search hl) hround.opened⟩⟩

/-- The edit is applied while the lookup is on its way, and the readers are not exchanged yet. -/
theorem get_beside_round_edited : ∃ tr t, (∀ a ∈ tr, PlainRound a ∧ a.isLookup = false) ∧
    .compactApply ∈ tr ∧
    Machine.run (step 8) (deepTree 3) (.getVersion 0 [122] :: tr ++ [.getSearch 0]) = some t ∧
    t.lookups 0 = .done [122] (.ok (some (some [1]))) := by
  have hh := healthy_deepTree 3
  obtain ⟨rs, hrs⟩ := hh.exists_openInputs (pick_deepTree 3)
  let t₁ : Tree Config.plain.format := { deepTree 3 with
    lookups := Function.update (deepTree 3).lookups 0 (.snapped [122] (deepTree 3).version) }
  obtain ⟨u, added, hreach, hfin⟩ : ∃ u added, Reaches 8 (fun _ => none) (· = 0) t₁ u ∧
      u.compact = .finished deepCompaction added :=
    exists_finished rfl rfl (pick_deepTree 3) hrs rfl
  obtain ⟨kept, hm⟩ := hfin ▸ (hreach.lookup rfl rfl rfl).1
  obtain ⟨t, hs, hend⟩ := exists_apply (hreach.lookup rfl rfl rfl).1 hfin
  obtain ⟨-, tr, htr, happ, hexc, hr⟩ :=
    (hreach.trans (.single hs trivial rfl)).lookup rfl rfl rfl
  have happly : .compactApply ∈ tr := happ.mp (by rw [hend]; rfl)
  have hswap : .compactSwap ∉ tr := fun hmem => by
    have := hexc.mpr hmem
    rw [hend] at this
    cases this
  have hfresh := @fresh_of_lt _ _ t live_lt_deepTree
  have hread := (Applied.of_step hfin hs).readable hh.toConsistent hm hfresh fun _ _ _ hf =>
    smallEntries_ofFiles deepTables_small hf
  have hround : ∀ a ∈ [] ++ tr, InRound (fun _ => none) (· = 0) a := fun a ha => (htr a ha).1
  exact ⟨tr, _, htr, happly, hr, (get_beside_round_iff hh rfl rfl (pick_deepTree 3) moves_deepTree
    hround (fun hmem => Bool.noConfusion (htr _ hmem).2) hr hfresh hread).mpr
      ⟨by simpa using hswap, nofun⟩⟩

/-- **Every key that moves can be missed**: the version is taken before the compaction, and searched
after it. -/
theorem Healthy.exists_get_missed (hh : t₀.Healthy) (ho : t₀.opened = true)
    (hc : t₀.compact = .looping) (hpick : pickCompaction t₀.version = some c)
    (hmoves : t₀.Moves c key v) (hidle : t₀.lookups i = .idle)
    (hlive : ∀ n, t₀.version.Live n → n < t₀.counter) :
    ∃ tr t, (∀ a ∈ tr, PlainRound a ∧ a.isLookup = false) ∧
      Machine.run (step trigger) t₀ (.getVersion i key :: tr ++ [.getSearch i]) = some t ∧
      t.lookups i = .done key (.ok none) := by
  obtain ⟨rs, hrs⟩ := hh.exists_openInputs hpick
  let t₁ : Tree fmt :=
    { t₀ with lookups := Function.update t₀.lookups i (.snapped key t₀.version) }
  obtain ⟨t₃, hreach, hend⟩ : ∃ t₃, Reaches trigger (fun _ => none) (· = 0) t₁ t₃ ∧
      t₃.compact = .swapped c := exists_round ho hc hpick hrs (m := 0) rfl
  obtain ⟨hround, tr, htr, -, -, hr⟩ := hreach.lookup ho hc hidle
  rw [hend] at hround
  obtain ⟨added, kept, u, hm, ha, hreaders⟩ := hround
  have hget := view_old_new hh hmoves hm ha (fresh_of_lt hlive) hreaders
  exact ⟨tr, _, htr, hr, (Function.update_self i _ _).trans (congrArg (LookupPc.done key) hget)⟩

/-- **A stored value that is not found**: in the tree with `z` on level `1` a lookup of `z` takes
the version, the compaction of level `1` runs, and the lookup goes on. -/
theorem get_beside_round_lost : ∃ tr t, (∀ a ∈ tr, PlainRound a ∧ a.isLookup = false) ∧
    (deepTree 3).get [122] = .ok (some (some [1])) ∧
    Machine.run (step 8) (deepTree 3) (.getVersion 0 [122] :: tr ++ [.getSearch 0]) = some t ∧
    t.lookups 0 = .done [122] (.ok none) := by
  have hh := healthy_deepTree 3
  obtain ⟨tr, t, htr, hr, hl⟩ :=
    hh.exists_get_missed rfl rfl (pick_deepTree 3) moves_deepTree rfl live_lt_deepTree
  exact ⟨tr, t, htr, view_before hh moves_deepTree, hr, hl⟩

end Tree

end Stratum.Lsm
