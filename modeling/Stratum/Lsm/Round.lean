import Stratum.Lsm.Picker
import Stratum.Lsm.Session

/-!
# One round of the compaction loop

A round of `doCompaction` that is not disturbed by a flush, starting from an arbitrary tree `t₀`
that is about to pick: `Tree.InRound` says which steps belong to it, and `Tree.RoundAt` what each of
its states has to do with `t₀`.

* `Selects` is what has been read so far: the merged inputs up to some point, and what the rule for
  old versions keeps of them.
* `Merged` is the end of the loop: the outputs hold **exactly what was kept**, under numbers that
  were drawn in the round, and nothing else has changed.
* `Applied` is what the edit and the removal of the inputs do after that.

`Tree.roundAt_of_run` is the run lemma, and `Tree.exists_round` says that a round whose inputs can
be opened **can be carried through** to its end.
-/

namespace Stratum.Lsm

open Mvcc Memtable Sstable

/-- The steps of a lookup. -/
def TreeAct.isLookup : TreeAct → Bool
  | .getVersion _ _ | .getSearch _ | .getEnd _ => true
  | _ => false

namespace Tree

variable {fmt : TableFormat} {trigger : ℕ} {cuts : ℕ → Option ℕ} {M : UInt64 → Prop}
  {t₀ t t' u : Tree fmt} {c : Compaction} {a : TreeAct} {tr : List TreeAct}

/-- The steps of a round without an error: the inputs are opened and stop early where `cuts` says,
and `minActiveSnapshot` gives answers in `M`. Lookups may come in between. -/
def InRound (cuts : ℕ → Option ℕ) (M : UInt64 → Prop) : TreeAct → Prop
  | .compactPick | .compactFinish | .compactApply | .compactRemove _ | .compactSwap => True
  | .compactOpen cuts' => cuts' = cuts
  | .compactNext m => M m
  | .getVersion _ _ | .getSearch _ | .getEnd _ => True
  | _ => False

/-! ### What a round has done -/

/-- The round has written tables under these numbers, and changed nothing else. -/
structure Beside (t₀ : Tree fmt) (nums : List ℕ) (t : Tree fmt) : Prop where
  opened : t.opened = true
  version : t.version = t₀.version
  readers : t.readers = t₀.readers
  counter_le : t₀.counter ≤ t.counter
  nums_eq : nums = List.range' t₀.counter (t.counter - t₀.counter)
  files : ∀ n, n ∉ nums → t.files n = t₀.files n
  contents : ∀ n, n ∉ nums → t.contents n = t₀.contents n

/-- What has been read of the inputs and what the rule keeps of it; `rest` is still to come. Each
entry stands with the answer that `minActiveSnapshot` gave for it. -/
def Selects (t₀ : Tree fmt) (cuts : ℕ → Option ℕ) (M : UInt64 → Prop) (c : Compaction)
    (gc : GcState) (kept rest : List Entry) : Prop :=
  ∃ rs done, t₀.openInputs c.inputs = some rs ∧
    merge (streams rs cuts) = done.map Prod.fst ++ rest ∧ (∀ p ∈ done, M p.2) ∧
    gcRun c.outputLevel (maxOccupiedLevel t₀.version) ⟨[], false⟩ done = (gc, kept)

/-- **The end of the loop**: the outputs hold what was kept. -/
structure Merged (t₀ : Tree fmt) (cuts : ℕ → Option ℕ) (M : UInt64 → Prop) (c : Compaction)
    (added : List FileMetadata) (kept : List Entry) (t : Tree fmt) : Prop where
  pick : pickCompaction t₀.version = some c
  selects : ∃ gc, t₀.Selects cuts M c gc kept []
  beside : t₀.Beside (added.map FileMetadata.fileNum) t
  finished : t.Finished c.outputLevel added kept

/-- After the edit: `u` is the state before it, and some inputs have been removed from the disk. -/
structure Applied (u : Tree fmt) (c : Compaction) (added : List FileMetadata) (t : Tree fmt) :
    Prop where
  opened : t.opened = true
  version : t.version = u.version.edit (compactionEdit c added)
  counter_le : u.counter ≤ t.counter
  contents : t.contents = u.contents
  files : ∀ n, n ∉ c.inputs.map FileMetadata.fileNum → t.files n = u.files n

/-- **What a state of the round has to do with its start**, by how far the loop has come. -/
def RoundAt (t₀ : Tree fmt) (cuts : ℕ → Option ℕ) (M : UInt64 → Prop) (t : Tree fmt) :
    CompactPc → Prop
  | .idle | .looping => t₀.Beside [] t
  | .picked c occ =>
    t₀.Beside [] t ∧ pickCompaction t₀.version = some c ∧ occ = maxOccupiedLevel t₀.version
  | .executing c occ x =>
    t₀.Beside x.nums t ∧ pickCompaction t₀.version = some c ∧ occ = maxOccupiedLevel t₀.version ∧
      ∃ kept, t.Looping c.outputLevel x kept ∧ t₀.Selects cuts M c x.gc kept x.rest
  | .finished c added => ∃ kept, t₀.Merged cuts M c added kept t
  | .removing c dfs => ∃ added kept u, t₀.Merged cuts M c added kept u ∧ u.Applied c added t ∧
      t.readers = t₀.readers ∧ ∀ df ∈ dfs, df ∈ (compactionEdit c added).deletedFiles
  | .swapped c => ∃ added kept u, t₀.Merged cuts M c added kept u ∧ u.Applied c added t ∧
      t.readers = swapReaders { t with readers := t₀.readers } c

/-! ### The step lemma -/

theorem Beside.drawn {nums : List ℕ} (h : t₀.Beside nums t) {n : ℕ} (hn : n ∈ nums) :
    t₀.counter ≤ n ∧ n < t.counter := by
  have hle := h.counter_le
  rw [h.nums_eq, List.mem_range'_1] at hn
  omega

theorem Beside.within {nums nums' : List ℕ} (h : t₀.Beside nums t) (hw : Within t t' nums nums') :
    t₀.Beside nums' t' where
  opened := by rw [hw.frame]; exact h.opened
  version := hw.version_eq.trans h.version
  readers := by rw [hw.frame]; exact h.readers
  counter_le := h.counter_le.trans hw.counter_le
  nums_eq := by
    rw [hw.nums_eq, h.nums_eq, range'_append_range' h.counter_le hw.counter_le]
  files n hn := ((hw.same n hn).1).trans (h.files n fun hmem => hn (hw.subset hmem))
  contents n hn := ((hw.same n hn).2).trans (h.contents n fun hmem => hn (hw.subset hmem))

/-- A state of the round that differs in the pcs only. -/
theorem Beside.congr {nums : List ℕ} (h : t₀.Beside nums t) (hopened : t'.opened = t.opened)
    (hmanifest : t'.manifest = t.manifest) (hreaders : t'.readers = t.readers)
    (hfiles : t'.files = t.files) (hcontents : t'.contents = t.contents) :
    t₀.Beside nums t' where
  opened := hopened.trans h.opened
  version := (congrArg Manifest.current hmanifest).trans h.version
  readers := hreaders.trans h.readers
  counter_le := h.counter_le.trans (congrArg Manifest.nextFileNum hmanifest).ge
  nums_eq := by
    rw [show t'.counter = t.counter from congrArg Manifest.nextFileNum hmanifest]
    exact h.nums_eq
  files := by rw [hfiles]; exact h.files
  contents := by rw [hcontents]; exact h.contents

variable {added : List FileMetadata}

theorem Finished.congr {out : ℕ} {kept : List Entry} (h : t.Finished out added kept)
    (hcounter : t.counter ≤ t'.counter) (hfiles : t'.files = t.files)
    (hcontents : t'.contents = t.contents) :
    t'.Finished out added kept := by
  obtain ⟨x, hx, hcw, rfl⟩ := h
  exact ⟨x, hx.congr hcounter fun n _ => ⟨by rw [hfiles], by rw [hcontents]⟩, hcw, rfl⟩

/-- One more entry has been read. -/
theorem Selects.next {gc : GcState} {kept rest : List Entry} {e : Entry} {m : UInt64}
    (h : t₀.Selects cuts M c gc kept (e :: rest)) (hm : M m) :
    t₀.Selects cuts M c (gcStep c.outputLevel (maxOccupiedLevel t₀.version) m gc e).1
      (kept ++ if (gcStep c.outputLevel (maxOccupiedLevel t₀.version) m gc e).2 then [e] else [])
      rest := by
  obtain ⟨rs, done, hrs, hmerge, hM, hgc⟩ := h
  refine ⟨rs, done ++ [(e, m)], hrs, by simp [hmerge], fun p hp => ?_, ?_⟩
  · rcases List.mem_append.mp hp with hp | hp
    · exact hM p hp
    · exact List.mem_singleton.mp hp ▸ hm
  · rw [gcRun_concat, hgc]

theorem fileNum_mem_inputs {df : DeletedFile} (h : df ∈ (compactionEdit c added).deletedFiles) :
    df.fileNum ∈ c.inputs.map FileMetadata.fileNum := by
  rw [Compaction.inputs, List.map_append, List.mem_append]
  refine (List.mem_append.mp h).imp (fun h => ?_) fun h => ?_
  · obtain ⟨f, hf, rfl⟩ := List.mem_map.mp h
    exact List.mem_map_of_mem hf
  · obtain ⟨f, hf, rfl⟩ := List.mem_map.mp h
    exact List.mem_map_of_mem hf

theorem Applied.congr (h : u.Applied c added t) (hopened : t'.opened = t.opened)
    (hmanifest : t'.manifest = t.manifest) (hcontents : t'.contents = t.contents)
    (hfiles : ∀ n, n ∉ c.inputs.map FileMetadata.fileNum → t'.files n = t.files n) :
    u.Applied c added t' where
  opened := hopened.trans h.opened
  version := (congrArg Manifest.current hmanifest).trans h.version
  counter_le := h.counter_le.trans (congrArg Manifest.nextFileNum hmanifest).ge
  contents := hcontents.trans h.contents
  files n hn := (hfiles n hn).trans (h.files n hn)

/-- Lookups have no part in it. -/
theorem RoundAt.lookups {pc : CompactPc} (h : t₀.RoundAt cuts M t pc)
    (ls : ℕ → LookupPc fmt.Err) : t₀.RoundAt cuts M { t with lookups := ls } pc := by
  cases pc with
  | idle | looping => exact Beside.congr h rfl rfl rfl rfl rfl
  | picked c occ => exact ⟨h.1.congr rfl rfl rfl rfl rfl, h.2⟩
  | executing c occ x =>
    obtain ⟨hbeside, hpick, hocc, kept, hloop, hselects⟩ := h
    exact ⟨hbeside.congr rfl rfl rfl rfl rfl, hpick, hocc, kept,
      hloop.congr le_rfl fun _ _ => ⟨rfl, rfl⟩, hselects⟩
  | finished c added =>
    obtain ⟨kept, hpick, hselects, hbeside, hfin⟩ := h
    exact ⟨kept, hpick, hselects, hbeside.congr rfl rfl rfl rfl rfl, hfin.congr le_rfl rfl rfl⟩
  | removing c dfs =>
    obtain ⟨added, kept, u, hmerged, happlied, hreaders, hdfs⟩ := h
    exact ⟨added, kept, u, hmerged, happlied.congr rfl rfl rfl fun _ _ => rfl, hreaders, hdfs⟩
  | swapped c =>
    obtain ⟨added, kept, u, hmerged, happlied, hreaders⟩ := h
    exact ⟨added, kept, u, hmerged, happlied.congr rfl rfl rfl fun _ _ => rfl, hreaders⟩

private theorem RoundAt.compactStep (h : t₀.RoundAt cuts M t t.compact) (ho : t.opened = true)
    (ha : InRound cuts M a) (hs : CompactStep trigger t a t') :
    t₀.RoundAt cuts M t' t'.compact := by
  cases hs with
  | recv | torn | err | swapErr | release => exact ha.elim
  | pickNone hc hp =>
    rw [hc] at h
    exact Beside.congr h rfl rfl rfl rfl rfl
  | pick hc hp =>
    rw [hc] at h
    have hbeside : t₀.Beside [] t := h
    rw [hbeside.version] at hp ⊢
    exact ⟨hbeside.congr rfl rfl rfl rfl rfl, hp, rfl⟩
  | openNone hc he =>
    rw [hc] at h
    exact absurd he (picked_of_pickCompaction h.2.1).source_ne_nil
  | @openInputs c occ cuts' rs hc he hrs =>
    rw [hc] at h
    obtain ⟨hbeside, hpick, hocc⟩ := h
    have hfiles : t.files = t₀.files := funext fun n => hbeside.files n (by simp)
    have hrs₀ : t₀.openInputs c.inputs = some rs := by
      rw [← hrs, openInputs, openInputs]
      simp only [openTable, hfiles]
    cases ha
    refine ⟨?_, hpick, hocc, [], tables_start _ _ _ _ _, rs, [], hrs₀, rfl, by simp, rfl⟩
    exact Beside.congr hbeside rfl rfl rfl rfl rfl
  | @next c occ x e rest m t₁ x' hc hx hn =>
    rw [hc] at h
    obtain ⟨hbeside, hpick, rfl, kept, hloop, hselects⟩ := h
    obtain ⟨hloop', hwithin, hrest, hgc⟩ := hloop.nextEntry hn
    rw [hx] at hselects
    refine ⟨(hbeside.within hwithin).congr rfl rfl rfl rfl rfl, hpick, rfl, _,
      hloop'.congr le_rfl fun _ _ => ⟨rfl, rfl⟩, ?_⟩
    rw [hrest, hgc]
    exact hselects.next ha
  | @finish c occ x t₁ x' hc hx hn =>
    rw [hc] at h
    obtain ⟨hbeside, hpick, rfl, kept, hloop, hselects⟩ := h
    obtain ⟨hout, hwithin, hcw⟩ := hloop.finishLoop hn
    rw [hx] at hselects
    exact ⟨kept, hpick, ⟨_, hselects⟩, (hbeside.within hwithin).congr rfl rfl rfl rfl rfl,
      x', hout.congr le_rfl fun _ _ => ⟨rfl, rfl⟩, hcw, rfl⟩
  | @apply c added m hc hm =>
    rw [hc] at h
    obtain ⟨kept, hmerged⟩ := h
    obtain ⟨hcurrent, hcounter⟩ := apply_spec hm
    exact ⟨added, kept, t, hmerged, ⟨ho, hcurrent, hcounter, rfl, fun _ _ => rfl⟩,
      hmerged.beside.readers, fun _ hdf => hdf⟩
  | @remove c df dfs ok hc =>
    rw [hc] at h
    obtain ⟨added, kept, u, hmerged, happlied, hreaders, hdfs⟩ := h
    refine ⟨added, kept, u, hmerged, happlied.congr rfl rfl rfl fun n hn => ?_, hreaders,
      fun df' hdf' => hdfs df' (List.mem_cons_of_mem _ hdf')⟩
    have hne : n ≠ df.fileNum := fun heq =>
      hn (heq ▸ fileNum_mem_inputs (hdfs df List.mem_cons_self))
    dsimp only
    split
    · exact Function.update_of_ne hne _ _
    · rfl
  | @swap c hc =>
    rw [hc] at h
    obtain ⟨added, kept, u, hmerged, happlied, hreaders, -⟩ := h
    refine ⟨added, kept, u, hmerged, happlied.congr rfl rfl rfl fun _ _ => rfl, ?_⟩
    rw [← hreaders]
    rfl

/-- **Step lemma.** -/
theorem RoundAt.step (h : t₀.RoundAt cuts M t t.compact) (ha : InRound cuts M a)
    (hs : t.step trigger a = some t') : t₀.RoundAt cuts M t' t'.compact := by
  cases step_cases hs with
  | openTree | close | kill => exact ha.elim
  | flush ho hs => cases hs <;> exact ha.elim
  | compact ho hs => exact h.compactStep ho ha hs
  | lookup ho hs => cases hs <;> exact h.lookups _

theorem roundAt_start (ho : t₀.opened = true) (hc : t₀.compact = .looping) :
    t₀.RoundAt cuts M t₀ t₀.compact := by
  rw [hc]
  exact ⟨ho, rfl, rfl, le_rfl, by simp, fun _ _ => rfl, fun _ _ => rfl⟩

/-- **Run lemma.** -/
theorem roundAt_of_run (ho : t₀.opened = true) (hc : t₀.compact = .looping)
    (htr : ∀ a ∈ tr, InRound cuts M a) (hr : Machine.run (Tree.step trigger) t₀ tr = some t) :
    t₀.RoundAt cuts M t t.compact := by
  refine Machine.run_guarded_invariant (I := fun t => t₀.RoundAt cuts M t t.compact)
    (fun _ _ _ h ha hs => h.step ha hs) (roundAt_start ho hc)
    (Machine.guarded_of_forall_mem fun a ha _ => htr a ha) hr

/-! ### A round can be carried through -/

theorem RoundAt.opened (h : t₀.RoundAt cuts M t t.compact) : t.opened = true := by
  cases hc : t.compact with
  | idle =>
    rw [hc] at h
    exact Beside.opened h
  | looping =>
    rw [hc] at h
    exact Beside.opened h
  | picked c occ | executing c occ x =>
    rw [hc] at h
    exact h.1.opened
  | finished c added =>
    rw [hc] at h
    obtain ⟨kept, hmerged⟩ := h
    exact hmerged.beside.opened
  | removing c dfs | swapped c =>
    rw [hc] at h
    obtain ⟨added, kept, u, -, happlied, -⟩ := h
    exact happlied.opened

/-- What the edit does. -/
theorem Applied.of_step (hc : t.compact = .finished c added)
    (hs : t.step trigger .compactApply = some t') : t.Applied c added t' := by
  cases step_cases hs with
  | flush ho hs => cases hs
  | lookup ho hs => cases hs
  | compact ho hs =>
    cases hs with
    | apply hc' hm =>
      rw [hc] at hc'
      cases hc'
      obtain ⟨hcurrent, hcounter⟩ := apply_spec hm
      exact ⟨ho, hcurrent, hcounter, rfl, fun _ _ => rfl⟩

/-- The edit of a round names levels that exist. -/
theorem Merged.inRange {kept : List Entry} (h : t₀.Merged cuts M c added kept t) :
    (compactionEdit c added).InRange := by
  have hpicked := picked_of_pickCompaction h.pick
  have hlt := hpicked.level_lt
  obtain ⟨x, hx, hcw, rfl⟩ := h.finished
  refine ⟨fun df hdf => ?_, fun f hf => ?_⟩
  · rcases List.mem_append.mp hdf with hdf | hdf
    · obtain ⟨f, -, rfl⟩ := List.mem_map.mp hdf
      exact Nat.lt_of_succ_lt hlt
    · obtain ⟨f, -, rfl⟩ := List.mem_map.mp hdf
      exact hlt
  · rw [(hx.onDisk f hf).metadata]
    exact hpicked.outputLevel_eq ▸ hlt

/-- The loop alone leads from one state to another. -/
def Reaches (trigger : ℕ) (cuts : ℕ → Option ℕ) (M : UInt64 → Prop) (t t' : Tree fmt) : Prop :=
  ∃ tr, (∀ a ∈ tr, InRound cuts M a ∧ a.isLookup = false) ∧
    Machine.run (Tree.step trigger) t tr = some t'

theorem Reaches.trans (h : Reaches trigger cuts M t u) (h' : Reaches trigger cuts M u t') :
    Reaches trigger cuts M t t' := by
  obtain ⟨tr, htr, hr⟩ := h
  obtain ⟨tr', htr', hr'⟩ := h'
  refine ⟨tr ++ tr', fun a ha => ?_, Machine.run_append.mpr ⟨u, hr, hr'⟩⟩
  exact (List.mem_append.mp ha).elim (htr a) (htr' a)

theorem Reaches.single (hs : t.step trigger a = some t') (ha : InRound cuts M a)
    (hl : a.isLookup = false) : Reaches trigger cuts M t t' :=
  ⟨[a], by simpa using ⟨ha, hl⟩, Machine.run_cons_eq_some.mpr ⟨t', hs, rfl⟩⟩

theorem Reaches.roundAt (h : Reaches trigger cuts M t t') (ht : t₀.RoundAt cuts M t t.compact) :
    t₀.RoundAt cuts M t' t'.compact := by
  obtain ⟨tr, htr, hr⟩ := h
  exact Machine.run_guarded_invariant (I := fun t => t₀.RoundAt cuts M t t.compact)
    (fun _ _ _ h ha hs => h.step ha hs) ht
    (Machine.guarded_of_forall_mem fun a ha _ => (htr a ha).1) hr

/-- The loop comes to its end, in a round for each entry. -/
private theorem reaches_finished {m : UInt64} (hm : M m) {occ : ℕ} {x : Exec}
    (h : t₀.RoundAt cuts M t t.compact) (hc : t.compact = .executing c occ x) :
    ∃ t' added, Reaches trigger cuts M t t' ∧ t'.compact = .finished c added := by
  induction hrest : x.rest generalizing t x with
  | nil =>
    have hs : CompactStep trigger t .compactFinish _ := .finish hc hrest rfl
    exact ⟨_, _, .single (hs.step_eq h.opened) trivial rfl, rfl⟩
  | cons e rest ih =>
    have hs : CompactStep trigger t (.compactNext m) _ := .next hc hrest rfl
    have hreach : Reaches trigger cuts M t _ := .single (hs.step_eq h.opened) hm rfl
    have hrest' : (t.nextEntry c occ x e rest m).2.rest = rest := by
      rw [hc] at h
      obtain ⟨-, -, -, kept, hloop, -⟩ := h
      exact (hloop.nextEntry rfl).2.2.1
    obtain ⟨t', added, hreach', hc'⟩ := ih (hreach.roundAt h) rfl hrest'
    exact ⟨t', added, hreach.trans hreach', hc'⟩

/-- The inputs are removed one by one, and the readers exchanged. -/
private theorem reaches_swapped {dfs : List DeletedFile} (h : t₀.RoundAt cuts M t t.compact)
    (hc : t.compact = .removing c dfs) :
    ∃ t', Reaches trigger cuts M t t' ∧ t'.compact = .swapped c := by
  induction dfs generalizing t with
  | nil =>
    have hs : CompactStep trigger t .compactSwap _ := .swap hc
    exact ⟨_, .single (hs.step_eq h.opened) trivial rfl, rfl⟩
  | cons df dfs ih =>
    have hs : CompactStep trigger t (.compactRemove true) _ := .remove hc
    have hreach : Reaches trigger cuts M t _ := .single (hs.step_eq h.opened) trivial rfl
    obtain ⟨t', hreach', hc'⟩ := ih (hreach.roundAt h) rfl
    exact ⟨t', hreach.trans hreach', hc'⟩

/-- **The loop of a round can be carried through** when its inputs can be opened. -/
theorem exists_finished (ho : t₀.opened = true) (hc : t₀.compact = .looping)
    (hpick : pickCompaction t₀.version = some c) {rs : List fmt.Reader}
    (hrs : t₀.openInputs c.inputs = some rs) {m : UInt64} (hm : M m) :
    ∃ t added, Reaches trigger cuts M t₀ t ∧ t.compact = .finished c added := by
  have hne := (picked_of_pickCompaction hpick).source_ne_nil
  have h₀ : t₀.RoundAt cuts M t₀ t₀.compact := roundAt_start ho hc
  have hs₁ : CompactStep trigger t₀ .compactPick _ := .pick hc hpick
  have h₁ : Reaches trigger cuts M t₀ _ := .single (hs₁.step_eq ho) trivial rfl
  have hs₂ : CompactStep trigger { t₀ with compact := .picked c (maxOccupiedLevel t₀.version) }
      (.compactOpen cuts) _ := .openInputs rfl hne hrs
  have h₂ : Reaches trigger cuts M t₀ _ := h₁.trans (.single (hs₂.step_eq ho) rfl rfl)
  obtain ⟨t, added, h₃, hc₃⟩ :=
    @reaches_finished fmt trigger cuts M t₀ _ c m hm _ _ (h₂.roundAt h₀) rfl
  exact ⟨t, added, h₂.trans h₃, hc₃⟩

/-- The edit can be applied. -/
theorem exists_apply (h : t₀.RoundAt cuts M t t.compact) (hc : t.compact = .finished c added) :
    ∃ t', t.step trigger .compactApply = some t' ∧
      t'.compact = .removing c (compactionEdit c added).deletedFiles := by
  have ho := h.opened
  rw [hc] at h
  obtain ⟨kept, hmerged⟩ := h
  have hs : CompactStep trigger t .compactApply _ := .apply hc (if_pos hmerged.inRange)
  exact ⟨_, hs.step_eq ho, rfl⟩

/-- **A round can be carried through** when its inputs can be opened. -/
theorem exists_round (ho : t₀.opened = true) (hc : t₀.compact = .looping)
    (hpick : pickCompaction t₀.version = some c) {rs : List fmt.Reader}
    (hrs : t₀.openInputs c.inputs = some rs) {m : UInt64} (hm : M m) :
    ∃ t, Reaches trigger cuts M t₀ t ∧ t.compact = .swapped c := by
  have h₀ : t₀.RoundAt cuts M t₀ t₀.compact := roundAt_start ho hc
  obtain ⟨t₃, added, h₃, hc₃⟩ := exists_finished (M := M) ho hc hpick hrs hm
  obtain ⟨t₄, hs₄, hc₄⟩ := exists_apply (h₃.roundAt h₀) hc₃
  have h₄ : Reaches trigger cuts M t₀ t₄ := h₃.trans (.single hs₄ trivial rfl)
  obtain ⟨t, h₅, hc₅⟩ := reaches_swapped (h₄.roundAt h₀) hc₄
  exact ⟨t, h₄.trans h₅, hc₅⟩

end Tree

end Stratum.Lsm
