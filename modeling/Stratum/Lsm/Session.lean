import Stratum.Lsm.Execute

/-!
# Sessions of the tree

What holds in every session of a tree, on whatever directory it was opened: the flush and the
compaction draw **different numbers**, none of them twice, so the tables they are writing are
theirs alone. The invariant of the loop of `Execute` therefore survives every other step.

`Tree.SessionInv J` carries, for a compaction under way, a property `J` of what it has kept and of
what is still to come. `SessionInv.step` is the **rule for compactions**: `J` has to hold when the
inputs are opened, and to survive a round of the loop.
-/

namespace Stratum.Lsm

open Mvcc Memtable Sstable

/-- The number of the table that a flush is writing. -/
def FlushPc.num : FlushPc → Option ℕ
  | .created num _ | .registered num _ => some num
  | _ => none

/-- The numbers of the tables that a compaction has written or is writing. -/
def CompactPc.nums : CompactPc → List ℕ
  | .executing _ _ x => x.nums
  | .finished _ added => added.map FileMetadata.fileNum
  | _ => []

/-- The compaction of a pc that has not applied its edit yet. -/
def CompactPc.job : CompactPc → Option Compaction
  | .picked c _ | .executing c _ _ | .finished c _ => some c
  | _ => none

/-- A property of a compaction in its loop: its deepest occupied level, the state of the rule for
old versions, what was kept, and what is still to come. -/
abbrev LoopProp := Compaction → ℕ → GcState → List Entry → List Entry → Prop

namespace Tree

variable {fmt : TableFormat} {J : LoopProp} {trigger : ℕ} {t t' u : Tree fmt} {a : TreeAct}

/-- The outputs are complete, and hold `kept`. -/
def Finished (t : Tree fmt) (out : ℕ) (added : List FileMetadata) (kept : List Entry) : Prop :=
  ∃ x, t.Looping out x kept ∧ x.currentWriter = none ∧ x.addedFiles = added

/-- The compaction is sound: its tables hold what was kept, of which `J` holds. -/
def CompactSound (J : LoopProp) (t : Tree fmt) : CompactPc → Prop
  | .executing c occ x => ∃ kept, t.Looping c.outputLevel x kept ∧ J c occ x.gc kept x.rest
  | .finished c added => ∃ kept occ gc, t.Finished c.outputLevel added kept ∧ J c occ gc kept []
  | _ => True

/-- **Invariant of a session.** -/
structure SessionInv (J : LoopProp) (t : Tree fmt) : Prop where
  idle : t.opened = false → t.flush = .idle ∧ t.compact = .idle ∧ t.stalled = false
  /-- a live file was found, or its number was drawn -/
  live : t.opened = true → ∀ n, t.version.Live n → t.found.Live n ∨ n < t.counter
  flush_lt : ∀ n, t.flush.num = some n → n < t.counter
  flush_notMem : ∀ n, t.flush.num = some n → n ∉ t.compact.nums
  sound : t.CompactSound J t.compact

theorem Finished.nums_eq {out : ℕ} {added : List FileMetadata} {kept : List Entry}
    (h : t.Finished out added kept) : ∃ x : Exec, t.Looping out x kept ∧ x.addedFiles = added ∧
      x.nums = added.map FileMetadata.fileNum := by
  obtain ⟨x, hx, hcw, rfl⟩ := h
  exact ⟨x, hx, rfl, by simp [Exec.nums, hcw]⟩

variable {pc : CompactPc} {inputs : List FileMetadata} {rs : List fmt.Reader} {c : Compaction}
  {occ : ℕ} {x x' : Exec}

/-- The numbers of a compaction were drawn. -/
theorem CompactSound.lt_counter (h : t.CompactSound J pc) :
    ∀ n ∈ pc.nums, n < t.counter := by
  cases pc with
  | executing c occ x =>
    obtain ⟨kept, hloop, -⟩ := h
    exact hloop.lt_counter
  | finished c added =>
    obtain ⟨kept, -, -, hfin, -⟩ := h
    obtain ⟨x, hx, -, hnums⟩ := hfin.nums_eq
    intro n hn
    exact hx.lt_counter n (hnums ▸ hn)
  | _ => nofun

/-- A compaction stays sound when others write other tables. -/
theorem CompactSound.congr (h : t.CompactSound J pc) (hcounter : t.counter ≤ u.counter)
    (hsame : ∀ n ∈ pc.nums, u.files n = t.files n ∧ u.contents n = t.contents n) :
    u.CompactSound J pc := by
  cases pc with
  | executing c occ x =>
    obtain ⟨kept, hloop, hJ⟩ := h
    exact ⟨kept, hloop.congr hcounter hsame, hJ⟩
  | finished c added =>
    obtain ⟨kept, occ, gc, ⟨x, hx, hcw, rfl⟩, hJ⟩ := h
    refine ⟨kept, occ, gc, ⟨x, hx.congr hcounter fun n hn => hsame n ?_, hcw, rfl⟩, hJ⟩
    simpa [Exec.nums, hcw, CompactPc.nums] using hn
  | _ => trivial

/-! ### Opening the inputs -/

theorem openInputs_eq_some_iff :
    t.openInputs inputs = some rs ↔
      List.Forall₂ (fun f r => t.openTable f.fileNum = some r) inputs rs := by
  rw [openInputs]
  induction inputs generalizing rs with
  | nil => simp [eq_comm]
  | cons f inputs ih =>
    simp only [List.mapM_cons, Option.pure_def, Option.bind_eq_bind, Option.bind_eq_some_iff,
      List.forall₂_cons_left_iff, Option.some.injEq, ih]
    constructor
    · rintro ⟨r, hr, rs', hrs, rfl⟩
      exact ⟨r, rs', hr, hrs, rfl⟩
    · rintro ⟨r, rs', hr, hrs, rfl⟩
      exact ⟨r, hr, rs', hrs, rfl⟩

theorem exists_openInputs (h : ∀ f ∈ inputs, t.openTable f.fileNum ≠ none) :
    ∃ rs, t.openInputs inputs = some rs := by
  induction inputs with
  | nil => exact ⟨[], rfl⟩
  | cons f fs ih =>
    obtain ⟨r, hr⟩ := Option.ne_none_iff_exists'.mp (h f List.mem_cons_self)
    obtain ⟨rs, hrs⟩ := ih fun g hg => h g (List.mem_cons_of_mem _ hg)
    exact ⟨r :: rs, openInputs_eq_some_iff.mpr (.cons hr (openInputs_eq_some_iff.mp hrs))⟩

/-- What the inputs pass comes from the files of the inputs. -/
theorem exists_of_mem_streams (hrs : t.openInputs inputs = some rs) {cuts : ℕ → Option ℕ}
    {l : List Entry} (hl : l ∈ streams rs cuts) :
    ∃ f ∈ inputs, ∃ r cut, t.openTable f.fileNum = some r ∧ l = passed r cut := by
  obtain ⟨⟨r, i⟩, hr, rfl⟩ := List.mem_map.mp hl
  obtain ⟨hi, hget⟩ := List.mem_zipIdx' hr
  obtain ⟨hlen, hopen⟩ := List.forall₂_iff_get.mp (openInputs_eq_some_iff.mp hrs)
  have hi' : i < inputs.length := hlen ▸ hi
  exact ⟨_, List.get_mem inputs ⟨i, hi'⟩, _, cuts i, hopen i hi' hi, by rw [hget]; rfl⟩

/-! ### Applying an edit to the manifest -/

theorem apply_spec {m m' : Manifest} {e : VersionEdit} (h : m.apply e = some m') :
    m'.current = m.current.edit e ∧ m.nextFileNum ≤ m'.nextFileNum := by
  rw [Manifest.apply, Manifest.applyEditToMemory] at h
  split at h <;> cases h
  dsimp only
  refine ⟨rfl, ?_⟩
  split <;> omega

/-! ### The step lemmas -/

/-- A step that moves on with the flush or the compaction without touching the tables of the
other, and at most draws numbers. -/
private theorem SessionInv.of_same (h : t.SessionInv J) (ho : t.opened = true)
    (ho' : t'.opened = true)
    (hlive : ∀ n, t'.version.Live n → t.version.Live n ∨ n < t'.counter)
    (hfound : t'.found = t.found) (hcounter : t.counter ≤ t'.counter)
    (hflush : ∀ n, t'.flush.num = some n → n < t'.counter ∧ n ∉ t'.compact.nums)
    (hsound : t'.CompactSound J t'.compact) : t'.SessionInv J where
  idle hc := by
    rw [ho'] at hc
    cases hc
  live _ n hn := by
    rw [hfound]
    rcases hlive n hn with hn | hn
    · exact (h.live ho n hn).imp_right fun hlt => hlt.trans_le hcounter
    · exact .inr hn
  flush_lt n hn := (hflush n hn).1
  flush_notMem n hn := (hflush n hn).2
  sound := hsound

private theorem SessionInv.of_pcs (h : t.SessionInv J) (ho : t.opened = true)
    (ho' : t'.opened = true) (hmanifest : t'.manifest = t.manifest)
    (hfound : t'.found = t.found)
    (hflush : ∀ n, t'.flush.num = some n → t.flush.num = some n)
    (hnums : ∀ n ∈ t'.compact.nums, n ∈ t.compact.nums)
    (hsound : t'.CompactSound J t'.compact) : t'.SessionInv J := by
  have hcounter : t'.counter = t.counter := congrArg Manifest.nextFileNum hmanifest
  refine h.of_same ho ho' (fun n hn => .inl ?_) hfound hcounter.ge
    (fun n hn => ⟨?_, fun hmem => ?_⟩) hsound
  · rwa [version, ← hmanifest]
  · rw [hcounter]
    exact h.flush_lt n (hflush n hn)
  · exact h.flush_notMem n (hflush n hn) (hnums n hmem)

private theorem SessionInv.setFlush (h : t.SessionInv J) (ho : t.opened = true) {pc : FlushPc}
    (hpc : ∀ n, pc.num = some n → t.flush.num = some n) : SessionInv J { t with flush := pc } :=
  h.of_pcs ho ho rfl rfl hpc (fun _ hn => hn) (h.sound.congr le_rfl fun _ _ => ⟨rfl, rfl⟩)

theorem SessionInv.flushStep (h : t.SessionInv J) (ho : t.opened = true)
    (hs : FlushStep trigger t a t') : t'.SessionInv J := by
  cases hs with
  | call hf | pass hf hstall | err hf => exact h.setFlush ho nofun
  | create hf =>
    have hlt := h.sound.lt_counter
    refine h.of_same ho ho (fun n hn => .inl hn) rfl (Nat.le_succ _)
      (fun n hn => ?_) (h.sound.congr (Nat.le_succ _) fun n hn => ?_)
    · cases hn
      exact ⟨Nat.lt_succ_self _, fun hmem => (hlt _ hmem).ne rfl⟩
    · simp [(hlt n hn).ne]
  | @register num es r hf hr =>
    have hnum : t.flush.num = some num := by rw [hf]; rfl
    refine h.of_same ho ho (fun n hn => .inl hn) rfl le_rfl (fun n hn => ?_)
      (h.sound.congr le_rfl fun n hn => ?_)
    · cases hn
      exact ⟨h.flush_lt num hnum, h.flush_notMem num hnum⟩
    · have hne : n ≠ num := by
        rintro rfl
        exact h.flush_notMem n hnum hn
      simp [hne]
  | @apply num es m hf hm =>
    obtain ⟨hcurrent, hcounter⟩ := apply_spec hm
    have hnum : t.flush.num = some num := by rw [hf]; rfl
    refine h.of_same ho ho (fun n hn => ?_) rfl hcounter nofun
      (h.sound.congr hcounter fun _ _ => ⟨rfl, rfl⟩)
    rw [version, hcurrent] at hn
    refine (Version.live_edit hn).imp_right ?_
    rintro ⟨f, hf, rfl⟩
    obtain rfl := List.mem_singleton.mp hf
    exact (h.flush_lt num hnum).trans_le hcounter
  | torn hf =>
    exact h.of_same ho ho (fun n hn => .inl hn) rfl le_rfl nofun
      (h.sound.congr le_rfl fun _ _ => ⟨rfl, rfl⟩)
  | check hf | send hf =>
    exact h.of_pcs ho ho rfl rfl nofun (fun _ hn => hn)
      (h.sound.congr le_rfl fun _ _ => ⟨rfl, rfl⟩)

/-- `J` holds when the inputs are opened. -/
def OpensWith (J : LoopProp) (t : Tree fmt) : Prop :=
  ∀ c occ rs cuts, t.compact = .picked c occ → t.openInputs c.inputs = some rs →
    J c occ ⟨[], false⟩ [] (merge (streams rs cuts))

/-- `J` survives a round of the loop in which `minActiveSnapshot` answers `m`. -/
def Survives (J : LoopProp) (m : UInt64) : Prop :=
  ∀ c occ gc kept e rest, J c occ gc kept (e :: rest) →
    J c occ (gcStep c.outputLevel occ m gc e).1
      (kept ++ if (gcStep c.outputLevel occ m gc e).2 then [e] else []) rest

/-- A round of the loop draws numbers and writes to their tables. -/
theorem SessionInv.within_next (h : t.SessionInv J) {e : Entry} {rest : List Entry} {m : UInt64}
    (hc : t.compact = .executing c occ x) (hn : t.nextEntry c occ x e rest m = (u, x')) :
    Within t u t.compact.nums x'.nums := by
  obtain ⟨kept, hloop, -⟩ : t.CompactSound J (.executing c occ x) := hc ▸ h.sound
  rw [hc]
  exact (hloop.nextEntry hn).2.1

/-- So does the end of the loop. -/
theorem SessionInv.within_finish (h : t.SessionInv J) (hc : t.compact = .executing c occ x)
    (hn : t.finishLoop c x = (u, x')) :
    Within t u t.compact.nums (x'.addedFiles.map FileMetadata.fileNum) := by
  obtain ⟨kept, hloop, -⟩ : t.CompactSound J (.executing c occ x) := hc ▸ h.sound
  rw [hc]
  exact (hloop.finishLoop hn).2.1

/-- The numbers that are drawn are not the one of the flush. -/
private theorem SessionInv.within (h : t.SessionInv J) (ho : t.opened = true) {pc : CompactPc}
    (hw : Within t u t.compact.nums pc.nums) (hsound : CompactSound J { u with compact := pc } pc) :
    SessionInv J { u with compact := pc } := by
  have hframe := hw.frame
  refine h.of_same ho (by rw [hframe]; exact ho) (fun n hn => .inl ?_) (by rw [hframe])
    hw.counter_le (fun n hn => ?_) hsound
  · rwa [← hw.version_eq]
  · have hflush : t.flush.num = some n := by
      rw [← hn, hframe]
    refine ⟨(h.flush_lt n hflush).trans_le hw.counter_le, fun hmem => ?_⟩
    rcases hw.drawn hmem with hmem | ⟨hge, -⟩
    · exact h.flush_notMem n hflush hmem
    · exact absurd (h.flush_lt n hflush) (Nat.not_lt_of_le hge)

theorem SessionInv.compactStep (h : t.SessionInv J) (ho : t.opened = true)
    (hopens : t.OpensWith J) (hsurvives : ∀ m, a = .compactNext m → Survives J m)
    (hs : CompactStep trigger t a t') : t'.SessionInv J := by
  cases hs with
  | @openInputs c occ cuts rs hc he hrs =>
    refine h.of_pcs ho ho rfl rfl (fun _ hn => hn) (fun n hn => ?_)
      ⟨[], tables_start _ _ _ _ _, hopens c occ rs cuts hc hrs⟩
    simp [CompactPc.nums, Exec.nums, Exec.start] at hn
  | @next c occ x e rest m t₁ x' hc hx hn =>
    obtain ⟨kept, hloop, hJ⟩ : t.CompactSound J (.executing c occ x) := hc ▸ h.sound
    obtain ⟨hloop', -, hrest, hgc⟩ := hloop.nextEntry hn
    rw [hx] at hJ
    exact h.within ho (h.within_next hc hn) ⟨_, hloop'.congr le_rfl fun _ _ => ⟨rfl, rfl⟩,
      hrest ▸ hgc ▸ hsurvives m rfl _ _ _ _ _ _ hJ⟩
  | @finish c occ x t₁ x' hc hx hn =>
    obtain ⟨kept, hloop, hJ⟩ : t.CompactSound J (.executing c occ x) := hc ▸ h.sound
    obtain ⟨hout, -, hcw⟩ := hloop.finishLoop hn
    rw [hx] at hJ
    exact h.within ho (h.within_finish hc hn) ⟨kept, occ, x.gc,
      ⟨x', hout.congr le_rfl fun _ _ => ⟨rfl, rfl⟩, hcw, rfl⟩, hJ⟩
  | @apply c added m hc hm =>
    obtain ⟨hcurrent, hcounter⟩ := apply_spec hm
    have hlt := h.sound.lt_counter
    rw [hc] at hlt
    refine h.of_same ho ho (fun n hn => ?_) rfl hcounter
      (fun n hn => ⟨(h.flush_lt n hn).trans_le hcounter, List.not_mem_nil⟩) trivial
    rw [version, hcurrent] at hn
    refine (Version.live_edit hn).imp_right ?_
    rintro ⟨f, hf, rfl⟩
    exact (hlt _ (List.mem_map_of_mem hf)).trans_le hcounter
  | torn hc =>
    exact h.of_same ho ho (fun n hn => .inl hn) rfl le_rfl
      (fun n hn => ⟨h.flush_lt n hn, List.not_mem_nil⟩) trivial
  | recv | pickNone | pick | openNone | err | remove | swap | swapErr | release =>
    exact h.of_pcs ho ho rfl rfl (fun _ hn => hn) (List.forall_mem_nil _) trivial

/-- **The rule for compactions.** -/
theorem SessionInv.step (h : t.SessionInv J) (hopens : t.OpensWith J)
    (hsurvives : ∀ m, a = .compactNext m → Survives J m)
    (hs : t.step trigger a = some t') : t'.SessionInv J := by
  cases step_cases hs with
  | openTree hc ho =>
    obtain ⟨hflush, hcompact, -⟩ := h.idle hc
    rw [openSession] at ho
    split at ho
    · cases ho
    · split at ho <;> cases ho
      exact
        { idle := nofun
          live := fun _ n hn => .inl hn
          flush_lt := fun n hn => by simp [hflush, FlushPc.num] at hn
          flush_notMem := fun n hn => by simp [hflush, FlushPc.num] at hn
          sound := by
            dsimp only
            rw [hcompact]
            trivial }
  | close ho hf hc | kill ho => exact ⟨fun _ => ⟨rfl, rfl, rfl⟩, nofun, nofun, nofun, trivial⟩
  | flush ho hs => exact h.flushStep ho hs
  | compact ho hs => exact h.compactStep ho hopens hsurvives hs
  | lookup ho hs =>
    have hsound := h.sound
    cases hs <;>
    exact h.of_pcs ho ho rfl rfl (fun _ hn => hn) (fun _ hn => hn)
      (hsound.congr le_rfl fun _ _ => ⟨rfl, rfl⟩)

end Tree

end Stratum.Lsm
