import Mathlib.Logic.Basic
import Mathlib.Data.Option.Basic

/-!
# Runs of a partial step function

A system is given by one partial step function `step : σ → α → Option σ`: in state `s` the
action `a` is enabled when `step s a` is a state, and disabled when it is `none`. A **run** is
a list of actions performed in order; the order of the list is the order of the interleaving,
so a statement about every list of actions is a statement about every schedule.

* `run step s tr` performs `tr` from `s`; `visited step s tr` lists the states on the way, the
  first and the last included.
* `run_invariant` is the invariant rule: what every step preserves, every run preserves.
* `Guarded step guard s tr` says that each action of the run is taken in a state where `guard`
  allows it; `run_guarded_invariant` is the invariant rule for such runs.
* `Reaches step allowed s t` says that some run of allowed actions leads from `s` to `t`.
-/

namespace Machine

variable {σ α : Type*}

/-- Perform the actions in order; `none` as soon as one of them is not enabled. -/
def run (step : σ → α → Option σ) : σ → List α → Option σ
  | s, [] => some s
  | s, a :: as => (step s a).bind fun s' => run step s' as

/-- The states a run passes through, the first and the last included. -/
def visited (step : σ → α → Option σ) : σ → List α → List σ
  | s, [] => [s]
  | s, a :: as => s :: ((step s a).elim [] fun s' => visited step s' as)

/-- Every action of the run is taken in a state where `guard` allows it. -/
def Guarded (step : σ → α → Option σ) (guard : σ → α → Prop) : σ → List α → Prop
  | _, [] => True
  | s, a :: as => guard s a ∧ ∀ s', step s a = some s' → Guarded step guard s' as

variable {step : σ → α → Option σ} {guard : σ → α → Prop}

@[simp] theorem run_nil (s : σ) : run step s [] = some s := rfl

variable {as tr : List α} {I : σ → Prop}

/-- A run of `a :: as` is a step of `a` followed by a run of `as`. -/
theorem run_cons_eq_some {s t : σ} {a : α} :
    run step s (a :: as) = some t ↔ ∃ s', step s a = some s' ∧ run step s' as = some t := by
  simp only [run, Option.bind_eq_some_iff]

/-- A run of a concatenation is a run of the first part followed by one of the second. -/
theorem run_append {s t : σ} {bs : List α} :
    run step s (as ++ bs) = some t ↔
      ∃ s', run step s as = some s' ∧ run step s' bs = some t := by
  induction as generalizing s with
  | nil => simp
  | cons a as ih =>
    simp only [List.cons_append, run_cons_eq_some, ih]
    constructor
    · rintro ⟨s₁, h₁, s₂, h₂, h₃⟩
      exact ⟨s₂, ⟨s₁, h₁, h₂⟩, h₃⟩
    · rintro ⟨s₂, ⟨s₁, h₁, h₂⟩, h₃⟩
      exact ⟨s₁, h₁, s₂, h₂, h₃⟩

/-- A run that ends with `a` takes `a` last. -/
theorem run_concat {s t : σ} {a : α} :
    run step s (as ++ [a]) = some t ↔ ∃ s', run step s as = some s' ∧ step s' a = some t := by
  rw [run_append]
  refine exists_congr fun s' => and_congr_right fun _ => ?_
  rw [run_cons_eq_some]
  simp

/-- **Invariant rule.** What every step preserves, every run preserves. -/
theorem run_invariant (hstep : ∀ s a s', I s → step s a = some s' → I s') {s t : σ} (hs : I s)
    (h : run step s tr = some t) : I t := by
  induction tr generalizing s with
  | nil => exact Option.some.inj h ▸ hs
  | cons a as ih =>
    obtain ⟨s', h₁, h₂⟩ := run_cons_eq_some.mp h
    exact ih (hstep s a s' hs h₁) h₂

/-- **Invariant rule for guarded runs.** Steps that the guard forbids need not preserve the
invariant. -/
theorem run_guarded_invariant (hstep : ∀ s a s', I s → guard s a → step s a = some s' → I s')
    {s t : σ} (hs : I s) (hg : Guarded step guard s tr) (h : run step s tr = some t) : I t := by
  induction tr generalizing s with
  | nil => exact Option.some.inj h ▸ hs
  | cons a as ih =>
    obtain ⟨s', h₁, h₂⟩ := run_cons_eq_some.mp h
    exact ih (hstep s a s' hs hg.1 h₁) (hg.2 s' h₁) h₂

/-- **Ranking rule.** A rank that falls with every allowed step bounds the runs of such steps. -/
theorem run_length_le {rank : σ → Nat} {allowed : α → Prop}
    (hstep : ∀ s a s', allowed a → step s a = some s' → rank s' < rank s) {s t : σ}
    (hall : ∀ a ∈ tr, allowed a) (h : run step s tr = some t) : tr.length + rank t ≤ rank s := by
  induction tr generalizing s with
  | nil => simp [Option.some.inj h]
  | cons a as ih =>
    obtain ⟨s', h₁, h₂⟩ := run_cons_eq_some.mp h
    have hfall := hstep s a s' (hall a (by simp)) h₁
    have hrest := ih (fun b hb => hall b (by simp [hb])) h₂
    rw [List.length_cons]
    omega

/-- A guard that allows an action in every state holds along every run of such actions. -/
theorem guarded_of_forall_mem {s : σ} (h : ∀ a ∈ tr, ∀ t, guard t a) :
    Guarded step guard s tr := by
  induction tr generalizing s with
  | nil => trivial
  | cons a as ih =>
    exact ⟨h a (by simp) s, fun s' _ => ih fun b hb => h b (by simp [hb])⟩

instance Guarded.decidable [∀ s a, Decidable (guard s a)] :
    ∀ (s : σ) (tr : List α), Decidable (Guarded step guard s tr)
  | _, [] => isTrue trivial
  | s, a :: as =>
    match h : step s a with
    | none =>
      decidable_of_iff (guard s a)
        ⟨fun hg => ⟨hg, fun s' hs => by rw [h] at hs; cases hs⟩, And.left⟩
    | some s' =>
      haveI := Guarded.decidable s' as
      decidable_of_iff (guard s a ∧ Guarded step guard s' as)
        ⟨fun ⟨hg, hr⟩ => ⟨hg, fun t ht => by rw [h] at ht; cases ht; exact hr⟩,
          fun ⟨hg, hr⟩ => ⟨hg, hr s' h⟩⟩

/-- Two guards kept by one run. -/
theorem Guarded.and {guard' : σ → α → Prop} {s : σ} (h : Guarded step guard s tr)
    (h' : Guarded step guard' s tr) :
    Guarded step (fun s a => guard s a ∧ guard' s a) s tr := by
  induction tr generalizing s with
  | nil => trivial
  | cons a as ih => exact ⟨⟨h.1, h'.1⟩, fun s' hs => ih (h.2 s' hs) (h'.2 s' hs)⟩

/-- A guarded run is guarded in both of its parts. -/
theorem Guarded.of_append {s t : σ} {bs : List α} (h : Guarded step guard s (as ++ bs))
    (hr : run step s as = some t) : Guarded step guard s as ∧ Guarded step guard t bs := by
  induction as generalizing s with
  | nil => exact ⟨trivial, Option.some.inj hr ▸ h⟩
  | cons a as ih =>
    obtain ⟨s', hs, hr'⟩ := run_cons_eq_some.mp hr
    obtain ⟨h₁, h₂⟩ := ih (h.2 s' hs) hr'
    refine ⟨⟨h.1, fun u hu => ?_⟩, h₂⟩
    rw [hs] at hu
    cases hu
    exact h₁

/-- A guarded run, step by step. -/
theorem Guarded.cons {s s' : σ} {a : α} {as : List α} (hs : step s a = some s') (hg : guard s a)
    (h : Guarded step guard s' as) : Guarded step guard s (a :: as) := by
  refine ⟨hg, fun t ht => ?_⟩
  rw [hs] at ht
  cases ht
  exact h

/-- A run guarded in both of its parts is guarded. -/
theorem Guarded.append {s : σ} {as bs : List α} (h : Guarded step guard s as)
    (h' : ∀ t, run step s as = some t → Guarded step guard t bs) :
    Guarded step guard s (as ++ bs) := by
  induction as generalizing s with
  | nil => exact h' s rfl
  | cons a as ih =>
    exact ⟨h.1, fun s' hs => ih (h.2 s' hs) fun t ht => h' t (run_cons_eq_some.mpr ⟨s', hs, ht⟩)⟩

/-- A stronger guard. -/
theorem Guarded.mono {guard' : σ → α → Prop} {s : σ} (h : Guarded step guard s tr)
    (himp : ∀ s a, guard s a → guard' s a) :
    Guarded step guard' s tr := by
  induction tr generalizing s with
  | nil => trivial
  | cons a as ih => exact ⟨himp s a h.1, fun s' hs => ih (h.2 s' hs)⟩

/-- **Projection.** If each step that the guard allows is a guarded step of another machine, or
none, then so is each run. -/
theorem run_project {τ β : Type*} {step' : τ → β → Option τ} {guard' : τ → β → Prop} {f : σ → τ}
    {g : α → Option β} (hskip : ∀ s a s', g a = none → guard s a → step s a = some s' → f s' = f s)
    (hstep : ∀ s a b s', g a = some b → guard s a → step s a = some s' →
      guard' (f s) b ∧ step' (f s) b = some (f s')) {s t : σ} (hg : Guarded step guard s tr)
    (h : run step s tr = some t) :
    Guarded step' guard' (f s) (tr.filterMap g) ∧
      run step' (f s) (tr.filterMap g) = some (f t) := by
  induction tr generalizing s with
  | nil => exact ⟨trivial, congrArg (some ∘ f) (Option.some.inj h)⟩
  | cons a as ih =>
    obtain ⟨s', h₁, h₂⟩ := run_cons_eq_some.mp h
    obtain ⟨hguard, hrun⟩ := ih (hg.2 s' h₁) h₂
    cases ha : g a with
    | none =>
      rw [List.filterMap_cons_none ha, ← hskip s a s' ha hg.1 h₁]
      exact ⟨hguard, hrun⟩
    | some b =>
      obtain ⟨hb, hs⟩ := hstep s a b s' ha hg.1 h₁
      rw [List.filterMap_cons_some ha]
      exact ⟨.cons hs hb hguard, run_cons_eq_some.mpr ⟨_, hs, hrun⟩⟩

/-! ### What can be reached -/

/-- Some run of allowed actions leads from `s` to `t`. -/
def Reaches (step : σ → α → Option σ) (allowed : α → Prop) (s t : σ) : Prop :=
  ∃ tr, run step s tr = some t ∧ ∀ a ∈ tr, allowed a

section Reaches

variable {allowed : α → Prop} {s t u : σ}

theorem Reaches.refl (step : σ → α → Option σ) (allowed : α → Prop) (s : σ) :
    Reaches step allowed s s := ⟨[], rfl, fun _ h => absurd h List.not_mem_nil⟩

theorem Reaches.trans (h : Reaches step allowed s t) (h' : Reaches step allowed t u) :
    Reaches step allowed s u := by
  obtain ⟨tr, hrun, hall⟩ := h
  obtain ⟨tr', hrun', hall'⟩ := h'
  refine ⟨tr ++ tr', run_append.2 ⟨t, hrun, hrun'⟩, fun a ha => ?_⟩
  exact (List.mem_append.1 ha).elim (hall a) (hall' a)

theorem Reaches.single {a : α} (hs : step s a = some t) (ha : allowed a) :
    Reaches step allowed s t := by
  refine ⟨[a], run_cons_eq_some.2 ⟨t, hs, rfl⟩, fun b hb => ?_⟩
  rwa [List.mem_singleton.1 hb]

end Reaches

/-! ### The states on the way -/

/-- A run starts in the first state it visits. -/
theorem mem_visited_self (s : σ) (tr : List α) : s ∈ visited step s tr := by
  cases tr <;> simp [visited]

/-- The state a run ends in is visited. -/
theorem mem_visited_of_run {s t : σ} (h : run step s tr = some t) :
    t ∈ visited step s tr := by
  induction tr generalizing s with
  | nil => simpa [visited] using (Option.some.inj h).symm
  | cons a as ih =>
    obtain ⟨s', h₁, h₂⟩ := run_cons_eq_some.mp h
    simp [visited, h₁, ih h₂]

/-- **Invariant rule for the states on the way.** -/
theorem forall_visited_of_guarded (hstep : ∀ s a s', I s → guard s a → step s a = some s' → I s')
    {s : σ} (hs : I s) (hg : Guarded step guard s tr) :
    ∀ t ∈ visited step s tr, I t := by
  induction tr generalizing s with
  | nil =>
    intro t ht
    rwa [List.mem_singleton.1 ht]
  | cons a as ih =>
    intro t ht
    rw [visited, List.mem_cons] at ht
    obtain rfl | ht := ht
    · exact hs
    · cases hstp : step s a with
      | none => simp [hstp] at ht
      | some s' =>
        rw [hstp] at ht
        exact ih (hstep s a s' hs hg.1 hstp) (hg.2 s' hstp) t ht

/-- A guard holds along a run when each action that fails it, in a state with the invariant `J`,
leads to a state without `P`, and all states on the way have `P`. -/
theorem guarded_of_forall_visited {J P : σ → Prop} (hJ : ∀ s a s', J s → step s a = some s' → J s')
    (h : ∀ s a, J s → (∀ s', step s a = some s' → P s') → guard s a) {s : σ} (hs : J s)
    (hP : ∀ t ∈ visited step s tr, P t) : Guarded step guard s tr := by
  induction tr generalizing s with
  | nil => trivial
  | cons a as ih =>
    have hnext : ∀ s', step s a = some s' → ∀ t ∈ visited step s' as, P t := by
      intro s' hs t ht
      refine hP t ?_
      rw [visited, hs]
      exact List.mem_cons_of_mem _ ht
    exact ⟨h s a hs fun s' hs' => hnext s' hs' s' (mem_visited_self s' as),
      fun s' hs' => ih (hJ s a s' hs hs') (hnext s' hs')⟩

end Machine
