import Stratum.Lsm.Flush
import Stratum.Lsm.Recovery
import Stratum.Lsm.Session
import Stratum.Sstable.RoundTrip

/-!
# File numbers over several sessions

Within a session the counter only grows, and every file that is added has a number below it. What a
session **finds** is another matter: the counter is rebuilt from the `NextFileNum` fields of the
edits, and neither a flush nor a compaction sets that field.

* `Tree.notLive_drawn_iff`: no number that is drawn in a session is that of a live file, exactly
  when the counter it starts with is above the number of every file it finds.
* `Tree.live_number_drawn`: the second session on a directory draws the number of the file that
  the first one flushed, and truncates the file.
-/

namespace Stratum.Lsm.Tree

open Memtable Sstable

variable {fmt : TableFormat} {trigger : ℕ} {t t' t₁ : Tree fmt} {a : TreeAct} {tr : List TreeAct}

/-- The invariant of a session, whatever is merged. -/
abbrev InSession (t : Tree fmt) : Prop := t.SessionInv fun _ _ _ _ _ => True

theorem inSession_closed (files : ℕ → Option fmt.File) (contents : ℕ → List Entry)
    (manifest : Bytes) : (closed files contents manifest).InSession :=
  ⟨fun _ => ⟨rfl, rfl, rfl⟩, nofun, nofun, nofun, trivial⟩

theorem InSession.step (h : t.InSession) (hs : t.step trigger a = some t') : t'.InSession :=
  SessionInv.step h (fun _ _ _ _ _ _ => trivial) (fun _ _ _ _ _ _ _ _ _ => trivial) hs

/-- The step draws a file number. -/
def Draws (trigger : ℕ) (t : Tree fmt) (a : TreeAct) : Prop :=
  ∃ t', t.step trigger a = some t' ∧ t.counter < t'.counter

/-- Within a session, what it found stays, and the counter does not go back. -/
theorem InSession.within_session (h : t.InSession) (ha : a ≠ .openTree)
    (hs : t.step trigger a = some t') :
    t.opened = true ∧ t'.found = t.found ∧ t.counter ≤ t'.counter := by
  cases step_cases hs with
  | openTree hc ho => exact absurd rfl ha
  | close ho hf hc | kill ho => exact ⟨ho, rfl, le_rfl⟩
  | flush ho hs =>
    refine ⟨ho, ?_⟩
    cases hs with
    | create hf => exact ⟨rfl, Nat.le_succ _⟩
    | apply hf hm => exact ⟨rfl, (apply_spec hm).2⟩
    | _ => exact ⟨rfl, le_rfl⟩
  | compact ho hs =>
    refine ⟨ho, ?_⟩
    cases hs with
    | next hc hx hn =>
      have hwithin := h.within_next hc hn
      exact ⟨by rw [hwithin.frame], hwithin.counter_le⟩
    | finish hc hx hn =>
      have hwithin := h.within_finish hc hn
      exact ⟨by rw [hwithin.frame], hwithin.counter_le⟩
    | apply hc hm => exact ⟨rfl, (apply_spec hm).2⟩
    | _ => exact ⟨rfl, le_rfl⟩
  | lookup ho hs =>
    refine ⟨ho, ?_⟩
    cases hs <;> exact ⟨rfl, le_rfl⟩

private theorem InSession.run (h : t₁.InSession) (htr : .openTree ∉ tr)
    (hr : Machine.run (Tree.step trigger) t₁ tr = some t) :
    t.InSession ∧ t.found = t₁.found ∧ t₁.counter ≤ t.counter := by
  have hg : Machine.Guarded (Tree.step trigger) (fun _ a => a ≠ .openTree) t₁ tr :=
    Machine.guarded_of_forall_mem fun a ha _ => fun heq => htr (heq ▸ ha)
  refine Machine.run_guarded_invariant
    (I := fun t : Tree fmt => t.InSession ∧ t.found = t₁.found ∧ t₁.counter ≤ t.counter)
    (fun s a s' ⟨hs, hfound, hcounter⟩ ha hstep => ?_) ⟨h, rfl, le_rfl⟩ hg hr
  obtain ⟨-, hfound', hcounter'⟩ := hs.within_session ha hstep
  exact ⟨hs.step hstep, hfound'.trans hfound, hcounter.trans hcounter'⟩

/-! ### Drawing numbers -/

/-- A flush that draws a number, and then fails. -/
def failedFlush : List TreeAct :=
  [.flushCall (single ([], none)), .flushPass, .flushCreate, .flushErr]

/-- The flush goroutine is free to begin. -/
structure Idle (t : Tree fmt) : Prop where
  opened : t.opened = true
  flush : t.flush = .idle
  stalled : t.stalled = false

theorem run_failedFlush (h : t.Idle) :
    ∃ t', Machine.run (step trigger) t failedFlush = some t' ∧ t'.Idle ∧
      t'.version = t.version ∧ t'.counter = t.counter + 1 :=
  ⟨_, Machine.run_cons_eq_some.mpr ⟨_, FlushStep.step_eq (.call h.flush) h.opened,
    Machine.run_cons_eq_some.mpr ⟨_, FlushStep.step_eq (.pass rfl h.stalled) h.opened,
    Machine.run_cons_eq_some.mpr ⟨_, FlushStep.step_eq (.create rfl) h.opened,
    Machine.run_cons_eq_some.mpr ⟨_, FlushStep.step_eq (.err (.inr ⟨_, rfl⟩)) h.opened, rfl⟩⟩⟩⟩,
    ⟨h.opened, rfl, h.stalled⟩, rfl, rfl⟩

/-- Failed flushes take the counter as far as one likes. -/
theorem exists_run_counter (h : t.Idle) (k : ℕ) :
    ∃ tr t', .openTree ∉ tr ∧ Machine.run (step trigger) t tr = some t' ∧ t'.Idle ∧
      t'.version = t.version ∧ t'.counter = t.counter + k := by
  induction k with
  | zero => exact ⟨[], t, by simp, rfl, h, rfl, rfl⟩
  | succ k ih =>
    obtain ⟨tr, t₁, htr, hr, hready, hversion, hcounter⟩ := ih
    obtain ⟨t', hr', hready', hversion', hcounter'⟩ := @run_failedFlush _ trigger _ hready
    refine ⟨tr ++ failedFlush, t', ?_, Machine.run_append.mpr ⟨t₁, hr, hr'⟩, hready',
      hversion'.trans hversion, by omega⟩
    simp [htr, failedFlush]

/-- **File numbers in a session.** After any history of sessions: no number that is drawn in the
session that is opened now is that of a live file, exactly when the counter is above the number of
every file that the session finds. -/
theorem notLive_drawn_iff {files : ℕ → Option fmt.File} {contents : ℕ → List Entry}
    {manifest : Bytes}
    (hr : Machine.run (step trigger) (closed files contents manifest) tr = some t)
    (ho : t.step trigger .openTree = some t₁) :
    (∀ tr' t' a, .openTree ∉ tr' ++ [a] → Machine.run (step trigger) t₁ tr' = some t' →
        t'.Draws trigger a → ¬ t'.version.Live t'.counter) ↔
      ∀ n, t₁.version.Live n → n < t₁.counter := by
  have hsession : t.InSession :=
    Machine.run_invariant (fun _ _ _ h hs => InSession.step h hs) (inSession_closed _ _ _) hr
  have hsession₁ : t₁.InSession := hsession.step ho
  have hopen : t₁.Idle ∧ t₁.found = t₁.version := by
    cases step_cases ho with
    | openTree hc ho =>
      obtain ⟨hflush, -, hstalled⟩ := hsession.idle hc
      rw [openSession] at ho
      split at ho
      · cases ho
      · split at ho <;> cases ho
        exact ⟨⟨rfl, hflush, hstalled⟩, rfl⟩
    | flush _ hs => cases hs
    | compact _ hs => cases hs
    | lookup _ hs => cases hs
  obtain ⟨hready, hfound⟩ := hopen
  constructor
  · -- failed flushes take the counter to a live number, and the next one draws it
    intro hall n hn
    by_contra hlt
    obtain ⟨tr', t', htr', hr', hready', hversion, hcounter⟩ :=
      @exists_run_counter _ trigger _ hready (n - t₁.counter)
    have hn' : t'.version.Live t'.counter := by
      rw [hversion, hcounter, show t₁.counter + (n - t₁.counter) = n by omega]
      exact hn
    let t₂ : Tree fmt := { t' with flush := .passed (single ([], none)).entries }
    have hpass : Machine.run (step trigger) t'
        [.flushCall (single ([], none)), .flushPass] = some t₂ :=
      Machine.run_cons_eq_some.mpr ⟨_, FlushStep.step_eq (.call hready'.flush) hready'.opened,
        Machine.run_cons_eq_some.mpr
          ⟨_, FlushStep.step_eq (.pass rfl hready'.stalled) hready'.opened, rfl⟩⟩
    refine hall (tr' ++ [.flushCall (single ([], none)), .flushPass]) t₂ .flushCreate ?_
      (Machine.run_append.mpr ⟨t', hr', hpass⟩)
      ⟨_, FlushStep.step_eq (.create rfl) hready'.opened, Nat.lt_succ_self _⟩ hn'
    simp [htr']
  · rintro hbelow tr' t' a htr' hr' ⟨t'', hstep, -⟩ hlive
    rw [List.mem_append, not_or] at htr'
    obtain ⟨hsession', hfound', hcounter'⟩ := hsession₁.run htr'.1 hr'
    have ha : a ≠ .openTree := fun heq => htr'.2 (by simp [heq])
    obtain ⟨hopened, -⟩ := hsession'.within_session ha hstep
    rcases hsession'.live hopened _ hlive with hlive | hlt
    · rw [hfound', hfound] at hlive
      exact absurd (hbelow _ hlive) (Nat.not_lt_of_le hcounter')
    · exact lt_irrefl _ hlt

/-- On an empty directory the first session draws new numbers only. -/
theorem notLive_drawn_first_session :
    (closed (fun _ => none) (fun _ => []) [] : Tree Config.plain.format).step 8 .openTree =
        some (fresh Config.plain.format) ∧
      ∀ tr' t' a, .openTree ∉ tr' ++ [a] →
        Machine.run (step 8) (fresh Config.plain.format) tr' = some t' → t'.Draws 8 a →
        ¬ t'.version.Live t'.counter := by
  have hstart : Machine.run (step 8)
      (closed (fun _ => none) (fun _ => []) [] : Tree Config.plain.format) []
      = some (closed (fun _ => none) (fun _ => []) []) := rfl
  refine ⟨openTree_closed_empty, (notLive_drawn_iff hstart openTree_closed_empty).mpr ?_⟩
  rintro n ⟨level, -, f, hf, -⟩
  cases hf

/-! ### The second session -/

/-- **A live number is drawn.** The second session on a directory begins with a flush: it draws the
number `1`, which is that of the file of the first session, and the file is truncated. -/
theorem live_number_drawn :
    ∃ t t', Machine.run (step 8)
        (closed (fun _ => none) (fun _ => []) [] : Tree Config.plain.format)
        (.openTree :: flushTable (single ([97], some [1])) ++
          [.close, .openTree, .flushCall (single ([98], some [1])), .flushPass]) = some t ∧
      t.step 8 .flushCreate = some t' ∧ t'.counter = t.counter + 1 ∧
      t.version.Live t.counter ∧ t'.version.Live t.counter ∧ t'.files t.counter = some [] := by
  have hrun : (Machine.run (step 8)
      (closed (fun _ => none) (fun _ => []) [] : Tree Config.plain.format)
      (.openTree :: flushTable (single ([97], some [1])) ++
        [.close, .openTree, .flushCall (single ([98], some [1])), .flushPass])).any fun t =>
      (t.step 8 .flushCreate).any fun t' => decide (t'.counter = t.counter + 1 ∧
        t.counter ∈ t.version.fileNums ∧ t.counter ∈ t'.version.fileNums ∧
        t'.files t.counter = some Config.plain.format.created) := by
    decide +kernel
  obtain ⟨t, hr, hrun⟩ := (Option.any_eq_true _ _).mp hrun
  obtain ⟨t', ht', hrun⟩ := (Option.any_eq_true _ _).mp hrun
  obtain ⟨hcounter, hlive, hlive', hfile⟩ := of_decide_eq_true hrun
  exact ⟨t, t', hr, ht', hcounter, Version.mem_fileNums.mp hlive, Version.mem_fileNums.mp hlive',
    hfile⟩

end Stratum.Lsm.Tree
