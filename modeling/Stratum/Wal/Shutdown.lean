import Stratum.Wal.GroupCommit

/-!
# Requests at shutdown

When the loop sees `stopCh` closed it takes what is left in the channel until it finds it empty,
flushes for the last time and returns. From the moment it has found the channel empty nobody
receives from it any more. But `Submit` can still send to it: its `select` has two ready branches
when `stopCh` is closed and the channel has room, and takes either.

So a request that is enqueued **behind the drain** stays in the channel, nobody answers it, and the
caller waits for ever (`Stranded.run`). `stranded_iff` says that this is the only way: when the
loop has returned, the channel is empty exactly if no request was enqueued behind the drain.
-/

namespace Stratum.Wal

/-- The loop is behind its drain: in its last flush, or returned. -/
def CommitPc.isLeaving : CommitPc → Bool
  | .appending _ stop | .replying _ _ stop => stop
  | .stopped => true
  | _ => false

/-- A request is sent to the channel. -/
def CommitAct.isEnqueue : CommitAct → Bool
  | .enqueue _ => true
  | _ => false

namespace GroupCommitter

variable {s s' t : GroupCommitter} {a : CommitAct} {tr : List CommitAct}

/-- No request is enqueued behind the drain. -/
def EnqueuesInTime (s : GroupCommitter) (a : CommitAct) : Prop :=
  a.isEnqueue = true → s.loop.isLeaving = false

instance (s : GroupCommitter) (a : CommitAct) : Decidable (EnqueuesInTime s a) :=
  inferInstanceAs (Decidable (_ → _))

theorem step_enqueue (ha : a.isEnqueue = true) (h : s.step a = some s') :
    s'.loop = s.loop ∧ ∃ r, s'.pending = s.pending ++ [r] := by
  obtain ⟨c, rfl⟩ : ∃ c, a = .enqueue c := by
    cases a <;> first | exact ⟨_, rfl⟩ | cases ha
  simp only [step] at h
  split at h
  · split at h
    · cases h
      exact ⟨rfl, _, rfl⟩
    · cases h
  · cases h

theorem step_drained (h : s.step .drained = some s') :
    s'.loop.isLeaving = true ∧ s'.pending = [] := by
  simp only [step] at h
  split at h
  · rename_i hpending
    cases h
    rw [flush]
    split
    · exact ⟨rfl, hpending⟩
    · exact ⟨rfl, hpending⟩
  · cases h

/-- **Step lemma** behind the drain: the loop stays there, and receives nothing. -/
theorem leaving_step (hl : s.loop.isLeaving = true) (ha : a.isEnqueue = false)
    (h : s.step a = some s') : s'.loop.isLeaving = true ∧ s'.pending = s.pending := by
  cases step_cases h with
  | outside _ hsame => exact ⟨hsame.loop ▸ hl, hsame.pending⟩
  | enqueue => cases ha
  | fire => exact ⟨hl, rfl⟩
  | recvFlush hloop | recvActive hloop | recvStart hloop | timerIdle hloop | timerFlush hloop
  | sawStop hloop | drain hloop | drainedIdle hloop | drainedFlush hloop =>
    rw [hloop] at hl
    cases hl
  | appendOk hloop | appendErr hloop | sync hloop | reply hloop =>
    rw [hloop] at hl
    exact ⟨hl, rfl⟩
  | @flushed err stop hloop =>
    rw [hloop] at hl
    obtain rfl : stop = true := hl
    exact ⟨rfl, rfl⟩

/-- **Step lemma** before: only the end of the drain leads behind it. -/
theorem staying_step (hl : s.loop.isLeaving = false) (ha : a ≠ .drained)
    (h : s.step a = some s') : s'.loop.isLeaving = false := by
  cases step_cases h with
  | outside _ hsame => exact hsame.loop ▸ hl
  | enqueue | fire => exact hl
  | recvFlush | timerIdle | timerFlush | sawStop => rfl
  | recvActive hloop | recvStart hloop | drain hloop => exact hl
  | drainedIdle | drainedFlush => exact absurd rfl ha
  | appendOk hloop | appendErr hloop | sync hloop | reply hloop =>
    rw [hloop] at hl
    exact hl
  | @flushed err stop hloop =>
    rw [hloop] at hl
    obtain rfl : stop = false := hl
    rfl

/-- **Run lemma** behind the drain: the channel only grows. -/
theorem leaving_run (hl : s.loop.isLeaving = true) (h : Machine.run step s tr = some t) :
    t.loop.isLeaving = true ∧ s.pending <+: t.pending := by
  refine Machine.run_invariant (I := fun t => t.loop.isLeaving = true ∧ s.pending <+: t.pending)
    ?_ ⟨hl, List.prefix_rfl⟩ h
  rintro s₁ a s₂ ⟨hl₁, hpre⟩ hs
  by_cases ha : a.isEnqueue = true
  · obtain ⟨hloop, r, hpending⟩ := step_enqueue ha hs
    exact ⟨hloop ▸ hl₁, hpending ▸ hpre.trans (List.prefix_append _ _)⟩
  · obtain ⟨hl₂, hpending⟩ := leaving_step hl₁ (Bool.eq_false_of_not_eq_true ha) hs
    exact ⟨hl₂, hpending ▸ hpre⟩

/-- Behind the drain the channel stays as it is exactly when nothing is enqueued. -/
theorem guarded_iff_of_leaving (hl : s.loop.isLeaving = true)
    (h : Machine.run step s tr = some t) :
    Machine.Guarded step EnqueuesInTime s tr ↔ t.pending = s.pending := by
  induction tr generalizing s with
  | nil =>
    cases h
    exact iff_of_true trivial rfl
  | cons a tr ih =>
    obtain ⟨s₁, hs, hrun⟩ := Machine.run_cons_eq_some.1 h
    by_cases ha : a.isEnqueue = true
    · obtain ⟨hloop, r, hpending⟩ := step_enqueue ha hs
      refine iff_of_false (fun hg => ?_) fun heq => ?_
      · exact absurd (hg.1 ha) (by simp [hl])
      · have hlen := (leaving_run (hloop ▸ hl) hrun).2.length_le
        rw [heq, hpending, List.length_append] at hlen
        exact Nat.not_succ_le_self _ hlen
    · obtain ⟨hl₁, hpending⟩ := leaving_step hl (Bool.eq_false_of_not_eq_true ha) hs
      rw [← hpending, ← ih hl₁ hrun]
      exact ⟨fun hg => hg.2 s₁ hs, fun hg => .cons hs (fun ha' => absurd ha' ha) hg⟩

/-- **Run lemma** before: the run passes the end of the drain, where the channel is empty. -/
theorem guarded_iff_of_staying (hl : s.loop.isLeaving = false) (hstopped : t.loop = .stopped)
    (h : Machine.run step s tr = some t) :
    t.pending = [] ↔ Machine.Guarded step EnqueuesInTime s tr := by
  induction tr generalizing s with
  | nil =>
    cases h
    rw [hstopped] at hl
    cases hl
  | cons a tr ih =>
    obtain ⟨s₁, hs, hrun⟩ := Machine.run_cons_eq_some.1 h
    have htail : t.pending = [] ↔ Machine.Guarded step EnqueuesInTime s₁ tr := by
      by_cases ha : a = .drained
      · subst ha
        obtain ⟨hl₁, hempty⟩ := step_drained hs
        rw [guarded_iff_of_leaving hl₁ hrun, hempty]
      · exact ih (staying_step hl ha hs) hrun
    rw [htail]
    exact ⟨fun hg => .cons hs (fun _ => hl) hg, fun hg => hg.2 s₁ hs⟩

/-- **No request is stranded at shutdown, unless it is enqueued behind the drain.** In every run of
the loop and any number of callers that ends with the loop terminated, there is no request left in
the channel if and only if none was enqueued when the drain had already found the channel empty. -/
theorem stranded_iff {maxBatchSize : ℤ} (h : Machine.run step (new maxBatchSize) tr = some t)
    (hstopped : t.loop = .stopped) :
    t.pending = [] ↔ Machine.Guarded step EnqueuesInTime (new maxBatchSize) tr :=
  guarded_iff_of_staying rfl hstopped h

/-- One request that is submitted, answered and followed by `Stop`. -/
def submitThenStop : List CommitAct :=
  [.call 0 [1], .enqueue 0, .stop, .sawStop, .drain, .drained, .append none, .sync none, .reply,
    .flushed, .result 0]

/-- Nothing is left in the channel. -/
theorem stranded_submitThenStop :
    ∃ t, Machine.run step (new 64) submitThenStop = some t ∧ t.loop = .stopped ∧
      t.pending = [] := by
  have hrun : ∃ t, Machine.run step (new 64) submitThenStop = some t ∧ t.loop = .stopped :=
    ⟨_, rfl, rfl⟩
  obtain ⟨t, ht, hstopped⟩ := hrun
  exact ⟨t, ht, hstopped, (stranded_iff ht hstopped).2 (by decide)⟩

/-! ### A caller that waits for ever -/

/-- The loop has returned, and a caller waits for an answer that is not there. -/
structure Stranded (c : SubmitterId) (id : ℕ) (s : GroupCommitter) : Prop where
  loop : s.loop = .stopped
  caller : s.callers c = .waiting id
  result : s.results id = none

private theorem Stranded.setCaller {c d : SubmitterId} {id : ℕ} {pc : SubmitPc}
    (h : Stranded c id s) (hd : s.callers d ≠ .waiting id) : Stranded c id (s.setCaller d pc) := by
  have hne : c ≠ d := by
    rintro rfl
    exact hd h.caller
  exact ⟨h.loop, (Function.update_of_ne hne _ _).trans h.caller, h.result⟩

/-- **Step lemma**: no step of anybody answers the caller. -/
theorem Stranded.step {c : SubmitterId} {id : ℕ} (h : Stranded c id s) (hs : s.step a = some s') :
    Stranded c id s' := by
  have hloop := h.loop
  cases a with
  | call d data | ret d =>
    simp only [GroupCommitter.step] at hs
    split at hs <;> cases hs
    rename_i hd
    exact h.setCaller (by simp [hd])
  | enqueue d =>
    simp only [GroupCommitter.step] at hs
    split at hs
    · rename_i data hd
      split at hs <;> cases hs
      exact Stranded.setCaller ⟨h.loop, h.caller, h.result⟩ (by simp [enqueue, hd])
    · cases hs
  | sawClosed d =>
    simp only [GroupCommitter.step] at hs
    split at hs
    · rename_i data hd
      split at hs <;> cases hs
      exact h.setCaller (by simp [hd])
    · cases hs
  | result d =>
    simp only [GroupCommitter.step] at hs
    split at hs
    · rename_i id' hd
      split at hs
      · rename_i err hsome
        cases hs
        -- the answer is another one, and taking it leaves this one away
        have hne : id ≠ id' := by
          rintro rfl
          rw [h.result] at hsome
          cases hsome
        refine Stranded.setCaller
          ⟨h.loop, h.caller, (Function.update_of_ne hne _ _).trans h.result⟩ ?_
        dsimp only
        rw [hd]
        exact fun heq => hne (SubmitPc.waiting.inj heq).symm
      · cases hs
    · cases hs
  | stop | fire =>
    simp only [GroupCommitter.step] at hs
    split at hs <;> cases hs
    exact ⟨h.loop, h.caller, h.result⟩
  | recv | timer | sawStop | drain | drained | append | sync | reply | flushed =>
    simp [GroupCommitter.step, hloop] at hs

/-- **Nobody answers when the loop has returned**: a caller that waits then waits in every later
state. -/
theorem Stranded.run {c : SubmitterId} {id : ℕ} (h : Stranded c id s)
    (hrun : Machine.run GroupCommitter.step s tr = some t) : Stranded c id t :=
  Machine.run_invariant (I := Stranded c id) (fun _ _ _ hs ha => hs.step ha) h hrun

/-- **A request that is stranded.** A caller stands at the `select` of `Submit` when `Stop` closes
`stopCh`. The loop finds the channel empty and returns; then the caller's `select` takes the other
branch. Its request is in the channel, and it waits for ever. -/
theorem submit_stranded :
    ∃ t r, Machine.run step (new 64) [.call 0 [1], .stop, .sawStop, .drained, .enqueue 0] = some t ∧
      t.loop = .stopped ∧ t.pending = [r] ∧ t.callers 0 = .waiting r.id ∧
      ∀ tr t', Machine.run step t tr = some t' → t'.callers 0 = .waiting r.id := by
  have hrun : ∃ t r, Machine.run step (new 64) [.call 0 [1], .stop, .sawStop, .drained, .enqueue 0]
      = some t ∧ t.pending = [r] ∧ Stranded 0 r.id t := ⟨_, _, rfl, rfl, ⟨rfl, rfl, rfl⟩⟩
  obtain ⟨t, r, ht, hpending, hstranded⟩ := hrun
  refine ⟨t, r, ht, hstranded.loop, hpending, hstranded.caller, ?_⟩
  exact fun tr t' htr => (hstranded.run htr).caller

end GroupCommitter

end Stratum.Wal
