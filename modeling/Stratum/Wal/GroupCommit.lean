import Stratum.Lib.Run
import Stratum.Wal.Physical
import Mathlib.Data.List.Count
import Mathlib.Data.List.Nodup
import Mathlib.Logic.Function.Basic

/-!
# Group commit

Many goroutines call `Submit`; one loop collects their requests into a batch and commits it with
one `Sync`. The loop flushes when the batch is large enough, when the timer it started with the
first request of the batch fires, and when it is stopped, after taking what is left in the channel.

A step is what the loop or a caller does between two points where the others can be noticed: each
receive, each `Append`, the `Sync`, and each send of a reply is one. What `Append` and `Sync` return
is part of the step, so a statement about every run is one about every pattern of failures.
`events` records what the loop did; the code has no such field.

* The replies are the requests in the order they were received, without those of the batch that is
  not flushed yet: so none is answered twice (`Flow`).
* A batch that is not empty has its timer running (`TimerInv`), so the loop has a step to take until
  everybody was answered (`CommitInv.idle`), and each step uses up part of a bound (`Step.rank_lt`).

`GroupCommitter.acknowledges` puts this together with what a nil reply means.
-/

namespace Stratum.Wal

/-- A goroutine that submits. -/
abbrev SubmitterId := ℕ

/-- `commitRequest`: the data, and a number that stands for the channel of its reply. -/
structure CommitRequest where
  id : ℕ
  data : Bytes
deriving DecidableEq, Repr

/-- What the loop did. -/
inductive CommitEvent
  | received (r : CommitRequest)
  | appended (r : CommitRequest) (err : Option WalErr)
  | synced (err : Option WalErr)
  | replied (r : CommitRequest) (err : Option WalErr)
deriving DecidableEq, Repr

/-- Where a caller stands in `Submit`. -/
inductive SubmitPc
  | idle
  /-- at the `select` -/
  | submitting (data : Bytes)
  /-- at the receive from the channel of its request -/
  | waiting (id : ℕ)
  | returned (err : Option WalErr)
deriving DecidableEq, Repr

/-- Where the loop stands; `stop` says that it returns after the flush. -/
inductive CommitPc
  | select
  /-- in `flush`, with `todo` still to append -/
  | appending (todo : List CommitRequest) (stop : Bool)
  /-- in `flush`, with `todo` still to answer -/
  | replying (err : Option WalErr) (todo : List CommitRequest) (stop : Bool)
  /-- saw `stopCh`, takes what is left in the channel -/
  | draining
  /-- returned, `stoppedCh` is closed -/
  | stopped
deriving DecidableEq, Repr

/-- A `time.Timer`. -/
inductive Timer
  | stopped
  | running
  /-- `timer.C` is ready -/
  | fired
deriving DecidableEq, Repr

/-- `GroupCommitter`, with its loop and its callers. -/
structure GroupCommitter where
  maxBatchSize : ℤ
  pending : List CommitRequest
  stopCh : Bool
  loop : CommitPc
  batch : List CommitRequest
  timer : Timer
  timerActive : Bool
  callers : SubmitterId → SubmitPc
  /-- the one slot of the channel of each request -/
  results : ℕ → Option (Option WalErr)
  nextId : ℕ
  events : List CommitEvent

/-- The steps of the callers, of `Stop`, of the timer and of the loop. -/
inductive CommitAct
  | call (c : SubmitterId) (data : Bytes)
  | enqueue (c : SubmitterId)
  | sawClosed (c : SubmitterId)
  | result (c : SubmitterId)
  | ret (c : SubmitterId)
  | stop
  | fire
  | recv
  | timer
  | sawStop
  | drain
  | drained
  | append (err : Option WalErr)
  | sync (err : Option WalErr)
  | reply
  | flushed
deriving DecidableEq, Repr

/-- The steps of the loop and of its timer. -/
def CommitAct.isOwn : CommitAct → Bool
  | .call _ _ | .enqueue _ | .sawClosed _ | .result _ | .ret _ | .stop => false
  | _ => true

namespace GroupCommitter

/-- `NewGroupCommitter`, started; the timer is stopped before the loop begins. -/
def new (maxBatchSize : ℤ) : GroupCommitter where
  maxBatchSize := maxBatchSize
  pending := []
  stopCh := false
  loop := .select
  batch := []
  timer := .stopped
  timerActive := false
  callers := fun _ => .idle
  results := fun _ => none
  nextId := 0
  events := []

/-- Move one caller on. -/
def setCaller (s : GroupCommitter) (c : SubmitterId) (pc : SubmitPc) : GroupCommitter :=
  { s with callers := Function.update s.callers c pc }

/-- `gc.pending <- req`. -/
def enqueue (s : GroupCommitter) (data : Bytes) : GroupCommitter :=
  { s with pending := s.pending ++ [⟨s.nextId, data⟩], nextId := s.nextId + 1 }

/-- `batch = append(batch, req)`, for the first request of the channel. -/
def take (s : GroupCommitter) (r : CommitRequest) (pending : List CommitRequest) :
    GroupCommitter :=
  { s with pending := pending, batch := s.batch ++ [r], events := s.events ++ [.received r] }

/-- `flush` is called: nothing happens when the batch is empty. -/
def flush (s : GroupCommitter) (stop : Bool) : GroupCommitter :=
  if s.batch = [] then { s with loop := if stop then .stopped else .select }
  else { s with loop := .appending s.batch stop }

/-- The end of `flush`: the batch is emptied, and the timer stopped and drained. -/
def endFlush (s : GroupCommitter) (stop : Bool) : GroupCommitter :=
  { s with
    batch := []
    timer := if s.timerActive then .stopped else s.timer
    timerActive := false
    loop := if stop then .stopped else .select }

/-- What a step does; `none` when it is not enabled. -/
def step (s : GroupCommitter) : CommitAct → Option GroupCommitter
  | .call c data =>
    match s.callers c with
    | .idle => some (s.setCaller c (.submitting data))
    | _ => none
  | .enqueue c =>
    match s.callers c with
    | .submitting data =>
      if s.pending.length < 1024 then
        some ((s.enqueue data).setCaller c (.waiting s.nextId))
      else none
    | _ => none
  | .sawClosed c =>
    match s.callers c with
    | .submitting _ => if s.stopCh then some (s.setCaller c (.returned (some .closed))) else none
    | _ => none
  | .result c =>
    match s.callers c with
    | .waiting id =>
      match s.results id with
      | some err =>
        some ({ s with results := Function.update s.results id none }.setCaller c (.returned err))
      | none => none
    | _ => none
  | .ret c =>
    match s.callers c with
    | .returned _ => some (s.setCaller c .idle)
    | _ => none
  | .stop => if s.stopCh then none else some { s with stopCh := true }
  | .fire => if s.timer = .running then some { s with timer := .fired } else none
  | .recv =>
    match s.loop, s.pending with
    | .select, r :: pending =>
      let s' := s.take r pending
      if s.maxBatchSize ≤ s'.batch.length then some (s'.flush false)
      else if s.timerActive then some s'
      else some { s' with timer := .running, timerActive := true }
    | _, _ => none
  | .timer =>
    if s.loop = .select ∧ s.timer = .fired then
      some ({ s with timer := .stopped, timerActive := false }.flush false)
    else none
  | .sawStop => if s.loop = .select ∧ s.stopCh then some { s with loop := .draining } else none
  | .drain =>
    match s.loop, s.pending with
    | .draining, r :: pending => some (s.take r pending)
    | _, _ => none
  | .drained =>
    match s.loop, s.pending with
    | .draining, [] => some (s.flush true)
    | _, _ => none
  | .append err =>
    match s.loop with
    | .appending (r :: todo) stop =>
      some { s with
        events := s.events ++ [.appended r err]
        -- an error ends the loop over the batch, and is what everybody gets
        loop := if err = none then .appending todo stop else .replying err s.batch stop }
    | _ => none
  | .sync err =>
    match s.loop with
    | .appending [] stop =>
      some { s with events := s.events ++ [.synced err], loop := .replying err s.batch stop }
    | _ => none
  | .reply =>
    match s.loop with
    | .replying err (r :: todo) stop =>
      some { s with
        results := Function.update s.results r.id (some err)
        events := s.events ++ [.replied r err]
        loop := .replying err todo stop }
    | _ => none
  | .flushed =>
    match s.loop with
    | .replying _ [] stop => some (s.endFlush stop)
    | _ => none

end GroupCommitter

/-! ### What a step can do -/

namespace GroupCommitter

variable {s s' : GroupCommitter} {a : CommitAct}

/-- The two states differ for the callers only. -/
structure SameLoop (s s' : GroupCommitter) : Prop where
  pending : s'.pending = s.pending
  loop : s'.loop = s.loop
  batch : s'.batch = s.batch
  timer : s'.timer = s.timer
  timerActive : s'.timerActive = s.timerActive
  nextId : s'.nextId = s.nextId
  events : s'.events = s.events

/-- The transitions, one constructor for each way a step can go. -/
inductive Step (s : GroupCommitter) : CommitAct → GroupCommitter → Prop
  | outside {b t} (hb : b.isOwn = false) (h : SameLoop s t) : Step s b t
  | enqueue {c data} : Step s (.enqueue c) ((s.enqueue data).setCaller c (.waiting s.nextId))
  | fire (h : s.timer = .running) : Step s .fire { s with timer := .fired }
  | recvFlush {r pending} (h : s.loop = .select) (hp : s.pending = r :: pending) :
      Step s .recv { s.take r pending with loop := .appending (s.batch ++ [r]) false }
  | recvActive {r pending} (h : s.loop = .select) (hp : s.pending = r :: pending)
      (ht : s.timerActive = true) : Step s .recv (s.take r pending)
  | recvStart {r pending} (h : s.loop = .select) (hp : s.pending = r :: pending) :
      Step s .recv { s.take r pending with timer := .running, timerActive := true }
  | timerIdle (h : s.loop = .select) (ht : s.timer = .fired) (hb : s.batch = []) :
      Step s .timer { s with timer := .stopped, timerActive := false, loop := .select }
  | timerFlush (h : s.loop = .select) (ht : s.timer = .fired) (hb : s.batch ≠ []) :
      Step s .timer
        { s with timer := .stopped, timerActive := false, loop := .appending s.batch false }
  | sawStop (h : s.loop = .select) : Step s .sawStop { s with loop := .draining }
  | drain {r pending} (h : s.loop = .draining) (hp : s.pending = r :: pending) :
      Step s .drain (s.take r pending)
  | drainedIdle (h : s.loop = .draining) (hb : s.batch = []) :
      Step s .drained { s with loop := .stopped }
  | drainedFlush (h : s.loop = .draining) (hb : s.batch ≠ []) :
      Step s .drained { s with loop := .appending s.batch true }
  | appendOk {r todo stop} (h : s.loop = .appending (r :: todo) stop) :
      Step s (.append none)
        { s with events := s.events ++ [.appended r none], loop := .appending todo stop }
  | appendErr {r todo stop e} (h : s.loop = .appending (r :: todo) stop) :
      Step s (.append (some e))
        { s with events := s.events ++ [.appended r (some e)],
                 loop := .replying (some e) s.batch stop }
  | sync {stop err} (h : s.loop = .appending [] stop) :
      Step s (.sync err)
        { s with events := s.events ++ [.synced err], loop := .replying err s.batch stop }
  | reply {err r todo stop} (h : s.loop = .replying err (r :: todo) stop) :
      Step s .reply
        { s with results := Function.update s.results r.id (some err),
                 events := s.events ++ [.replied r err], loop := .replying err todo stop }
  | flushed {err stop} (h : s.loop = .replying err [] stop) : Step s .flushed (s.endFlush stop)

private theorem recv_cases (h : s.step .recv = some s') : Step s .recv s' := by
  simp only [step] at h
  split at h
  · rename_i r pending hloop hp
    split at h
    · cases h
      rw [flush, if_neg (by simp [take])]
      exact .recvFlush hloop hp
    · split at h
      · cases h
        exact .recvActive hloop hp ‹_›
      · cases h
        exact .recvStart hloop hp
  · cases h

private theorem drained_cases (h : s.step .drained = some s') : Step s .drained s' := by
  simp only [step] at h
  split at h
  · rename_i hloop _
    cases h
    rw [flush]
    split
    · exact .drainedIdle hloop ‹_›
    · exact .drainedFlush hloop ‹_›
  · cases h

private theorem timer_cases (h : s.step .timer = some s') : Step s .timer s' := by
  simp only [step] at h
  split at h
  · rename_i hloop
    cases h
    rw [flush]
    split
    · exact .timerIdle hloop.1 hloop.2 ‹_›
    · exact .timerFlush hloop.1 hloop.2 ‹_›
  · cases h

/-- **Inversion**: a step is one of the transitions. -/
theorem step_cases (h : s.step a = some s') : Step s a s' := by
  cases a with
  | recv => exact recv_cases h
  | timer => exact timer_cases h
  | drained => exact drained_cases h
  | enqueue c =>
    simp only [step] at h
    split at h
    · split at h
      · cases h
        exact .enqueue
      · cases h
    · cases h
  | call c data | ret c | stop =>
    simp only [step] at h
    split at h <;> cases h
    exact .outside rfl ⟨rfl, rfl, rfl, rfl, rfl, rfl, rfl⟩
  | sawClosed c | result c =>
    simp only [step] at h
    split at h
    · split at h <;> cases h
      exact .outside rfl ⟨rfl, rfl, rfl, rfl, rfl, rfl, rfl⟩
    · cases h
  | fire =>
    simp only [step] at h
    split at h <;> cases h
    exact .fire ‹_›
  | drain =>
    simp only [step] at h
    split at h <;> cases h
    exact .drain ‹_› ‹_›
  | sync err =>
    simp only [step] at h
    split at h <;> cases h
    exact .sync ‹_›
  | reply =>
    simp only [step] at h
    split at h <;> cases h
    exact .reply ‹_›
  | flushed =>
    simp only [step] at h
    split at h <;> cases h
    exact .flushed ‹_›
  | sawStop =>
    simp only [step] at h
    split at h <;> cases h
    rename_i hloop
    exact .sawStop hloop.1
  | append err =>
    simp only [step] at h
    split at h <;> cases h
    rcases err with _ | e
    · exact .appendOk ‹_›
    · exact .appendErr ‹_›

end GroupCommitter

/-! ### What was received, appended and answered -/

namespace CommitEvent

/-- The request that was received. -/
@[simp] def received? : CommitEvent → Option CommitRequest
  | .received r => some r
  | _ => none

/-- The request whose data was passed to `Append`. -/
@[simp] def appended? : CommitEvent → Option CommitRequest
  | .appended r _ => some r
  | _ => none

/-- The request that was answered. -/
@[simp] def replied? : CommitEvent → Option CommitRequest
  | .replied r _ => some r
  | _ => none

end CommitEvent

/-- The requests that the loop received, in order. -/
def received (events : List CommitEvent) : List CommitRequest := events.filterMap (·.received?)

/-- The requests whose data was passed to `Append`, in order. -/
def appends (events : List CommitEvent) : List CommitRequest := events.filterMap (·.appended?)

/-- The requests that were answered, in order. -/
def replied (events : List CommitEvent) : List CommitRequest := events.filterMap (·.replied?)

/-- The data of the request was appended without an error, and a `Sync` after that succeeded. -/
def Durable (r : CommitRequest) (events : List CommitEvent) : Prop :=
  ∃ before after, events = before ++ .appended r none :: after ∧ .synced none ∈ after

@[simp] theorem received_concat (l : List CommitEvent) (e : CommitEvent) :
    received (l ++ [e]) = received l ++ e.received?.toList := by
  rw [received, List.filterMap_append, received]
  cases e <;> rfl

@[simp] theorem appends_concat (l : List CommitEvent) (e : CommitEvent) :
    appends (l ++ [e]) = appends l ++ e.appended?.toList := by
  rw [appends, List.filterMap_append, appends]
  cases e <;> rfl

@[simp] theorem replied_concat (l : List CommitEvent) (e : CommitEvent) :
    replied (l ++ [e]) = replied l ++ e.replied?.toList := by
  rw [replied, List.filterMap_append, replied]
  cases e <;> rfl

theorem Durable.append {r : CommitRequest} {l : List CommitEvent} (h : Durable r l)
    (l' : List CommitEvent) : Durable r (l ++ l') := by
  obtain ⟨before, after, rfl, hsync⟩ := h
  exact ⟨before, after ++ l', by simp, List.mem_append_left _ hsync⟩

theorem durable_of_sync {r : CommitRequest} {l : List CommitEvent}
    (h : CommitEvent.appended r none ∈ l) : Durable r (l ++ [.synced none]) := by
  obtain ⟨before, after, rfl⟩ := List.append_of_mem h
  exact ⟨before, after ++ [.synced none], by simp, by simp⟩

/-- Every nil reply was sent when the data was durable. -/
def NilDurable (events : List CommitEvent) : Prop :=
  ∀ before r after, events = before ++ .replied r none :: after → Durable r before

theorem NilDurable.concat {l : List CommitEvent} (h : NilDurable l) {e : CommitEvent}
    (he : ∀ r, e = .replied r none → Durable r l) : NilDurable (l ++ [e]) := by
  intro before r after heq
  rcases List.eq_nil_or_concat' after with rfl | ⟨after', e', rfl⟩
  · obtain ⟨rfl, hlast⟩ := List.append_inj' heq rfl
    exact he r (List.singleton_inj.1 hlast)
  · rw [← List.cons_append, ← List.append_assoc] at heq
    obtain ⟨hl, -⟩ := List.append_inj' heq rfl
    exact h before r after' hl

namespace GroupCommitter

variable {s s' : GroupCommitter} {a : CommitAct}

/-! ### The invariant -/

/-- What the loop has done with the requests it has received: `done` are those of the batches
before, and the current batch follows them. -/
def LoopFlow (done : List CommitRequest) (s : GroupCommitter) : CommitPc → Prop
  | .select | .draining => replied s.events = done ∧ (appends s.events).Sublist done
  | .appending todo _ => replied s.events = done ∧ s.batch ≠ [] ∧
      ∃ pre, s.batch = pre ++ todo ∧ (appends s.events).Sublist (done ++ pre) ∧
        ∀ r ∈ pre, .appended r none ∈ s.events
  | .replying err todo _ => (appends s.events).Sublist (done ++ s.batch) ∧
      (err = none → ∀ r ∈ s.batch, Durable r s.events) ∧
      ∃ pre, s.batch = pre ++ todo ∧ replied s.events = done ++ pre
  | .stopped => s.batch = [] ∧ replied s.events = done ∧ (appends s.events).Sublist done

/-- The requests received are those of earlier batches and the current batch. -/
def Flow (s : GroupCommitter) : Prop :=
  ∃ done, received s.events = done ++ s.batch ∧ LoopFlow done s s.loop

/-- Requests have their own numbers. -/
structure IdInv (s : GroupCommitter) : Prop where
  lt : ∀ r ∈ received s.events ++ s.pending, r.id < s.nextId
  nodup : (received s.events ++ s.pending).Nodup

/-- A batch that waits has its timer. -/
structure TimerInv (s : GroupCommitter) : Prop where
  active : s.loop = .select → s.batch ≠ [] → s.timerActive = true
  timer : s.timerActive = true → s.timer ≠ .stopped

/-- What holds in every state of every run. -/
structure CommitInv (s : GroupCommitter) : Prop where
  flow : Flow s
  ids : IdInv s
  timers : TimerInv s
  durable : NilDurable s.events

section Flush

variable {done : List CommitRequest} {r : CommitRequest} {todo : List CommitRequest} {stop : Bool}

private theorem LoopFlow.begin (h : replied s.events = done ∧ (appends s.events).Sublist done)
    (hb : s.batch ≠ []) (stop : Bool) : LoopFlow done s (.appending s.batch stop) :=
  ⟨h.1, hb, [], rfl, by simpa using h.2, by simp⟩

private theorem LoopFlow.appendOk (h : LoopFlow done s (.appending (r :: todo) stop)) :
    LoopFlow done { s with events := s.events ++ [.appended r none] } (.appending todo stop) := by
  obtain ⟨hreplied, hne, pre, hbatch, hsub, hpre⟩ := h
  refine ⟨by simpa using hreplied, hne, pre ++ [r], by simp [hbatch], ?_, fun r' hr' => ?_⟩
  · rw [appends_concat, ← List.append_assoc]
    exact hsub.append (List.Sublist.refl [r])
  · rcases List.mem_append.1 hr' with hr' | hr'
    · exact List.mem_append_left _ (hpre r' hr')
    · rw [List.mem_singleton.1 hr']
      exact List.mem_append_right _ List.mem_cons_self

private theorem LoopFlow.appendErr (h : LoopFlow done s (.appending (r :: todo) stop))
    (e : WalErr) : LoopFlow done { s with events := s.events ++ [.appended r (some e)] }
      (.replying (some e) s.batch stop) := by
  obtain ⟨hreplied, hne, pre, hbatch, hsub, hpre⟩ := h
  refine ⟨?_, by simp, [], rfl, by simpa using hreplied⟩
  -- the request that failed was passed to `Append` too
  have hr : (appends (s.events ++ [.appended r (some e)])).Sublist (done ++ pre ++ [r]) := by
    rw [appends_concat]
    exact hsub.append (List.Sublist.refl [r])
  refine hr.trans ?_
  rw [hbatch, List.append_assoc]
  exact (List.Sublist.refl done).append
    ((List.Sublist.refl pre).append (List.singleton_sublist.2 List.mem_cons_self))

private theorem LoopFlow.sync (h : LoopFlow done s (.appending [] stop)) (err : Option WalErr) :
    LoopFlow done { s with events := s.events ++ [.synced err] } (.replying err s.batch stop) := by
  obtain ⟨hreplied, hne, pre, hbatch, hsub, hpre⟩ := h
  rw [List.append_nil] at hbatch
  refine ⟨?_, ?_, [], rfl, by simpa using hreplied⟩
  · rw [hbatch]
    simpa using hsub
  · rintro rfl r hr
    exact durable_of_sync (hpre r (hbatch ▸ hr))

private theorem LoopFlow.reply {err : Option WalErr}
    (h : LoopFlow done s (.replying err (r :: todo) stop)) :
    LoopFlow done { s with events := s.events ++ [.replied r err] } (.replying err todo stop) := by
  obtain ⟨hsub, hdurable, pre, hbatch, hreplied⟩ := h
  refine ⟨by simpa using hsub, fun herr r' hr' => (hdurable herr r' hr').append _, pre ++ [r],
    by simp [hbatch], ?_⟩
  rw [replied_concat, hreplied, List.append_assoc]
  rfl

end Flush

theorem Flow.step (h : Flow s) (hs : Step s a s') : Flow s' := by
  obtain ⟨done, hrec, hflow⟩ := h
  cases hs with
  | outside _ hsame =>
    refine ⟨done, by rw [hsame.events, hsame.batch, hrec], ?_⟩
    rw [hsame.loop]
    rcases hloop : s.loop with _ | ⟨todo, stop⟩ | ⟨err, todo, stop⟩ | _ | _ <;>
      rw [hloop] at hflow <;> simpa only [LoopFlow, hsame.events, hsame.batch] using hflow
  | enqueue | fire => exact ⟨done, hrec, hflow⟩
  | @recvFlush r pending hloop hp =>
    rw [hloop] at hflow
    refine ⟨done, by simp [take, hrec], ?_⟩
    exact LoopFlow.begin (by simpa [take, LoopFlow] using hflow) (by simp [take]) false
  | @recvActive r pending hloop hp ht | @recvStart r pending hloop hp
  | @drain r pending hloop hp =>
    rw [hloop] at hflow
    refine ⟨done, by simp [take, hrec], ?_⟩
    simpa [take, hloop, LoopFlow] using hflow
  | timerIdle hloop _ hb | sawStop hloop =>
    rw [hloop] at hflow
    exact ⟨done, hrec, hflow⟩
  | timerFlush hloop _ hb =>
    rw [hloop] at hflow
    exact ⟨done, hrec, LoopFlow.begin hflow hb false⟩
  | drainedIdle hloop hb =>
    rw [hloop] at hflow
    exact ⟨done, hrec, hb, hflow⟩
  | drainedFlush hloop hb =>
    rw [hloop] at hflow
    exact ⟨done, hrec, LoopFlow.begin hflow hb true⟩
  | appendOk hloop =>
    rw [hloop] at hflow
    exact ⟨done, by simpa using hrec, hflow.appendOk⟩
  | appendErr hloop =>
    rw [hloop] at hflow
    exact ⟨done, by simpa using hrec, hflow.appendErr _⟩
  | sync hloop =>
    rw [hloop] at hflow
    exact ⟨done, by simpa using hrec, hflow.sync _⟩
  | reply hloop =>
    rw [hloop] at hflow
    exact ⟨done, by simpa using hrec, hflow.reply⟩
  | @flushed err stop hloop =>
    rw [hloop] at hflow
    obtain ⟨hsub, -, pre, hbatch, hreplied⟩ := hflow
    rw [List.append_nil] at hbatch
    refine ⟨done ++ s.batch, by simpa [endFlush] using hrec, ?_⟩
    rw [← hbatch] at hreplied
    rcases stop with _ | _
    · exact ⟨hreplied, hsub⟩
    · exact ⟨rfl, hreplied, hsub⟩

/-- Receiving moves a request from the channel to the batch. -/
private theorem IdInv.of_take {r : CommitRequest} {pending : List CommitRequest} (h : IdInv s)
    (hp : s.pending = r :: pending) (hevents : received s'.events = received s.events ++ [r])
    (hpending : s'.pending = pending) (hnext : s'.nextId = s.nextId) : IdInv s' := by
  have hsame : received s'.events ++ s'.pending = received s.events ++ s.pending := by
    rw [hevents, hpending, hp, List.append_assoc]
    rfl
  exact ⟨by rw [hsame, hnext]; exact h.lt, by rw [hsame]; exact h.nodup⟩

private theorem IdInv.of_same (h : IdInv s) (hevents : received s'.events = received s.events)
    (hpending : s'.pending = s.pending) (hnext : s'.nextId = s.nextId) : IdInv s' :=
  ⟨by rw [hevents, hpending, hnext]; exact h.lt, by rw [hevents, hpending]; exact h.nodup⟩

theorem IdInv.step (h : IdInv s) (hs : Step s a s') : IdInv s' := by
  cases hs with
  | outside _ hsame =>
    exact h.of_same (by rw [hsame.events]) hsame.pending hsame.nextId
  | @enqueue c data =>
    have hnew : received s.events ++ (s.enqueue data).pending =
        (received s.events ++ s.pending) ++ [⟨s.nextId, data⟩] := (List.append_assoc ..).symm
    refine ⟨fun r hr => ?_, ?_⟩
    · change r ∈ received s.events ++ (s.enqueue data).pending at hr
      rw [hnew] at hr
      rcases List.mem_append.1 hr with hr | hr
      · exact (h.lt r hr).trans (Nat.lt_succ_self _)
      · rw [List.mem_singleton.1 hr]
        exact Nat.lt_succ_self _
    · change (received s.events ++ (s.enqueue data).pending).Nodup
      rw [hnew, List.nodup_append']
      refine ⟨h.nodup, List.nodup_singleton _, fun r hr hr' => ?_⟩
      have hlt := h.lt r hr
      rw [List.mem_singleton.1 hr'] at hlt
      exact absurd hlt (lt_irrefl _)
  | recvFlush hloop hp | recvActive hloop hp | recvStart hloop hp | drain hloop hp =>
    exact h.of_take hp (by simp [take]) rfl rfl
  | _ => exact h.of_same (by simp [endFlush]) rfl rfl

theorem TimerInv.step (h : TimerInv s) (hs : Step s a s') : TimerInv s' := by
  cases hs with
  | outside _ hsame =>
    refine ⟨?_, ?_⟩
    · rw [hsame.loop, hsame.batch, hsame.timerActive]
      exact h.active
    · rw [hsame.timerActive, hsame.timer]
      exact h.timer
  | enqueue => exact ⟨h.active, h.timer⟩
  | fire ht => exact ⟨h.active, by simp⟩
  | recvFlush hloop hp => exact ⟨by simp, h.timer⟩
  | recvActive hloop hp ht => exact ⟨fun _ _ => ht, h.timer⟩
  | recvStart hloop hp => exact ⟨fun _ _ => rfl, by simp⟩
  | timerIdle hloop _ hb => exact ⟨fun _ hne => absurd hb hne, by simp⟩
  | timerFlush hloop _ hb => exact ⟨by simp, by simp⟩
  | flushed hloop => exact ⟨fun _ hne => absurd rfl hne, by simp [endFlush]⟩
  | drain hloop hp => exact ⟨by simp [take, hloop], h.timer⟩
  | _ => exact ⟨by simp, h.timer⟩

theorem nilDurable_step (h : NilDurable s.events) (hflow : Flow s) (hs : Step s a s') :
    NilDurable s'.events := by
  cases hs with
  | outside _ hsame => rwa [hsame.events]
  | recvFlush | recvActive | recvStart | drain | appendOk | appendErr | sync =>
    exact h.concat (by simp)
  | @reply err r todo stop hloop =>
    obtain ⟨done, -, hloopFlow⟩ := hflow
    rw [hloop] at hloopFlow
    obtain ⟨-, hdurable, pre, hbatch, -⟩ := hloopFlow
    refine h.concat fun r' hr' => ?_
    cases hr'
    exact hdurable rfl r (by simp [hbatch])
  | _ => exact h

/-- **Step lemma.** -/
theorem CommitInv.step (h : CommitInv s) (hs : Step s a s') : CommitInv s' :=
  ⟨h.flow.step hs, h.ids.step hs, h.timers.step hs, nilDurable_step h.durable h.flow hs⟩

theorem commitInv_new (maxBatchSize : ℤ) : CommitInv (new maxBatchSize) where
  flow := ⟨[], rfl, rfl, List.Sublist.refl []⟩
  ids := ⟨fun r hr => absurd hr List.not_mem_nil, List.nodup_nil⟩
  timers := ⟨fun _ hne => absurd rfl hne, by simp [new]⟩
  durable := by
    intro before r after h
    exact absurd (congrArg List.length h) (by simp [new])

/-- **Run lemma.** -/
theorem commitInv_of_run {maxBatchSize : ℤ} {tr : List CommitAct}
    (hr : Machine.run step (new maxBatchSize) tr = some s) : CommitInv s :=
  Machine.run_invariant (fun _ _ _ hi hs => hi.step (step_cases hs)) (commitInv_new _) hr

/-! ### What the replies mean -/

/-- Outside `flush` with an empty batch, the requests answered are those received. -/
theorem CommitInv.replied_eq (h : CommitInv s) (hb : s.batch = [])
    (hloop : s.loop = .select ∨ s.loop = .stopped) : replied s.events = received s.events := by
  obtain ⟨done, hrec, hflow⟩ := h.flow
  rw [hb, List.append_nil] at hrec
  rcases hloop with hloop | hloop <;> rw [hloop] at hflow
  · exact hflow.1.trans hrec.symm
  · exact hflow.2.1.trans hrec.symm

/-- The replies go out in the order of the requests. -/
theorem Flow.replied_prefix (h : Flow s) : replied s.events <+: received s.events := by
  obtain ⟨done, hrec, hflow⟩ := h
  rw [hrec]
  rcases hloop : s.loop with _ | ⟨todo, stop⟩ | ⟨err, todo, stop⟩ | _ | _ <;> rw [hloop] at hflow
  · exact hflow.1 ▸ List.prefix_append _ _
  · exact hflow.1 ▸ List.prefix_append _ _
  · obtain ⟨-, -, pre, hbatch, hreplied⟩ := hflow
    rw [hreplied, hbatch, ← List.append_assoc]
    exact List.prefix_append _ _
  · exact hflow.1 ▸ List.prefix_append _ _
  · exact hflow.2.1 ▸ List.prefix_append _ _

theorem Flow.appends_sublist (h : Flow s) : (appends s.events).Sublist (received s.events) := by
  obtain ⟨done, hrec, hflow⟩ := h
  rw [hrec]
  rcases hloop : s.loop with _ | ⟨todo, stop⟩ | ⟨err, todo, stop⟩ | _ | _ <;> rw [hloop] at hflow
  · exact hflow.2.trans (List.sublist_append_left _ _)
  · obtain ⟨-, -, pre, hbatch, hsub, -⟩ := hflow
    rw [hbatch, ← List.append_assoc]
    exact hsub.trans (List.sublist_append_left _ _)
  · exact hflow.1
  · exact hflow.2.trans (List.sublist_append_left _ _)
  · exact hflow.2.2.trans (List.sublist_append_left _ _)

end GroupCommitter

/-! ### Everybody is answered -/

/-- What the timer can still do. -/
def Timer.rank : Timer → ℕ
  | .stopped => 0
  | .running => 2
  | .fired => 1

/-- How many steps the loop has before it at most, until it waits for a caller: a batch that waits
is appended, synced and answered, and after a stop the loop drains and returns. -/
def CommitPc.rank (batch : List CommitRequest) : CommitPc → ℕ
  | .select => 2 * batch.length + (if batch = [] then 0 else 2) + 2
  | .draining => 2 * batch.length + (if batch = [] then 0 else 2) + 1
  | .appending todo stop => todo.length + batch.length + 2 + (if stop then 0 else 2)
  | .replying _ todo stop => todo.length + 1 + (if stop then 0 else 2)
  | .stopped => 0

namespace GroupCommitter

variable {s s' : GroupCommitter} {a : CommitAct}

/-- A bound on the steps of the loop and its timer. A request that is still in the channel is
received, appended and answered, and may cost a flush and a timer of its own. -/
def rank (s : GroupCommitter) : ℕ :=
  7 * s.pending.length + s.loop.rank s.batch + s.timer.rank

/-- Every step of the loop or its timer uses up part of the bound. -/
theorem Step.rank_lt (hs : Step s a s') (ha : a.isOwn = true) : s'.rank < s.rank := by
  cases hs with
  | outside hb => rw [hb] at ha; cases ha
  | enqueue => cases ha
  | fire ht => simp [rank, ht, Timer.rank]
  | recvFlush hloop hp | recvActive hloop hp ht | recvStart hloop hp =>
    simp [rank, take, hloop, hp, CommitPc.rank, Timer.rank]
    omega
  | timerIdle hloop ht hb => simp [rank, hloop, ht, CommitPc.rank, Timer.rank]
  | timerFlush hloop ht hb =>
    simp [rank, hloop, ht, hb, CommitPc.rank, Timer.rank]
    omega
  | sawStop hloop => simp [rank, hloop, CommitPc.rank]
  | drain hloop hp =>
    simp [rank, take, hloop, hp, CommitPc.rank]
    omega
  | drainedIdle hloop hb => simp [rank, hloop, hb, CommitPc.rank]
  | drainedFlush hloop hb =>
    simp [rank, hloop, hb, CommitPc.rank]
    omega
  | appendOk hloop | sync hloop | reply hloop => simp [rank, hloop, CommitPc.rank]
  | appendErr hloop =>
    simp only [rank, hloop, CommitPc.rank, List.length_cons]
    omega
  | @flushed err stop hloop =>
    have htimer : (if s.timerActive then Timer.stopped else s.timer).rank ≤ s.timer.rank := by
      split
      · exact Nat.zero_le _
      · exact le_rfl
    cases stop <;> simp [rank, endFlush, hloop, CommitPc.rank] <;> omega

/-- **The loop stops only when everybody is answered**: with nothing left to do, its batch is empty
and it is not in `flush`. -/
theorem CommitInv.idle (h : CommitInv s) (hstuck : ∀ a, a.isOwn = true → s.step a = none) :
    s.batch = [] ∧ (s.loop = .select ∨ s.loop = .stopped) := by
  rcases hloop : s.loop with _ | ⟨_ | ⟨r, todo⟩, stop⟩ | ⟨err, _ | ⟨r, todo⟩, stop⟩ | _ | _
  · refine ⟨?_, .inl rfl⟩
    by_contra hb
    -- a batch that waits has its timer
    have hactive := h.timers.timer (h.timers.active hloop hb)
    rcases ht : s.timer with _ | _ | _
    · exact hactive ht
    · simpa [GroupCommitter.step, ht] using hstuck .fire rfl
    · simpa [GroupCommitter.step, hloop, ht] using hstuck .timer rfl
  · simpa [GroupCommitter.step, hloop] using hstuck (.sync none) rfl
  · simpa [GroupCommitter.step, hloop] using hstuck (.append none) rfl
  · simpa [GroupCommitter.step, hloop] using hstuck .flushed rfl
  · simpa [GroupCommitter.step, hloop] using hstuck .reply rfl
  · rcases hp : s.pending with _ | ⟨r, pending⟩
    · simpa [GroupCommitter.step, hloop, hp] using hstuck .drained rfl
    · simpa [GroupCommitter.step, hloop, hp] using hstuck .drain rfl
  · obtain ⟨done, -, hflow⟩ := h.flow
    rw [hloop] at hflow
    exact ⟨hflow.1, .inr rfl⟩

/-- **Group commit acknowledges only durable records.** In every run, whatever `Append` and `Sync`
return and whatever the batch size is:

* no request is answered twice;
* from here on the loop and its timer can take so many steps of their own and no more, however the
  calls of `Append` and `Sync` go on, and when there is none left to take, each request that the
  loop has received is answered once;
* a nil reply is sent only when the data was appended without an error and a later `Sync`
  succeeded;
* the data passed to `Append` is a subsequence of the requests in the order received, which are all
  different. -/
theorem acknowledges {maxBatchSize : ℤ} {tr : List CommitAct}
    (hr : Machine.run step (new maxBatchSize) tr = some s) :
    (∀ r, (replied s.events).count r ≤ 1) ∧
      (∀ tr' s', (∀ a ∈ tr', a.isOwn = true) → Machine.run step s tr' = some s' →
        tr'.length ≤ s.rank ∧ ((∀ a, a.isOwn = true → s'.step a = none) →
          ∀ r ∈ received s'.events, (replied s'.events).count r = 1)) ∧
      NilDurable s.events ∧
      (appends s.events).Sublist (received s.events) ∧ (received s.events).Nodup := by
  have h := commitInv_of_run hr
  have hnodup : (received s.events).Nodup := h.ids.nodup.of_append_left
  refine ⟨fun r => ?_, fun tr' s' hown hrun => ⟨?_, fun hstuck r hrec => ?_⟩, h.durable,
    h.flow.appends_sublist, hnodup⟩
  · exact List.nodup_iff_count_le_one.1 (hnodup.sublist h.flow.replied_prefix.sublist) r
  · have hfalls : ∀ s a s', CommitAct.isOwn a = true → step s a = some s' → s'.rank < s.rank :=
      fun _ _ _ ha hs => (step_cases hs).rank_lt ha
    have hle := Machine.run_length_le hfalls hown hrun
    omega
  · have h' : CommitInv s' :=
      Machine.run_invariant (fun _ _ _ hi hs => hi.step (step_cases hs)) h hrun
    obtain ⟨hb, hloop⟩ := h'.idle hstuck
    rw [h'.replied_eq hb hloop]
    exact List.count_eq_one_of_mem h'.ids.nodup.of_append_left hrec

/-- Two callers submit and are committed in one batch. -/
def twoSubmits : List CommitAct :=
  [.call 0 [1], .call 1 [2], .enqueue 1, .enqueue 0, .recv, .recv, .append none, .append none,
    .sync none, .reply, .reply, .flushed, .result 0]

/-- Both requests are appended, in the order received, and get the nil that follows the sync. -/
theorem acknowledges_twoSubmits :
    ∃ s, Machine.run step (new 2) twoSubmits = some s ∧ s.callers 0 = .returned none ∧
      appends s.events = [⟨0, [2]⟩, ⟨1, [1]⟩] ∧ NilDurable s.events :=
  ⟨_, rfl, rfl, rfl, (@acknowledges _ 2 twoSubmits rfl).2.2.1⟩

end GroupCommitter

end Stratum.Wal
