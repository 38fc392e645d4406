import Stratum.Lib.Run
import Stratum.Raft.Node

/-!
# The goroutines of a node and its lock

One node with all its goroutines: the timer loop, a goroutine for each vote request, a goroutine for
each heartbeat, and the handlers of the two RPCs. `Routine` is where a goroutine stands. The lock
`n.mu` is a value of its own, taken by `Act.enter` and given back by `Act.leave`; a goroutine that
is at a call of `Lock` or `RLock` waits as long as the lock is not free, **also when it holds the
lock itself**. What arrives from other nodes is arbitrary.

`becomeLeader` is called by the goroutine of a vote request, which holds `n.mu`, and calls
`sendHeartbeats`, which begins with `n.mu.Lock()`. So:

* the goroutine whose reply completes the quorum waits for itself, and stays there for ever
  (`Process.stuck`): no candidate completes `becomeLeader`;
* there is no other such call (`self_deadlock_free_iff`).

`votesMu` is taken and given back within `n.mu` and left out; `countMu` is the field `counting`.
-/

namespace Stratum.Raft

variable {ι : Type*}

/-- Who calls `sendHeartbeats`. -/
inductive Caller
  | loop
  | becomeLeader
deriving DecidableEq, Repr

/-- The critical sections of `n.mu`; `e` is the number of an election, `k` that of a round of
heartbeats. -/
inductive Section (ι : Type*)
  | startElection
  | sendHeartbeats (caller : Caller)
  | voteReply (e : ℕ) (resp : RequestVoteResponse)
  | read (k : ℕ) (p : ι)
  | extendLease (k : ℕ) (p : ι) (req : AppendEntriesRequest ι) (resp : AppendEntriesResponse)
  | appendReply (k : ℕ) (p : ι) (req : AppendEntriesRequest ι) (resp : AppendEntriesResponse)
  | requestVote (req : RequestVoteRequest ι)
  | appendEntries (req : AppendEntriesRequest ι)

/-- The section is entered by `RLock`. -/
def Section.isRead : Section ι → Bool
  | .read _ _ => true
  | _ => false

/-- Where a goroutine stands. -/
inductive Routine (ι : Type*)
  /-- The timer loop, in its `select`. -/
  | select
  /-- At the call of `Lock` or `RLock` in front of a section. -/
  | lock (c : Section ι)
  /-- Within a section. -/
  | inside (c : Section ι)
  /-- Waiting for the answer to a vote request. -/
  | callVote (e : ℕ)
  /-- Waiting for the answer to a heartbeat. -/
  | callAppend (k : ℕ) (p : ι) (req : AppendEntriesRequest ι)
  /-- At the call of `countMu.Lock`. -/
  | count (k : ℕ) (p : ι) (req : AppendEntriesRequest ι) (resp : AppendEntriesResponse)
  | returned

/-- The goroutine is at a call of `Lock` or `RLock`. -/
def Routine.Attempts : Routine ι → Prop
  | .lock _ => True
  | _ => False

/-- The goroutine is between `Lock` and `Unlock`. -/
def Routine.Holds : Routine ι → Prop
  | .inside c => c.isRead = false
  | .lock (.sendHeartbeats .becomeLeader) => True
  | _ => False

/-- The goroutine is between `RLock` and `RUnlock`. -/
def Routine.Reads : Routine ι → Prop
  | .inside c => c.isRead = true
  | _ => False

/-- The goroutine does not have the lock. -/
def Routine.Free (r : Routine ι) : Prop := ¬ r.Holds ∧ ¬ r.Reads

/-- Where goroutine `g` of the list stands. -/
def pcOf (routines : List (Routine ι)) (g : ℕ) : Routine ι := (routines[g]?).getD .returned

/-- What the goroutines of one election, or of one round, share: the term, the counter and whether
`countMu` is taken. -/
structure Tally where
  term : ℕ
  count : ℕ
  counting : Bool
deriving DecidableEq, Repr

/-- The node counts itself. -/
def Tally.start (term : ℕ) : Tally := ⟨term, 1, false⟩

/-- The node, its lock and its goroutines; the timer loop is the first. -/
structure Process (ι : Type*) where
  node : Node ι
  writer : Option ℕ
  readers : List ℕ
  routines : List (Routine ι)
  elections : List Tally
  rounds : List Tally

namespace Process

/-- What can happen next. -/
inductive Act (ι : Type*)
  | electionTimer
  | heartbeatTimer
  | stop
  /-- A call of `Lock` or `RLock` returns. -/
  | enter (g : ℕ)
  /-- A section runs to its end. -/
  | leave (g : ℕ) (now : ℕ)
  /-- A vote request is answered, or fails. -/
  | voteAnswer (g : ℕ) (resp : Option RequestVoteResponse)
  /-- A heartbeat is answered, or fails. -/
  | appendAnswer (g : ℕ) (resp : Option AppendEntriesResponse)
  /-- A reply is counted under `countMu`. -/
  | count (g : ℕ)
  /-- A vote request arrives. -/
  | requestVote (req : RequestVoteRequest ι)
  /-- A heartbeat arrives. -/
  | appendEntries (req : AppendEntriesRequest ι)

/-- `NewNode`. -/
def newNode : Process ι := ⟨.newNode, none, [], [.select], [], []⟩

/-- Goroutine `g` goes on to `r`, and starts the goroutines `new`. -/
def goto (s : Process ι) (g : ℕ) (r : Routine ι) (new : List (Routine ι)) : Process ι :=
  { s with routines := s.routines.set g r ++ new }

/-- The end of a section: the node becomes `x`, and the lock is given back. -/
def unlock (s : Process ι) (x : Node ι) : Process ι := { s with node := x, writer := none }

variable [DecidableEq ι]

/-- Where `sendHeartbeats` returns to. -/
def afterHeartbeats : Caller → Routine ι
  | .loop => .select
  | .becomeLeader => .returned

/-- The section of the goroutine of a vote request. If the quorum is complete, `becomeLeader` goes
on to `sendHeartbeats` with the lock in its hands. -/
def voteReply (peers : List ι) (s : Process ι) (g e : ℕ) (resp : RequestVoteResponse)
    (T : Tally) : Process ι :=
  let x := s.node
  if x.state ≠ .candidate ∨ x.currentTerm ≠ T.term then (s.unlock x).goto g .returned []
  else if resp.term > x.currentTerm then (s.unlock (x.stepDown resp.term)).goto g .returned []
  else if resp.voteGranted then
    let elections := s.elections.set e { T with count := T.count + 1 }
    if T.count + 1 > threshold peers then
      { s with node := x.becomeLeader peers, elections := elections }.goto g
        (.lock (.sendHeartbeats .becomeLeader)) []
    else { s.unlock x with elections := elections }.goto g .returned []
  else (s.unlock x).goto g .returned []

/-- A section of goroutine `g` runs to its end. -/
def leave (id : ι) (peers : List ι) (leaseDuration : ℕ) (s : Process ι) (g now : ℕ) :
    Section ι → Option (Process ι)
  | .startElection =>
    let x := s.node.startElection id
    some ({ s.unlock x with elections := s.elections ++ [Tally.start x.currentTerm] }.goto g
      .select ((peers.filter (· ≠ id)).map fun _ => .callVote s.elections.length))
  | .sendHeartbeats caller =>
    if s.node.state ≠ .leader then some ((s.unlock s.node).goto g (afterHeartbeats caller) [])
    else
      some ({ s.unlock s.node with
        rounds := s.rounds ++ [Tally.start s.node.currentTerm] }.goto g (afterHeartbeats caller)
        ((peers.filter (· ≠ id)).map fun p => .lock (.read s.rounds.length p)))
  | .voteReply e resp => (s.elections[e]?).map (s.voteReply peers g e resp)
  | .read k p => (s.rounds[k]?).bind fun T => (s.node.buildRequest id T.term p).map fun req =>
    { s with readers := s.readers.filter (· ≠ g) }.goto g (.callAppend k p req) []
  | .extendLease k p req resp => (s.rounds[k]?).map fun T =>
    { s.unlock { s.node with leaseTimeout := now + leaseDuration } with
      rounds := s.rounds.set k { T with counting := false } }.goto g
        (.lock (.appendReply k p req resp)) []
  | .appendReply k p req resp => (s.rounds[k]?).map fun T =>
    (s.unlock (s.node.appendReply id peers T.term p req resp).1).goto g .returned []
  | .requestVote req => some ((s.unlock (s.node.requestVote req).1).goto g .returned [])
  | .appendEntries req => some ((s.unlock (s.node.appendEntries req).1).goto g .returned [])

/-- One step. -/
def step (id : ι) (peers : List ι) (leaseDuration : ℕ) (s : Process ι) :
    Act ι → Option (Process ι)
  | .electionTimer =>
    match pcOf s.routines 0 with
    | .select => some (s.goto 0 (.lock .startElection) [])
    | _ => none
  | .heartbeatTimer =>
    match pcOf s.routines 0 with
    | .select => some (s.goto 0 (.lock (.sendHeartbeats .loop)) [])
    | _ => none
  | .stop =>
    match pcOf s.routines 0 with
    | .select => some (s.goto 0 .returned [])
    | _ => none
  | .enter g =>
    match pcOf s.routines g with
    | .lock c =>
      if c.isRead then
        if s.writer = none then
          some ({ s with readers := g :: s.readers }.goto g (.inside c) [])
        else none
      else if s.writer = none ∧ s.readers = [] then
        some ({ s with writer := some g }.goto g (.inside c) [])
      else none
    | _ => none
  | .leave g now =>
    match pcOf s.routines g with
    | .inside c => s.leave id peers leaseDuration g now c
    | _ => none
  | .voteAnswer g resp =>
    match pcOf s.routines g with
    | .callVote e =>
      match resp with
      | some resp => some (s.goto g (.lock (.voteReply e resp)) [])
      | none => some (s.goto g .returned [])
    | _ => none
  | .appendAnswer g resp =>
    match pcOf s.routines g with
    | .callAppend k p req =>
      match resp with
      | some resp => some (s.goto g (.count k p req resp) [])
      | none => some (s.goto g .returned [])
    | _ => none
  | .count g =>
    match pcOf s.routines g with
    | .count k p req resp => (s.rounds[k]?).bind fun T =>
      if T.counting then none
      else if T.count + 1 > threshold peers then
        some ({ s with rounds := s.rounds.set k ⟨T.term, T.count + 1, true⟩ }.goto g
          (.lock (.extendLease k p req resp)) [])
      else
        some ({ s with rounds := s.rounds.set k ⟨T.term, T.count + 1, false⟩ }.goto g
          (.lock (.appendReply k p req resp)) [])
    | _ => none
  | .requestVote req => some { s with routines := s.routines ++ [.lock (.requestVote req)] }
  | .appendEntries req => some { s with routines := s.routines ++ [.lock (.appendEntries req)] }

/-! ### What a step does to the lock -/

/-- The reply completes the quorum of the election. -/
def Quorum (peers : List ι) (x : Node ι) (T : Tally) (resp : RequestVoteResponse) : Prop :=
  x.state = .candidate ∧ x.currentTerm = T.term ∧ resp.term ≤ x.currentTerm ∧
    resp.voteGranted ∧ T.count + 1 > threshold peers

/-- Goroutine `g` goes on to `r`: who has the lock after it. -/
inductive Handover (peers : List ι) (s : Process ι) (g : ℕ) :
    Act ι → Routine ι → Option ℕ → List ℕ → Prop
  | outside (a : Act ι) (r : Routine ι) (hpc : (pcOf s.routines g).Free) (hr : r.Free) :
      Handover peers s g a r s.writer s.readers
  | lock (c : Section ι) (hpc : pcOf s.routines g = .lock c) (hwrite : c.isRead = false)
      (hfree : s.writer = none) : Handover peers s g (.enter g) (.inside c) (some g) s.readers
  | rlock (c : Section ι) (hpc : pcOf s.routines g = .lock c) (hread : c.isRead = true)
      (hfree : s.writer = none) :
      Handover peers s g (.enter g) (.inside c) s.writer (g :: s.readers)
  | unlock (now : ℕ) (c : Section ι) (r : Routine ι) (hpc : pcOf s.routines g = .inside c)
      (hwrite : c.isRead = false) (hr : r.Free) :
      Handover peers s g (.leave g now) r none s.readers
  | runlock (now : ℕ) (c : Section ι) (r : Routine ι) (hpc : pcOf s.routines g = .inside c)
      (hread : c.isRead = true) (hr : r.Free) :
      Handover peers s g (.leave g now) r s.writer (s.readers.filter (· ≠ g))
  /-- `becomeLeader` calls `sendHeartbeats`, and keeps the lock. -/
  | quorum (now e : ℕ) (resp : RequestVoteResponse) (T : Tally)
      (hpc : pcOf s.routines g = .inside (.voteReply e resp)) (hT : s.elections[e]? = some T)
      (hquorum : Quorum peers s.node T resp) :
      Handover peers s g (.leave g now) (.lock (.sendHeartbeats .becomeLeader)) s.writer s.readers

/-- The lock and the goroutines after an action: a handler is started, or a goroutine goes on. -/
inductive Effect (peers : List ι) (s : Process ι) :
    Act ι → Option ℕ → List ℕ → List (Routine ι) → Prop
  | arrive (a : Act ι) (r : Routine ι) (hr : r.Free) :
      Effect peers s a s.writer s.readers (s.routines ++ [r])
  | goto (a : Act ι) (g : ℕ) (r : Routine ι) (new : List (Routine ι)) (writer : Option ℕ)
      (readers : List ℕ) (hg : pcOf s.routines g ≠ .returned) (hnew : ∀ q ∈ new, q.Free)
      (hlock : Handover peers s g a r writer readers) :
      Effect peers s a writer readers (s.routines.set g r ++ new)

variable {id : ι} {peers : List ι} {leaseDuration : ℕ} {s s' : Process ι} {a : Act ι} {g : ℕ}

omit [DecidableEq ι] in
theorem free_select : (Routine.select : Routine ι).Free := ⟨fun h => h, fun h => h⟩

omit [DecidableEq ι] in
theorem free_returned : (Routine.returned : Routine ι).Free := ⟨fun h => h, fun h => h⟩

variable {c : Section ι} {now : ℕ} {l : List (Routine ι)}

omit [DecidableEq ι] in
theorem free_lock (h : c ≠ .sendHeartbeats .becomeLeader) :
    (Routine.lock c).Free := by
  refine ⟨fun hh => ?_, id⟩
  cases c with
  | sendHeartbeats caller =>
    cases caller with
    | loop => exact hh
    | becomeLeader => exact h rfl
  | _ => exact hh

omit [DecidableEq ι] in
theorem free_afterHeartbeats (caller : Caller) : (afterHeartbeats caller : Routine ι).Free := by
  cases caller with
  | loop => exact ⟨id, id⟩
  | becomeLeader => exact ⟨id, id⟩

omit [DecidableEq ι] in
/-- A goroutine goes on outside the lock. -/
theorem Effect.outside {r : Routine ι} (hpc : (pcOf s.routines g).Free)
    (hg : pcOf s.routines g ≠ .returned) (hr : r.Free) :
    Effect peers s a s.writer s.readers (s.routines.set g r ++ []) :=
  .goto a g r [] _ _ hg (by simp) (.outside a r hpc hr)

variable {new : List (Routine ι)} {Q : Routine ι → Prop} {writer : Option ℕ} {readers : List ℕ}

omit [DecidableEq ι] in
/-- A goroutine leaves a section and gives the lock back. -/
theorem Effect.unlock {r : Routine ι} (hpc : pcOf s.routines g = .inside c)
    (hwrite : c.isRead = false) (hr : r.Free) (hnew : ∀ q ∈ new, q.Free) :
    Effect peers s (.leave g now) none s.readers (s.routines.set g r ++ new) :=
  .goto _ g r new _ _ (by simp [hpc]) hnew (.unlock now c r hpc hwrite hr)

/-- A vote request is answered: the lock is given back, or the quorum is complete. -/
theorem voteReply_effect {e : ℕ} {resp : RequestVoteResponse} {T : Tally}
    (hpc : pcOf s.routines g = .inside (.voteReply e resp)) (hT : s.elections[e]? = some T) :
    Effect peers s (.leave g now) (s.voteReply peers g e resp T).writer
      (s.voteReply peers g e resp T).readers (s.voteReply peers g e resp T).routines := by
  have hback : Effect peers s (.leave g now) none s.readers (s.routines.set g .returned ++ []) :=
    .unlock hpc rfl free_returned (by simp)
  unfold voteReply
  dsimp only
  split
  · exact hback
  · rename_i hcurrent
    obtain ⟨hstate, hterm⟩ : s.node.state = .candidate ∧ s.node.currentTerm = T.term := by
      simpa only [ne_eq, not_or, not_not] using hcurrent
    split
    · exact hback
    · rename_i hlater
      split
      · rename_i hgrant
        split
        · rename_i hcount
          exact .goto _ g _ [] _ _ (by simp [hpc]) (by simp) (.quorum now e resp T hpc hT
            ⟨hstate, hterm, Nat.le_of_not_lt hlater, hgrant, hcount⟩)
        · exact hback
      · exact hback

theorem leave_effect (hpc : pcOf s.routines g = .inside c)
    (h : s.leave id peers leaseDuration g now c = some s') :
    Effect peers s (.leave g now) s'.writer s'.readers s'.routines := by
  cases c with
  | startElection =>
    obtain rfl := Option.some.inj h
    refine .unlock hpc rfl free_select fun q hq => ?_
    obtain ⟨p, -, rfl⟩ := List.mem_map.1 hq
    exact ⟨fun h => h, fun h => h⟩
  | sendHeartbeats caller =>
    simp only [leave] at h
    split at h
    · obtain rfl := Option.some.inj h
      exact .unlock hpc rfl (free_afterHeartbeats caller) (by simp)
    · obtain rfl := Option.some.inj h
      refine .unlock hpc rfl (free_afterHeartbeats caller) fun q hq => ?_
      obtain ⟨p, -, rfl⟩ := List.mem_map.1 hq
      exact free_lock (by simp)
  | voteReply e resp =>
    obtain ⟨T, hT, rfl⟩ := Option.map_eq_some_iff.1 h
    exact voteReply_effect hpc hT
  | read k p =>
    obtain ⟨T, hT, h⟩ := Option.bind_eq_some_iff.1 h
    obtain ⟨req, hreq, rfl⟩ := Option.map_eq_some_iff.1 h
    exact .goto _ g _ [] _ _ (by simp [hpc]) (by simp)
      (.runlock now _ _ hpc rfl ⟨fun h => h, fun h => h⟩)
  | extendLease k p req resp =>
    obtain ⟨T, hT, rfl⟩ := Option.map_eq_some_iff.1 h
    exact .unlock hpc rfl (free_lock (by simp)) (by simp)
  | appendReply k p req resp =>
    obtain ⟨T, hT, rfl⟩ := Option.map_eq_some_iff.1 h
    exact .unlock hpc rfl free_returned (by simp)
  | requestVote req | appendEntries req =>
    obtain rfl := Option.some.inj h
    exact .unlock hpc rfl free_returned (by simp)

theorem enter_effect (h : step id peers leaseDuration s (.enter g) = some s') :
    Effect peers s (.enter g) s'.writer s'.readers s'.routines := by
  simp only [step] at h
  split at h
  · rename_i c hpc
    split at h
    · rename_i hread
      split at h
      · rename_i hfree
        obtain rfl := Option.some.inj h
        exact .goto _ g _ [] _ _ (by simp [hpc]) (by simp) (.rlock c hpc hread hfree)
      · cases h
    · rename_i hwrite
      split at h
      · rename_i hfree
        obtain rfl := Option.some.inj h
        exact .goto _ g _ [] _ _ (by simp [hpc]) (by simp)
          (.lock c hpc (by simpa using hwrite) hfree.1)
      · cases h
  · cases h

theorem count_effect (h : step id peers leaseDuration s (.count g) = some s') :
    Effect peers s (.count g) s'.writer s'.readers s'.routines := by
  simp only [step] at h
  split at h
  · rename_i k p req resp hpc
    have hfree : (pcOf s.routines g).Free := hpc ▸ ⟨fun h => h, fun h => h⟩
    obtain ⟨T, hT, h⟩ := Option.bind_eq_some_iff.1 h
    split at h
    · cases h
    · split at h
      · obtain rfl := Option.some.inj h
        exact .outside hfree (by simp [hpc]) (free_lock (by simp))
      · obtain rfl := Option.some.inj h
        exact .outside hfree (by simp [hpc]) (free_lock (by simp))
  · cases h

/-- **Every step is one of these.** -/
theorem step_effect (h : step id peers leaseDuration s a = some s') :
    Effect peers s a s'.writer s'.readers s'.routines := by
  cases a with
  | electionTimer | heartbeatTimer =>
    simp only [step] at h
    split at h
    · rename_i hpc
      obtain rfl := Option.some.inj h
      exact .outside (hpc ▸ free_select) (by simp [hpc]) (free_lock (by simp))
    · cases h
  | stop =>
    simp only [step] at h
    split at h
    · rename_i hpc
      obtain rfl := Option.some.inj h
      exact .outside (hpc ▸ free_select) (by simp [hpc]) free_returned
    · cases h
  | enter g => exact enter_effect h
  | leave g now =>
    simp only [step] at h
    split at h
    · rename_i c hpc
      exact leave_effect hpc h
    · cases h
  | voteAnswer g resp =>
    simp only [step] at h
    split at h
    · rename_i e hpc
      have hfree : (pcOf s.routines g).Free := hpc ▸ ⟨fun h => h, fun h => h⟩
      cases resp with
      | some resp =>
        obtain rfl := Option.some.inj h
        exact .outside hfree (by simp [hpc]) (free_lock (by simp))
      | none =>
        obtain rfl := Option.some.inj h
        exact .outside hfree (by simp [hpc]) free_returned
    · cases h
  | appendAnswer g resp =>
    simp only [step] at h
    split at h
    · rename_i k p req hpc
      have hfree : (pcOf s.routines g).Free := hpc ▸ ⟨fun h => h, fun h => h⟩
      cases resp with
      | some resp =>
        obtain rfl := Option.some.inj h
        exact .outside hfree (by simp [hpc]) ⟨fun h => h, fun h => h⟩
      | none =>
        obtain rfl := Option.some.inj h
        exact .outside hfree (by simp [hpc]) free_returned
    · cases h
  | count g => exact count_effect h
  | requestVote req =>
    obtain rfl := Option.some.inj h
    exact .arrive _ _ (free_lock (by simp))
  | appendEntries req =>
    obtain rfl := Option.some.inj h
    exact .arrive _ _ (free_lock (by simp))

/-! ### Lock and goroutines -/

omit [DecidableEq ι] in
theorem lt_of_pcOf_ne (h : pcOf l g ≠ .returned) : g < l.length := by
  by_contra hge
  exact h (by rw [pcOf, List.getElem?_eq_none (Nat.le_of_not_lt hge)]; rfl)

omit [DecidableEq ι] in
/-- What holds of a goroutine that is neither new nor returned. -/
theorem pcOf_append (hQ : ¬ Q .returned) (hnew : ∀ q ∈ new, ¬ Q q) (f : ℕ) :
    Q (pcOf (l ++ new) f) ↔ Q (pcOf l f) := by
  by_cases hf : f < l.length
  · rw [pcOf, List.getElem?_append_left hf, pcOf]
  · have hout : pcOf l f = .returned := by
      rw [pcOf, List.getElem?_eq_none (Nat.le_of_not_lt hf)]
      rfl
    rw [hout, pcOf, List.getElem?_append_right (Nat.le_of_not_lt hf)]
    cases hget : new[f - l.length]? with
    | none => exact Iff.rfl
    | some q => exact iff_of_false (hnew q (List.mem_of_getElem? hget)) hQ

omit [DecidableEq ι] in
/-- Goroutine `g` goes on to `r`. -/
theorem pcOf_goto {r : Routine ι} (hQ : ¬ Q .returned) (hg : pcOf l g ≠ .returned)
    (hnew : ∀ q ∈ new, ¬ Q q) (f : ℕ) :
    Q (pcOf (l.set g r ++ new) f) ↔ if f = g then Q r else Q (pcOf l f) := by
  rw [pcOf_append hQ hnew]
  by_cases hfg : f = g
  · subst hfg
    simp [pcOf, lt_of_pcOf_ne hg]
  · rw [if_neg hfg, pcOf, List.getElem?_set_ne (Ne.symm hfg), pcOf]

/-- The lock is in the hands of the goroutines that are between taking and giving it back. -/
structure Locked (writer : Option ℕ) (readers : List ℕ) (routines : List (Routine ι)) : Prop where
  writer : ∀ g, writer = some g ↔ (pcOf routines g).Holds
  readers : ∀ g, g ∈ readers ↔ (pcOf routines g).Reads

omit [DecidableEq ι] in
theorem Locked.newNode : Locked (newNode : Process ι).writer (newNode : Process ι).readers
    (newNode : Process ι).routines := by
  have hfree : ∀ g, (pcOf [Routine.select] g : Routine ι).Free := by
    intro g
    cases g with
    | zero => exact ⟨id, id⟩
    | succ g => exact ⟨id, id⟩
  exact ⟨fun g => iff_of_false (by simp [Process.newNode]) (hfree g).1,
    fun g => iff_of_false (by simp [Process.newNode]) (hfree g).2⟩

section Locked

variable {own : Option ℕ} {shared : List ℕ} {routines : List (Routine ι)} {r : Routine ι}

omit [DecidableEq ι] in
theorem Handover.follows (h : Locked s.writer s.readers s.routines)
    (hlock : Handover peers s g a r own shared) (f : ℕ) :
    (own = some f ↔ if f = g then r.Holds else (pcOf s.routines f).Holds) ∧
      (f ∈ shared ↔ if f = g then r.Reads else (pcOf s.routines f).Reads) := by
  by_cases hf : f = g
  · subst hf
    rw [if_pos rfl, if_pos rfl]
    cases hlock with
    | outside a r hpc hr =>
      rw [h.writer, h.readers]
      exact ⟨iff_of_false hpc.1 hr.1, iff_of_false hpc.2 hr.2⟩
    | lock c hpc hwrite hfree =>
      rw [h.readers, hpc]
      exact ⟨iff_of_true rfl hwrite, iff_of_false id (by simp [Routine.Reads, hwrite])⟩
    | rlock c hpc hread hfree =>
      exact ⟨iff_of_false (by simp [hfree]) (by simp [Routine.Holds, hread]),
        iff_of_true List.mem_cons_self hread⟩
    | unlock now c r hpc hwrite hr =>
      rw [h.readers, hpc]
      exact ⟨iff_of_false (by simp) hr.1, iff_of_false (by simp [Routine.Reads, hwrite]) hr.2⟩
    | runlock now c r hpc hread hr =>
      rw [h.writer, hpc]
      exact ⟨iff_of_false (by simp [Routine.Holds, hread]) hr.1, iff_of_false (by simp) hr.2⟩
    | quorum now e resp T hpc hT hquorum =>
      rw [h.writer, h.readers, hpc]
      exact ⟨iff_of_true rfl trivial, iff_of_false (by simp [Routine.Reads, Section.isRead]) id⟩
  · rw [if_neg hf, if_neg hf, ← h.writer, ← h.readers]
    cases hlock with
    | lock c hpc hwrite hfree => exact ⟨by simpa [hfree] using Ne.symm hf, Iff.rfl⟩
    | unlock now c r hpc hwrite hr =>
      -- only `g` has held the lock
      have hown : s.writer = some g := by
        rw [h.writer, hpc]
        exact hwrite
      exact ⟨by simpa [hown] using Ne.symm hf, Iff.rfl⟩
    | rlock | runlock => exact ⟨Iff.rfl, by simp [hf]⟩
    | _ => exact ⟨Iff.rfl, Iff.rfl⟩

omit [DecidableEq ι] in
/-- **The lock follows the goroutines.** -/
theorem Locked.effect (h : Locked s.writer s.readers s.routines)
    (heffect : Effect peers s a own shared routines) : Locked own shared routines := by
  cases heffect with
  | arrive r hr =>
    refine ⟨fun f => ?_, fun f => ?_⟩
    · rw [pcOf_append free_returned.1 (List.forall_mem_singleton.2 hr.1)]
      exact h.writer f
    · rw [pcOf_append free_returned.2 (List.forall_mem_singleton.2 hr.2)]
      exact h.readers f
  | goto g r new writer readers hg hnew hlock =>
    refine ⟨fun f => ?_, fun f => ?_⟩
    · rw [pcOf_goto free_returned.1 hg fun q hq => (hnew q hq).1]
      exact (hlock.follows h f).1
    · rw [pcOf_goto free_returned.2 hg fun q hq => (hnew q hq).2]
      exact (hlock.follows h f).2

end Locked

theorem Locked.step (h : Locked s.writer s.readers s.routines)
    (hstep : step id peers leaseDuration s a = some s') :
    Locked s'.writer s'.readers s'.routines := h.effect (step_effect hstep)

/-! ### Waiting for oneself -/

/-- No goroutine is at a call of `Lock` or `RLock` while it has the lock. -/
def NoSelfDeadlock (s : Process ι) : Prop :=
  ∀ g, (pcOf s.routines g).Attempts → s.writer ≠ some g ∧ g ∉ s.readers

/-- The goroutine is in `becomeLeader`, at the lock of `sendHeartbeats`. -/
abbrev Waits (r : Routine ι) : Prop := r = .lock (.sendHeartbeats .becomeLeader)

/-- The condition on a step: no vote completes a quorum. -/
def NoQuorum (peers : List ι) (s : Process ι) : Act ι → Prop
  | .leave g _ => ∀ e resp T, pcOf s.routines g = .inside (.voteReply e resp) →
      s.elections[e]? = some T → ¬ Quorum peers s.node T resp
  | _ => True

omit [DecidableEq ι] in
/-- The lock is attempted by its holder in `becomeLeader` only. -/
theorem Locked.noSelfDeadlock_iff (h : Locked s.writer s.readers s.routines) :
    s.NoSelfDeadlock ↔ ∀ g, ¬ Waits (pcOf s.routines g) := by
  constructor
  · intro hno g hg
    have hown : s.writer = some g := by
      rw [h.writer, hg]
      trivial
    exact (hno g (by rw [hg]; trivial)).1 hown
  · intro hno g hattempt
    rw [ne_eq, h.writer, h.readers]
    cases hpc : pcOf s.routines g with
    | lock c => exact free_lock fun hc => hno g (by rw [hpc, hc])
    | _ => simp [hpc, Routine.Attempts] at hattempt

omit [DecidableEq ι] in
theorem not_waits_of_free {r : Routine ι} (h : r.Free) : ¬ Waits r := by
  rintro rfl
  exact h.1 trivial

omit [DecidableEq ι] in
/-- A goroutine comes to wait for itself by completing a quorum only. -/
theorem Handover.not_waits {r : Routine ι} (hlock : Handover peers s g a r writer readers)
    (hquorum : NoQuorum peers s a) :
    ¬ Waits r := by
  cases hlock with
  | outside a r hpc hr => exact not_waits_of_free hr
  | lock c hpc hwrite hfree => simp [Waits]
  | rlock c hpc hread hfree => simp [Waits]
  | unlock now c r hpc hwrite hr | runlock now c r hpc hread hr => exact not_waits_of_free hr
  | quorum now e resp T hpc hT hq => exact absurd hq (hquorum e resp T hpc hT)

/-- Whether a goroutine waits for itself changes only when it goes on. -/
theorem waits_step (hstep : step id peers leaseDuration s a = some s') (g : ℕ) :
    (Waits (pcOf s'.routines g) ↔ Waits (pcOf s.routines g)) ∨
      ∃ r writer readers, Handover peers s g a r writer readers ∧
        (Waits (pcOf s'.routines g) ↔ Waits r) := by
  have heffect := step_effect hstep
  generalize s'.writer = writer at heffect
  generalize s'.readers = readers at heffect
  generalize s'.routines = routines at heffect ⊢
  cases heffect with
  | arrive r hr =>
    exact .inl (pcOf_append (Q := Waits) (by simp [Waits]) (by simpa using not_waits_of_free hr) g)
  | goto f r new writer readers hf hnew hlock =>
    rw [pcOf_goto (Q := Waits) (by simp [Waits]) hf fun q hq => not_waits_of_free (hnew q hq)]
    split
    · rename_i hgf
      subst hgf
      exact .inr ⟨r, writer, readers, hlock, .rfl⟩
    · exact .inl .rfl

theorem not_waits_step (h : ∀ g, ¬ Waits (pcOf s.routines g)) (hquorum : NoQuorum peers s a)
    (hstep : step id peers leaseDuration s a = some s') (g : ℕ) :
    ¬ Waits (pcOf s'.routines g) := by
  rcases waits_step hstep g with hiff | ⟨r, writer, readers, hlock, hiff⟩
  · rw [hiff]
    exact h g
  · rw [hiff]
    exact hlock.not_waits hquorum

omit [DecidableEq ι] in
/-- No goroutine that waits for itself goes on. -/
theorem Locked.not_handover {r : Routine ι} (h : Locked s.writer s.readers s.routines)
    (hwaits : Waits (pcOf s.routines g)) :
    ¬ Handover peers s g a r writer readers := by
  have hown : s.writer = some g := by
    rw [h.writer, hwaits]
    trivial
  intro hlock
  cases hlock with
  | outside a r hpc hr => exact not_waits_of_free hpc hwaits
  | lock c hpc hwrite hfree => simp [hown] at hfree
  | rlock c hpc hread hfree => simp [hown] at hfree
  | unlock now c r hpc hwrite hr => simp [hpc, Waits] at hwaits
  | runlock now c r hpc hread hr => simp [hpc, Waits] at hwaits
  | quorum now e resp T hpc hT hq => simp [hpc, Waits] at hwaits

/-- **A goroutine that waits for itself never goes on**, and nobody else gets the lock. -/
theorem stuck (hs : Locked s.writer s.readers s.routines) (hg : Waits (pcOf s.routines g))
    {tr : List (Act ι)} (h : Machine.run (step id peers leaseDuration) s tr = some s') :
    Waits (pcOf s'.routines g) ∧ s'.writer = some g := by
  have hinv : Locked s'.writer s'.readers s'.routines ∧ Waits (pcOf s'.routines g) := by
    refine Machine.run_invariant (I := fun s => Locked s.writer s.readers s.routines ∧
      Waits (pcOf s.routines g)) ?_ ⟨hs, hg⟩ h
    rintro s a s' ⟨hlocked, hwaits⟩ hstep
    refine ⟨hlocked.step hstep, ?_⟩
    rcases waits_step hstep g with hiff | ⟨r, writer, readers, hlock, -⟩
    · exact hiff.2 hwaits
    · exact absurd hlock (hlocked.not_handover hwaits)
  refine ⟨hinv.2, ?_⟩
  rw [hinv.1.writer, hinv.2]
  trivial

end Process

/-- **When a node does not wait for itself.** Along every run of a node with any peers, in every
state on the way no goroutine attempts to take `n.mu` while it has it, if and only if no vote of the
run completes a quorum. -/
theorem self_deadlock_free_iff [DecidableEq ι] (id : ι) (peers : List ι) (leaseDuration : ℕ)
    (tr : List (Process.Act ι)) :
    (∀ s ∈ Machine.visited (Process.step id peers leaseDuration) .newNode tr, s.NoSelfDeadlock) ↔
      Machine.Guarded (Process.step id peers leaseDuration) (Process.NoQuorum peers) .newNode
        tr := by
  constructor
  · refine Machine.guarded_of_forall_visited
      (J := fun s => Process.Locked s.writer s.readers s.routines)
      (fun _ _ _ hs hstep => hs.step hstep) (fun s a hlocked hnext => ?_) Process.Locked.newNode
    cases a with
    | leave g now =>
      rintro e resp T hpc hT ⟨hstate, hterm, hle, hgrant, hcount⟩
      -- the step that completes the quorum leaves `g` at the lock
      obtain ⟨s', hstep, hwaits⟩ : ∃ s', Process.step id peers leaseDuration s (.leave g now) =
          some s' ∧ Process.Waits (pcOf s'.routines g) := by
        refine ⟨s.voteReply peers g e resp T, ?_, ?_⟩
        · rw [Process.step, hpc]
          change (s.elections[e]?).map _ = _
          rw [hT]
          rfl
        have hrole : ¬ (s.node.state ≠ .candidate ∨ s.node.currentTerm ≠ T.term) := by
          simp [hstate, hterm]
        rw [Process.voteReply]
        dsimp only
        rw [if_neg hrole, if_neg (Nat.not_lt.2 hle), if_pos hgrant, if_pos hcount]
        exact (Process.pcOf_goto (Q := Process.Waits) (by simp [Process.Waits]) (by simp [hpc])
          (by simp) g).2 (by simp)
      exact ((hlocked.step hstep).noSelfDeadlock_iff.1 (hnext s' hstep)) g hwaits
    | _ => trivial
  · intro hguard s hs
    have hguard : Machine.Guarded _ (Process.NoQuorum peers) _ tr := hguard
    have hinv := Machine.forall_visited_of_guarded
      (I := fun s => Process.Locked s.writer s.readers s.routines ∧
        ∀ g, ¬ Process.Waits (pcOf s.routines g))
      (fun _ _ _ h hq hstep => ⟨h.1.step hstep, Process.not_waits_step h.2 hq hstep⟩)
      ⟨Process.Locked.newNode, fun g => by cases g <;> simp [Process.newNode, pcOf, Process.Waits]⟩
      hguard s hs
    exact hinv.1.noSelfDeadlock_iff.2 hinv.2

/-- Node `0` of three starts an election, and node `1` grants its vote. -/
def voted : List (Process.Act (Fin 3)) :=
  [.electionTimer, .enter 0, .leave 0 0, .voteAnswer 1 (some ⟨1, true⟩), .enter 1, .leave 1 0]

/-- **The first vote deadlocks the node**: the goroutine that counts it has the lock and attempts to
take it, now and in every later state. -/
theorem first_vote_deadlocks : ∃ s,
    Machine.run (Process.step (0 : Fin 3) [1, 2] 1) .newNode voted = some s ∧
      s.node.state = .leader ∧ ¬ s.NoSelfDeadlock ∧
        ∀ tr s', Machine.run (Process.step (0 : Fin 3) [1, 2] 1) s tr = some s' →
          pcOf s'.routines 1 = .lock (.sendHeartbeats .becomeLeader) ∧ s'.writer = some 1 := by
  obtain ⟨s, hrun, hleader, hwaits, hown⟩ : ∃ s,
      Machine.run (Process.step (0 : Fin 3) [1, 2] 1) .newNode voted = some s ∧
        s.node.state = .leader ∧ Process.Waits (pcOf s.routines 1) ∧ s.writer = some 1 :=
    ⟨_, rfl, rfl, rfl, rfl⟩
  have hlocked : Process.Locked s.writer s.readers s.routines := Machine.run_invariant
    (I := fun s => Process.Locked s.writer s.readers s.routines)
    (fun _ _ _ hs hstep => hs.step hstep) Process.Locked.newNode hrun
  refine ⟨s, hrun, hleader, fun hno => ?_, fun tr s' h => Process.stuck hlocked hwaits h⟩
  exact hlocked.noSelfDeadlock_iff.1 hno 1 hwaits

end Stratum.Raft
