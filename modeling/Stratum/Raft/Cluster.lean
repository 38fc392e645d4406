import Mathlib.Data.Finset.Card
import Stratum.Lib.Run
import Stratum.Raft.Node

/-!
# A cluster of Raft nodes

Nodes that send each other `RequestVote` and `AppendEntries`. Each critical section is one step;
the steps of all goroutines of all nodes interleave freely. A request or reply is lost when its
next step is never taken, and delayed by taking it late; it is handled at most once.

* `elections n t` is the election that node `n` started in term `t`: the closure of
  `startElection`, with the vote count and the state of one goroutine a peer (`VoteCall`).
* `rounds r` is the `r`-th round of heartbeats, with the state of one goroutine a peer
  (`AppendCall`). The round keeps the **term** read when it was started; a goroutine reads the
  **log** later (`Act.buildRequest`), when the node may have stepped down. The request has the
  entries of that moment. In the source it has a slice of the log, which is read once more when the
  request is encoded; `Shared` adds that.
* `history` records what happened, in the terms of `Consensus.Event`. The program keeps no such
  list; elections won and entries sent to `applyCh` are read off it.

The source has no operation that appends to a leader's log. `Act.propose` is that operation: a
leader appends an entry of its current term. `becomeLeader` goes on to send heartbeats while it
holds the lock; here the heartbeats are the next step.

`Step` lists the branches of a step, and `step_cases` finds the one that was taken.
-/

namespace Stratum.Raft

open Consensus (Role Event)

variable {ι : Type*} [DecidableEq ι] [Fintype ι]

/-- The configurations of a cluster. The peers of a node are all other nodes, or every node
lists all nodes. -/
structure Cluster (ι : Type*) where
  peers : ι → List ι
  leaseDuration : ℕ
  nodup : ∀ n, (peers n).Nodup
  complete : (∀ n p, p ∈ peers n ↔ p ≠ n) ∨ ∀ n p, p ∈ peers n

/-- The goroutine of `startElection` for one peer. -/
inductive VoteCall
  | idle
  | sent
  | answered (resp : RequestVoteResponse)
  | counted
  | finished
deriving DecidableEq, Repr

/-- The closure of `startElection`. -/
structure Election (ι : Type*) where
  lastLogIndex : ℕ
  lastLogTerm : ℕ
  votes : ℕ
  calls : ι → VoteCall

/-- The goroutine of `sendHeartbeats` for one peer. -/
inductive AppendCall (ι : Type*)
  | idle
  | spawned
  | sent (req : AppendEntriesRequest ι)
  | answered (req : AppendEntriesRequest ι) (resp : AppendEntriesResponse)
  | counted (req : AppendEntriesRequest ι) (resp : AppendEntriesResponse)
  | finished

/-- The closure of `sendHeartbeats`. -/
structure Round (ι : Type*) where
  node : ι
  term : ℕ
  successCount : ℕ
  calls : ι → AppendCall ι

/-- The cluster. -/
structure World (ι : Type*) where
  nodes : ι → Node ι
  elections : ι → ℕ → Election ι
  rounds : ℕ → Option (Round ι)
  nextRound : ℕ
  history : List (Event ι LogEntry)

/-- What can happen next. -/
inductive Act (ι : Type*)
  /-- The election timer of node `n` fires. -/
  | startElection (n : ι)
  /-- Peer `p` handles the vote request of node `n` in term `t`. -/
  | requestVote (n : ι) (t : ℕ) (p : ι)
  /-- Node `n` processes the vote reply of peer `p`. -/
  | voteReply (n : ι) (t : ℕ) (p : ι)
  /-- The heartbeat timer of node `n` fires. -/
  | sendHeartbeats (n : ι)
  /-- The goroutine of round `r` for peer `p` reads the log. -/
  | buildRequest (r : ℕ) (p : ι)
  /-- Peer `p` handles the request of round `r`. -/
  | appendEntries (r : ℕ) (p : ι)
  /-- The goroutine counts the reply and extends the lease. -/
  | countReply (r : ℕ) (p : ι) (now : ℕ)
  /-- The goroutine processes the reply. -/
  | appendReply (r : ℕ) (p : ι)
  /-- Node `n` appends `e` to its log. -/
  | propose (n : ι) (e : LogEntry)

namespace World

/-- `NewNode` on every node. -/
def init : World ι :=
  ⟨fun _ => .newNode, fun _ _ => ⟨0, 0, 0, fun _ => .idle⟩, fun _ => none, 0, []⟩

/-- Node `n` becomes `x`, and `evs` is recorded. -/
def become (w : World ι) (n : ι) (x : Node ι) (evs : List (Event ι LogEntry)) : World ι :=
  { w with nodes := Function.update w.nodes n x, history := w.history ++ evs }

/-- The election of node `n` in term `t` becomes `E`. -/
def setElection (w : World ι) (n : ι) (t : ℕ) (E : Election ι) : World ι :=
  { w with elections := Function.update w.elections n (Function.update (w.elections n) t E) }

/-- Round `r` becomes `R`. -/
def setRound (w : World ι) (r : ℕ) (R : Round ι) : World ι :=
  { w with rounds := Function.update w.rounds r (some R) }

end World

/-- The goroutine for peer `p` goes on to `c`. -/
def Election.setCall (E : Election ι) (p : ι) (c : VoteCall) : Election ι :=
  { E with calls := Function.update E.calls p c }

/-- The goroutine for peer `p` goes on to `c`. -/
def Round.setCall (R : Round ι) (p : ι) (c : AppendCall ι) : Round ι :=
  { R with calls := Function.update R.calls p c }

/-- The election that `startElection` begins with the log it read. -/
def Election.start (peers : List ι) (n : ι) (log : List LogEntry) : Election ι :=
  ⟨Raft.lastLogIndex log, Raft.lastLogTerm log, 1,
    fun p => if p ∈ peers ∧ p ≠ n then .sent else .idle⟩

/-- The request of an election. -/
def Election.request (E : Election ι) (n : ι) (t : ℕ) : RequestVoteRequest ι :=
  ⟨t, n, E.lastLogIndex, E.lastLogTerm⟩

/-- The node and the peers whose votes were counted. -/
def Election.voters (E : Election ι) (n : ι) : Finset ι :=
  insert n (Finset.univ.filter fun p => E.calls p = .counted)

/-- The round that `sendHeartbeats` begins. -/
def Round.start (peers : List ι) (n : ι) (term : ℕ) : Round ι :=
  ⟨n, term, 1, fun p => if p ∈ peers ∧ p ≠ n then .spawned else .idle⟩

/-- What was sent to `applyCh`, as events. -/
def applied (n : ι) (out : List (ℕ × LogEntry)) : List (Event ι LogEntry) :=
  out.map fun ie => .applied n ie.1 ie.2

/-- What `startElection` does with the answer of peer `p`. -/
def voteReply (cl : Cluster ι) (w : World ι) (n : ι) (t : ℕ) (p : ι)
    (resp : RequestVoteResponse) : World ι :=
  let x := w.nodes n
  let E := w.elections n t
  if x.state ≠ .candidate ∨ x.currentTerm ≠ t then w.setElection n t (E.setCall p .finished)
  else if resp.term > x.currentTerm then
    (w.become n (x.stepDown resp.term) []).setElection n t (E.setCall p .finished)
  else if resp.voteGranted then
    let E : Election ι := { E.setCall p .counted with votes := E.votes + 1 }
    if E.votes > threshold (cl.peers n) then
      (w.become n (x.becomeLeader (cl.peers n)) [.elected n t (E.voters n) x.log]).setElection n t E
    else w.setElection n t E
  else w.setElection n t (E.setCall p .finished)

/-- One critical section. -/
def step (cl : Cluster ι) (w : World ι) : Act ι → Option (World ι)
  | .startElection n =>
    let x := w.nodes n
    let t := x.currentTerm + 1
    some ((w.become n (x.startElection n) [.campaigned n t x.log, .voted n n t x.log]).setElection
      n t (.start (cl.peers n) n x.log))
  | .requestVote n t p =>
    let E := w.elections n t
    match E.calls p with
    | .sent =>
      let (x, resp) := (w.nodes p).requestVote (E.request n t)
      let evs := if resp.voteGranted then [.voted p n t (w.nodes p).log] else []
      some ((w.become p x evs).setElection n t (E.setCall p (.answered resp)))
    | _ => none
  | .voteReply n t p =>
    match (w.elections n t).calls p with
    | .answered resp => some (voteReply cl w n t p resp)
    | _ => none
  | .sendHeartbeats n =>
    let x := w.nodes n
    if x.state = .leader then
      some { w.setRound w.nextRound (.start (cl.peers n) n x.currentTerm) with
        nextRound := w.nextRound + 1 }
    else some w
  | .buildRequest r p => (w.rounds r).bind fun R =>
    match R.calls p with
    | .spawned => ((w.nodes R.node).buildRequest R.node R.term p).map fun req =>
      let x := w.nodes R.node
      (w.become R.node x [.sent R.node R.term x.log x.commitIndex]).setRound r
        (R.setCall p (.sent req))
    | _ => none
  | .appendEntries r p => (w.rounds r).bind fun R =>
    match R.calls p with
    | .sent req =>
      let (x, resp, out) := (w.nodes p).appendEntries req
      let evs := if resp.success then [.accepted p req.term x.log] else []
      some ((w.become p x (evs ++ applied p out)).setRound r (R.setCall p (.answered req resp)))
    | _ => none
  | .countReply r p now => (w.rounds r).bind fun R =>
    match R.calls p with
    | .answered req resp =>
      let R : Round ι :=
        { R.setCall p (.counted req resp) with successCount := R.successCount + 1 }
      let x := w.nodes R.node
      if R.successCount > threshold (cl.peers R.node) then
        some ((w.become R.node { x with leaseTimeout := now + cl.leaseDuration } []).setRound r R)
      else some (w.setRound r R)
    | _ => none
  | .appendReply r p => (w.rounds r).bind fun R =>
    match R.calls p with
    | .counted req resp =>
      let (x, out) := (w.nodes R.node).appendReply R.node (cl.peers R.node) R.term p req resp
      some ((w.become R.node x (applied R.node out)).setRound r (R.setCall p .finished))
    | _ => none
  | .propose n e =>
    let x := w.nodes n
    if x.state = .leader ∧ e.term = x.currentTerm then
      some (w.become n { x with log := x.log ++ [e] } [.proposed n x.currentTerm (x.log ++ [e])])
    else none

/-! ### What a step can do -/

/-- The election after a granted vote was counted. -/
def Election.count (E : Election ι) (p : ι) : Election ι :=
  { E.setCall p .counted with votes := E.votes + 1 }

/-- The round after the reply of peer `p` was counted. -/
def Round.count (R : Round ι) (p : ι) (req : AppendEntriesRequest ι)
    (resp : AppendEntriesResponse) : Round ι :=
  { R.setCall p (.counted req resp) with successCount := R.successCount + 1 }

/-- The cluster after an action, by the branch that is taken. -/
inductive Step (cl : Cluster ι) (w : World ι) : Act ι → World ι → Prop
  | startElection (n : ι) : Step cl w (.startElection n)
      ((w.become n ((w.nodes n).startElection n)
        [.campaigned n ((w.nodes n).currentTerm + 1) (w.nodes n).log,
          .voted n n ((w.nodes n).currentTerm + 1) (w.nodes n).log]).setElection n
            ((w.nodes n).currentTerm + 1) (.start (cl.peers n) n (w.nodes n).log))
  | requestVote (n : ι) (t : ℕ) (p : ι) (hcall : (w.elections n t).calls p = .sent) :
      Step cl w (.requestVote n t p)
        ((w.become p ((w.nodes p).requestVote ((w.elections n t).request n t)).1
          (if ((w.nodes p).requestVote ((w.elections n t).request n t)).2.voteGranted
            then [.voted p n t (w.nodes p).log] else [])).setElection n t
              ((w.elections n t).setCall p
                (.answered ((w.nodes p).requestVote ((w.elections n t).request n t)).2)))
  | voteFinished (n : ι) (t : ℕ) (p : ι) (resp : RequestVoteResponse)
      (hcall : (w.elections n t).calls p = .answered resp) :
      Step cl w (.voteReply n t p) (w.setElection n t ((w.elections n t).setCall p .finished))
  | voteCounted (n : ι) (t : ℕ) (p : ι) (resp : RequestVoteResponse)
      (hcall : (w.elections n t).calls p = .answered resp) (hgranted : resp.voteGranted) :
      Step cl w (.voteReply n t p) (w.setElection n t ((w.elections n t).count p))
  | voteStepDown (n : ι) (t : ℕ) (p : ι) (resp : RequestVoteResponse)
      (hcall : (w.elections n t).calls p = .answered resp)
      (hstate : (w.nodes n).state = .candidate) (hterm : (w.nodes n).currentTerm < resp.term) :
      Step cl w (.voteReply n t p) ((w.become n ((w.nodes n).stepDown resp.term) []).setElection
        n t ((w.elections n t).setCall p .finished))
  | elected (n : ι) (t : ℕ) (p : ι) (resp : RequestVoteResponse)
      (hcall : (w.elections n t).calls p = .answered resp) (hgranted : resp.voteGranted)
      (hstate : (w.nodes n).state = .candidate) (hterm : (w.nodes n).currentTerm = t)
      (hvotes : ((w.elections n t).count p).votes > threshold (cl.peers n)) :
      Step cl w (.voteReply n t p)
        ((w.become n ((w.nodes n).becomeLeader (cl.peers n))
          [.elected n t (((w.elections n t).count p).voters n) (w.nodes n).log]).setElection
            n t ((w.elections n t).count p))
  | notLeader (n : ι) : Step cl w (.sendHeartbeats n) w
  | sendHeartbeats (n : ι) (hstate : (w.nodes n).state = .leader) :
      Step cl w (.sendHeartbeats n)
        { w.setRound w.nextRound (.start (cl.peers n) n (w.nodes n).currentTerm) with
          nextRound := w.nextRound + 1 }
  | buildRequest (r : ℕ) (p : ι) (R : Round ι) (req : AppendEntriesRequest ι)
      (hR : w.rounds r = some R) (hcall : R.calls p = .spawned)
      (hreq : (w.nodes R.node).buildRequest R.node R.term p = some req) :
      Step cl w (.buildRequest r p)
        ((w.become R.node (w.nodes R.node)
          [.sent R.node R.term (w.nodes R.node).log (w.nodes R.node).commitIndex]).setRound r
            (R.setCall p (.sent req)))
  | appendEntries (r : ℕ) (p : ι) (R : Round ι) (req : AppendEntriesRequest ι)
      (hR : w.rounds r = some R) (hcall : R.calls p = .sent req) :
      Step cl w (.appendEntries r p)
        ((w.become p ((w.nodes p).appendEntries req).1
          ((if ((w.nodes p).appendEntries req).2.1.success then
              [.accepted p req.term ((w.nodes p).appendEntries req).1.log] else []) ++
            applied p ((w.nodes p).appendEntries req).2.2)).setRound r
              (R.setCall p (.answered req ((w.nodes p).appendEntries req).2.1)))
  | countReply (r : ℕ) (p : ι) (now : ℕ) (R : Round ι) (req : AppendEntriesRequest ι)
      (resp : AppendEntriesResponse) (hR : w.rounds r = some R)
      (hcall : R.calls p = .answered req resp)
      (hcount : R.successCount + 1 ≤ threshold (cl.peers R.node)) :
      Step cl w (.countReply r p now) (w.setRound r (R.count p req resp))
  | extendLease (r : ℕ) (p : ι) (now : ℕ) (R : Round ι) (req : AppendEntriesRequest ι)
      (resp : AppendEntriesResponse) (hR : w.rounds r = some R)
      (hcall : R.calls p = .answered req resp)
      (hcount : R.successCount + 1 > threshold (cl.peers R.node)) :
      Step cl w (.countReply r p now)
        ((w.become R.node { w.nodes R.node with leaseTimeout := now + cl.leaseDuration }
          []).setRound r (R.count p req resp))
  | appendReply (r : ℕ) (p : ι) (R : Round ι) (req : AppendEntriesRequest ι)
      (resp : AppendEntriesResponse) (hR : w.rounds r = some R)
      (hcall : R.calls p = .counted req resp) :
      Step cl w (.appendReply r p)
        ((w.become R.node
          ((w.nodes R.node).appendReply R.node (cl.peers R.node) R.term p req resp).1
          (applied R.node
            ((w.nodes R.node).appendReply R.node (cl.peers R.node) R.term p req resp).2)).setRound
              r (R.setCall p .finished))
  | propose (n : ι) (e : LogEntry) (hstate : (w.nodes n).state = .leader)
      (hterm : e.term = (w.nodes n).currentTerm) :
      Step cl w (.propose n e)
        (w.become n { w.nodes n with log := (w.nodes n).log ++ [e] }
          [.proposed n (w.nodes n).currentTerm ((w.nodes n).log ++ [e])])

variable {cl : Cluster ι} {w w' : World ι} {a : Act ι}

private theorem voteReply_cases {n p : ι} {t : ℕ} {resp : RequestVoteResponse}
    (hcall : (w.elections n t).calls p = .answered resp) :
    Step cl w (.voteReply n t p) (voteReply cl w n t p resp) := by
  unfold voteReply
  dsimp only
  split
  · exact .voteFinished n t p resp hcall
  · rename_i hcurrent
    obtain ⟨hstate, hterm⟩ : (w.nodes n).state = .candidate ∧ (w.nodes n).currentTerm = t := by
      simpa only [ne_eq, not_or, not_not] using hcurrent
    split
    · exact .voteStepDown n t p resp hcall hstate ‹_›
    · split
      · split
        · exact .elected n t p resp hcall ‹_› hstate hterm ‹_›
        · exact .voteCounted n t p resp hcall ‹_›
      · exact .voteFinished n t p resp hcall

/-- **Every step is one of these.** -/
theorem step_cases (h : step cl w a = some w') : Step cl w a w' := by
  cases a with
  | startElection n =>
    obtain rfl := Option.some.inj h
    exact .startElection n
  | requestVote n t p =>
    simp only [step] at h
    split at h <;> cases h
    exact .requestVote n t p ‹_›
  | voteReply n t p =>
    simp only [step] at h
    split at h <;> cases h
    exact voteReply_cases ‹_›
  | sendHeartbeats n =>
    simp only [step] at h
    split at h <;> cases h
    · exact .sendHeartbeats n ‹_›
    · exact .notLeader n
  | buildRequest r p =>
    obtain ⟨R, hR, h⟩ := Option.bind_eq_some_iff.1 h
    split at h
    · obtain ⟨req, hreq, rfl⟩ := Option.map_eq_some_iff.1 h
      exact .buildRequest r p R req hR ‹_› hreq
    · cases h
  | appendEntries r p =>
    obtain ⟨R, hR, h⟩ := Option.bind_eq_some_iff.1 h
    split at h <;> cases h
    exact .appendEntries r p R _ hR ‹_›
  | countReply r p now =>
    obtain ⟨R, hR, h⟩ := Option.bind_eq_some_iff.1 h
    split at h
    · rename_i req resp hcall
      dsimp only at h
      split at h <;> cases h
      · exact .extendLease r p now R req resp hR hcall ‹_›
      · exact .countReply r p now R req resp hR hcall (Nat.le_of_not_lt ‹_›)
    · cases h
  | appendReply r p =>
    obtain ⟨R, hR, h⟩ := Option.bind_eq_some_iff.1 h
    split at h <;> cases h
    exact .appendReply r p R _ _ hR ‹_›
  | propose n e =>
    simp only [step] at h
    split at h <;> cases h
    rename_i hprop
    exact .propose n e hprop.1 hprop.2

end Stratum.Raft
