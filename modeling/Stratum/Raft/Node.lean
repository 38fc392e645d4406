import Mathlib.Logic.Function.Basic
import Stratum.Lib.ByteCodec
import Stratum.Lib.Consensus.Protocol

/-!
# A Raft node

The critical sections of `Node`, each as a function of the node's fields: the two RPC handlers,
the start of an election, and what is done with the replies. A function returns the node after
it, the response where there is one, and what was sent to `applyCh`, each entry with its index.

The log starts with a dummy entry at index `0`, so entries are numbered from `1`. Terms and
indices are natural numbers. `AppendEntries` replaces **everything** behind `PrevLogIndex` by the
entries of the request, also when they say less than the log already has.
-/

namespace Stratum.Raft

open Consensus (Role)

variable {ι : Type*}

/-- `pb.LogEntry`. -/
structure LogEntry where
  term : ℕ
  index : ℕ
  data : Bytes
deriving DecidableEq, Repr

/-- The entry that makes the log 1-indexed. -/
def LogEntry.dummy : LogEntry := ⟨0, 0, []⟩

/-- `pb.RequestVoteRequest`. -/
structure RequestVoteRequest (ι : Type*) where
  term : ℕ
  candidateId : ι
  lastLogIndex : ℕ
  lastLogTerm : ℕ

/-- `pb.RequestVoteResponse`. -/
structure RequestVoteResponse where
  term : ℕ
  voteGranted : Bool
deriving DecidableEq, Repr

/-- `pb.AppendEntriesRequest`. -/
structure AppendEntriesRequest (ι : Type*) where
  term : ℕ
  leaderId : ι
  prevLogIndex : ℕ
  prevLogTerm : ℕ
  entries : List LogEntry
  leaderCommit : ℕ

/-- `pb.AppendEntriesResponse`. -/
structure AppendEntriesResponse where
  term : ℕ
  success : Bool
deriving DecidableEq, Repr

/-- The fields of `Node` that its critical sections read and write. An empty `votedFor` is
`none`; a missing key of the two maps reads as `0`. -/
structure Node (ι : Type*) where
  state : Role
  currentTerm : ℕ
  votedFor : Option ι
  leaseTimeout : ℕ
  commitIndex : ℕ
  lastApplied : ℕ
  log : List LogEntry
  nextIndex : ι → ℕ
  matchIndex : ι → ℕ

/-- `NewNode`. -/
def Node.newNode : Node ι :=
  ⟨.follower, 0, none, 0, 0, 0, [.dummy], fun _ => 0, fun _ => 0⟩

/-- The term of the entry at index `i`, if the log reaches that far. -/
def termAt (log : List LogEntry) (i : ℕ) : Option ℕ :=
  (log[i]?).map LogEntry.term

/-- `len(n.log) - 1`. -/
def lastLogIndex (log : List LogEntry) : ℕ :=
  log.length - 1

/-- The term of the last entry. -/
def lastLogTerm (log : List LogEntry) : ℕ :=
  (termAt log (lastLogIndex log)).getD 0

/-- `(len(cfg.Peers)+1)/2`: what a count must exceed. -/
def threshold (peers : List ι) : ℕ :=
  (peers.length + 1) / 2

namespace Node

/-- `stepDown`. -/
def stepDown (n : Node ι) (term : ℕ) : Node ι :=
  { n with currentTerm := term, state := .follower, votedFor := none }

/-- How both handlers begin: a request of a later term makes the node step down. -/
def observe (n : Node ι) (term : ℕ) : Node ι :=
  if term > n.currentTerm then n.stepDown term else n

/-- The critical section of `startElection`. -/
def startElection (n : Node ι) (id : ι) : Node ι :=
  { n with state := .candidate, currentTerm := n.currentTerm + 1, votedFor := some id }

/-- `becomeLeader`, up to the first heartbeats. -/
def becomeLeader [DecidableEq ι] (n : Node ι) (peers : List ι) : Node ι :=
  { n with
    state := .leader
    nextIndex := fun p => if p ∈ peers then n.log.length else n.nextIndex p
    matchIndex := fun p => if p ∈ peers then 0 else n.matchIndex p }

/-- The candidate's log is at least as recent as this one. -/
def UpToDate (req : RequestVoteRequest ι) (log : List LogEntry) : Prop :=
  req.lastLogTerm > lastLogTerm log ∨
    req.lastLogTerm = lastLogTerm log ∧ req.lastLogIndex ≥ lastLogIndex log

instance (req : RequestVoteRequest ι) (log : List LogEntry) : Decidable (UpToDate req log) :=
  inferInstanceAs (Decidable (_ ∨ _))

/-- `RequestVote`. -/
def requestVote [DecidableEq ι] (n : Node ι) (req : RequestVoteRequest ι) :
    Node ι × RequestVoteResponse :=
  let n := n.observe req.term
  if req.term = n.currentTerm ∧ (n.votedFor = none ∨ n.votedFor = some req.candidateId) ∧
      UpToDate req n.log then
    ({ n with votedFor := some req.candidateId }, ⟨n.currentTerm, true⟩)
  else (n, ⟨n.currentTerm, false⟩)

/-- `applyLog`: the entries from `lastApplied + 1` to `commitIndex` are sent in order. -/
def applyLog (n : Node ι) : Node ι × List (ℕ × LogEntry) :=
  ({ n with lastApplied := max n.lastApplied n.commitIndex },
    (List.range' (n.lastApplied + 1) (n.commitIndex - n.lastApplied)).filterMap
      fun i => (n.log[i]?).map fun e => (i, e))

/-- `AppendEntries` on a request that passed all checks. -/
def replaceLog (n : Node ι) (req : AppendEntriesRequest ι) : Node ι × List (ℕ × LogEntry) :=
  let n := { n with log := n.log.take (req.prevLogIndex + 1) ++ req.entries }
  if req.leaderCommit > n.commitIndex then
    let commitIndex := if req.leaderCommit < lastLogIndex n.log then req.leaderCommit
      else lastLogIndex n.log
    ({ n with commitIndex := commitIndex } : Node ι).applyLog
  else (n, [])

/-- `AppendEntries`. -/
def appendEntries (n : Node ι) (req : AppendEntriesRequest ι) :
    Node ι × AppendEntriesResponse × List (ℕ × LogEntry) :=
  let n := n.observe req.term
  if req.term < n.currentTerm then (n, ⟨n.currentTerm, false⟩, [])
  else
    let n := { n with state := .follower }
    if termAt n.log req.prevLogIndex = some req.prevLogTerm then
      ((n.replaceLog req).1, ⟨n.currentTerm, true⟩, (n.replaceLog req).2)
    else (n, ⟨n.currentTerm, false⟩, [])

/-- One plus the number of other peers whose `matchIndex` has reached `i`. -/
def matchCount [DecidableEq ι] (n : Node ι) (id : ι) (peers : List ι) (i : ℕ) : ℕ :=
  1 + (peers.filter fun p => p ≠ id ∧ n.matchIndex p ≥ i).length

/-- What `advanceCommitIndex` looks for, from the end of the log downwards. -/
def CanCommit [DecidableEq ι] (n : Node ι) (id : ι) (peers : List ι) (i : ℕ) : Prop :=
  n.matchCount id peers i > threshold peers ∧ termAt n.log i = some n.currentTerm

instance [DecidableEq ι] (n : Node ι) (id : ι) (peers : List ι) (i : ℕ) :
    Decidable (n.CanCommit id peers i) :=
  inferInstanceAs (Decidable (_ ∧ _))

/-- `advanceCommitIndex`. -/
def advanceCommitIndex [DecidableEq ι] (n : Node ι) (id : ι) (peers : List ι) :
    Node ι × List (ℕ × LogEntry) :=
  match (List.range' (n.commitIndex + 1) (lastLogIndex n.log - n.commitIndex)).reverse.find?
      fun i => n.CanCommit id peers i with
  | some i => ({ n with commitIndex := i } : Node ι).applyLog
  | none => (n, [])

/-- What the per-peer goroutine of `sendHeartbeats` does with a reply, in its last critical
section; `term` is the term of the round. -/
def appendReply [DecidableEq ι] (n : Node ι) (id : ι) (peers : List ι) (term : ℕ) (p : ι)
    (req : AppendEntriesRequest ι) (resp : AppendEntriesResponse) :
    Node ι × List (ℕ × LogEntry) :=
  if n.state ≠ .leader ∨ n.currentTerm ≠ term then (n, [])
  else if resp.term > n.currentTerm then (n.stepDown resp.term, [])
  else if resp.success then
    let matched := req.prevLogIndex + req.entries.length
    ({ n with
        matchIndex := Function.update n.matchIndex p matched
        nextIndex := Function.update n.nextIndex p (matched + 1) } : Node ι).advanceCommitIndex
      id peers
  else if n.nextIndex p > 1 then
    ({ n with nextIndex := Function.update n.nextIndex p (n.nextIndex p - 1) }, [])
  else (n, [])

/-- The request that the per-peer goroutine of `sendHeartbeats` builds from what it reads under
the lock; an index out of range stops the process. It has the entries as they are at this moment;
the slice that the source puts there instead, and what is sent of it, are in `Raft.Shared`. -/
def buildRequest (n : Node ι) (id : ι) (term : ℕ) (p : ι) : Option (AppendEntriesRequest ι) :=
  if 1 ≤ n.nextIndex p ∧ n.nextIndex p ≤ n.log.length then
    some ⟨term, id, n.nextIndex p - 1, (termAt n.log (n.nextIndex p - 1)).getD 0,
      n.log.drop (n.nextIndex p), n.commitIndex⟩
  else none

end Node

end Stratum.Raft
