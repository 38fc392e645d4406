import Mathlib.Data.Fintype.Basic
import Stratum.Lib.Consensus.Safety
import Stratum.Raft.Shared
import Stratum.Raft.Simulation

/-!
# Election safety, log matching and state machine safety

For every cluster, every list of actions and every state it leads to, at most one node becomes
leader in a term (**`becameLeader_unique`**). The other two do not hold as they stand.

**Log matching** holds as long as every request goes out as it was built (`Shared.Unwritten`), also
when it was built from a log read after the sender had stepped down (**`log_matching`**). A request
shares the array of its sender's log until it is encoded. In `logs_differ` the sender takes over an
entry of a later leader in between, in place: the request then carries that entry in front of an old
one, and its receiver gets a log that nobody had.

**State machine safety** does not even hold then. `AppendEntries` cuts the log behind `PrevLogIndex`
whatever the request says, so a request that was built before the leader appended, and arrives
after a later one, takes back entries that the leader has counted towards a commit. In
`sent_differently` another node is then elected without the committed entry, and both send
their own entry for index `1`.

`Node.Keeps` is what an accepted request has to respect: it drops entries only where it
contradicts one of them, and none up to the commit index. Along every run in which all accepted
requests do, and go out as they were built, no two nodes send different entries for an index
(**`sent_unique`**). The second half is not implied by the first: a goroutine may publish, under the
term of its round, a log that the node took over in a later term.
-/

namespace Stratum.Raft

open Consensus

variable {ι : Type*}

/-- `becomeLeader` was called on node `n` in term `t`. -/
def World.BecameLeader (w : World ι) (n : ι) (t : ℕ) : Prop :=
  ∃ voters log, .elected n t voters log ∈ w.history

/-- Node `n` has sent `e` to `applyCh` for index `i`. -/
def World.Sent (w : World ι) (n : ι) (i : ℕ) (e : LogEntry) : Prop :=
  .applied n i e ∈ w.history

/-- A request that is accepted drops entries only where it contradicts one of them, and keeps the
log up to the commit index. -/
def Node.Keeps (x : Node ι) (req : AppendEntriesRequest ι) : Prop :=
  x.Accepts req →
    (x.log <+: x.newLog req ∨ ∃ i, i < x.log.length ∧ i < (x.newLog req).length ∧
      x.log[i]? ≠ (x.newLog req)[i]?) ∧
    x.log.take (x.commitIndex + 1) <+: x.newLog req

/-- The condition on a step: a request that is handled keeps what it must. -/
def Keeps (w : World ι) : Act ι → Prop
  | .appendEntries r p => ∀ R req, w.rounds r = some R → R.calls p = .sent req →
      (w.nodes p).Keeps req
  | _ => True

variable [DecidableEq ι] [Fintype ι]

/-- **Election safety.** -/
theorem becameLeader_unique (cl : Cluster ι) (tr : List (Act ι)) (w : World ι)
    (h : Machine.run (step cl) .init tr = some w) (n m : ι) (t : ℕ)
    (hn : w.BecameLeader n t) (hm : w.BecameLeader m t) : n = m := by
  obtain ⟨V, L, hn⟩ := hn
  obtain ⟨V', L', hm⟩ := hm
  exact (run_sim_unguarded h).reachable.elections.elected_unique hn hm

/-- **Log matching**, along the runs whose requests go out as they were built. -/
theorem log_matching (cl : Cluster ι) (grow : ℕ → ℕ → ℕ) (tr : List (SharedAct ι)) (s : Shared ι)
    (hbuilt : Machine.Guarded (Shared.step cl grow) Shared.Unwritten .init tr)
    (h : Machine.run (Shared.step cl grow) .init tr = some s) (n m : ι) (i : ℕ) (e e' : LogEntry)
    (he : (s.world.nodes n).log[i]? = some e) (he' : (s.world.nodes m).log[i]? = some e')
    (hterm : e.term = e'.term) :
    (s.world.nodes n).log.take (i + 1) = (s.world.nodes m).log.take (i + 1) := by
  have hmeets : Machine.Guarded (Shared.step cl grow) (Shared.Meets fun _ _ => True) .init tr :=
    hbuilt.mono fun _ _ hun => ⟨hun, fun _ _ => trivial⟩
  have hrun := (Shared.run_world hmeets h).2
  have hlogs := (run_sim_unguarded hrun).reachable.logs
  exact hlogs.matching (hlogs.log n) (hlogs.log m) he he' hterm

omit [DecidableEq ι] [Fintype ι] in
/-- The condition on a step is the protocol's guard. -/
theorem Keeps.allowed {w : World ι} {a : Act ι} (h : Keeps w a) : AllowedAct Kept w a := by
  cases a with
  | appendEntries r p =>
    intro R req hR hcall hacc q hlog hcommit
    have hkeeps := h R req hR hcall hacc
    rw [Kept, hlog, hcommit]
    exact hkeeps
  | _ => trivial

/-- **State machine safety**, along the runs whose requests go out as they were built and, when
they are accepted, keep what they must. -/
theorem sent_unique (cl : Cluster ι) (grow : ℕ → ℕ → ℕ) (tr : List (SharedAct ι)) (s : Shared ι)
    (hkeeps : Machine.Guarded (Shared.step cl grow) (Shared.Meets Keeps) .init tr)
    (h : Machine.run (Shared.step cl grow) .init tr = some s) (n m : ι) (i : ℕ) (e e' : LogEntry)
    (hn : s.world.Sent n i e) (hm : s.world.Sent m i e') : e = e' := by
  obtain ⟨hguard, hrun⟩ := Shared.run_world hkeeps h
  have hsim := run_sim (hguard.mono fun _ _ => Keeps.allowed) hrun
  have hdummy : LogEntry.dummy.term = 0 := rfl
  exact hsim.reachable.applied_unique hdummy hn hm

/-! ### Three nodes -/

/-- Three nodes, each with the two others as peers. -/
def threeNodes : Cluster (Fin 3) where
  peers n := (List.finRange 3).filter (· ≠ n)
  leaseDuration := 1
  nodup n := (List.nodup_finRange 3).filter _
  complete := .inl fun n p => by simp

/-- The state after a run of three nodes. -/
def after (tr : List (Act (Fin 3))) : World (Fin 3) :=
  (Machine.run (step threeNodes) .init tr).getD .init

/-- Node `n` is elected in term `t` with the vote of node `1`. -/
def elect (n : Fin 3) (t : ℕ) : List (Act (Fin 3)) :=
  [.startElection n, .requestVote n t 1, .voteReply n t 1]

/-- Round `r` takes the log of node `n` to node `1`, which acknowledges it. -/
def replicate (n : Fin 3) (r : ℕ) : List (Act (Fin 3)) :=
  [.sendHeartbeats n, .buildRequest r 1, .appendEntries r 1, .countReply r 1 0, .appendReply r 1]

/-- The first entry that node `0` proposes. -/
def entryOld : LogEntry := ⟨1, 1, [1]⟩

/-- The first entry that node `2` proposes. -/
def entryNew : LogEntry := ⟨2, 1, [2]⟩

theorem becameLeader_unique_three :
    (after (elect 0 1)).BecameLeader 0 1 ∧ ∀ n, (after (elect 0 1)).BecameLeader n 1 → n = 0 := by
  have hrun : Machine.run (step threeNodes) .init (elect 0 1) = some (after (elect 0 1)) := rfl
  have hlead : (after (elect 0 1)).BecameLeader 0 1 := ⟨{0, 1}, [.dummy], by decide⟩
  exact ⟨hlead, fun n hn => becameLeader_unique threeNodes _ _ hrun n 0 1 hn hlead⟩

/-- Node `0` is elected, proposes an entry and replicates it to node `1`. -/
def replicated : List (Act (Fin 3)) :=
  elect 0 1 ++ [.propose 0 entryOld] ++ replicate 0 0

/-- The capacity is doubled, if that is enough. -/
def doubled (capacity length : ℕ) : ℕ := max (2 * capacity) length

/-- Every request is encoded as soon as it is built. -/
def encodedAtOnce {ι : Type*} (tr : List (Act ι)) : List (SharedAct ι) :=
  tr.flatMap fun
    | .buildRequest r p => [.run (.buildRequest r p), .encode r p]
    | a => [.run a]

/-- The state after such a run of three nodes. -/
def sharedAfter (tr : List (Act (Fin 3))) : Shared (Fin 3) :=
  (Machine.run (Shared.step threeNodes doubled) .init (encodedAtOnce tr)).getD .init

/-- The one request of the run extends the log of node `1`. -/
theorem keeps_replicated : Machine.Guarded (Shared.step threeNodes doubled) (Shared.Meets Keeps)
    .init (encodedAtOnce replicated) := by
  have hfree : ∀ (s : Shared (Fin 3)) (a : Act (Fin 3)), (∀ w, Keeps w a) →
      s.Meets Keeps (.run a) := by
    rintro s a h
    refine ⟨trivial, ?_⟩
    rintro _ ⟨⟩
    exact h _
  refine .cons rfl (hfree _ _ fun _ => trivial) <| .cons rfl (hfree _ _ fun _ => trivial) <|
    .cons rfl (hfree _ _ fun _ => trivial) <| .cons rfl (hfree _ _ fun _ => trivial) <|
    .cons rfl (hfree _ _ fun _ => trivial) <| .cons rfl (hfree _ _ fun _ => trivial) <|
    .cons rfl ⟨?_, nofun⟩ <| .cons rfl ⟨trivial, ?_⟩ <| .cons rfl (hfree _ _ fun _ => trivial) <|
    .cons rfl (hfree _ _ fun _ => trivial) trivial
  · intro R req hR hcall
    cases hR
    cases hcall
    rfl
  · rintro _ ⟨⟩ R req hR hcall
    cases hR
    cases hcall
    exact fun _ => ⟨.inl ⟨[entryOld], rfl⟩, ⟨[entryOld], rfl⟩⟩

theorem log_matching_replicated :
    ((sharedAfter replicated).world.nodes 0).log[1]? = some entryOld ∧
      ((sharedAfter replicated).world.nodes 0).log.take 2 =
        ((sharedAfter replicated).world.nodes 1).log.take 2 :=
  ⟨rfl, log_matching threeNodes doubled _ _ (keeps_replicated.mono fun _ _ => And.left) rfl 0 1 1
    entryOld entryOld rfl rfl rfl⟩

theorem sent_unique_replicated :
    (sharedAfter replicated).world.Sent 0 1 entryOld ∧
      ∀ n e, (sharedAfter replicated).world.Sent n 1 e → e = entryOld := by
  have hsent : (sharedAfter replicated).world.Sent 0 1 entryOld := by
    unfold World.Sent
    decide
  exact ⟨hsent, fun n e he =>
    sent_unique threeNodes doubled _ _ keeps_replicated rfl n 0 1 e entryOld he hsent⟩

/-- Node `0` is elected and builds a request for node `1` that says nothing; it proposes an
entry, replicates it to node `1` and commits it. The first request then arrives at node `1`, which
drops the entry and votes for node `2` in term `2`. -/
def overtaken : List (Act (Fin 3)) :=
  elect 0 1 ++ [.sendHeartbeats 0, .buildRequest 0 1] ++ [.propose 0 entryOld] ++
    replicate 0 1 ++ [.appendEntries 0 1] ++ [.startElection 2] ++ elect 2 2 ++
      [.propose 2 entryNew] ++ replicate 2 2

/-- **Two nodes send different entries for one index.** -/
theorem sent_differently : ∃ s,
    Machine.run (Shared.step threeNodes doubled) .init (encodedAtOnce overtaken) = some s ∧
      s.world.Sent 0 1 entryOld ∧ s.world.Sent 2 1 entryNew ∧ entryOld ≠ entryNew := by
  refine ⟨sharedAfter overtaken, rfl, ?_, ?_, by decide⟩
  · unfold World.Sent
    decide
  · unfold World.Sent
    decide

/-! ### Seven nodes -/

/-- Seven nodes, each with the others as peers. -/
def sevenNodes : Cluster (Fin 7) where
  peers n := (List.finRange 7).filter (· ≠ n)
  leaseDuration := 1
  nodup n := (List.nodup_finRange 7).filter _
  complete := .inl fun n p => by simp

/-- Node `n` is elected in term `t` with the votes of `voters`. -/
def electBy (n : Fin 7) (t : ℕ) (voters : List (Fin 7)) : List (Act (Fin 7)) :=
  voters.map (.requestVote n t) ++ voters.map (.voteReply n t)

/-- The second entry that node `0` proposes. -/
def entryNext : LogEntry := ⟨1, 2, [3]⟩

/-- Node `0` proposes two entries in term `1`, replicates them to node `3`, and builds a request for
node `5`. Node `6` is elected in term `2` without them, proposes an entry and replicates it to node
`0`. Only then the request for node `5` is encoded; it arrives there in term `1`. -/
def rewritten : List (SharedAct (Fin 7)) :=
  encodedAtOnce (.startElection 0 :: electBy 0 1 [1, 2, 3] ++
      [.propose 0 entryOld, .propose 0 entryNext, .sendHeartbeats 0, .buildRequest 0 3,
        .appendEntries 0 3]) ++
    .run (.buildRequest 0 5) :: encodedAtOnce (.startElection 6 :: .startElection 6 ::
      electBy 6 2 [1, 2, 4] ++
        [.propose 6 entryNew, .sendHeartbeats 6, .buildRequest 1 0, .appendEntries 1 0]) ++
    [.encode 0 5, .run (.appendEntries 0 5)]

/-- **Two logs have the same entry at index `2`, and different ones at index `1`.** -/
theorem logs_differ : ∃ s,
    Machine.run (Shared.step sevenNodes doubled) .init rewritten = some s ∧
      (s.world.nodes 3).log = [.dummy, entryOld, entryNext] ∧
      (s.world.nodes 5).log = [.dummy, entryNew, entryNext] ∧ entryOld ≠ entryNew :=
  ⟨_, rfl, rfl, rfl, by decide⟩

end Stratum.Raft
