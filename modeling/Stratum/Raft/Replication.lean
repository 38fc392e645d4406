import Stratum.Raft.Safety

/-!
# Leaders, and what the nodes send to the application

What holds of the runs of a cluster beyond the safety of single indices.

* `NodeStep x y out` is all that a critical section can do to one node, seen from the application:
  the node goes from `x` to `y` and sends `out`. `step_evolves` finds it in every step.
* **`leader_append_only`**: as long as its term lasts, a leader stays leader and only adds to its
  log.
* **`sent_in_order`**: what a node has sent are the indices `1`, `2`, ... up to `lastApplied`, in
  this order and each of them once. Both hold of every run.

Along the runs whose requests go out as they were built and, when they are accepted, keep what they
must (`Shared.Meets Keeps`):

* **`sent_comparable`**: of what two nodes have sent, one begins the other. This is what makes the
  applications replicas of each other.
* **`leader_completeness`**: an entry that some node has sent is in the log of every later leader.
-/

namespace Stratum.Raft

open Consensus

variable {ι : Type*} {x y z : Node ι} {out : List (ℕ × LogEntry)}

/-- What one node sends with a critical section that takes it from `x` to `y`; and what it keeps. -/
structure NodeStep (x y : Node ι) (out : List (ℕ × LogEntry)) : Prop where
  applied_le : x.lastApplied ≤ y.lastApplied
  sent : out.map Prod.fst = List.range' (x.lastApplied + 1) (y.lastApplied - x.lastApplied)
  term_le : x.currentTerm ≤ y.currentTerm
  leader : x.state = .leader → y.state = .leader → x.log <+: y.log

namespace NodeStep

/-- A critical section that sends nothing. -/
theorem quiet (happlied : y.lastApplied = x.lastApplied) (hterm : x.currentTerm ≤ y.currentTerm)
    (hlog : x.state = .leader → y.state = .leader → x.log <+: y.log) : NodeStep x y [] where
  applied_le := happlied.ge
  sent := by
    rw [happlied, Nat.sub_self]
    rfl
  term_le := hterm
  leader := hlog

theorem refl (x : Node ι) : NodeStep x x [] := quiet rfl le_rfl fun _ _ => List.prefix_rfl

theorem stepDown {t : ℕ} (ht : x.currentTerm ≤ t) : NodeStep x (x.stepDown t) [] :=
  quiet rfl ht nofun

theorem observe (x : Node ι) (t : ℕ) : NodeStep x (x.observe t) [] := by
  rw [Node.observe]
  split
  · exact stepDown (Nat.le_of_lt ‹_›)
  · exact refl x

/-- `applyLog` sends all indices up to the commit index, which the log reaches. -/
theorem applyLog (happlied : y.lastApplied = x.lastApplied)
    (hterm : x.currentTerm ≤ y.currentTerm)
    (hlog : x.state = .leader → y.state = .leader → x.log <+: y.log)
    (hcommit : y.commitIndex < y.log.length) : NodeStep x y.applyLog.1 y.applyLog.2 where
  applied_le := happlied.ge.trans (le_max_left _ _)
  sent := by
    have hlen : y.applyLog.1.lastApplied - x.lastApplied = y.commitIndex - y.lastApplied := by
      change max y.lastApplied y.commitIndex - x.lastApplied = _
      omega
    have hall : ∀ i ∈ List.range' (y.lastApplied + 1) (y.commitIndex - y.lastApplied),
        ((y.log[i]?).map fun e => (i, e)).map Prod.fst = some i := by
      intro i hi
      rw [List.mem_range'_1] at hi
      rw [List.getElem?_eq_getElem (by omega)]
      rfl
    rw [hlen, Node.applyLog, List.map_filterMap, List.filterMap_congr hall, ← happlied]
    exact List.filterMap_some
  term_le := hterm
  leader := hlog

theorem replaceLog {req : AppendEntriesRequest ι} (happlied : y.lastApplied = x.lastApplied)
    (hterm : x.currentTerm ≤ y.currentTerm) (hstate : y.state = .follower)
    (hlen : 0 < y.log.length) : NodeStep x (y.replaceLog req).1 (y.replaceLog req).2 := by
  have hlog : ∀ L : List LogEntry, x.state = .leader → y.state = .leader → x.log <+: L := by
    intro L _ hlead
    rw [hstate] at hlead
    cases hlead
  have hpos : 0 < (y.log.take (req.prevLogIndex + 1) ++ req.entries).length := by
    rw [List.length_append, List.length_take]
    omega
  rw [Node.replaceLog]
  split
  · refine applyLog happlied hterm (hlog _) ?_
    dsimp only
    rw [lastLogIndex]
    split <;> omega
  · exact quiet happlied hterm (hlog _)

theorem appendEntries (hlen : 0 < x.log.length) (req : AppendEntriesRequest ι) :
    NodeStep x (x.appendEntries req).1 (x.appendEntries req).2.2 := by
  have hobserve := observe x req.term
  have happlied : (x.observe req.term).lastApplied = x.lastApplied := by
    rw [Node.observe]
    split <;> rfl
  rcases x.appendEntries_cases req with ⟨-, heq⟩ | ⟨y, rfl, -, ⟨-, heq⟩ | ⟨-, heq⟩⟩
  · rw [heq]
    exact hobserve
  · rw [heq]
    exact quiet happlied hobserve.term_le nofun
  · rw [heq]
    exact replaceLog happlied hobserve.term_le rfl (by simpa using hlen)

section Leader

variable [DecidableEq ι]

theorem requestVote (x : Node ι) (req : RequestVoteRequest ι) :
    NodeStep x (x.requestVote req).1 [] := by
  have hobserve := observe x req.term
  unfold Node.requestVote
  dsimp only
  split
  · exact ⟨hobserve.applied_le, hobserve.sent, hobserve.term_le, hobserve.leader⟩
  · exact hobserve

theorem advanceCommitIndex (happlied : y.lastApplied = x.lastApplied)
    (hterm : y.currentTerm = x.currentTerm) (hlog : y.log = x.log) (n : ι) (peers : List ι) :
    NodeStep x (y.advanceCommitIndex n peers).1 (y.advanceCommitIndex n peers).2 := by
  have hprefix : x.state = .leader → y.state = .leader → x.log <+: y.log :=
    fun _ _ => hlog ▸ List.prefix_rfl
  rw [Node.advanceCommitIndex]
  split
  · rename_i i hfind
    have hmem := List.mem_of_find?_eq_some hfind
    rw [List.mem_reverse, List.mem_range'_1, lastLogIndex] at hmem
    exact applyLog happlied hterm.ge hprefix (by dsimp only; omega)
  · exact quiet happlied hterm.ge hprefix

theorem appendReply (x : Node ι) (n : ι) (peers : List ι) (t : ℕ) (p : ι)
    (req : AppendEntriesRequest ι) (resp : AppendEntriesResponse) :
    NodeStep x (x.appendReply n peers t p req resp).1
      (x.appendReply n peers t p req resp).2 := by
  rw [Node.appendReply]
  split
  · exact refl x
  · split
    · exact stepDown (Nat.le_of_lt ‹_›)
    · split
      · exact @advanceCommitIndex _ x (x.recordMatch p req) _ rfl rfl rfl n peers
      · split
        · exact quiet rfl le_rfl fun _ _ => List.prefix_rfl
        · exact refl x

end Leader

end NodeStep

/-! ### The steps of the cluster -/

section Cluster

variable [DecidableEq ι]

/-- What these events say that node `n` sent, with the indices. -/
def sentBy (n : ι) (evs : List (Event ι LogEntry)) : List (ℕ × LogEntry) :=
  evs.filterMap fun
    | .applied m i e => if m = n then some (i, e) else none
    | _ => none

theorem sentBy_append (n : ι) (evs evs' : List (Event ι LogEntry)) :
    sentBy n (evs ++ evs') = sentBy n evs ++ sentBy n evs' :=
  List.filterMap_append

theorem sentBy_applied (n m : ι) (out : List (ℕ × LogEntry)) :
    sentBy n (applied m out) = if m = n then out else [] := by
  rw [sentBy, applied, List.filterMap_map]
  split
  · exact (List.filterMap_congr fun ie _ => if_pos ‹_›).trans List.filterMap_some
  · exact List.filterMap_eq_nil_iff.mpr fun ie _ => if_neg ‹_›

theorem mem_sentBy {n : ι} {evs : List (Event ι LogEntry)} {i : ℕ} {e : LogEntry} :
    (i, e) ∈ sentBy n evs ↔ .applied n i e ∈ evs := by
  rw [sentBy, List.mem_filterMap]
  constructor
  · rintro ⟨ev, hev, h⟩
    split at h
    · split at h
      · cases h
        subst_vars
        exact hev
      · cases h
    · cases h
  · exact fun h => ⟨_, h, if_pos rfl⟩

/-- What node `n` has sent to `applyCh`, in order. -/
def World.sentTo (w : World ι) (n : ι) : List (ℕ × LogEntry) := sentBy n w.history

/-- The history grows, and every node makes a step with what it says that the node sent. -/
def Evolves (w w' : World ι) : Prop :=
  ∃ evs, w'.history = w.history ++ evs ∧
    ∀ n, NodeStep (w.nodes n) (w'.nodes n) (sentBy n evs)

theorem Evolves.refl (w : World ι) : Evolves w w :=
  ⟨[], (List.append_nil _).symm, fun _ => .refl _⟩

/-- Only one node moves. -/
theorem evolves_become {w : World ι} {n : ι} {x : Node ι} {evs : List (Event ι LogEntry)}
    (hnode : NodeStep (w.nodes n) x (sentBy n evs)) (hothers : ∀ m ≠ n, sentBy m evs = []) :
    Evolves w (w.become n x evs) := by
  refine ⟨evs, rfl, fun m => ?_⟩
  by_cases hm : m = n
  · subst hm
    simpa [World.become] using hnode
  · rw [hothers m hm]
    simpa [World.become, hm] using NodeStep.refl (w.nodes m)

/-- A node that sends goes on. -/
theorem evolves_applied {w : World ι} {n : ι} {x : Node ι} {evs : List (Event ι LogEntry)}
    (hnode : NodeStep (w.nodes n) x out) (hevs : ∀ m, sentBy m evs = []) :
    Evolves w (w.become n x (evs ++ applied n out)) := by
  refine evolves_become ?_ fun m hm => ?_
  · rwa [sentBy_append, hevs, List.nil_append, sentBy_applied, if_pos rfl]
  · rw [sentBy_append, hevs, List.nil_append, sentBy_applied, if_neg (Ne.symm hm)]

variable [Fintype ι] {cl : Cluster ι} {w w' : World ι}

/-- **What a step does to the nodes.** -/
theorem step_evolves (hlen : ∀ n, 0 < (w.nodes n).log.length) {a : Act ι}
    (h : step cl w a = some w') : Evolves w w' := by
  cases step_cases h with
  | startElection n => exact evolves_become (.quiet rfl (Nat.le_succ _) nofun) fun _ _ => rfl
  | requestVote n t p hcall =>
    have hnone : ∀ m, sentBy m (if ((w.nodes p).requestVote
        ((w.elections n t).request n t)).2.voteGranted then
        [.voted p n t (w.nodes p).log] else []) = [] := by
      intro m
      split <;> rfl
    refine evolves_become ?_ fun m _ => hnone m
    rw [hnone]
    exact .requestVote _ _
  | voteFinished | voteCounted | notLeader | sendHeartbeats | countReply => exact .refl w
  | voteStepDown n t p resp _ _ hterm => exact evolves_become (.stepDown hterm.le) fun _ _ => rfl
  | elected | extendLease =>
    exact evolves_become (.quiet rfl le_rfl fun _ _ => List.prefix_rfl) fun _ _ => rfl
  | buildRequest r p R => exact evolves_become (.refl _) fun _ _ => rfl
  | appendEntries r p =>
    refine evolves_applied (.appendEntries (hlen p) _) fun m => ?_
    split <;> rfl
  | appendReply r p R =>
    exact @evolves_applied _ _ _ w R.node _ [] (.appendReply _ _ _ _ _ _ _) fun _ => rfl
  | propose n e =>
    exact evolves_become (.quiet rfl le_rfl fun _ _ => List.prefix_append _ _) fun _ _ => rfl

section Run

variable {tr tr' : List (Act ι)} (h : Machine.run (step cl) .init tr = some w)

include h

/-- A step of a run. -/
theorem evolves_of_run {a : Act ι} (ha : step cl w a = some w') : Evolves w w' := by
  have hlogs := (run_sim_unguarded h).reachable.logs
  exact step_evolves (fun n => List.length_pos_of_ne_nil (hlogs.log n).ne_nil) ha

/-- Along a run the history only grows, and so do the terms. -/
theorem run_grows (h' : Machine.run (step cl) w tr' = some w') :
    w.history <+: w'.history ∧ ∀ n, (w.nodes n).currentTerm ≤ (w'.nodes n).currentTerm := by
  induction tr' generalizing tr w with
  | nil =>
    obtain rfl := Option.some.inj h'
    exact ⟨List.prefix_rfl, fun _ => le_rfl⟩
  | cons a tr' ih =>
    obtain ⟨v, ha, htr⟩ := Machine.run_cons_eq_some.mp h'
    obtain ⟨evs, hhist, hnodes⟩ := evolves_of_run h ha
    obtain ⟨hgrow, hterm⟩ := ih (Machine.run_concat.mpr ⟨w, h, ha⟩) htr
    refine ⟨List.IsPrefix.trans ?_ hgrow, fun n => (hnodes n).term_le.trans (hterm n)⟩
    rw [hhist]
    exact List.prefix_append _ _

/-- A node that leads goes on leading until its term ends. -/
theorem leader_of_term {n : ι} (h' : Machine.run (step cl) w tr' = some w')
    (hlead : (w.nodes n).state = .leader)
    (hterm : (w'.nodes n).currentTerm = (w.nodes n).currentTerm) :
    (w'.nodes n).state = .leader := by
  have hsim := run_sim_unguarded (Machine.run_append.mpr ⟨w, h, h'⟩)
  obtain ⟨V, E, helected⟩ := (run_sim_unguarded h).reachable.elections.leader hlead
  have hlater := (run_grows h h').1.subset helected
  exact (hsim.reachable.elections.elected_term hlater).2 hterm

/-- **A leader only adds to its log**, and stays leader as long as its term lasts. -/
theorem leader_append_only {n : ι} (h' : Machine.run (step cl) w tr' = some w')
    (hlead : (w.nodes n).state = .leader)
    (hterm : (w'.nodes n).currentTerm = (w.nodes n).currentTerm) :
    (w'.nodes n).state = .leader ∧ (w.nodes n).log <+: (w'.nodes n).log := by
  refine ⟨leader_of_term h h' hlead hterm, ?_⟩
  induction tr' generalizing tr w with
  | nil =>
    obtain rfl := Option.some.inj h'
    exact List.prefix_rfl
  | cons a tr' ih =>
    obtain ⟨v, ha, htr⟩ := Machine.run_cons_eq_some.mp h'
    have hv := Machine.run_concat.mpr ⟨w, h, ha⟩
    obtain ⟨evs, -, hnodes⟩ := evolves_of_run h ha
    -- the term does not pass by on the way
    have hle := (run_grows hv htr).2 n
    have hsame : (v.nodes n).currentTerm = (w.nodes n).currentTerm :=
      le_antisymm (hle.trans hterm.le) (hnodes n).term_le
    have hstep : Machine.run (step cl) w [a] = some v := Machine.run_cons_eq_some.mpr ⟨v, ha, rfl⟩
    have hleadv := leader_of_term h hstep hlead hsame
    exact ((hnodes n).leader hlead hleadv).trans (ih hv htr hleadv (hterm.trans hsame.symm))

omit h in
theorem leader_append_only_three :
    ((after (elect 0 1)).nodes 0).log <+:
      ((after (elect 0 1 ++ [.propose 0 entryOld])).nodes 0).log := by
  have hrun : Machine.run (step threeNodes) .init (elect 0 1) = some (after (elect 0 1)) := rfl
  have hrun' : Machine.run (step threeNodes) (after (elect 0 1)) [.propose 0 entryOld] =
      some (after (elect 0 1 ++ [.propose 0 entryOld])) := rfl
  exact (leader_append_only hrun hrun' rfl rfl).2

/-- What a node has sent are the indices up to `lastApplied`. -/
theorem map_fst_sentTo (n : ι) :
    (w.sentTo n).map Prod.fst = List.range' 1 (w.nodes n).lastApplied := by
  induction tr using List.reverseRecOn generalizing w with
  | nil =>
    obtain rfl := Option.some.inj h
    rfl
  | append_singleton tr a ih =>
    obtain ⟨v, hv, ha⟩ := Machine.run_concat.mp h
    obtain ⟨evs, hhist, hnodes⟩ := evolves_of_run hv ha
    have hle := (hnodes n).applied_le
    rw [World.sentTo, hhist, sentBy_append, List.map_append, ← World.sentTo, ih hv,
      (hnodes n).sent, Nat.add_comm, List.range'_append_1, Nat.add_sub_cancel' hle]

/-- The `i`-th that was sent is the entry for index `i`. -/
theorem getElem?_sentTo {n : ι} {k : ℕ} (hk : k < (w.nodes n).lastApplied) :
    ∃ e, (w.sentTo n)[k]? = some (k + 1, e) := by
  have hfst : ((w.sentTo n).map Prod.fst)[k]? = some (k + 1) := by
    rw [map_fst_sentTo h, List.getElem?_range' hk, Nat.add_comm, Nat.one_mul]
  rw [List.getElem?_map] at hfst
  obtain ⟨⟨i, e⟩, hget, rfl⟩ := Option.map_eq_some_iff.mp hfst
  exact ⟨e, hget⟩

/-- What a node sends for an index, it sends once. -/
theorem getElem?_of_sent {n : ι} {i : ℕ} {e : LogEntry} (hsent : w.Sent n i e) :
    (w.sentTo n)[i - 1]? = some (i, e) := by
  obtain ⟨k, hk⟩ := List.mem_iff_getElem?.mp (mem_sentBy.mpr hsent)
  have hlt : k < (w.nodes n).lastApplied := by
    have hlen := congrArg List.length (map_fst_sentTo h n)
    rw [List.length_map, List.length_range'] at hlen
    exact hlen ▸ (List.getElem?_eq_some_iff.mp hk).1
  obtain ⟨e', he'⟩ := getElem?_sentTo h hlt
  obtain ⟨rfl, rfl⟩ := Prod.mk.inj (Option.some.inj (hk.symm.trans he'))
  exact hk

/-- **In order and once each**: what a node has sent to `applyCh` are entries for the indices `1`,
`2`, ... up to `lastApplied`, and for none of them a second one. -/
theorem sent_in_order (n : ι) :
    (w.sentTo n).map Prod.fst = List.range' 1 (w.nodes n).lastApplied ∧
      ∀ i e e', w.Sent n i e → w.Sent n i e' → e = e' := by
  refine ⟨map_fst_sentTo h n, fun i e e' he he' => ?_⟩
  have hsame := (getElem?_of_sent h he).symm.trans (getElem?_of_sent h he')
  exact (Prod.mk.inj (Option.some.inj hsame)).2

omit h in
theorem sent_in_order_replicated : ((after replicated).sentTo 0).map Prod.fst = [1] ∧
    ∀ e, (after replicated).Sent 0 1 e → e = entryOld := by
  have hrun : Machine.run (step threeNodes) .init replicated = some (after replicated) := rfl
  obtain ⟨hfst, honce⟩ := sent_in_order hrun 0
  refine ⟨hfst, fun e he => honce 1 e entryOld he ?_⟩
  unfold World.Sent
  decide

/-- A node that is further on has sent the same before. -/
theorem sentTo_prefix {n m : ι}
    (hle : (w.nodes n).lastApplied ≤ (w.nodes m).lastApplied)
    (hunique : ∀ i e e', w.Sent n i e → w.Sent m i e' → e = e') :
    w.sentTo n <+: w.sentTo m := by
  have hlen : (w.sentTo n).length = (w.nodes n).lastApplied := by
    rw [← List.length_map Prod.fst, map_fst_sentTo h, List.length_range']
  refine List.prefix_iff_getElem?.mpr fun k hk => ?_
  obtain ⟨e, he⟩ := getElem?_sentTo h (hlen ▸ hk)
  obtain ⟨e', he'⟩ := getElem?_sentTo h (lt_of_lt_of_le (hlen ▸ hk) hle)
  have hsame := hunique (k + 1) e e' (mem_sentBy.mp (List.mem_of_getElem? he))
    (mem_sentBy.mp (List.mem_of_getElem? he'))
  rw [← List.getElem?_eq_getElem hk, he, he', hsame]

end Run

/-! ### Runs that keep what they must -/

/-- **The applications are replicas**: of what two nodes have sent to `applyCh`, one begins the
other. -/
theorem sent_comparable {grow : ℕ → ℕ → ℕ} {tr : List (SharedAct ι)} {s : Shared ι}
    (hkeeps : Machine.Guarded (Shared.step cl grow) (Shared.Meets Keeps) .init tr)
    (h : Machine.run (Shared.step cl grow) .init tr = some s) (n m : ι) :
    s.world.sentTo n <+: s.world.sentTo m ∨ s.world.sentTo m <+: s.world.sentTo n := by
  obtain ⟨hguard, hrun⟩ := Shared.run_world hkeeps h
  have hreach := (run_sim (hguard.mono fun _ _ => Keeps.allowed) hrun).reachable
  have hunique : ∀ n m i e e', s.world.Sent n i e → s.world.Sent m i e' → e = e' :=
    fun n m i e e' he he' => hreach.applied_unique (rfl : LogEntry.dummy.term = 0) he he'
  exact (le_total (s.world.nodes n).lastApplied (s.world.nodes m).lastApplied).imp
    (fun hle => sentTo_prefix hrun hle (hunique n m))
    fun hle => sentTo_prefix hrun hle (hunique m n)

theorem sent_comparable_replicated :
    (sharedAfter replicated).world.sentTo 0 = [(1, entryOld)] ∧
      ((sharedAfter replicated).world.sentTo 0 <+: (sharedAfter replicated).world.sentTo 1 ∨
        (sharedAfter replicated).world.sentTo 1 <+: (sharedAfter replicated).world.sentTo 0) :=
  ⟨rfl, sent_comparable keeps_replicated rfl 0 1⟩

/-- **Leader completeness**: what some node has sent to `applyCh` is in the log of every leader
whose term had not passed by then. -/
theorem leader_completeness {grow : ℕ → ℕ → ℕ} {tr tr' : List (SharedAct ι)} {s s' : Shared ι}
    (hkeeps : Machine.Guarded (Shared.step cl grow) (Shared.Meets Keeps) .init (tr ++ tr'))
    (h : Machine.run (Shared.step cl grow) .init tr = some s)
    (h' : Machine.run (Shared.step cl grow) s tr' = some s')
    {n m : ι} {i : ℕ} {e : LogEntry} (hsent : s.world.Sent n i e)
    (hlead : (s'.world.nodes m).state = .leader)
    (hterm : ∀ k, (s.world.nodes k).currentTerm ≤ (s'.world.nodes m).currentTerm) :
    (s'.world.nodes m).log[i]? = some e := by
  obtain ⟨hbefore, hafter⟩ := hkeeps.of_append h
  obtain ⟨hguard, hrun⟩ := Shared.run_world hbefore h
  obtain ⟨hguard', hrun'⟩ := Shared.run_world hkeeps (Machine.run_append.mpr ⟨s, h, h'⟩)
  have hreach := (run_sim (hguard.mono fun _ _ => Keeps.allowed) hrun).reachable
  have hreach' := (run_sim (hguard'.mono fun _ _ => Keeps.allowed) hrun').reachable
  obtain ⟨evs, hhist⟩ := (run_grows hrun (Shared.run_world hafter h').2).1
  have hlogs' := hreach'.logs
  obtain ⟨L, hstable, hL⟩ := hreach.final.applied hsent
  -- a stable log begins the log of the leader
  suffices hpre : L <+: (s'.world.nodes m).log by
    obtain ⟨hi, rfl⟩ := List.getElem?_eq_some_iff.mp hL
    exact List.prefix_iff_getElem?.mp hpre i hi
  rcases hstable with rfl | ⟨t, P, hP, hLP⟩
  · exact (hlogs'.log m).1
  refine hLP.trans ?_
  obtain ⟨k, hk⟩ := hP.1
  obtain ⟨V, E, hE, -⟩ := hreach.logs.proposed_elected hk
  have ht : t ≤ (s'.world.nodes m).currentTerm :=
    (hreach.elections.elected_term hE).1.trans (hterm k)
  have hk' : Event.proposed k t P ∈ s'.world.history := hhist ▸ List.mem_append_left _ hk
  rcases ht.lt_or_eq with hlt | rfl
  · obtain ⟨V', E', hE'⟩ := hreach'.elections.leader hlead
    have hstill : Committed s'.world.history t P := hhist ▸ hP.append
    have hcarried := hreach'.carried (rfl : LogEntry.dummy.term = 0)
    exact (hcarried.complete hE' hk' hlt hstill.choosable).trans (hlogs'.leader_elected hlead hE')
  · exact hlogs'.proposed_prefix_leader hreach'.elections hlead hk'

/-- Node `1` has the entry that node `0` has sent, and is elected with the vote of node `2`. -/
theorem leader_completeness_replicated : ∃ s, Machine.run (Shared.step threeNodes doubled)
    (sharedAfter replicated)
      [.run (.startElection 1), .run (.requestVote 1 2 2), .run (.voteReply 1 2 2)] = some s ∧
      (s.world.nodes 1).state = .leader ∧ (s.world.nodes 1).log[1]? = some entryOld := by
  have hkeeps : Machine.Guarded (Shared.step threeNodes doubled) (Shared.Meets Keeps) .init
      (encodedAtOnce replicated ++
        [.run (.startElection 1), .run (.requestVote 1 2 2), .run (.voteReply 1 2 2)]) := by
    refine keeps_replicated.append fun t _ => Machine.guarded_of_forall_mem fun a ha s => ?_
    simp only [List.mem_cons, List.not_mem_nil, or_false] at ha
    rcases ha with rfl | rfl | rfl <;>
    · refine ⟨trivial, ?_⟩
      rintro _ ⟨⟩
      trivial
  have hsent : (sharedAfter replicated).world.Sent 0 1 entryOld := by
    unfold World.Sent
    decide
  exact ⟨_, rfl, rfl, leader_completeness hkeeps rfl rfl hsent rfl (by decide)⟩

end Cluster

end Stratum.Raft
