import Stratum.Raft.Refinement

/-!
# Every run of the cluster is a run of the protocol

`Sim` is kept by each critical section (`Sim.step`), under a condition `Allowed G` on the
requests that are accepted, and hence along every run (`run_sim`). Two claims about the code are
then read off the protocol, both without any condition:

* **`elected_unique`**: at most one node becomes leader in a term;
* **`log_matching`**: logs with an entry of the same term at the same index agree up to it.

The quorums are counted as the code counts them: a vote count or a match count above
`(len(Peers)+1)/2` is a majority of the cluster, whether or not a node lists itself as a peer
(`Cluster.majority`).
-/

namespace Stratum.Raft

open Consensus

variable {ι : Type*} [DecidableEq ι] [Fintype ι] {G : Peer ι LogEntry → List LogEntry → Prop}
  {cl : Cluster ι} {w w' : World ι} {n p : ι} {t r : ℕ} {x : Node ι} {R : Round ι}

/-! ### Quorums -/

omit [DecidableEq ι] [Fintype ι] in
/-- Every other node is a peer. -/
theorem Cluster.mem_peers (cl : Cluster ι) (h : p ≠ n) : p ∈ cl.peers n := by
  rcases cl.complete with hother | hall
  · exact (hother n p).2 h
  · exact hall n p

/-- More than `(len(Peers)+1)/2` nodes are a majority. -/
theorem Cluster.majority (cl : Cluster ι) {Q : Finset ι}
    (h : threshold (cl.peers n) < Q.card) : Majority Q := by
  have hcard : Fintype.card ι ≤ (cl.peers n).length + 1 := by
    have huniv : (Finset.univ : Finset ι) ⊆ insert n (cl.peers n).toFinset := by
      intro p _
      by_cases hp : p = n
      · exact Finset.mem_insert.2 (.inl hp)
      · exact Finset.mem_insert_of_mem (List.mem_toFinset.2 (cl.mem_peers hp))
    calc Fintype.card ι = (Finset.univ : Finset ι).card := Finset.card_univ.symm
      _ ≤ (insert n (cl.peers n).toFinset).card := Finset.card_le_card huniv
      _ ≤ (cl.peers n).toFinset.card + 1 := Finset.card_insert_le _ _
      _ ≤ (cl.peers n).length + 1 := by
        have := (cl.peers n).toFinset_card_le
        omega
  unfold threshold at h
  unfold Majority
  omega

/-- The nodes that a match count counts. -/
def matchedBy (x : Node ι) (n : ι) (peers : List ι) (i : ℕ) : Finset ι :=
  insert n (peers.filter fun p => p ≠ n ∧ x.matchIndex p ≥ i).toFinset

omit [Fintype ι] in
theorem card_matchedBy (cl : Cluster ι) (x : Node ι) (n : ι) (i : ℕ) :
    (matchedBy x n (cl.peers n) i).card = x.matchCount n (cl.peers n) i := by
  have hnot : n ∉ ((cl.peers n).filter fun p => p ≠ n ∧ x.matchIndex p ≥ i).toFinset := by
    simp
  have hnodup : ((cl.peers n).filter fun p => p ≠ n ∧ x.matchIndex p ≥ i).Nodup :=
    (cl.nodup n).filter _
  rw [matchedBy, Finset.card_insert_of_notMem hnot, List.toFinset_card_of_nodup hnodup,
    Node.matchCount, add_comm]

variable {s : State ι LogEntry} {resp : AppendEntriesResponse} {m : ι} {L : List LogEntry}
  {tr : List (Act ι)}

/-- What a leader may commit, a majority has held in its term. -/
theorem MatchOk.committed (he : Elections LogEntry.term s) (hg : Logs LogEntry.term .dummy s)
    (hs : s.peers n = x.abs) (hstate : x.state = .leader) (hm : MatchOk s.history n x) {i : ℕ}
    (hpos : 0 < i) (hi : i < x.log.length) (hcan : x.CanCommit n (cl.peers n) i) :
    Committed s.history x.currentTerm (x.log.take (i + 1)) := by
  obtain ⟨hcount, hterm⟩ := hcan
  obtain ⟨e, hentry, heterm⟩ := Option.map_eq_some_iff.1 hterm
  have htake : x.log.take (i + 1) = x.log.take i ++ [e] := by
    rw [List.take_add_one, hentry]
    rfl
  have hlen : (x.log.take (i + 1)).length = i + 1 := by
    rw [List.length_take]
    omega
  have hcanon : Canon LogEntry.term .dummy s.history x.log := by
    have := hg.log n
    rwa [hs] at this
  obtain ⟨m, hmade⟩ : ∃ m, .proposed m x.currentTerm (x.log.take (i + 1)) ∈ s.history := by
    rw [htake, ← heterm]
    refine hcanon.2 _ _ (htake ▸ List.take_prefix _ _) ?_
    exact List.ne_nil_of_length_pos (by rw [List.length_take]; omega)
  refine ⟨⟨m, hmade⟩, matchedBy x n (cl.peers n) i, ?_, fun q hq => ?_⟩
  · exact cl.majority (by rw [card_matchedBy]; exact hcount)
  · rcases Finset.mem_insert.1 hq with rfl | hq
    · -- the leader made it itself
      obtain ⟨V, E, hE⟩ := he.leader (n := q) (by rw [hs]; exact hstate)
      rw [hs] at hE
      obtain ⟨V', E', hE', -⟩ := hg.proposed_elected hmade
      obtain rfl := he.elected_unique hE hE'
      exact ⟨_, .inr hmade, List.prefix_rfl⟩
    · have hq := List.mem_filter.1 (List.mem_toFinset.1 hq)
      simp only [ne_eq, ge_iff_le, decide_eq_true_eq] at hq
      exact (hm hstate q hq.2.1).2 m _ hmade (by omega)

/-! ### Elections -/

theorem Sim.startElection (h : Sim G w) :
    Sim G ((w.become n ((w.nodes n).startElection n)
      [.campaigned n ((w.nodes n).currentTerm + 1) (w.nodes n).log,
        .voted n n ((w.nodes n).currentTerm + 1) (w.nodes n).log]).setElection n
          ((w.nodes n).currentTerm + 1) (.start (cl.peers n) n (w.nodes n).log)) := by
  have hnode := h.become (Node.startElection_moves (s := w.abs) (n := n) rfl) (by simp)
    fun hlead => by cases hlead
  refine hnode.setElection ⟨fun p => ?_, Nat.le_add_right _ _⟩
  by_cases hp : p ∈ cl.peers n ∧ p ≠ n
  · have hcall : (Election.start (cl.peers n) n (w.nodes n).log).calls p = .sent := if_pos hp
    rw [hcall]
    exact ⟨hp.2, _, List.mem_append_right _ List.mem_cons_self, rfl, rfl⟩
  · have hcall : (Election.start (cl.peers n) n (w.nodes n).log).calls p = .idle := if_neg hp
    rw [hcall]
    trivial

omit [Fintype ι] in
/-- A node that leads after `RequestVote` led before, and only its vote may have changed. -/
theorem Node.requestVote_leader {req : RequestVoteRequest ι}
    (h : (x.requestVote req).1.state = .leader) :
    x.state = .leader ∧ (x.requestVote req).1.matchIndex = x.matchIndex ∧
      (x.requestVote req).1.log = x.log ∧ (x.requestVote req).1.currentTerm = x.currentTerm := by
  have hobs : (x.observe req.term).state = .leader → x.observe req.term = x := by
    unfold Node.observe
    split
    · intro h
      cases h
    · exact fun _ => rfl
  unfold Node.requestVote at h ⊢
  dsimp only at h ⊢
  split at h
  · next hgrant =>
    have hsame := hobs h
    rw [if_pos hgrant, hsame]
    exact ⟨hsame ▸ h, rfl, rfl, rfl⟩
  · next hgrant =>
    have hsame := hobs h
    rw [if_neg hgrant, hsame]
    exact ⟨hsame ▸ h, rfl, rfl, rfl⟩

theorem Sim.requestVote (h : Sim G w) (hcall : (w.elections n t).calls p = .sent) :
    Sim G ((w.become p ((w.nodes p).requestVote ((w.elections n t).request n t)).1
      (if ((w.nodes p).requestVote ((w.elections n t).request n t)).2.voteGranted
        then [.voted p n t (w.nodes p).log] else [])).setElection n t
          ((w.elections n t).setCall p
            (.answered ((w.nodes p).requestVote ((w.elections n t).request n t)).2))) := by
  have hvote := (h.elections n t).calls p
  rw [hcall] at hvote
  obtain ⟨hne, C, hC, hidx, hterm⟩ := hvote
  have hlogs := h.reachable.logs
  have hmoves := Node.requestVote_moves (G := G) (s := w.abs) (n := p) (x := w.nodes p) rfl
    ((w.elections n t).request n t) hC (hlogs.recorded hC rfl).ne_nil (hlogs.log p).ne_nil
    hidx hterm
  have hnone : ∀ m t' P, ¬ Event.proposed m t' P ∈
      (if ((w.nodes p).requestVote ((w.elections n t).request n t)).2.voteGranted
        then [Event.voted p n t (w.nodes p).log] else []) := by
    intro m t' P hmem
    split at hmem <;> simp at hmem
  have hnode := h.become hmoves (fun m t' P hP => absurd hP (hnone m t' P))
    ((h.matched p).of_same Node.requestVote_leader hnone)
  have hnot : (w.elections n t).calls p ≠ .counted := by
    rw [hcall]
    simp
  refine hnode.setElection ((hnode.elections n t).setCall hnot (by simp) ⟨hne, fun hg => ?_⟩)
  refine ⟨(w.nodes p).log, List.mem_append_right _ ?_⟩
  rw [if_pos hg]
  exact List.mem_singleton_self _

private theorem Sim.elect (h : Sim G w) {resp : RequestVoteResponse}
    (hcall : (w.elections n t).calls p = .answered resp) (hgranted : resp.voteGranted)
    (hstate : (w.nodes n).state = .candidate) (hterm : (w.nodes n).currentTerm = t)
    (hvotes : ((w.elections n t).count p).votes > threshold (cl.peers n)) :
    Sim G ((w.become n ((w.nodes n).becomeLeader (cl.peers n))
      [.elected n t (((w.elections n t).count p).voters n) (w.nodes n).log]).setElection n t
        ((w.elections n t).count p)) := by
  subst hterm
  have hcount := (h.elections n _).count hcall hgranted
  have he := h.reachable.elections
  have hlogs := h.reachable.logs
  have hself := he.campaigned_voted (he.candidate (n := n) hstate)
  obtain ⟨hcard, hvoted⟩ := hcount.voters ⟨_, hself⟩
  have hmove : Local LogEntry.term G w.abs n ((w.nodes n).becomeLeader (cl.peers n)).abs _ :=
    .elect hstate (cl.majority (hvotes.trans_le hcard)) hvoted
  have hnode := h.become hmove.moves (by simp) fun _ q hq => ?_
  · exact hnode.setElection ((hnode.elections n _).count hcall hgranted)
  · -- nothing is matched yet, and nothing was made in this term
    have hzero : ((w.nodes n).becomeLeader (cl.peers n)).matchIndex q = 0 :=
      if_pos (cl.mem_peers hq)
    rw [hzero]
    refine ⟨List.length_pos_of_ne_nil (hlogs.log n).ne_nil, fun m P hP hlen => ?_⟩
    have hold : .proposed m (w.nodes n).currentTerm P ∈ w.history :=
      (List.mem_append.1 hP).resolve_right (by simp)
    exact absurd (hlogs.proposed_last hold).1 (by omega)

/-- The goroutine of a peer is done with the election, and its vote does not count. -/
private theorem Sim.finishVote (h : Sim G w) {resp : RequestVoteResponse}
    (hcall : (w.elections n t).calls p = .answered resp) :
    Sim G (w.setElection n t ((w.elections n t).setCall p .finished)) := by
  have hnot : (w.elections n t).calls p ≠ .counted := by simp [hcall]
  exact h.setElection ((h.elections n t).setCall hnot (by simp) trivial)

/-! ### Heartbeats -/

theorem Sim.sendHeartbeats (h : Sim G w) (cl : Cluster ι) (hstate : (w.nodes n).state = .leader) :
    Sim G (w.setRound r (.start (cl.peers n) n (w.nodes n).currentTerm)) := by
  refine h.setRound ⟨h.reachable.elections.leader (n := n) hstate, fun p => ?_⟩
  by_cases hp : p ∈ cl.peers n ∧ p ≠ n
  · have hcall : (Round.start (cl.peers n) n (w.nodes n).currentTerm).calls p = .spawned :=
      if_pos hp
    rw [hcall]
    exact hp.2
  · have hcall : (Round.start (cl.peers n) n (w.nodes n).currentTerm).calls p = .idle := if_neg hp
    rw [hcall]
    trivial

variable {req : AppendEntriesRequest ι}

omit [DecidableEq ι] [Fintype ι] in
/-- A request stands for the log it was built from. -/
theorem Node.buildRequest_built {h : List (Event ι LogEntry)}
    (hbuild : x.buildRequest n t p = some req) (hsent : .sent n t x.log x.commitIndex ∈ h) :
    Built h n t req x.log := by
  unfold Node.buildRequest at hbuild
  split at hbuild
  · next hrange =>
    obtain rfl := Option.some.inj hbuild
    have hlt : x.nextIndex p - 1 < x.log.length := by omega
    refine ⟨hsent, rfl, hlt, ?_, ?_⟩
    · rw [termAt, List.getElem?_eq_getElem hlt]
      rfl
    · rw [Nat.sub_add_cancel hrange.1]
  · cases hbuild

theorem Sim.buildRequest (h : Sim G w) (hR : w.rounds r = some R) (hcall : R.calls p = .spawned)
    (hreq : (w.nodes R.node).buildRequest R.node R.term p = some req) :
    Sim G ((w.become R.node (w.nodes R.node)
      [.sent R.node R.term (w.nodes R.node).log (w.nodes R.node).commitIndex]).setRound r
        (R.setCall p (.sent req))) := by
  obtain ⟨V, E, hE⟩ := (h.rounds r R hR).elected
  have hne := (h.rounds r R hR).calls p
  rw [hcall] at hne
  have hmove : Local LogEntry.term G w.abs R.node (w.nodes R.node).abs _ := .send hE
  have hnode := h.become hmove.moves (by simp)
    ((h.matched R.node).of_same (fun hlead => ⟨hlead, rfl, rfl, rfl⟩) (by simp))
  exact hnode.setRound ((hnode.rounds r R hR).setCall ⟨hne, _, Node.buildRequest_built hreq
    (List.mem_append_right _ (List.mem_singleton_self _))⟩)

omit [DecidableEq ι] [Fintype ι] in
/-- **The log after an accepted request is the log its sender had.** -/
theorem Built.newLog_eq (hg : Logs LogEntry.term .dummy s) (hb : Built s.history m t req L)
    (hcanon : Canon LogEntry.term .dummy s.history x.log) (hacc : x.Accepts req) :
    x.newLog req = L := by
  obtain ⟨hsent, -, -, hprev, hentries⟩ := hb
  obtain ⟨e, he, heterm⟩ := Option.map_eq_some_iff.1 hacc.2
  obtain ⟨e', he', heterm'⟩ := Option.map_eq_some_iff.1 hprev
  have htake := hg.matching hcanon (hg.recorded hsent rfl) he he' (heterm.trans heterm'.symm)
  rw [Node.newLog, htake, hentries, List.take_append_drop]

omit [DecidableEq ι] [Fintype ι] in
/-- A node that leads after `AppendEntries` was not changed by it. -/
theorem Node.appendEntries_leader (h : (x.appendEntries req).1.state = .leader) :
    x.state = .leader ∧ (x.appendEntries req).1.matchIndex = x.matchIndex ∧
      (x.appendEntries req).1.log = x.log ∧
        (x.appendEntries req).1.currentTerm = x.currentTerm := by
  rcases Node.appendEntries_cases x req with ⟨hlt, heq⟩ | ⟨y, hy, -, ⟨-, heq⟩ | ⟨-, heq⟩⟩
  · have hobs : x.observe req.term = x := if_neg (Nat.not_lt.2 hlt.le)
    rw [heq, hobs] at h ⊢
    exact ⟨h, rfl, rfl, rfl⟩
  · rw [heq, hy] at h
    cases h
  · have hstate : (y.replaceLog req).1.state = y.state := by
      unfold Node.replaceLog
      dsimp only
      split <;> rfl
    rw [heq, hstate, hy] at h
    cases h

/-- What a request that is accepted must satisfy for the protocol's guard. -/
def Allowed (G : Peer ι LogEntry → List LogEntry → Prop) (x : Node ι)
    (req : AppendEntriesRequest ι) : Prop :=
  x.Accepts req → ∀ q : Peer ι LogEntry, q.log = x.log → q.commit = x.commitIndex →
    G q (x.newLog req)

omit [DecidableEq ι] [Fintype ι] in
/-- Handing over entries makes none. -/
theorem not_proposed_applied {out : List (ℕ × LogEntry)} {P : List LogEntry} :
    ¬ Event.proposed m t P ∈ applied n out := by
  simp [applied]

theorem Sim.appendEntries (h : Sim G w) (hR : w.rounds r = some R) (hcall : R.calls p = .sent req)
    (hallowed : Allowed G (w.nodes p) req) :
    Sim G ((w.become p ((w.nodes p).appendEntries req).1
      ((if ((w.nodes p).appendEntries req).2.1.success then
          [.accepted p req.term ((w.nodes p).appendEntries req).1.log] else []) ++
        applied p ((w.nodes p).appendEntries req).2.2)).setRound r
          (R.setCall p (.answered req ((w.nodes p).appendEntries req).2.1))) := by
  have hok := (h.rounds r R hR).calls p
  rw [hcall] at hok
  obtain ⟨hne, L, hbuilt⟩ := hok
  have hlogs := h.reachable.logs
  have hnew : (w.nodes p).Accepts req → (w.nodes p).newLog req = L :=
    fun hacc => hbuilt.newLog_eq hlogs (hlogs.log p) hacc
  have hmoves := Node.appendEntries_moves (G := G) (s := w.abs) (n := p) (x := w.nodes p) rfl
    hne.symm (hbuilt.2.1 ▸ hbuilt.1) hnew (fun hacc => hnew hacc ▸ hallowed hacc)
  have hnone : ∀ m t' P, ¬ Event.proposed m t' P ∈
      (if ((w.nodes p).appendEntries req).2.1.success then
          [Event.accepted p req.term ((w.nodes p).appendEntries req).1.log] else []) ++
        applied p ((w.nodes p).appendEntries req).2.2 := by
    intro m t' P hmem
    rcases List.mem_append.1 hmem with hmem | hmem
    · split at hmem <;> simp at hmem
    · exact not_proposed_applied hmem
  have hnode := h.become hmoves (fun m t' P hP => absurd hP (hnone m t' P))
    ((h.matched p).of_same Node.appendEntries_leader hnone)
  refine hnode.setRound ((hnode.rounds r R hR).setCall ⟨hne, L, ?_, fun hs => ?_⟩)
  · exact ⟨List.mem_append_left _ hbuilt.1, hbuilt.2⟩
  · -- a successful reply was given after the sender's log was taken over
    refine List.mem_append_right _ (List.mem_append_left _ ?_)
    rw [if_pos hs, hbuilt.2.1, List.mem_singleton]
    rcases Node.appendEntries_cases (w.nodes p) req with
      ⟨-, heq⟩ | ⟨y, hy, -, ⟨-, heq⟩ | ⟨hacc, heq⟩⟩
    · rw [heq] at hs
      cases hs
    · rw [heq] at hs
      cases hs
    · have hylog : y.newLog req = (w.nodes p).newLog req := by
        rw [Node.newLog, Node.newLog, hy]
        exact congrArg (List.take _ · ++ _) (Node.observe_log _ _)
      rw [heq, Node.replaceLog_log, hylog, hnew hacc]

theorem Sim.countReply (h : Sim G w) (hR : w.rounds r = some R)
    (hcall : R.calls p = .answered req resp) (k lease : ℕ) :
    Sim G (w.setRound r { R.setCall p (.counted req resp) with successCount := k }) ∧
      Sim G ((w.become R.node { w.nodes R.node with leaseTimeout := lease } []).setRound r
        { R.setCall p (.counted req resp) with successCount := k }) := by
  have hok := (h.rounds r R hR).calls p
  rw [hcall] at hok
  have hround := (h.rounds r R hR).setCall (c := .counted req resp) hok
  have hnode := h.become (x := { w.nodes R.node with leaseTimeout := lease })
    (Moves.refl (s := w.abs) (n := R.node)) (by simp)
    ((h.matched R.node).of_same (fun hlead => ⟨hlead, rfl, rfl, rfl⟩) (by simp))
  refine ⟨h.setRound ⟨hround.elected, hround.calls⟩, hnode.setRound ?_⟩
  have hround' := (hnode.rounds r R hR).setCall (c := .counted req resp)
    (hok.mono (List.subset_append_left _ _))
  exact ⟨hround'.elected, hround'.calls⟩

/-- A successful reply of the leader's own term says what the peer has held. -/
theorem MatchOk.recordMatch (h : Sim G w) (hstate : (w.nodes n).state = .leader)
    (hb : Built w.history n (w.nodes n).currentTerm req L)
    (hacc : .accepted p (w.nodes n).currentTerm L ∈ w.history) :
    MatchOk w.history n ((w.nodes n).recordMatch p req) := by
  intro _ q hq
  by_cases hqp : q = p
  · subst hqp
    obtain ⟨hsent, -, hprev, -, hentries⟩ := hb
    have hlogs := h.reachable.logs
    have hpre : L <+: (w.nodes n).log := hlogs.sent_prefix (n := n) hsent rfl
    have hmatch : ((w.nodes n).recordMatch q req).matchIndex q + 1 = L.length := by
      simp only [Node.recordMatch, Function.update_self, hentries, List.length_drop]
      omega
    refine ⟨?_, fun m P hP hlen => ⟨L, .inl hacc, ?_⟩⟩
    · have hle : L.length ≤ ((w.nodes n).recordMatch q req).log.length := hpre.length_le
      omega
    · have hPpre : P <+: (w.nodes n).log :=
        hlogs.proposed_prefix_leader h.reachable.elections (n := n) hstate hP
      exact List.prefix_of_prefix_length_le hPpre hpre (hmatch ▸ hlen)
  · have hsame : ((w.nodes n).recordMatch p req).matchIndex q = (w.nodes n).matchIndex q :=
      Function.update_of_ne hqp _ _
    rw [hsame]
    exact h.matched n hstate q hq

omit [Fintype ι] in
/-- Advancing the commit index leaves everything else. -/
theorem Node.advanceCommitIndex_same (x : Node ι) (n : ι) (peers : List ι) :
    (x.advanceCommitIndex n peers).1.state = x.state ∧
      (x.advanceCommitIndex n peers).1.matchIndex = x.matchIndex ∧
        (x.advanceCommitIndex n peers).1.log = x.log ∧
          (x.advanceCommitIndex n peers).1.currentTerm = x.currentTerm := by
  unfold Node.advanceCommitIndex
  split <;> exact ⟨rfl, rfl, rfl, rfl⟩

omit [Fintype ι] in
/-- A reply is recorded as a match, or a node that leads after it is what it was. -/
theorem Node.appendReply_cases (x : Node ι) (n : ι) (peers : List ι) (t : ℕ) (p : ι)
    (req : AppendEntriesRequest ι) (resp : AppendEntriesResponse) :
    (x.state = .leader ∧ x.currentTerm = t ∧ resp.success ∧
        x.appendReply n peers t p req resp = (x.recordMatch p req).advanceCommitIndex n peers) ∨
      ((x.appendReply n peers t p req resp).1.state = .leader →
        x.state = .leader ∧ (x.appendReply n peers t p req resp).1.matchIndex = x.matchIndex ∧
          (x.appendReply n peers t p req resp).1.log = x.log ∧
            (x.appendReply n peers t p req resp).1.currentTerm = x.currentTerm) := by
  unfold Node.appendReply
  split
  · exact .inr fun hlead => ⟨hlead, rfl, rfl, rfl⟩
  · next hnot =>
    obtain ⟨hstate, hterm⟩ : x.state = .leader ∧ x.currentTerm = t := by
      simpa only [ne_eq, not_or, not_not] using hnot
    split
    · right
      intro hlead
      cases hlead
    · split
      · next hs => exact .inl ⟨hstate, hterm, hs, rfl⟩
      · right
        split <;> exact fun hlead => ⟨hlead, rfl, rfl, rfl⟩

theorem Sim.appendReply (h : Sim G w) (hR : w.rounds r = some R)
    (hcall : R.calls p = .counted req resp) :
    Sim G ((w.become R.node
      ((w.nodes R.node).appendReply R.node (cl.peers R.node) R.term p req resp).1
      (applied R.node
        ((w.nodes R.node).appendReply R.node (cl.peers R.node) R.term p req resp).2)).setRound r
          (R.setCall p .finished)) := by
  have hok := (h.rounds r R hR).calls p
  rw [hcall] at hok
  obtain ⟨-, L, hbuilt, hacc⟩ := hok
  have hrecord : (w.nodes R.node).state = .leader → (w.nodes R.node).currentTerm = R.term →
      resp.success → MatchOk w.history R.node ((w.nodes R.node).recordMatch p req) := by
    intro hstate hterm hs
    rw [← hterm] at hbuilt hacc
    exact MatchOk.recordMatch h hstate hbuilt (hacc hs)
  have hmoves := Node.appendReply_moves (G := G) (s := w.abs) (n := R.node) (x := w.nodes R.node)
    rfl (cl.peers R.node) R.term p req resp
    fun hstate hterm hs i hpos hi hcan =>
      MatchOk.committed (x := (w.nodes R.node).recordMatch p req) (s := w.abs)
        h.reachable.elections h.reachable.logs rfl hstate (hrecord hstate hterm hs) hpos hi hcan
  have hnone : ∀ m t' P, ¬ Event.proposed m t' P ∈ applied R.node
      ((w.nodes R.node).appendReply R.node (cl.peers R.node) R.term p req resp).2 :=
    fun _ _ _ => not_proposed_applied
  have hmatch : MatchOk (w.history ++ applied R.node
      ((w.nodes R.node).appendReply R.node (cl.peers R.node) R.term p req resp).2) R.node
      ((w.nodes R.node).appendReply R.node (cl.peers R.node) R.term p req resp).1 := by
    rcases (w.nodes R.node).appendReply_cases R.node (cl.peers R.node) R.term p req resp with
      ⟨hstate, hterm, hs, heq⟩ | hsame
    · rw [heq] at hnone ⊢
      obtain ⟨h₁, h₂, h₃, h₄⟩ :=
        ((w.nodes R.node).recordMatch p req).advanceCommitIndex_same R.node (cl.peers R.node)
      exact (hrecord hstate hterm hs).of_same (fun hlead => ⟨h₁ ▸ hlead, h₂, h₃, h₄⟩) hnone
    · exact (h.matched R.node).of_same hsame hnone
  have hnode := h.become hmoves (fun m t' P hP => absurd hP (hnone m t' P)) hmatch
  exact hnode.setRound ((hnode.rounds r R hR).setCall trivial)

/-! ### Proposals -/

theorem Sim.propose (h : Sim G w) {e : LogEntry} (hstate : (w.nodes n).state = .leader)
    (hterm : e.term = (w.nodes n).currentTerm) :
    Sim G (w.become n { w.nodes n with log := (w.nodes n).log ++ [e] }
      [.proposed n (w.nodes n).currentTerm ((w.nodes n).log ++ [e])]) := by
  have hmove : Local LogEntry.term G w.abs n
      ({ w.nodes n with log := (w.nodes n).log ++ [e] } : Node ι).abs _ := .propose hstate hterm
  refine h.become hmove.moves
    (fun m t P hP => (Event.proposed.inj (List.mem_singleton.1 hP)).1) fun _ q hq => ?_
  obtain ⟨hlt, hacked⟩ := h.matched n hstate q hq
  refine ⟨?_, fun m P hP hlen => ?_⟩
  · simp only [List.length_append, List.length_singleton]
    omega
  · rcases List.mem_append.1 hP with hP | hP
    · obtain ⟨L, hL, hpre⟩ := hacked m P hP hlen
      exact ⟨L, hL.imp (List.mem_append_left _) (List.mem_append_left _), hpre⟩
    · -- the new log is longer than what any peer has matched
      obtain ⟨-, -, rfl⟩ := Event.proposed.inj (List.mem_singleton.1 hP)
      simp only [List.length_append, List.length_singleton] at hlen
      omega

/-! ### Runs -/

/-- The condition on a step: a request that is accepted passes the protocol's guard. -/
def AllowedAct (G : Peer ι LogEntry → List LogEntry → Prop) (w : World ι) : Act ι → Prop
  | .appendEntries r p => ∀ R req, w.rounds r = some R → R.calls p = .sent req →
      Allowed G (w.nodes p) req
  | _ => True

/-- **Every critical section is a series of moves of the protocol.** -/
theorem Sim.step (h : Sim G w) {a : Act ι} (hallowed : AllowedAct G w a)
    (hstep : step cl w a = some w') : Sim G w' := by
  cases step_cases hstep with
  | startElection n => exact h.startElection
  | requestVote n t p hcall => exact h.requestVote hcall
  | voteFinished n t p resp hcall => exact h.finishVote hcall
  | voteCounted n t p resp hcall hgranted =>
    exact h.setElection ((h.elections n t).count hcall hgranted)
  | voteStepDown n t p resp hcall hstate hterm =>
    have hnode := h.become (Node.stepDown_moves (s := w.abs) (n := n) rfl hterm) (by simp)
      fun hlead => by cases hlead
    exact hnode.finishVote hcall
  | elected n t p resp hcall hgranted hstate hterm hvotes =>
    exact h.elect hcall hgranted hstate hterm hvotes
  | notLeader n => exact h
  | sendHeartbeats n hstate =>
    have hround := h.sendHeartbeats cl (r := w.nextRound) hstate
    exact ⟨hround.reachable, hround.elections, hround.rounds, hround.matched⟩
  | buildRequest r p R req hR hcall hreq => exact h.buildRequest hR hcall hreq
  | appendEntries r p R req hR hcall =>
    exact h.appendEntries hR hcall (hallowed R req hR hcall)
  | countReply r p now R req resp hR hcall hcount => exact (h.countReply hR hcall _ 0).1
  | extendLease r p now R req resp hR hcall hcount => exact (h.countReply hR hcall _ _).2
  | appendReply r p R req resp hR hcall => exact h.appendReply hR hcall
  | propose n e hstate hterm => exact h.propose hstate hterm

/-- Every run whose accepted requests pass the guard is a run of the protocol. -/
theorem run_sim (hguard : Machine.Guarded (step cl) (AllowedAct G) .init tr)
    (h : Machine.run (step cl) .init tr = some w) : Sim G w :=
  Machine.run_guarded_invariant (I := Sim G) (fun _ _ _ hs hg hstep => hs.step hg hstep) .init
    hguard h

/-- Without a guard, every run is one. -/
theorem run_sim_unguarded (h : Machine.run (step cl) .init tr = some w) :
    Sim (fun _ _ => True) w := by
  refine run_sim (Machine.guarded_of_forall_mem fun a _ v => ?_) h
  cases a with
  | appendEntries r p => exact fun _ _ _ _ _ _ _ _ => trivial
  | _ => trivial

end Stratum.Raft
