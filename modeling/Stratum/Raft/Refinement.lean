import Stratum.Lib.Consensus.Logs
import Stratum.Raft.Cluster

/-!
# The cluster refines the abstract protocol

A node seen through `Node.abs` is a peer of `Lib.Consensus`, and the cluster seen through
`World.abs` is a state of that protocol. Every critical section is a series of the protocol's
moves at one peer (`Node.requestVote_moves`, `Node.appendEntries_moves`,
`Node.appendReply_moves`, ...).

`Sim` adds what the goroutines know: a vote reply stands for a vote, a vote count for that many
voters, a request for a log its sender had, a successful reply for that log at the peer, and
`matchIndex` for what the peer has held in the term. `Sim.step` keeps it, so every run of the
cluster is a run of the protocol (`run_sim`).

**The log after an accepted request is the log its sender had** when it built the request: the
entry at `PrevLogIndex` has the term of the sender's, so the two agree up to it by log matching,
and the rest is the request's.
-/

namespace Stratum.Raft

open Consensus

variable {ι : Type*}

/-- A node as a peer of the protocol. -/
def Node.abs (x : Node ι) : Peer ι LogEntry :=
  ⟨x.state, x.currentTerm, x.votedFor, x.log, x.commitIndex⟩

/-- The cluster as a state of the protocol. -/
def World.abs (w : World ι) : State ι LogEntry :=
  ⟨fun n => (w.nodes n).abs, w.history⟩

theorem lastLogTerm_eq (log : List LogEntry) :
    lastLogTerm log = lastTerm LogEntry.term log := by
  rw [lastLogTerm, termAt, lastLogIndex, lastTerm, List.getLast?_eq_getElem?]

namespace Node

/-! ### Critical sections as moves -/

section Moves

@[simp] theorem observe_log (x : Node ι) (t : ℕ) : (x.observe t).log = x.log := by
  unfold observe stepDown
  split <;> rfl

@[simp] theorem observe_commitIndex (x : Node ι) (t : ℕ) :
    (x.observe t).commitIndex = x.commitIndex := by
  unfold observe stepDown
  split <;> rfl

theorem observe_currentTerm (x : Node ι) (t : ℕ) :
    (x.observe t).currentTerm = max x.currentTerm t := by
  unfold observe stepDown
  split
  · next hlt => exact (max_eq_right (Nat.le_of_lt hlt)).symm
  · next hge => exact (max_eq_left (Nat.le_of_not_gt hge)).symm

/-- What `applyLog` sends is in the log, up to the commit index. -/
theorem of_mem_applyLog {x : Node ι} {i : ℕ} {e : LogEntry} (h : (i, e) ∈ x.applyLog.2) :
    i ≤ x.commitIndex ∧ x.log[i]? = some e := by
  simp only [applyLog, List.mem_filterMap, List.mem_range'_1, Option.map_eq_some_iff,
    Prod.mk.injEq] at h
  obtain ⟨j, ⟨hlo, hhi⟩, e', he', rfl, rfl⟩ := h
  exact ⟨by omega, he'⟩

variable [DecidableEq ι] [Fintype ι] {G : Peer ι LogEntry → List LogEntry → Prop}
  {s : State ι LogEntry} {n m : ι} {x : Node ι} {L : List LogEntry}

/-- A later term is a move. -/
theorem stepDown_moves (hs : s.peers n = x.abs) {t : ℕ} (ht : x.currentTerm < t) :
    Moves LogEntry.term G s n (x.stepDown t).abs [] := by
  have hmove : Local LogEntry.term G s n _ [] :=
    .adopt (t := t) (by rw [hs]; exact ht)
  rw [hs] at hmove
  exact hmove.moves

/-- What both handlers do first is a move, or nothing. -/
theorem observe_moves (hs : s.peers n = x.abs) (t : ℕ) :
    Moves LogEntry.term G s n (x.observe t).abs [] := by
  unfold observe
  split
  · exact stepDown_moves hs (by omega)
  · exact hs ▸ Moves.refl

/-- The start of an election is a move. -/
theorem startElection_moves (hs : s.peers n = x.abs) :
    Moves LogEntry.term G s n (x.startElection n).abs
      [.campaigned n (x.currentTerm + 1) x.log, .voted n n (x.currentTerm + 1) x.log] := by
  have hmove : Local LogEntry.term G s n _ _ := .campaign
  rw [hs] at hmove
  exact hmove.moves

omit [DecidableEq ι] [Fintype ι] in
/-- A candidate's request is up to date when the log it stands for is. -/
theorem UpToDate.abs {req : RequestVoteRequest ι} {C log : List LogEntry}
    (h : UpToDate req log) (hC : C ≠ []) (hlog : log ≠ [])
    (hidx : req.lastLogIndex = lastLogIndex C) (hterm : req.lastLogTerm = lastLogTerm C) :
    Consensus.UpToDate LogEntry.term C log := by
  have hCpos := List.length_pos_of_ne_nil hC
  have hpos := List.length_pos_of_ne_nil hlog
  unfold UpToDate at h
  rw [hidx, hterm, lastLogTerm_eq, lastLogTerm_eq, lastLogIndex, lastLogIndex] at h
  exact h.imp id (And.imp id fun h => by omega)

/-- `RequestVote` is a series of moves: learning of the term, and the vote if it is granted. -/
theorem requestVote_moves (hs : s.peers n = x.abs) (req : RequestVoteRequest ι)
    {C : List LogEntry} (hcamp : .campaigned req.candidateId req.term C ∈ s.history)
    (hC : C ≠ []) (hlog : x.log ≠ []) (hidx : req.lastLogIndex = lastLogIndex C)
    (hterm : req.lastLogTerm = lastLogTerm C) :
    Moves LogEntry.term G s n (x.requestVote req).1.abs
      (if (x.requestVote req).2.voteGranted then [.voted n req.candidateId req.term x.log]
        else []) := by
  obtain ⟨y, hy⟩ : ∃ y, x.observe req.term = y := ⟨_, rfl⟩
  have hobs : Moves LogEntry.term G s n y.abs [] := hy ▸ observe_moves hs req.term
  have hylog : y.log = x.log := hy ▸ observe_log x req.term
  by_cases hgrant : req.term = y.currentTerm ∧
      (y.votedFor = none ∨ y.votedFor = some req.candidateId) ∧ UpToDate req y.log
  · have heq : x.requestVote req =
        ({ y with votedFor := some req.candidateId }, ⟨y.currentTerm, true⟩) := by
      rw [← hy] at hgrant ⊢
      exact if_pos hgrant
    obtain ⟨hnow, hfree, hup⟩ := hgrant
    have hrecent := hup.abs hC (hylog ▸ hlog) hidx hterm
    rw [hnow] at hcamp
    have hpeer := s.peers_set_self n y.abs []
    have hmove : Local LogEntry.term G (s.set n y.abs []) n _ _ :=
      .grant (c := req.candidateId) (C := C)
        (by rw [hpeer]; exact List.mem_append_left _ hcamp)
        (by rw [hpeer]; exact hfree) (by rw [hpeer]; exact hrecent)
    rw [hpeer] at hmove
    rw [heq, hnow, ← hylog]
    exact hobs.trans hmove.moves
  · have heq : x.requestVote req = (y, ⟨y.currentTerm, false⟩) := by
      rw [← hy] at hgrant ⊢
      exact if_neg hgrant
    rw [heq]
    exact hobs

/-- Entries that are in the log up to the commit index may be sent. -/
theorem applied_moves (hs : s.peers n = x.abs) {out : List (ℕ × LogEntry)}
    (hout : ∀ i e, (i, e) ∈ out → i ≤ x.commitIndex ∧ x.log[i]? = some e) :
    Moves LogEntry.term G s n x.abs (applied n out) := by
  induction out generalizing s with
  | nil => exact hs ▸ Moves.refl
  | cons ie out ih =>
    obtain ⟨i, e⟩ := ie
    obtain ⟨hle, hentry⟩ := hout i e List.mem_cons_self
    have hmove : Local LogEntry.term G s n _ _ :=
      .apply (i := i) (e := e) (by rw [hs]; exact hle) (by rw [hs]; exact hentry)
    rw [hs] at hmove
    exact hmove.moves.trans
      (ih (s.peers_set_self _ _ _) fun j e' h => hout j e' (List.mem_cons_of_mem _ h))

/-- `applyLog` is a series of moves. -/
theorem applyLog_moves (hs : s.peers n = x.abs) :
    Moves LogEntry.term G s n x.applyLog.1.abs (applied n x.applyLog.2) :=
  applied_moves hs fun _ _ => of_mem_applyLog

/-- The log after an accepted request. -/
def newLog (x : Node ι) (req : AppendEntriesRequest ι) : List LogEntry :=
  x.log.take (req.prevLogIndex + 1) ++ req.entries

/-- Replacing the log is a series of moves, when the new log is the one that was published. -/
theorem replaceLog_moves (hs : s.peers n = x.abs) {req : AppendEntriesRequest ι}
    (hstate : x.state = .follower) (hother : m ≠ n) (hnew : x.newLog req = L)
    (hsent : .sent m x.currentTerm L req.leaderCommit ∈ s.history) (hguard : G x.abs L) :
    Moves LogEntry.term G s n (x.replaceLog req).1.abs
      (.accepted n x.currentTerm L :: applied n (x.replaceLog req).2) := by
  let y : Node ι := { x with log := L }
  have haccept : Moves LogEntry.term G s n y.abs [.accepted n x.currentTerm L] := by
    have hmove : Local LogEntry.term G s n _ _ :=
      .accept (m := m) (L := L) (c := req.leaderCommit) (by rw [hs]; exact hstate) hother
        (by rw [hs]; exact hsent) (by rw [hs]; exact hguard)
    rw [hs] at hmove
    exact hmove.moves
  have hpeer := s.peers_set_self n y.abs [.accepted n x.currentTerm L]
  unfold newLog at hnew
  unfold replaceLog
  simp only [hnew]
  split
  · -- the commit index follows the sender's
    next hcommit =>
    let z : Node ι := { y with commitIndex := min req.leaderCommit (lastLogIndex L) }
    have hz : (if req.leaderCommit < lastLogIndex L then req.leaderCommit else lastLogIndex L) =
        min req.leaderCommit (lastLogIndex L) := by
      split <;> omega
    rw [hz]
    have hlearn :
        Moves LogEntry.term G (s.set n y.abs [.accepted n x.currentTerm L]) n z.abs [] := by
      have hmove : Local LogEntry.term G (s.set n y.abs [.accepted n x.currentTerm L]) n _ _ :=
        .learn (m := m) (c := req.leaderCommit)
          (by rw [hpeer]; exact List.mem_append_left _ hsent)
      rw [hpeer] at hmove
      exact hmove.moves
    exact haccept.trans (hlearn.trans (applyLog_moves (x := z) (State.peers_set_self _ _ _ _)))
  · exact haccept

omit [DecidableEq ι] [Fintype ι] in
theorem replaceLog_log (x : Node ι) (req : AppendEntriesRequest ι) :
    (x.replaceLog req).1.log = x.newLog req := by
  unfold replaceLog
  dsimp only
  split <;> rfl

/-- The request passes the checks of `AppendEntries`. -/
def Accepts (x : Node ι) (req : AppendEntriesRequest ι) : Prop :=
  x.currentTerm ≤ req.term ∧ termAt x.log req.prevLogIndex = some req.prevLogTerm

omit [DecidableEq ι] [Fintype ι] in
/-- What the handler returns, by the checks the request passes. -/
theorem appendEntries_cases (x : Node ι) (req : AppendEntriesRequest ι) :
    (req.term < x.currentTerm ∧
        x.appendEntries req = (x.observe req.term, ⟨(x.observe req.term).currentTerm, false⟩, [])) ∨
      ∃ y : Node ι, y = { x.observe req.term with state := .follower } ∧ y.currentTerm = req.term ∧
        (¬ x.Accepts req ∧ x.appendEntries req = (y, ⟨y.currentTerm, false⟩, []) ∨
          x.Accepts req ∧ x.appendEntries req =
            ((y.replaceLog req).1, ⟨y.currentTerm, true⟩, (y.replaceLog req).2)) := by
  have hterm := observe_currentTerm x req.term
  by_cases hlt : req.term < x.currentTerm
  · refine .inl ⟨hlt, if_pos ?_⟩
    rw [hterm]
    omega
  · have hnow : (x.observe req.term).currentTerm = req.term := by omega
    have hge : ¬ req.term < (x.observe req.term).currentTerm := by omega
    refine .inr ⟨_, rfl, hnow, ?_⟩
    by_cases hmatch : termAt x.log req.prevLogIndex = some req.prevLogTerm
    · refine .inr ⟨⟨by omega, hmatch⟩, (if_neg hge).trans (if_pos ?_)⟩
      rwa [observe_log]
    · refine .inl ⟨fun h => hmatch h.2, (if_neg hge).trans (if_neg ?_)⟩
      rwa [observe_log]

/-- `AppendEntries` is a series of moves: learning of the term, following its leader, and taking
over the sender's log if the request is accepted. -/
theorem appendEntries_moves (hs : s.peers n = x.abs) (hother : m ≠ n)
    {req : AppendEntriesRequest ι} (hsent : .sent m req.term L req.leaderCommit ∈ s.history)
    (hnew : x.Accepts req → x.newLog req = L)
    (hguard : x.Accepts req → ∀ q : Peer ι LogEntry, q.log = x.log → q.commit = x.commitIndex →
      G q L) :
    Moves LogEntry.term G s n (x.appendEntries req).1.abs
      ((if (x.appendEntries req).2.1.success then
          [.accepted n req.term (x.appendEntries req).1.log] else []) ++
        applied n (x.appendEntries req).2.2) := by
  have hobs := observe_moves (G := G) hs req.term
  rcases appendEntries_cases x req with ⟨-, heq⟩ | ⟨y, hy, hnow, hcase⟩
  · rw [heq]
    exact hobs
  · have hfollow : Moves LogEntry.term G s n y.abs [] := by
      have hpeer := s.peers_set_self n (x.observe req.term).abs []
      have hterm : (x.observe req.term).abs.term = req.term := by
        rw [hy] at hnow
        exact hnow
      have hmove : Local LogEntry.term G (s.set n (x.observe req.term).abs []) n _ _ :=
        .follow (m := m) (L := L) (c := req.leaderCommit) hother
          (by rw [hpeer, hterm]; exact List.mem_append_left _ hsent)
      rw [hpeer] at hmove
      rw [hy]
      exact hobs.trans hmove.moves
    rcases hcase with ⟨-, heq⟩ | ⟨hacc, heq⟩
    · rw [heq]
      exact hfollow
    · have hylog : y.log = x.log := by
        rw [hy]
        exact observe_log x req.term
      have hycommit : y.commitIndex = x.commitIndex := by
        rw [hy]
        exact observe_commitIndex x req.term
      have hynew : y.newLog req = L := by
        rw [newLog, hylog]
        exact hnew hacc
      have hreplace := replaceLog_moves (G := G) (s.peers_set_self n y.abs [])
        (by rw [hy]) hother hynew (by rw [hnow]; exact List.mem_append_left _ hsent)
        (hguard hacc y.abs hylog hycommit)
      rw [heq]
      simp only [replaceLog_log, hynew, if_true, ← hnow]
      exact hfollow.trans hreplace

/-- Advancing the commit index is a series of moves, when a majority has held what the node may
commit. -/
theorem advanceCommitIndex_moves (hs : s.peers n = x.abs) (hstate : x.state = .leader)
    {peers : List ι} (hcommit : ∀ i, 0 < i → i < x.log.length → x.CanCommit n peers i →
      Committed s.history x.currentTerm (x.log.take (i + 1))) :
    Moves LogEntry.term G s n (x.advanceCommitIndex n peers).1.abs
      (applied n (x.advanceCommitIndex n peers).2) := by
  unfold advanceCommitIndex
  split
  · next i hfind =>
    have hcan : x.CanCommit n peers i := by simpa using List.find?_some hfind
    have hmem := List.mem_of_find?_eq_some hfind
    rw [List.mem_reverse, List.mem_range'_1, lastLogIndex] at hmem
    have hi : i < x.log.length := by omega
    let y : Node ι := { x with commitIndex := i }
    have hadvance : Moves LogEntry.term G s n y.abs [] := by
      have hmove : Local LogEntry.term G s n _ _ :=
        .advance (i := i) (by rw [hs]; exact hstate) (by rw [hs]; exact hi)
          (by rw [hs]; exact hcommit i (by omega) hi hcan)
      rw [hs] at hmove
      exact hmove.moves
    exact hadvance.trans (applyLog_moves (x := y) (s.peers_set_self _ _ _))
  · exact hs ▸ Moves.refl

/-- The node after a successful reply, before the commit index moves. -/
def recordMatch (x : Node ι) (p : ι) (req : AppendEntriesRequest ι) : Node ι :=
  { x with
    matchIndex := Function.update x.matchIndex p (req.prevLogIndex + req.entries.length)
    nextIndex := Function.update x.nextIndex p (req.prevLogIndex + req.entries.length + 1) }

/-- What a goroutine does with a reply is a series of moves. -/
theorem appendReply_moves (hs : s.peers n = x.abs) (peers : List ι) (t : ℕ) (p : ι)
    (req : AppendEntriesRequest ι) (resp : AppendEntriesResponse)
    (hcommit : x.state = .leader → x.currentTerm = t → resp.success → ∀ i, 0 < i →
      i < x.log.length → (x.recordMatch p req).CanCommit n peers i →
        Committed s.history x.currentTerm (x.log.take (i + 1))) :
    Moves LogEntry.term G s n (x.appendReply n peers t p req resp).1.abs
      (applied n (x.appendReply n peers t p req resp).2) := by
  unfold appendReply
  split
  · exact hs ▸ Moves.refl
  · next hlead =>
    obtain ⟨hstate, hterm⟩ : x.state = .leader ∧ x.currentTerm = t := by
      simpa only [ne_eq, not_or, not_not] using hlead
    split
    · next hlater => exact stepDown_moves hs hlater
    · split
      · next hsucc =>
        exact advanceCommitIndex_moves (x := x.recordMatch p req) hs hstate
          (hcommit hstate hterm hsucc)
      · split
        · exact hs ▸ Moves.refl
        · exact hs ▸ Moves.refl

end Moves

end Node

/-! ### What the goroutines know -/

/-- What the vote goroutine for peer `p` stands for. -/
def VoteOk (h : List (Event ι LogEntry)) (n : ι) (t lastIndex lastTerm : ℕ) (p : ι) :
    VoteCall → Prop
  | .idle | .finished => True
  | .sent => p ≠ n ∧ ∃ C, .campaigned n t C ∈ h ∧ lastIndex = lastLogIndex C ∧
      lastTerm = lastLogTerm C
  | .answered resp => p ≠ n ∧ (resp.voteGranted → ∃ W, .voted p n t W ∈ h)
  | .counted => p ≠ n ∧ ∃ W, .voted p n t W ∈ h

/-- The request was built from the log `L` of node `n`, published under term `t`. -/
def Built (h : List (Event ι LogEntry)) (n : ι) (t : ℕ) (req : AppendEntriesRequest ι)
    (L : List LogEntry) : Prop :=
  .sent n t L req.leaderCommit ∈ h ∧ req.term = t ∧ req.prevLogIndex < L.length ∧
    termAt L req.prevLogIndex = some req.prevLogTerm ∧
      req.entries = L.drop (req.prevLogIndex + 1)

/-- What the heartbeat goroutine for peer `p` stands for. -/
def CallOk (h : List (Event ι LogEntry)) (n : ι) (t : ℕ) (p : ι) : AppendCall ι → Prop
  | .idle | .finished => True
  | .spawned => p ≠ n
  | .sent req => p ≠ n ∧ ∃ L, Built h n t req L
  | .answered req resp | .counted req resp => p ≠ n ∧ ∃ L, Built h n t req L ∧
      (resp.success → .accepted p t L ∈ h)

section Grow

variable {h h' : List (Event ι LogEntry)} {n p : ι} {t : ℕ}

theorem VoteOk.mono {i l : ℕ} {c : VoteCall} (hc : VoteOk h n t i l p c) (hh : h ⊆ h') :
    VoteOk h' n t i l p c := by
  cases c with
  | idle => trivial
  | sent =>
    obtain ⟨hne, C, hC, hreq⟩ := hc
    exact ⟨hne, C, hh hC, hreq⟩
  | answered resp => exact ⟨hc.1, fun hg => (hc.2 hg).imp fun _ hW => hh hW⟩
  | counted => exact ⟨hc.1, hc.2.imp fun _ hW => hh hW⟩
  | finished => trivial

theorem CallOk.mono {c : AppendCall ι} (hc : CallOk h n t p c) (hh : h ⊆ h') :
    CallOk h' n t p c := by
  cases c with
  | idle => trivial
  | spawned => exact hc
  | sent req =>
    obtain ⟨hne, L, hL, hreq⟩ := hc
    exact ⟨hne, L, hh hL, hreq⟩
  | answered req resp | counted req resp =>
    obtain ⟨hne, L, ⟨hL, hreq⟩, hacc⟩ := hc
    exact ⟨hne, L, ⟨hh hL, hreq⟩, fun hs => hh (hacc hs)⟩
  | finished => trivial

end Grow

/-- A round was started by the leader of its term. -/
structure RoundOk (h : List (Event ι LogEntry)) (R : Round ι) : Prop where
  elected : ∃ V E, .elected R.node R.term V E ∈ h
  calls : ∀ p, CallOk h R.node R.term p (R.calls p)

variable [DecidableEq ι] [Fintype ι]

/-- An election counts votes that were given. -/
structure ElectionOk (h : List (Event ι LogEntry)) (n : ι) (t : ℕ) (E : Election ι) : Prop where
  calls : ∀ p, VoteOk h n t E.lastLogIndex E.lastLogTerm p (E.calls p)
  votes : E.votes ≤ 1 + (Finset.univ.filter fun p => E.calls p = .counted).card

/-- A leader's `matchIndex` says what the peer has held in its term. -/
def MatchOk (h : List (Event ι LogEntry)) (n : ι) (x : Node ι) : Prop :=
  x.state = .leader → ∀ p ≠ n, x.matchIndex p < x.log.length ∧
    ∀ m P, .proposed m x.currentTerm P ∈ h → P.length ≤ x.matchIndex p + 1 →
      Acked h p x.currentTerm P

/-- The cluster is in a state of the protocol, and its goroutines know what they claim. -/
structure Sim (G : Peer ι LogEntry → List LogEntry → Prop) (w : World ι) : Prop where
  reachable : Reachable LogEntry.term G .dummy w.abs
  elections : ∀ n t, ElectionOk w.history n t (w.elections n t)
  rounds : ∀ r R, w.rounds r = some R → RoundOk w.history R
  matched : ∀ n, MatchOk w.history n (w.nodes n)

variable {G : Peer ι LogEntry → List LogEntry → Prop} {cl : Cluster ι} {w w' : World ι}
  {n p : ι} {t r : ℕ} {x : Node ι} {E : Election ι} {R : Round ι}
  {evs : List (Event ι LogEntry)}

theorem Sim.init : Sim G (World.init : World ι) where
  reachable := .refl
  elections _ _ := ⟨fun _ => trivial, Nat.zero_le _⟩
  rounds _ _ h := by cases h
  matched _ h := by cases h

/-! ### Parts of a step -/

omit [Fintype ι] in
theorem World.abs_become (w : World ι) (n : ι) (x : Node ι) (evs : List (Event ι LogEntry)) :
    (w.become n x evs).abs = w.abs.set n x.abs evs := by
  have hpeers : (fun m => ((w.become n x evs).nodes m).abs) =
      Function.update (fun m => (w.nodes m).abs) n x.abs := by
    funext m
    by_cases hm : m = n
    · subst hm
      simp [World.become]
    · simp [World.become, hm]
  exact congrArg (State.mk · (w.history ++ evs)) hpeers

omit [DecidableEq ι] [Fintype ι] in
/-- Nothing was proposed, and the node is what it was as far as its matches go. -/
theorem MatchOk.of_same {h : List (Event ι LogEntry)} {y : Node ι} (hx : MatchOk h n x)
    (hsame : y.state = .leader → x.state = .leader ∧ y.matchIndex = x.matchIndex ∧
      y.log = x.log ∧ y.currentTerm = x.currentTerm)
    (hevs : ∀ m t P, ¬ .proposed m t P ∈ evs) : MatchOk (h ++ evs) n y := by
  intro hstate p hp
  obtain ⟨hlead, hmatch, hlog, hterm⟩ := hsame hstate
  obtain ⟨hlt, hacked⟩ := hx hlead p hp
  rw [hmatch, hlog, hterm]
  refine ⟨hlt, fun m P hP hlen => ?_⟩
  obtain ⟨L, hL, hpre⟩ := hacked m P ((List.mem_append.1 hP).resolve_right (hevs _ _ _)) hlen
  exact ⟨L, hL.imp (List.mem_append_left _) (List.mem_append_left _), hpre⟩

/-- A node makes a series of moves. -/
theorem Sim.become (h : Sim G w) (hmoves : Moves LogEntry.term G w.abs n x.abs evs)
    (hevs : ∀ m t P, .proposed m t P ∈ evs → m = n) (hmatch : MatchOk (w.history ++ evs) n x) :
    Sim G (w.become n x evs) := by
  have hsub : w.history ⊆ w.history ++ evs := List.subset_append_left _ _
  have hreach : Reachable LogEntry.term G .dummy (w.become n x evs).abs := by
    rw [World.abs_become]
    exact Relation.ReflTransGen.trans h.reachable hmoves
  refine ⟨hreach, fun m t => ?_, fun r R hR => ?_, fun m => ?_⟩
  · exact ⟨fun p => ((h.elections m t).calls p).mono hsub, (h.elections m t).votes⟩
  · obtain ⟨⟨V, E, hE⟩, hcalls⟩ := h.rounds r R hR
    exact ⟨⟨V, E, hsub hE⟩, fun p => (hcalls p).mono hsub⟩
  · by_cases hm : m = n
    · subst hm
      simpa [World.become] using hmatch
    · have hnode : (w.become n x evs).nodes m = w.nodes m := by simp [World.become, hm]
      rw [hnode]
      intro hstate p hp
      obtain ⟨hlt, hacked⟩ := h.matched m hstate p hp
      refine ⟨hlt, fun k P hP hlen => ?_⟩
      -- whatever is made in the term of another leader is made by that leader
      have hold : .proposed k (w.nodes m).currentTerm P ∈ w.history := by
        refine (List.mem_append.1 hP).resolve_right fun hnew => hm ?_
        obtain rfl := hevs _ _ _ hnew
        obtain ⟨V, E, hE, -⟩ := hreach.logs.proposed_elected hP
        have hpeer : (w.become k x evs).abs.peers m = (w.nodes m).abs := congrArg Node.abs hnode
        obtain ⟨V', E', hE'⟩ := hreach.elections.leader (n := m) (by rw [hpeer]; exact hstate)
        rw [hpeer] at hE'
        exact hreach.elections.elected_unique hE' hE
      obtain ⟨L, hL, hpre⟩ := hacked k P hold hlen
      exact ⟨L, hL.imp (List.mem_append_left _) (List.mem_append_left _), hpre⟩

/-- A closure of `startElection` changes. -/
theorem Sim.setElection (h : Sim G w) (hE : ElectionOk w.history n t E) :
    Sim G (w.setElection n t E) := by
  refine ⟨h.reachable, fun m t' => ?_, h.rounds, h.matched⟩
  by_cases hm : m = n
  · subst hm
    by_cases ht : t' = t
    · subst ht
      simpa [World.setElection] using hE
    · simpa [World.setElection, ht] using h.elections m t'
  · simpa [World.setElection, hm] using h.elections m t'

/-- A closure of `sendHeartbeats` changes. -/
theorem Sim.setRound (h : Sim G w) (hR : RoundOk w.history R) : Sim G (w.setRound r R) := by
  refine ⟨h.reachable, h.elections, fun r' R' hR' => ?_, h.matched⟩
  by_cases hr : r' = r
  · subst hr
    obtain rfl : R = R' := by simpa [World.setRound] using hR'
    exact hR
  · exact h.rounds r' R' (by simpa [World.setRound, hr] using hR')

/-- A goroutine of an election goes on. -/
theorem ElectionOk.setCall {h : List (Event ι LogEntry)} (hE : ElectionOk h n t E)
    {c : VoteCall} (hold : E.calls p ≠ .counted) (hnew : c ≠ .counted)
    (hc : VoteOk h n t E.lastLogIndex E.lastLogTerm p c) : ElectionOk h n t (E.setCall p c) where
  calls q := by
    by_cases hq : q = p
    · subst hq
      simpa [Election.setCall] using hc
    · simpa [Election.setCall, hq] using hE.calls q
  votes := by
    have hsame : (Finset.univ.filter fun q => (E.setCall p c).calls q = .counted) =
        Finset.univ.filter fun q => E.calls q = .counted := by
      refine Finset.filter_congr fun q _ => ?_
      by_cases hq : q = p
      · subst hq
        simp [Election.setCall, hold, hnew]
      · simp [Election.setCall, hq]
    rw [hsame]
    exact hE.votes

omit [Fintype ι] in
theorem Election.count_calls (E : Election ι) (p q : ι) :
    (E.count p).calls q = .counted ↔ q = p ∨ E.calls q = .counted := by
  by_cases hq : q = p
  · subst hq
    simp [Election.count, Election.setCall]
  · simp [Election.count, Election.setCall, hq]

/-- A granted vote is counted. -/
theorem ElectionOk.count {h : List (Event ι LogEntry)} (hE : ElectionOk h n t E)
    {resp : RequestVoteResponse} (hp : E.calls p = .answered resp) (hg : resp.voteGranted) :
    ElectionOk h n t (E.count p) where
  calls q := by
    by_cases hq : q = p
    · subst hq
      have hcall := hE.calls q
      rw [hp] at hcall
      have hnow : (E.count q).calls q = .counted := (E.count_calls q q).2 (.inl rfl)
      rw [hnow]
      exact ⟨hcall.1, hcall.2 hg⟩
    · simpa [Election.count, Election.setCall, hq] using hE.calls q
  votes := by
    have hset : (Finset.univ.filter fun q => (E.count p).calls q = .counted) =
        insert p (Finset.univ.filter fun q => E.calls q = .counted) := by
      ext q
      simp [Election.count_calls]
    have hnot : p ∉ Finset.univ.filter fun q => E.calls q = .counted := by simp [hp]
    rw [hset, Finset.card_insert_of_notMem hnot]
    have := hE.votes
    simp only [Election.count]
    omega

/-- The voters of an election are as many as its votes, and all of them voted for it. -/
theorem ElectionOk.voters {h : List (Event ι LogEntry)} (hE : ElectionOk h n t E)
    (hself : ∃ W, .voted n n t W ∈ h) :
    E.votes ≤ (E.voters n).card ∧ ∀ v ∈ E.voters n, ∃ W, .voted v n t W ∈ h := by
  have hcall : ∀ q, E.calls q = .counted → q ≠ n ∧ ∃ W, .voted q n t W ∈ h := by
    intro q hq
    have := hE.calls q
    rwa [hq] at this
  refine ⟨?_, fun v hv => ?_⟩
  · have hnot : n ∉ Finset.univ.filter fun q => E.calls q = .counted := by
      intro hn
      exact (hcall n (Finset.mem_filter.1 hn).2).1 rfl
    rw [Election.voters, Finset.card_insert_of_notMem hnot, add_comm]
    exact hE.votes
  · rcases Finset.mem_insert.1 hv with rfl | hv
    · exact hself
    · exact (hcall v (Finset.mem_filter.1 hv).2).2

omit [Fintype ι] in
/-- A goroutine of a round goes on. -/
theorem RoundOk.setCall {h : List (Event ι LogEntry)} (hR : RoundOk h R) {c : AppendCall ι}
    (hc : CallOk h R.node R.term p c) : RoundOk h (R.setCall p c) where
  elected := hR.elected
  calls q := by
    by_cases hq : q = p
    · subst hq
      simpa [Round.setCall] using hc
    · simpa [Round.setCall, hq] using hR.calls q

end Stratum.Raft
