import Stratum.Raft.Follower
import Stratum.Raft.Safety

/-!
# Heartbeats and the range of the log

A goroutine of `sendHeartbeats` reads `nextIndex[p]` and the log in a critical section of its own,
after the one that found the node to be leader. In between the node may have stepped down and taken
over another log.

* A node that **leads** has every `nextIndex` in the range of its log, and so has a goroutine that
  is still to read, as long as no shorter log is taken over (`Inv`). Replies do not break it: the
  request of a round of the current term ends within the log (`RoundFits.request`), and a node is
  not elected in a term in which it has sent heartbeats.
* `AppendEntries` takes over the log of the new leader **whatever its length**, and leaves
  `nextIndex` as it was. `heartbeat_in_range_iff` says that this is the only way out of range, and
  `heartbeat_out_of_range` is a run that takes it.
-/

namespace Stratum.Raft

open Consensus (Role)

variable {ι : Type*} [DecidableEq ι]

/-! ### Steps that keep a node in range -/

/-- From `x` to `y` an index that was in the range of the log still is, and no role is taken in a
term in which the node did not have it. -/
structure Node.KeepsRange (x y : Node ι) : Prop where
  term_le : x.currentTerm ≤ y.currentTerm
  leader : y.state = .leader → x.state = .leader ∧ y.currentTerm = x.currentTerm
  candidate : y.state = .candidate → y.currentTerm = x.currentTerm → x.state = .candidate
  length_le : x.log.length ≤ y.log.length
  next : ∀ p, 1 ≤ x.nextIndex p → x.nextIndex p ≤ x.log.length →
    1 ≤ y.nextIndex p ∧ y.nextIndex p ≤ y.log.length

namespace Node

variable {x y z : Node ι}

omit [DecidableEq ι] in
theorem KeepsRange.refl (x : Node ι) : x.KeepsRange x :=
  ⟨le_rfl, fun h => ⟨h, rfl⟩, fun h _ => h, le_rfl, fun _ h₁ h₂ => ⟨h₁, h₂⟩⟩

variable {t : ℕ} {req : AppendEntriesRequest ι}

omit [DecidableEq ι] in
theorem keepsRange_stepDown (h : x.currentTerm < t) : x.KeepsRange (x.stepDown t) where
  term_le := h.le
  leader := by simp [stepDown]
  candidate := by simp [stepDown]
  length_le := le_rfl
  next _ h₁ h₂ := ⟨h₁, h₂⟩

omit [DecidableEq ι] in
theorem keepsRange_observe (x : Node ι) (t : ℕ) : x.KeepsRange (x.observe t) := by
  unfold observe
  split
  · rename_i hterm
    exact keepsRange_stepDown hterm
  · exact .refl x

omit [DecidableEq ι] in
theorem keepsRange_startElection (x : Node ι) (id : ι) : x.KeepsRange (x.startElection id) where
  term_le := Nat.le_succ _
  leader := by simp [startElection]
  candidate := by simp [startElection]
  length_le := le_rfl
  next _ h₁ h₂ := ⟨h₁, h₂⟩

theorem keepsRange_requestVote (x : Node ι) (req : RequestVoteRequest ι) :
    x.KeepsRange (x.requestVote req).1 := by
  obtain ⟨h₁, h₂, h₃, h₄, h₅⟩ := keepsRange_observe x req.term
  unfold requestVote
  dsimp only
  split
  · exact ⟨h₁, h₂, h₃, h₄, h₅⟩
  · exact ⟨h₁, h₂, h₃, h₄, h₅⟩

omit [DecidableEq ι] in
/-- A request that is not accepted. -/
theorem keepsRange_appendEntries (h : ¬ x.Accepts req) :
    x.KeepsRange (x.appendEntries req).1 := by
  have hobs := keepsRange_observe x req.term
  rcases appendEntries_cases x req with ⟨-, heq⟩ | ⟨y, rfl, -, ⟨-, heq⟩ | ⟨hacc, -⟩⟩
  · rwa [heq]
  · rw [heq]
    exact ⟨hobs.term_le, by simp, by simp, hobs.length_le, hobs.next⟩
  · exact absurd hacc h

/-- A reply, when the request of the round ends within the log. -/
theorem keepsRange_appendReply (id : ι) (peers : List ι) (p : ι) (resp : AppendEntriesResponse)
    (h : x.state = .leader → x.currentTerm = t →
      req.prevLogIndex + req.entries.length + 1 ≤ x.log.length) :
    x.KeepsRange (x.appendReply id peers t p req resp).1 := by
  unfold appendReply
  split
  · exact .refl x
  · rename_i hrole
    obtain ⟨hstate, hterm⟩ : x.state = .leader ∧ x.currentTerm = t := by
      simpa only [ne_eq, not_or, not_not] using hrole
    split
    · rename_i hlater
      exact keepsRange_stepDown hlater
    · split
      · have hend := h hstate hterm
        have hmatch : x.KeepsRange (x.recordMatch p req) := by
          refine ⟨le_rfl, fun hs => ⟨hs, rfl⟩, fun hs _ => hs, le_rfl, fun q h₁ h₂ => ?_⟩
          by_cases hq : q = p
          · subst hq
            simp only [recordMatch, Function.update_self]
            omega
          · simp only [recordMatch, Function.update_of_ne hq]
            exact ⟨h₁, h₂⟩
        -- the commit index is all that `advanceCommitIndex` moves
        change x.KeepsRange ((x.recordMatch p req).advanceCommitIndex id peers).1
        unfold advanceCommitIndex
        split
        · exact ⟨hmatch.term_le, hmatch.leader, hmatch.candidate, hmatch.length_le, hmatch.next⟩
        · exact hmatch
      · split
        · rename_i hgt
          refine ⟨le_rfl, fun hs => ⟨hs, rfl⟩, fun hs _ => hs, le_rfl, fun q h₁ h₂ => ?_⟩
          by_cases hq : q = p
          · subst hq
            simp only [Function.update_self]
            omega
          · simp only [Function.update_of_ne hq]
            exact ⟨h₁, h₂⟩
        · exact .refl x

omit [DecidableEq ι] in
theorem keepsRange_append (x : Node ι) (e : LogEntry) :
    x.KeepsRange { x with log := x.log ++ [e] } where
  term_le := le_rfl
  leader h := ⟨h, rfl⟩
  candidate h _ := h
  length_le := by simp
  next p h₁ h₂ := ⟨h₁, by simpa using Nat.le_succ_of_le h₂⟩

omit [DecidableEq ι] in
/-- The request of a goroutine ends where the log does. -/
theorem buildRequest_end {id p : ι} (h : x.buildRequest id t p = some req) :
    req.prevLogIndex + req.entries.length + 1 = x.log.length := by
  unfold buildRequest at h
  split at h
  · cases h
    dsimp only
    rw [List.length_drop]
    omega
  · cases h

omit [DecidableEq ι] in
/-- The handler leaves `nextIndex` as it was. -/
theorem appendEntries_nextIndex (x : Node ι) (req : AppendEntriesRequest ι) :
    (x.appendEntries req).1.nextIndex = x.nextIndex := by
  have hobs : (x.observe req.term).nextIndex = x.nextIndex := by
    unfold observe stepDown
    split <;> rfl
  rcases appendEntries_cases x req with ⟨-, heq⟩ | ⟨y, rfl, -, ⟨-, heq⟩ | ⟨-, heq⟩⟩
  · rwa [heq]
  · rwa [heq]
  · rw [heq]
    unfold replaceLog
    dsimp only
    split
    · exact hobs
    · exact hobs

omit [DecidableEq ι] in
/-- After a request was accepted the node is a follower in the term of the request. -/
theorem appendEntries_follower (h : x.Accepts req) :
    (x.appendEntries req).1.state = .follower ∧
      (x.appendEntries req).1.currentTerm = req.term := by
  rcases appendEntries_cases x req with ⟨hlt, -⟩ | ⟨y, rfl, hnow, ⟨hnot, -⟩ | ⟨-, heq⟩⟩
  · exact absurd h.1 (Nat.not_le_of_lt hlt)
  · exact absurd h hnot
  · rw [heq]
    unfold replaceLog
    dsimp only
    split
    · exact ⟨rfl, hnow⟩
    · exact ⟨rfl, hnow⟩

end Node

/-! ### The invariant -/

/-- The request that the goroutine has built. -/
def AppendCall.request? : AppendCall ι → Option (AppendEntriesRequest ι)
  | .sent req | .answered req _ | .counted req _ => some req
  | _ => none

/-- What holds of a round and the node `x` that started it. -/
structure RoundFits (cl : Cluster ι) (x : Node ι) (R : Round ι) : Prop where
  term_le : R.term ≤ x.currentTerm
  not_candidate : R.term = x.currentTerm → x.state ≠ .candidate
  spawned : ∀ p, R.calls p = .spawned →
    p ∈ cl.peers R.node ∧ 1 ≤ x.nextIndex p ∧ x.nextIndex p ≤ x.log.length
  request : ∀ p req, (R.calls p).request? = some req → x.state = .leader →
    x.currentTerm = R.term → req.prevLogIndex + req.entries.length + 1 ≤ x.log.length

/-- What holds of the nodes and the rounds. -/
structure Inv (cl : Cluster ι) (nodes : ι → Node ι) (rounds : ℕ → Option (Round ι)) : Prop where
  log : ∀ n, 0 < (nodes n).log.length
  leader : ∀ n, (nodes n).state = .leader → ∀ p ∈ cl.peers n,
    1 ≤ (nodes n).nextIndex p ∧ (nodes n).nextIndex p ≤ (nodes n).log.length
  fits : ∀ r R, rounds r = some R → RoundFits cl (nodes R.node) R

section Inv

variable {cl : Cluster ι} {nodes : ι → Node ι} {rounds : ℕ → Option (Round ι)} {n p : ι}
  {x y : Node ι} {R : Round ι} {r : ℕ}

omit [DecidableEq ι] in
theorem RoundFits.of_keepsRange (h : RoundFits cl x R) (hxy : x.KeepsRange y) :
    RoundFits cl y R where
  term_le := h.term_le.trans hxy.term_le
  not_candidate hterm hstate := by
    have hle := h.term_le
    have hle' := hxy.term_le
    have hx : y.currentTerm = x.currentTerm := by omega
    exact h.not_candidate (hterm.trans hx) (hxy.candidate hstate hx)
  spawned p hp := by
    obtain ⟨hmem, h₁, h₂⟩ := h.spawned p hp
    exact ⟨hmem, hxy.next p h₁ h₂⟩
  request p req hp hstate hterm := by
    obtain ⟨hx, hsame⟩ := hxy.leader hstate
    exact (h.request p req hp hx (hsame ▸ hterm)).trans hxy.length_le

variable {c : AppendCall ι} {req : AppendEntriesRequest ι}

theorem RoundFits.setCall (h : RoundFits cl x R) (hc : c ≠ .spawned)
    (hreq : ∀ req, c.request? = some req → x.state = .leader → x.currentTerm = R.term →
      req.prevLogIndex + req.entries.length + 1 ≤ x.log.length) :
    RoundFits cl x (R.setCall p c) where
  term_le := h.term_le
  not_candidate := h.not_candidate
  spawned q hq := by
    by_cases hqp : q = p
    · subst hqp
      simp only [Round.setCall, Function.update_self] at hq
      exact absurd hq hc
    · simp only [Round.setCall, Function.update_of_ne hqp] at hq
      exact h.spawned q hq
  request q req hq := by
    by_cases hqp : q = p
    · subst hqp
      simp only [Round.setCall, Function.update_self] at hq
      exact hreq req hq
    · simp only [Round.setCall, Function.update_of_ne hqp] at hq
      exact h.request q req hq

/-- The call goes on, and its request stays. -/
theorem RoundFits.advance (h : RoundFits cl x R) (hc : c ≠ .spawned)
    (hcall : c.request? = (R.calls p).request?) : RoundFits cl x (R.setCall p c) :=
  h.setCall hc fun req hreq => h.request p req (hcall.symm.trans hreq)

theorem RoundFits.count (h : RoundFits cl x R) {resp : AppendEntriesResponse}
    (hcall : R.calls p = .answered req resp) :
    RoundFits cl x (R.count p req resp) := by
  have hfit : RoundFits cl x (R.setCall p (.counted req resp)) :=
    h.advance (by simp) (by rw [hcall]; rfl)
  exact ⟨hfit.term_le, hfit.not_candidate, hfit.spawned, hfit.request⟩

/-- The goroutines of a round that a leader starts. -/
theorem RoundFits.start (hstate : x.state = .leader)
    (hnext : ∀ p ∈ cl.peers n, 1 ≤ x.nextIndex p ∧ x.nextIndex p ≤ x.log.length) :
    RoundFits cl x (Round.start (cl.peers n) n x.currentTerm) where
  term_le := le_rfl
  not_candidate _ := by simp [hstate]
  spawned p hp := by
    have hmem : p ∈ cl.peers n := by
      by_contra hnot
      have hidle : (Round.start (cl.peers n) n x.currentTerm).calls p = .idle :=
        if_neg fun hin => hnot hin.1
      rw [hidle] at hp
      cases hp
    exact ⟨hmem, hnext p hmem⟩
  request p req hp := by
    -- no request has been built
    have hnone : ((Round.start (cl.peers n) n x.currentTerm).calls p).request? = none := by
      simp only [Round.start]
      split <;> rfl
    rw [hnone] at hp
    cases hp

/-- Another call goes on: the goroutines that are still to read are the same. -/
theorem exists_spawned_setCall (hR : rounds r = some R) (hp : R.calls p ≠ .spawned)
    (hc : c ≠ .spawned) {r' : ℕ} {q : ι} :
    (∃ R', Function.update rounds r (some (R.setCall p c)) r' = some R' ∧ R'.node = n ∧
        R'.calls q = .spawned) ↔
      ∃ R', rounds r' = some R' ∧ R'.node = n ∧ R'.calls q = .spawned := by
  by_cases hr : r' = r
  · subst hr
    have hcalls : (R.setCall p c).calls q = .spawned ↔ R.calls q = .spawned := by
      by_cases hqp : q = p
      · subst hqp
        simp only [Round.setCall, Function.update_self]
        exact iff_of_false hc hp
      · simp only [Round.setCall, Function.update_of_ne hqp]
    simp only [Function.update_self, hR, Option.some.injEq, exists_eq_left']
    exact and_congr_right' hcalls
  · rw [Function.update_of_ne hr]

/-- One node changes. -/
theorem Inv.update (h : Inv cl nodes rounds) (hlog : 0 < y.log.length)
    (hleader : y.state = .leader → ∀ p ∈ cl.peers n,
      1 ≤ y.nextIndex p ∧ y.nextIndex p ≤ y.log.length)
    (hfits : ∀ r R, rounds r = some R → R.node = n → RoundFits cl (nodes n) R →
      RoundFits cl y R) :
    Inv cl (Function.update nodes n y) rounds where
  log m := by
    by_cases hm : m = n
    · subst hm
      rwa [Function.update_self]
    · rw [Function.update_of_ne hm]
      exact h.log m
  leader m := by
    by_cases hm : m = n
    · subst hm
      rwa [Function.update_self]
    · rw [Function.update_of_ne hm]
      exact h.leader m
  fits r R hR := by
    by_cases hm : R.node = n
    · subst hm
      rw [Function.update_self]
      exact hfits r R hR rfl (h.fits r R hR)
    · rw [Function.update_of_ne hm]
      exact h.fits r R hR

theorem Inv.of_keepsRange (h : Inv cl nodes rounds) (hy : (nodes n).KeepsRange y) :
    Inv cl (Function.update nodes n y) rounds := by
  refine h.update ((h.log n).trans_le hy.length_le) (fun hstate p hp => ?_)
    fun r R hR hn hfit => hfit.of_keepsRange hy
  obtain ⟨h₁, h₂⟩ := h.leader n (hy.leader hstate).1 p hp
  exact hy.next p h₁ h₂

omit [DecidableEq ι] in
/-- One round changes. -/
theorem Inv.setRound (h : Inv cl nodes rounds) (hR : RoundFits cl (nodes R.node) R) :
    Inv cl nodes (Function.update rounds r (some R)) where
  log := h.log
  leader := h.leader
  fits r' R' hR' := by
    by_cases hr : r' = r
    · subst hr
      rw [Function.update_self, Option.some.injEq] at hR'
      subst hR'
      exact hR
    · rw [Function.update_of_ne hr] at hR'
      exact h.fits r' R' hR'

/-- A candidate that is elected has every index at the end of its log. -/
theorem Inv.becomeLeader (h : Inv cl nodes rounds) (hstate : (nodes n).state = .candidate) :
    Inv cl (Function.update nodes n ((nodes n).becomeLeader (cl.peers n))) rounds := by
  have hnext : ∀ p ∈ cl.peers n, 1 ≤ ((nodes n).becomeLeader (cl.peers n)).nextIndex p ∧
      ((nodes n).becomeLeader (cl.peers n)).nextIndex p ≤ (nodes n).log.length := by
    intro p hp
    simp only [Node.becomeLeader, if_pos hp]
    exact ⟨h.log n, le_rfl⟩
  refine h.update (h.log n) (fun _ => hnext) ?_
  rintro r R - rfl hfit
  refine ⟨hfit.term_le, fun _ => by simp [Node.becomeLeader], fun p hp => ?_, ?_⟩
  · obtain ⟨hmem, -⟩ := hfit.spawned p hp
    exact ⟨hmem, hnext p hmem⟩
  · -- no round of this term: the node was a candidate
    intro p req _ _ hterm
    exact absurd hstate (hfit.not_candidate hterm.symm)

/-- A log that is taken over leaves room for the goroutines that are still to read. -/
theorem Inv.acceptEntries (h : Inv cl nodes rounds) (hacc : (nodes n).Accepts req)
    (hroom : ∀ r R q, rounds r = some R → R.node = n → R.calls q = .spawned →
      (nodes n).nextIndex q ≤ ((nodes n).newLog req).length) :
    Inv cl (Function.update nodes n ((nodes n).appendEntries req).1) rounds := by
  obtain ⟨hstate, hterm⟩ := Node.appendEntries_follower hacc
  have hlog := (Node.appendEntries_of_accepts hacc).1
  refine h.update ?_ (by simp [hstate]) fun r R hR hn hfit => ?_
  · have hpos := h.log n
    rw [hlog, Node.newLog, List.length_append, List.length_take]
    omega
  · refine ⟨?_, by simp [hstate], fun q hq => ?_, by simp [hstate]⟩
    · rw [hterm]
      exact hfit.term_le.trans hacc.1
    · obtain ⟨hmem, h₁, -⟩ := hfit.spawned q hq
      rw [Node.appendEntries_nextIndex, hlog]
      exact ⟨hmem, h₁, hroom r R q hR hn hq⟩

end Inv

/-! ### Runs -/

/-- A goroutine of `sendHeartbeats` that is still to read finds `nextIndex` in the range of the
log. -/
def World.HeartbeatsInRange (w : World ι) : Prop :=
  ∀ r R p, w.rounds r = some R → R.calls p = .spawned →
    1 ≤ (w.nodes R.node).nextIndex p ∧
      (w.nodes R.node).nextIndex p ≤ (w.nodes R.node).log.length

/-- The condition on a step: a log that is taken over is long enough for the goroutines of the node
that are still to read. -/
def Room (w : World ι) : Act ι → Prop
  | .appendEntries r p => ∀ R req, w.rounds r = some R → R.calls p = .sent req →
      (w.nodes p).Accepts req → ∀ r' R' q, w.rounds r' = some R' → R'.node = p →
        R'.calls q = .spawned → (w.nodes p).nextIndex q ≤ ((w.nodes p).newLog req).length
  | _ => True

variable [Fintype ι] {cl : Cluster ι} {w w' : World ι} {a : Act ι}

theorem Inv.step (h : Inv cl w.nodes w.rounds) (hroom : Room w a)
    (hstep : Raft.step cl w a = some w') : Inv cl w'.nodes w'.rounds := by
  cases step_cases hstep with
  | startElection n => exact h.of_keepsRange (Node.keepsRange_startElection _ n)
  | requestVote n t p => exact h.of_keepsRange (Node.keepsRange_requestVote _ _)
  | voteFinished | voteCounted | notLeader => exact h
  | voteStepDown n t p resp _ _ hterm =>
    exact h.of_keepsRange (Node.keepsRange_stepDown hterm)
  | elected n t p _ _ _ hstate => exact h.becomeLeader hstate
  | sendHeartbeats n hstate => exact h.setRound (.start hstate (h.leader n hstate))
  | buildRequest r p R req hR hcall hreq =>
    simp only [World.become, World.setRound, Function.update_eq_self]
    refine h.setRound ((h.fits r R hR).setCall (by simp) fun req' hreq' _ _ => ?_)
    obtain rfl : req = req' := Option.some.inj hreq'
    exact (Node.buildRequest_end hreq).le
  | appendEntries r p R req hR hcall =>
    have hround : Inv cl w.nodes (Function.update w.rounds r
        (some (R.setCall p (.answered req ((w.nodes p).appendEntries req).2.1)))) :=
      h.setRound ((h.fits r R hR).advance (by simp) (by rw [hcall]; rfl))
    by_cases hacc : (w.nodes p).Accepts req
    · refine hround.acceptEntries hacc fun r' R' q hR' hn hq => ?_
      obtain ⟨R₀, hR₀, hn₀, hq₀⟩ :=
        (exists_spawned_setCall hR (by simp [hcall]) (by simp)).mp ⟨R', hR', hn, hq⟩
      exact hroom R req hR hcall hacc r' R₀ q hR₀ hn₀ hq₀
    · exact hround.of_keepsRange (Node.keepsRange_appendEntries hacc)
  | countReply r p now R req resp hR hcall hcount =>
    exact h.setRound ((h.fits r R hR).count hcall)
  | extendLease r p now R req resp hR hcall hcount =>
    have hround : Inv cl w.nodes (Function.update w.rounds r (some (R.count p req resp))) :=
      h.setRound ((h.fits r R hR).count hcall)
    have hself := Node.KeepsRange.refl (w.nodes R.node)
    exact hround.of_keepsRange
      ⟨hself.term_le, hself.leader, hself.candidate, hself.length_le, hself.next⟩
  | appendReply r p R req resp hR hcall =>
    have hround : Inv cl w.nodes (Function.update w.rounds r (some (R.setCall p .finished))) :=
      h.setRound ((h.fits r R hR).setCall (by simp) fun req' hreq' => by cases hreq')
    exact hround.of_keepsRange (Node.keepsRange_appendReply _ _ p resp
      ((h.fits r R hR).request p req (by rw [hcall]; rfl)))
  | propose n e hstate => exact h.of_keepsRange (Node.keepsRange_append _ e)

omit [DecidableEq ι] [Fintype ι] in
theorem Inv.init : Inv cl (World.init : World ι).nodes (World.init : World ι).rounds where
  log _ := Nat.one_pos
  leader n h := by cases h
  fits r R hR := by cases hR

/-- **When heartbeats stay in range.** Along every run of every cluster, all goroutines of
`sendHeartbeats` that are still to read find `1 ≤ nextIndex[p] ≤ len(log)` in every state on the
way, if and only if no step takes over a log that is too short for one of them. -/
theorem heartbeat_in_range_iff (cl : Cluster ι) (tr : List (Act ι)) :
    (∀ w ∈ Machine.visited (step cl) .init tr, w.HeartbeatsInRange) ↔
      Machine.Guarded (step cl) Room .init tr := by
  constructor
  · intro h
    refine Machine.guarded_of_forall_visited (J := fun _ => True) (fun _ _ _ _ _ => trivial)
      (fun w a _ hnext => ?_) trivial h
    cases a with
    | appendEntries r p =>
      intro R req hR hcall hacc r' R' q hR' hn hq
      -- the step is enabled, and its state is in range
      obtain ⟨w', hstep, hnode, hrounds⟩ : ∃ w', step cl w (.appendEntries r p) = some w' ∧
          w'.nodes p = ((w.nodes p).appendEntries req).1 ∧
          w'.rounds = Function.update w.rounds r
            (some (R.setCall p (.answered req ((w.nodes p).appendEntries req).2.1))) := by
        refine ⟨_, by rw [step, hR, Option.bind_some, hcall], ?_, rfl⟩
        exact Function.update_self _ _ _
      obtain ⟨R'', hR'', hn', hq'⟩ : ∃ R'', w'.rounds r' = some R'' ∧ R''.node = p ∧
          R''.calls q = .spawned := by
        rw [hrounds]
        exact (exists_spawned_setCall hR (by simp [hcall]) (by simp)).mpr ⟨R', hR', hn, hq⟩
      obtain ⟨-, hle⟩ := hnext w' hstep r' R'' q hR'' hq'
      rwa [hn', hnode, Node.appendEntries_nextIndex,
        (Node.appendEntries_of_accepts hacc).1] at hle
    | _ => trivial
  · intro h w hw
    have hinv : Inv cl w.nodes w.rounds := Machine.forall_visited_of_guarded
      (I := fun w => Inv cl w.nodes w.rounds) (fun _ _ _ hs hg hstep => hs.step hg hstep)
      Inv.init h w hw
    intro r R p hR hcall
    exact ((hinv.fits r R hR).spawned p hcall).2

/-! ### A shorter log -/

/-- Node `m` is elected, appends an entry and is elected again, so that its `nextIndex` is `2`; it
starts a round of heartbeats. Node `n` is elected in term `3` with its empty log, and node `m` takes
that log over before the goroutines of its own round have read. -/
def deposed (m n : Fin 3) : List (Act (Fin 3)) :=
  elect m 1 ++ [.propose m entryOld] ++ elect m 2 ++ [.sendHeartbeats m] ++
    [.startElection n, .startElection n] ++ elect n 3 ++
      [.sendHeartbeats n, .buildRequest 1 m, .appendEntries 1 m]

/-- **A heartbeat reads out of range**: `nextIndex[1]` is `2`, and the log has length `1`. -/
theorem heartbeat_out_of_range : ∃ w, Machine.run (step threeNodes) .init (deposed 0 2) = some w ∧
    (w.nodes 0).nextIndex 1 = 2 ∧ (w.nodes 0).log.length = 1 ∧
      (∃ R, w.rounds 0 = some R ∧ R.node = 0 ∧ R.calls 1 = .spawned) ∧
        ¬ w.HeartbeatsInRange := by
  have hround : ∃ R, (after (deposed 0 2)).rounds 0 = some R ∧ R.node = 0 ∧ R.calls 1 = .spawned :=
    ⟨_, rfl, rfl, rfl⟩
  refine ⟨after (deposed 0 2), rfl, rfl, rfl, hround, fun h => ?_⟩
  obtain ⟨R, hR, hn, hcall⟩ := hround
  obtain ⟨-, hle⟩ := h 0 R 1 hR hcall
  rw [hn] at hle
  revert hle
  decide

end Stratum.Raft
