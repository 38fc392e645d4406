import Stratum.Raft.Heartbeat

/-!
# The leader lease

A round of heartbeats extends the lease when it has counted more than half of the cluster. The
counter takes **every** reply: also one that carries a later term, and also after the node has
stepped down. A `Ledger` is the cluster together with the replies that each round has counted.

* The counter is one more than the number of peers whose reply was counted, and none of these
  replies is of an earlier term than the round (`Counted`).
* A leader goes on leading until an election of its own, a request or a reply ends its term
  (`LeadsRound.step`).
* So `lease_quorum`: when a round extends the lease, its node leads in the term of the round and a
  majority has answered with that term, if nothing ended the term of the node since the round was
  started and no reply of a later term was counted.
* `lease_without_quorum` is a run where the only reply is of a later term.
-/

namespace Stratum.Raft

variable {ι : Type*} [DecidableEq ι] [Fintype ι]

/-! ### The replies that were counted -/

/-- The reply that the goroutine has received and not yet counted. -/
def AppendCall.response? : AppendCall ι → Option AppendEntriesResponse
  | .answered _ resp => some resp
  | _ => none

/-- The goroutine has not counted a reply. -/
def AppendCall.IsOpen : AppendCall ι → Prop
  | .counted _ _ | .finished => False
  | _ => True

/-- The cluster, and the replies that each round has counted. -/
structure Ledger (ι : Type*) where
  world : World ι
  replies : ℕ → ι → Option AppendEntriesResponse

/-- The peers that answered with term `t`. -/
def answeredWith (replies : ι → Option AppendEntriesResponse) (t : ℕ) : Finset ι :=
  Finset.univ.filter fun p => (replies p).any fun resp => resp.term = t

namespace Ledger

/-- `NewNode` on every node. -/
def init : Ledger ι := ⟨.init, fun _ _ => none⟩

/-- The replies after an action: a reply that is counted is written down. -/
def record (s : Ledger ι) : Act ι → ℕ → ι → Option AppendEntriesResponse
  | .countReply r p _ => Function.update s.replies r (Function.update (s.replies r) p
      ((s.world.rounds r).bind fun R => (R.calls p).response?))
  | _ => s.replies

/-- A step of the cluster. -/
def step (cl : Cluster ι) (s : Ledger ι) (a : Act ι) : Option (Ledger ι) :=
  (Raft.step cl s.world a).map fun w => ⟨w, s.record a⟩

/-- The node of the round leads in the term of the round, and a majority of the cluster, the node
included, answered the round with that term. -/
structure CurrentQuorum (s : Ledger ι) (r : ℕ) (R : Round ι) : Prop where
  leader : (s.world.nodes R.node).state = .leader
  term : (s.world.nodes R.node).currentTerm = R.term
  majority : Fintype.card ι < 2 * (insert R.node (answeredWith (s.replies r) R.term)).card

end Ledger

/-! ### The counter -/

/-- What holds of a round and the replies it has counted. -/
structure Counted (R : Round ι) (replies : ι → Option AppendEntriesResponse) : Prop where
  self : R.calls R.node = .idle
  sent : ∀ p req, R.calls p = .sent req → req.term = R.term
  answered : ∀ p req resp, R.calls p = .answered req resp → R.term ≤ resp.term
  isOpen : ∀ p, (R.calls p).IsOpen → replies p = none
  term_le : ∀ p resp, replies p = some resp → R.term ≤ resp.term
  count : R.successCount = 1 + (Finset.univ.filter fun p => (replies p).isSome).card

variable {R : Round ι} {replies : ι → Option AppendEntriesResponse} {p : ι}

omit [Fintype ι] in
theorem Ledger.record_countReply {s : Ledger ι} {r : ℕ} {req : AppendEntriesRequest ι}
    {resp : AppendEntriesResponse} (hR : s.world.rounds r = some R)
    (hcall : R.calls p = .answered req resp) (now : ℕ) :
    s.record (.countReply r p now) =
      Function.update s.replies r (Function.update (s.replies r) p (some resp)) := by
  rw [record, hR, Option.bind_some, hcall]
  rfl

theorem Counted.start (peers : List ι) (n : ι) (t : ℕ) :
    Counted (Round.start peers n t) fun _ => none where
  self := if_neg fun h => h.2 rfl
  sent p req h := by
    simp only [Round.start] at h
    split at h <;> cases h
  answered p req resp h := by
    simp only [Round.start] at h
    split at h <;> cases h
  isOpen _ _ := rfl
  term_le p resp h := by cases h
  count := by simp [Round.start]

/-- The goroutine of another node goes on, and no reply is counted. -/
theorem Counted.setCall (h : Counted R replies) {c : AppendCall ι} (hself : R.calls p ≠ .idle)
    (hsent : ∀ req, c = .sent req → req.term = R.term)
    (hanswered : ∀ req resp, c = .answered req resp → R.term ≤ resp.term)
    (hopen : c.IsOpen → (R.calls p).IsOpen) : Counted (R.setCall p c) replies := by
  have hne : R.node ≠ p := by
    rintro rfl
    exact hself h.self
  refine ⟨?_, ?_, ?_, ?_, h.term_le, h.count⟩
  · exact (Function.update_of_ne hne _ _).trans h.self
  · intro q req hq
    by_cases hqp : q = p
    · subst hqp
      exact hsent req (by simpa [Round.setCall] using hq)
    · exact h.sent q req (by simpa [Round.setCall, hqp] using hq)
  · intro q req resp hq
    by_cases hqp : q = p
    · subst hqp
      exact hanswered req resp (by simpa [Round.setCall] using hq)
    · exact h.answered q req resp (by simpa [Round.setCall, hqp] using hq)
  · intro q hq
    by_cases hqp : q = p
    · subst hqp
      exact h.isOpen q (hopen (by simpa [Round.setCall] using hq))
    · exact h.isOpen q (by simpa [Round.setCall, hqp] using hq)

/-- A reply is counted. -/
theorem Counted.countReply (h : Counted R replies) {req : AppendEntriesRequest ι}
    {resp : AppendEntriesResponse} (hcall : R.calls p = .answered req resp) :
    Counted (R.count p req resp) (Function.update replies p (some resp)) := by
  have hnone : replies p = none := h.isOpen p (by rw [hcall]; trivial)
  have hset := h.setCall (c := .counted req resp) (by rw [hcall]; simp) (by simp) (by simp)
    fun hopen => hopen.elim
  refine ⟨hset.self, hset.sent, hset.answered, fun q hq => ?_, fun q resp' hq => ?_, ?_⟩
  · have hqp : q ≠ p := by
      rintro rfl
      simp [Round.count, Round.setCall, AppendCall.IsOpen] at hq
    rw [Function.update_of_ne hqp]
    exact hset.isOpen q hq
  · by_cases hqp : q = p
    · subst hqp
      rw [Function.update_self, Option.some.injEq] at hq
      subst hq
      exact h.answered q req resp hcall
    · rw [Function.update_of_ne hqp] at hq
      exact h.term_le q resp' hq
  · -- one peer more has a reply
    have hinsert : (Finset.univ.filter fun q => (Function.update replies p (some resp) q).isSome) =
        insert p (Finset.univ.filter fun q => (replies q).isSome) := by
      ext q
      by_cases hqp : q = p
      · subst hqp
        simp
      · simp [hqp]
    have hcount := h.count
    rw [hinsert, Finset.card_insert_of_notMem (by simp [hnone])]
    simp only [Round.count]
    omega

/-- **The replies of the term of the round**: all that were counted, if none is of a later term. -/
theorem Counted.card_answeredWith (h : Counted R replies)
    (hlater : ∀ p resp, replies p = some resp → resp.term ≤ R.term) :
    (insert R.node (answeredWith replies R.term)).card = R.successCount := by
  have hself : replies R.node = none := h.isOpen R.node (by rw [h.self]; trivial)
  have hall : answeredWith replies R.term = Finset.univ.filter fun p => (replies p).isSome := by
    refine Finset.filter_congr fun p _ => ?_
    cases hp : replies p with
    | none => simp
    | some resp => simpa using le_antisymm (hlater p resp hp) (h.term_le p resp hp)
  rw [Finset.card_insert_of_notMem (by simp [answeredWith, hself]), hall, h.count, Nat.add_comm]

/-! ### The invariant over runs -/

omit [DecidableEq ι] [Fintype ι] in
/-- A reply is not of an earlier term than the request. -/
theorem Node.le_appendEntries_term (x : Node ι) (req : AppendEntriesRequest ι) :
    req.term ≤ (x.appendEntries req).2.1.term := by
  have hterm := observe_currentTerm x req.term
  rcases appendEntries_cases x req with ⟨-, heq⟩ | ⟨y, hy, hnow, ⟨-, heq⟩ | ⟨-, heq⟩⟩
  · rw [heq]
    exact hterm ▸ le_max_right _ _
  · rw [heq]
    exact hnow.ge
  · rw [heq]
    exact hnow.ge

namespace Ledger

/-- Every round has counted as `Counted` says, and a round that is not started has counted
nothing. -/
structure Inv (rounds : ℕ → Option (Round ι)) (nextRound : ℕ)
    (replies : ℕ → ι → Option AppendEntriesResponse) : Prop where
  counted : ∀ r R, rounds r = some R → Counted R (replies r)
  fresh : ∀ r, nextRound ≤ r → rounds r = none ∧ replies r = fun _ => none

variable {cl : Cluster ι} {s s' : Ledger ι} {a : Act ι} {rounds : ℕ → Option (Round ι)}
  {nextRound r : ℕ} {all : ℕ → ι → Option AppendEntriesResponse}

omit [DecidableEq ι] in
/-- A round that is under way changes, together with its replies. -/
theorem Inv.setRound {R' : Round ι} (h : Inv rounds nextRound all) (hR : rounds r = some R)
    {replies : ι → Option AppendEntriesResponse} (hR' : Counted R' replies) :
    Inv (Function.update rounds r (some R')) nextRound (Function.update all r replies) where
  counted q Q hQ := by
    by_cases hq : q = r
    · subst hq
      rw [Function.update_self, Option.some.injEq] at hQ
      subst hQ
      rwa [Function.update_self]
    · rw [Function.update_of_ne hq] at hQ ⊢
      exact h.counted q Q hQ
  fresh q hq := by
    have hne : q ≠ r := by
      rintro rfl
      rw [(h.fresh q hq).1] at hR
      cases hR
    rw [Function.update_of_ne hne, Function.update_of_ne hne]
    exact h.fresh q hq

/-- A round that is under way goes on without a reply. -/
theorem Inv.setCall (h : Inv rounds nextRound all) (hR : rounds r = some R) {c : AppendCall ι}
    (hc : Counted (R.setCall p c) (all r)) :
    Inv (Function.update rounds r (some (R.setCall p c))) nextRound all := by
  have hset := h.setRound hR hc
  rwa [Function.update_eq_self] at hset

/-- A round is started. -/
theorem Inv.start (h : Inv rounds nextRound all) (peers : List ι) (n : ι) (t : ℕ) :
    Inv (Function.update rounds nextRound (some (.start peers n t))) (nextRound + 1) all where
  counted q Q hQ := by
    by_cases hq : q = nextRound
    · subst hq
      rw [Function.update_self, Option.some.injEq] at hQ
      subst hQ
      rw [(h.fresh q le_rfl).2]
      exact .start peers n t
    · rw [Function.update_of_ne hq] at hQ
      exact h.counted q Q hQ
  fresh q hq := by
    rw [Function.update_of_ne (by omega)]
    exact h.fresh q (by omega)

theorem Inv.step (h : Inv s.world.rounds s.world.nextRound s.replies)
    (hstep : step cl s a = some s') : Inv s'.world.rounds s'.world.nextRound s'.replies := by
  obtain ⟨w, hw, rfl⟩ := Option.map_eq_some_iff.1 hstep
  cases step_cases hw with
  | startElection | requestVote | voteFinished | voteCounted | voteStepDown | elected | notLeader
  | propose => exact h
  | sendHeartbeats n hstate => exact h.start _ _ _
  | buildRequest r p R req hR hcall hreq =>
    have hterm : req.term = R.term := by
      unfold Node.buildRequest at hreq
      split at hreq <;> cases hreq
      rfl
    refine h.setCall hR ((h.counted r R hR).setCall (by simp [hcall]) ?_ (by simp) fun _ => ?_)
    · rintro req' ⟨rfl⟩
      exact hterm
    · rw [hcall]
      trivial
  | appendEntries r p R req hR hcall =>
    refine h.setCall hR ((h.counted r R hR).setCall (by simp [hcall]) (by simp) ?_ fun _ => ?_)
    · rintro req' resp ⟨rfl, rfl⟩
      exact (h.counted r R hR).sent p req hcall ▸ Node.le_appendEntries_term _ req
    · rw [hcall]
      trivial
  | countReply r p now R req resp hR hcall hcount
  | extendLease r p now R req resp hR hcall hcount =>
    rw [record_countReply hR hcall]
    exact h.setRound hR ((h.counted r R hR).countReply hcall)
  | appendReply r p R req resp hR hcall =>
    refine h.setCall hR ((h.counted r R hR).setCall (by simp [hcall]) (by simp) (by simp) ?_)
    exact fun hopen => hopen.elim

omit [DecidableEq ι] in
theorem Inv.init :
    Inv (Ledger.init : Ledger ι).world.rounds 0 (Ledger.init : Ledger ι).replies where
  counted r R hR := by cases hR
  fresh _ _ := ⟨rfl, rfl⟩

end Ledger

/-- The step that extends the lease counts a reply, and changes nothing else of the node. -/
theorem exists_reply_of_extend {cl : Cluster ι} {w w' : World ι} {r now : ℕ}
    (hstep : step cl w (.countReply r p now) = some w') (hR : w.rounds r = some R)
    (hextend : R.successCount + 1 > threshold (cl.peers R.node)) :
    (∃ req resp, R.calls p = .answered req resp) ∧ w'.nodes R.node =
      { w.nodes R.node with leaseTimeout := now + cl.leaseDuration } := by
  cases step_cases hstep with
  | countReply _ _ _ R₁ _ _ hR₁ _ hcount =>
    obtain rfl : R = R₁ := Option.some.inj (hR.symm.trans hR₁)
    exact absurd hcount (Nat.not_le_of_lt hextend)
  | extendLease _ _ _ R₁ req resp hR₁ hcall =>
    obtain rfl : R = R₁ := Option.some.inj (hR.symm.trans hR₁)
    exact ⟨⟨req, resp, hcall⟩, Function.update_self _ _ _⟩

/-! ### A node that goes on leading -/

/-- The action does not end the term in which node `n` leads: it is no election of the node, no
request that makes it follow, and no reply that makes it step down. -/
def Undisturbed (n : ι) (w : World ι) : Act ι → Prop
  | .startElection m => m ≠ n
  | .requestVote _ t p => p = n → t ≤ (w.nodes n).currentTerm
  | .appendEntries r p => p = n → ∀ R req, w.rounds r = some R → R.calls p = .sent req →
      req.term < (w.nodes n).currentTerm
  | .appendReply r p => ∀ R req resp, w.rounds r = some R → R.node = n →
      R.calls p = .counted req resp → resp.term ≤ (w.nodes n).currentTerm
  | _ => True

/-- The node leads in term `t`. -/
def Node.Leads (x : Node ι) (t : ℕ) : Prop :=
  x.state = .leader ∧ x.currentTerm = t

section Leads

variable {x : Node ι} {t : ℕ}

omit [DecidableEq ι] [Fintype ι] in
theorem Node.observe_of_le {t' : ℕ} (h : t' ≤ x.currentTerm) : x.observe t' = x :=
  if_neg (Nat.not_lt_of_le h)

omit [Fintype ι] in
theorem Node.Leads.requestVote (h : x.Leads t) {req : RequestVoteRequest ι}
    (hreq : req.term ≤ x.currentTerm) : (x.requestVote req).1.Leads t := by
  unfold Node.requestVote
  rw [Node.observe_of_le hreq]
  dsimp only
  split
  · exact h
  · exact h

omit [DecidableEq ι] [Fintype ι] in
theorem Node.Leads.appendEntries (h : x.Leads t) {req : AppendEntriesRequest ι}
    (hreq : req.term < x.currentTerm) : (x.appendEntries req).1.Leads t := by
  rcases x.appendEntries_cases req with ⟨-, heq⟩ | ⟨y, rfl, hnow, -⟩
  · rwa [heq, Node.observe_of_le hreq.le]
  · rw [Node.observe_of_le hreq.le] at hnow
    exact absurd hnow hreq.ne'

omit [Fintype ι] in
theorem Node.Leads.appendReply (h : x.Leads t) (id : ι) (peers : List ι) (t' : ℕ) (p : ι)
    (req : AppendEntriesRequest ι) {resp : AppendEntriesResponse}
    (hresp : resp.term ≤ x.currentTerm) : (x.appendReply id peers t' p req resp).1.Leads t := by
  unfold Node.appendReply
  rw [if_neg (Nat.not_lt_of_le hresp)]
  split
  · exact h
  · split
    · -- the commit index is all that `advanceCommitIndex` moves
      change ((x.recordMatch p req).advanceCommitIndex id peers).1.Leads t
      unfold Node.advanceCommitIndex
      split
      · exact h
      · exact h
    · split
      · exact h
      · exact h

end Leads

/-- Node `n` leads in term `t`, and round `r`, which is under way, is its round of that term. -/
structure LeadsRound (n : ι) (t r : ℕ) (nodes : ι → Node ι) (rounds : ℕ → Option (Round ι))
    (nextRound : ℕ) : Prop where
  leads : (nodes n).Leads t
  started : r < nextRound
  round : ∀ R, rounds r = some R → R.node = n ∧ R.term = t

namespace LeadsRound

variable {n m : ι} {t r q : ℕ} {nodes : ι → Node ι} {rounds : ℕ → Option (Round ι)}
  {nextRound : ℕ} {Q Q' : Round ι} {cl : Cluster ι} {w w' : World ι} {a : Act ι}

omit [Fintype ι] in
/-- One node changes. -/
theorem update (h : LeadsRound n t r nodes rounds nextRound) {y : Node ι}
    (hy : m = n → y.Leads t) :
    LeadsRound n t r (Function.update nodes m y) rounds nextRound := by
  refine ⟨?_, h.started, h.round⟩
  by_cases hm : m = n
  · subst hm
    rw [Function.update_self]
    exact hy rfl
  · rw [Function.update_of_ne (Ne.symm hm)]
    exact h.leads

omit [DecidableEq ι] [Fintype ι] in
/-- A round goes on. -/
theorem setRound (h : LeadsRound n t r nodes rounds nextRound) (hQ : rounds q = some Q)
    (hnode : Q'.node = Q.node) (hterm : Q'.term = Q.term) :
    LeadsRound n t r nodes (Function.update rounds q (some Q')) nextRound := by
  refine ⟨h.leads, h.started, fun R hR => ?_⟩
  by_cases hq : r = q
  · subst hq
    rw [Function.update_self, Option.some.injEq] at hR
    subst hR
    rw [hnode, hterm]
    exact h.round Q hQ
  · rw [Function.update_of_ne hq] at hR
    exact h.round R hR

/-- The node leads on while it is undisturbed. -/
theorem step (h : LeadsRound n t r w.nodes w.rounds w.nextRound) (hact : Undisturbed n w a)
    (hstep : Raft.step cl w a = some w') :
    LeadsRound n t r w'.nodes w'.rounds w'.nextRound := by
  -- a leader is no candidate, so the replies to its election do not matter any more
  have hcandidate : ∀ m, (w.nodes m).state = .candidate → m ≠ n := by
    rintro m hm rfl
    rw [h.leads.1] at hm
    cases hm
  cases step_cases hstep with
  | startElection m => exact h.update fun hm => absurd hm hact
  | requestVote m t' p =>
    refine h.update ?_
    rintro rfl
    exact h.leads.requestVote (hact rfl)
  | voteFinished | voteCounted | notLeader => exact h
  | voteStepDown m _ _ _ _ hstate => exact h.update fun hm => absurd hm (hcandidate m hstate)
  | elected m _ _ _ _ _ hstate => exact h.update fun hm => absurd hm (hcandidate m hstate)
  | sendHeartbeats m hstate =>
    refine ⟨h.leads, h.started.trans (Nat.lt_succ_self _), fun R hR => h.round R ?_⟩
    exact (Function.update_of_ne h.started.ne _ _).symm.trans hR
  | buildRequest q p Q req hQ =>
    simp only [World.become, World.setRound, Function.update_eq_self]
    exact h.setRound hQ rfl rfl
  | appendEntries q p Q req hQ hcall =>
    refine (h.update ?_).setRound hQ rfl rfl
    rintro rfl
    exact h.leads.appendEntries (hact rfl Q req hQ hcall)
  | countReply q p now Q req resp hQ => exact h.setRound hQ rfl rfl
  | extendLease q p now Q req resp hQ =>
    refine (h.update ?_).setRound hQ rfl rfl
    rintro rfl
    exact h.leads
  | appendReply q p Q req resp hQ hcall =>
    refine (h.update ?_).setRound hQ rfl rfl
    rintro rfl
    exact h.leads.appendReply _ _ _ _ _ (hact Q req resp hQ rfl hcall)
  | propose m e =>
    refine h.update ?_
    rintro rfl
    exact h.leads

/-- The round of a leader that is undisturbed since it started the round. -/
theorem of_run {s₀ s : Ledger ι} {during : List (Act ι)}
    (hleader : (s₀.world.nodes n).state = .leader)
    (hkept : Machine.Guarded (Ledger.step cl) (fun s => Undisturbed n s.world) s₀
      (.sendHeartbeats n :: during))
    (hrun : Machine.run (Ledger.step cl) s₀ (.sendHeartbeats n :: during) = some s) :
    LeadsRound n (s₀.world.nodes n).currentTerm s₀.world.nextRound s.world.nodes s.world.rounds
      s.world.nextRound := by
  obtain ⟨s₁, hs₁, hrun⟩ := Machine.run_cons_eq_some.1 hrun
  have hkept := hkept.2 s₁ hs₁
  obtain ⟨w, hw, rfl⟩ := Option.map_eq_some_iff.1 hs₁
  obtain rfl := Option.some.inj ((if_pos hleader).symm.trans hw)
  refine Machine.run_guarded_invariant (I := fun s : Ledger ι =>
    LeadsRound n _ _ s.world.nodes s.world.rounds s.world.nextRound) ?_ ?_ hkept hrun
  · intro s a s' h hact hs
    obtain ⟨w, hw, rfl⟩ := Option.map_eq_some_iff.1 hs
    exact h.step hact hw
  · refine ⟨⟨hleader, rfl⟩, Nat.lt_succ_self _, fun R hR => ?_⟩
    obtain rfl : Round.start (cl.peers n) n (s₀.world.nodes n).currentTerm = R := by
      simpa [World.setRound] using hR
    exact ⟨rfl, rfl⟩

end LeadsRound

/-- **An extension of the lease has a current quorum**, of every round of a leader that no step has
disturbed since the round was started and that has counted no reply of a later term: when the reply
of peer `p` makes the round extend the lease, the node leads in the term of the round, and a
majority answered the round with that term. -/
theorem lease_quorum (cl : Cluster ι) (before during : List (Act ι)) (s₀ s s' : Ledger ι) (n p : ι)
    (now : ℕ) (R : Round ι)
    (hbefore : Machine.run (Ledger.step cl) .init before = some s₀)
    (hleader : (s₀.world.nodes n).state = .leader)
    (hduring : Machine.run (Ledger.step cl) s₀ (.sendHeartbeats n :: during) = some s)
    (hkept : Machine.Guarded (Ledger.step cl) (fun s => Undisturbed n s.world) s₀
      (.sendHeartbeats n :: during))
    (hR : s.world.rounds s₀.world.nextRound = some R)
    (hextend : R.successCount + 1 > threshold (cl.peers n))
    (hstep : Ledger.step cl s (.countReply s₀.world.nextRound p now) = some s')
    (hlater : ∀ q resp, s'.replies s₀.world.nextRound q = some resp →
      resp.term ≤ (s₀.world.nodes n).currentTerm) :
    (s'.world.nodes n).leaseTimeout = now + cl.leaseDuration ∧ R.node = n ∧
      R.term = (s₀.world.nodes n).currentTerm ∧ s'.CurrentQuorum s₀.world.nextRound R := by
  obtain ⟨hleads, -, hround⟩ := LeadsRound.of_run hleader hkept hduring
  obtain ⟨rfl, hterm⟩ := hround R hR
  have hinv : Ledger.Inv s.world.rounds s.world.nextRound s.replies :=
    Machine.run_invariant
      (I := fun s : Ledger ι => Ledger.Inv s.world.rounds s.world.nextRound s.replies)
      (fun _ _ _ h hs => h.step hs) Ledger.Inv.init (Machine.run_append.2 ⟨s₀, hbefore, hduring⟩)
  obtain ⟨w, hw, rfl⟩ := Option.map_eq_some_iff.1 hstep
  obtain ⟨⟨req, resp, hcall⟩, hnode⟩ := exists_reply_of_extend hw hR hextend
  have hreplies : s.record (.countReply s₀.world.nextRound p now) s₀.world.nextRound =
      Function.update (s.replies s₀.world.nextRound) p (some resp) := by
    rw [Ledger.record_countReply hR hcall, Function.update_self]
  have hcard := ((hinv.counted _ R hR).countReply hcall).card_answeredWith
    fun q resp' hq => hterm ▸ hlater q resp' ((congrFun hreplies q).trans hq)
  refine ⟨by rw [hnode], rfl, hterm, ?_, ?_, ?_⟩
  · rw [hnode]
    exact hleads.1
  · rw [hnode, hterm]
    exact hleads.2
  · dsimp only
    rw [hreplies]
    exact cl.majority (n := R.node) (hcard ▸ hextend)

/-! ### Three nodes -/

theorem lease_quorum_renewing : ∃ s₀ s s' R,
    Machine.run (Ledger.step threeNodes) .init (elect 0 1) = some s₀ ∧
      Machine.run (Ledger.step threeNodes) s₀
        [.sendHeartbeats 0, .buildRequest 0 1, .appendEntries 0 1] = some s ∧
      Ledger.step threeNodes s (.countReply 0 1 5) = some s' ∧
      s.world.rounds 0 = some R ∧ s'.CurrentQuorum 0 R := by
  obtain ⟨s₀, s, s', R, hbefore, hnext, hleader, hduring, hkept, hR, hextend, hstep, hterm⟩ :
      ∃ s₀ s s' R, Machine.run (Ledger.step threeNodes) .init (elect 0 1) = some s₀ ∧
        s₀.world.nextRound = 0 ∧ (s₀.world.nodes 0).Leads 1 ∧
        Machine.run (Ledger.step threeNodes) s₀
          [.sendHeartbeats 0, .buildRequest 0 1, .appendEntries 0 1] = some s ∧
        Machine.Guarded (Ledger.step threeNodes) (fun s => Undisturbed 0 s.world) s₀
          [.sendHeartbeats 0, .buildRequest 0 1, .appendEntries 0 1] ∧
        s.world.rounds 0 = some R ∧ R.successCount + 1 > threshold (threeNodes.peers 0) ∧
        Ledger.step threeNodes s (.countReply 0 1 5) = some s' ∧
        ∀ q, (s'.replies 0 q).all fun resp => resp.term ≤ 1 :=
    ⟨_, _, _, _, rfl, rfl, ⟨rfl, rfl⟩, rfl,
      .cons rfl trivial (.cons rfl trivial (.cons rfl (fun h => absurd h (by decide)) trivial)),
      rfl, by decide, rfl, by decide⟩
  have h := lease_quorum threeNodes (elect 0 1) [.buildRequest 0 1, .appendEntries 0 1] s₀ s s' 0 1
    5 R hbefore hleader.1 hduring hkept
  rw [hnext, hleader.2] at h
  refine ⟨s₀, s, s', R, hbefore, hduring, hstep, hR, (h hR hextend hstep ?_).2.2.2⟩
  intro q resp hq
  simpa [hq] using hterm q

/-- Node `m` is elected in term `1` and sends a heartbeat to node `n`, which has gone on to term `2`
and answers so. -/
def outdated (m n : Fin 3) : List (Act (Fin 3)) :=
  elect m 1 ++ [.sendHeartbeats m, .buildRequest 0 n, .startElection n, .startElection n,
    .appendEntries 0 n, .countReply 0 n 5]

/-- **The lease is extended without a quorum**: nobody has answered with the term of the round. -/
theorem lease_without_quorum : ∃ s R,
    Machine.run (Ledger.step threeNodes) .init (outdated 0 2) = some s ∧
      s.world.rounds 0 = some R ∧ R.node = 0 ∧ R.term = 1 ∧
      (s.world.nodes 0).leaseTimeout = 5 + threeNodes.leaseDuration ∧
        answeredWith (s.replies 0) 1 = ∅ ∧ ¬ s.CurrentQuorum 0 R := by
  obtain ⟨s, R, hrun, hR, hnode, hterm, hlease, hnobody⟩ :
      ∃ s R, Machine.run (Ledger.step threeNodes) .init (outdated 0 2) = some s ∧
        s.world.rounds 0 = some R ∧ R.node = 0 ∧ R.term = 1 ∧
        (s.world.nodes 0).leaseTimeout = 5 + threeNodes.leaseDuration ∧
        answeredWith (s.replies 0) 1 = ∅ :=
    ⟨_, _, rfl, rfl, rfl, rfl, rfl, by decide⟩
  refine ⟨s, R, hrun, hR, hnode, hterm, hlease, hnobody, fun h => ?_⟩
  have hmajority := h.majority
  rw [hterm, hnobody] at hmajority
  simp at hmajority

end Stratum.Raft
