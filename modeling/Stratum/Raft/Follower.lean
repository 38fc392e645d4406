import Stratum.Raft.Refinement

/-!
# A follower under requests out of order

The goroutines of `sendHeartbeats` read the leader's log at different moments and their requests
arrive in any order. Within one term the leader's log only grows, so that at each moment it is a
prefix of one log `L`, and a request is what `Node.buildRequest` makes of such a moment (`Sent`).

A follower that agrees with `L` (`Follows`: log matching, and what it has committed is in `L`) takes
over the **whole log of the moment** when it accepts a request (`Follows.newLog_eq`). An old request
therefore takes entries back, also committed ones: `follower_goes_back` gives one after `NewNode`.

`follower_stable_iff` says exactly when the commit state is stable under a list of requests: when
every request that is accepted reaches as far as the commit index.
-/

namespace Stratum.Raft

variable {ι : Type*}

namespace Node

/-- The requests are handled one after the other. -/
def deliver (x : Node ι) (reqs : List (AppendEntriesRequest ι)) : Node ι :=
  reqs.foldl (fun x req => (x.appendEntries req).1) x

/-- `lastApplied ≤ commitIndex ≤ len(log)-1`. -/
structure InBounds (x : Node ι) : Prop where
  applied : x.lastApplied ≤ x.commitIndex
  committed : x.commitIndex ≤ lastLogIndex x.log

/-- From `x` to `y` the commit index has not decreased, and no entry up to that of `x` has changed
or disappeared. -/
structure Preserves (x y : Node ι) : Prop where
  commitIndex : x.commitIndex ≤ y.commitIndex
  log : ∀ i ≤ x.commitIndex, y.log[i]? = x.log[i]?

/-- The node is a follower of the leader whose log has grown to `L`: the two logs match, and what
the node has committed is in `L`. -/
structure Follows (L : List LogEntry) (x : Node ι) : Prop extends InBounds x where
  ne_nil : x.log ≠ []
  matching : ∀ i e e', x.log[i]? = some e → L[i]? = some e' → e.term = e'.term →
    x.log.take (i + 1) = L.take (i + 1)
  in_leader : x.log.take (x.commitIndex + 1) <+: L

/-- The request reaches as far as the commit index of the node. -/
def Reached (x : Node ι) (req : AppendEntriesRequest ι) : Prop :=
  x.Accepts req → x.commitIndex ≤ req.prevLogIndex + req.entries.length

end Node

/-- A goroutine of `sendHeartbeats` built the request in term `t`, at a moment when the leader's log
was a prefix of `L` and its commit index was in that log. -/
def SentFrom (L : List LogEntry) (t : ℕ) (req : AppendEntriesRequest ι) : Prop :=
  ∃ (leader : Node ι) (id p : ι), leader.log <+: L ∧
    leader.commitIndex ≤ lastLogIndex leader.log ∧ leader.buildRequest id t p = some req

namespace Node

variable {L : List LogEntry} {t : ℕ} {x y z : Node ι} {req : AppendEntriesRequest ι}

/-! ### One request -/

theorem observe_lastApplied (x : Node ι) (t : ℕ) : (x.observe t).lastApplied = x.lastApplied := by
  unfold observe stepDown
  split <;> rfl

/-- A request that is not accepted leaves the log and the commit state. -/
theorem appendEntries_of_not_accepts (h : ¬ x.Accepts req) :
    (x.appendEntries req).1.log = x.log ∧
      (x.appendEntries req).1.commitIndex = x.commitIndex ∧
      (x.appendEntries req).1.lastApplied = x.lastApplied := by
  rcases appendEntries_cases x req with ⟨-, heq⟩ | ⟨y, rfl, -, ⟨-, heq⟩ | ⟨hacc, -⟩⟩
  · rw [heq]
    exact ⟨observe_log x _, observe_commitIndex x _, observe_lastApplied x _⟩
  · rw [heq]
    exact ⟨observe_log x _, observe_commitIndex x _, observe_lastApplied x _⟩
  · exact absurd hacc h

/-- An accepted request replaces the log, and moves the commit index within the new one. -/
theorem appendEntries_of_accepts (h : x.Accepts req) :
    (x.appendEntries req).1.log = x.newLog req ∧
      ((x.appendEntries req).1.commitIndex = x.commitIndex ∧
          (x.appendEntries req).1.lastApplied = x.lastApplied ∨
        req.leaderCommit > x.commitIndex ∧
          (x.appendEntries req).1.commitIndex = min req.leaderCommit (lastLogIndex (x.newLog req)) ∧
          (x.appendEntries req).1.lastApplied =
            max x.lastApplied (min req.leaderCommit (lastLogIndex (x.newLog req)))) := by
  rcases appendEntries_cases x req with ⟨hlt, -⟩ | ⟨y, rfl, -, ⟨hnot, -⟩ | ⟨-, heq⟩⟩
  · exact absurd h.1 (Nat.not_le_of_lt hlt)
  · exact absurd h hnot
  · rw [heq]
    refine ⟨?_, ?_⟩
    · rw [replaceLog_log, newLog, newLog]
      exact congrArg (fun l => l.take (req.prevLogIndex + 1) ++ req.entries) (observe_log x _)
    · unfold replaceLog
      dsimp only
      rw [observe_log, observe_commitIndex, ← newLog]
      split
      · rename_i hcommit
        refine .inr ⟨hcommit, ?_⟩
        have hmin : (if req.leaderCommit < lastLogIndex (x.newLog req) then req.leaderCommit
            else lastLogIndex (x.newLog req)) =
              min req.leaderCommit (lastLogIndex (x.newLog req)) := by
          split <;> omega
        rw [hmin]
        exact ⟨rfl, congrArg (max · _) (observe_lastApplied x _)⟩
      · exact .inl ⟨rfl, observe_lastApplied x _⟩

theorem appendEntries_success : (x.appendEntries req).2.1.success ↔ x.Accepts req := by
  rcases appendEntries_cases x req with ⟨hlt, heq⟩ | ⟨y, -, -, ⟨hnot, heq⟩ | ⟨hacc, heq⟩⟩
  · rw [heq]
    exact iff_of_false (by simp) fun h => absurd h.1 (Nat.not_le_of_lt hlt)
  · rw [heq]
    exact iff_of_false (by simp) hnot
  · rw [heq]
    exact iff_of_true rfl hacc

theorem Accepts.prevLogIndex_lt (h : x.Accepts req) : req.prevLogIndex < x.log.length := by
  by_contra hge
  have hnone : x.log[req.prevLogIndex]? = none := List.getElem?_eq_none (Nat.le_of_not_lt hge)
  have hterm := h.2
  rw [termAt, hnone] at hterm
  cases hterm

/-- The log after an accepted request ends where the request does. -/
theorem Accepts.lastLogIndex_newLog (h : x.Accepts req) :
    lastLogIndex (x.newLog req) = req.prevLogIndex + req.entries.length := by
  have hlt := h.prevLogIndex_lt
  rw [lastLogIndex, newLog, List.length_append, List.length_take]
  omega

/-- **The follower takes over the log of the moment.** -/
theorem Follows.newLog_eq (hx : x.Follows L) {leader : Node ι} {id p : ι}
    (hlog : leader.log <+: L) (hreq : leader.buildRequest id t p = some req)
    (hacc : x.Accepts req) : x.newLog req = leader.log := by
  rw [buildRequest] at hreq
  split at hreq
  · rename_i hrange
    obtain ⟨hlo, hhi⟩ := hrange
    cases hreq
    have hprev : leader.nextIndex p - 1 + 1 = leader.nextIndex p := by omega
    -- the leader's entry at `PrevLogIndex`, and the follower's with the same term
    have hlt : leader.nextIndex p - 1 < leader.log.length := by omega
    have hentry : leader.log[leader.nextIndex p - 1]? = some leader.log[leader.nextIndex p - 1] :=
      List.getElem?_eq_getElem hlt
    have hterm := hacc.2
    dsimp only at hterm
    rw [termAt, termAt, hentry, Option.map_some, Option.getD_some, Option.map_eq_some_iff] at hterm
    obtain ⟨e, he, hsame⟩ := hterm
    have hL : L[leader.nextIndex p - 1]? = some leader.log[leader.nextIndex p - 1] := by
      obtain ⟨rest, rfl⟩ := hlog
      rw [List.getElem?_append_left hlt, hentry]
    have htake := hx.matching _ _ _ he hL hsame
    have hsender : L.take (leader.nextIndex p) = leader.log.take (leader.nextIndex p) := by
      obtain ⟨rest, rfl⟩ := hlog
      exact List.take_append_of_le_length hhi
    rw [newLog, htake, hprev, hsender]
    exact List.take_append_drop _ _
  · cases hreq

/-! ### What a request preserves -/

theorem Preserves.refl (x : Node ι) : x.Preserves x := ⟨le_rfl, fun _ _ => rfl⟩

theorem Preserves.trans (h : x.Preserves y) (h' : y.Preserves z) : x.Preserves z where
  commitIndex := h.commitIndex.trans h'.commitIndex
  log i hi := (h'.log i (hi.trans h.commitIndex)).trans (h.log i hi)

/-- Every prefix of the leader's log matches it. -/
private theorem matching_of_isPrefix {l : List LogEntry} (h : l <+: L) {i : ℕ} {e : LogEntry}
    (he : l[i]? = some e) : l.take (i + 1) = L.take (i + 1) := by
  obtain ⟨rest, rfl⟩ := h
  obtain ⟨hlt, -⟩ := List.getElem?_eq_some_iff.1 he
  exact (List.take_append_of_le_length hlt).symm

/-- The commit index moves up, within the new log, when the request reaches it. -/
theorem InBounds.of_accepts (hx : x.InBounds) (hacc : x.Accepts req)
    (hle : x.commitIndex ≤ req.prevLogIndex + req.entries.length) :
    (x.appendEntries req).1.InBounds ∧ x.commitIndex ≤ (x.appendEntries req).1.commitIndex := by
  obtain ⟨hnew, hmoved⟩ := appendEntries_of_accepts hacc
  have hlast := hacc.lastLogIndex_newLog
  have happlied := hx.applied
  rcases hmoved with ⟨hsame, hsame'⟩ | ⟨hgt, hmin, hmax⟩
  · refine ⟨⟨by omega, ?_⟩, hsame.ge⟩
    rw [hnew]
    omega
  · refine ⟨⟨by omega, ?_⟩, by omega⟩
    rw [hnew]
    omega

/-- Both logs are the leader's up to the old commit index. -/
theorem Follows.preserves (hx : x.Follows L) (hy : y.log <+: L) (hbound : y.InBounds)
    (hne : y.log ≠ []) (hmono : x.commitIndex ≤ y.commitIndex) : x.Preserves y := by
  refine ⟨hmono, fun i hi => ?_⟩
  have hx' := hx.committed
  have hy' := hbound.committed
  have hpos := List.length_pos_iff.2 hx.ne_nil
  have hpos' := List.length_pos_iff.2 hne
  rw [lastLogIndex] at hx' hy'
  have hold : x.log[i]? = L[i]? := by
    obtain ⟨rest, hrest⟩ := hx.in_leader
    rw [← hrest, List.getElem?_append_left (by rw [List.length_take]; omega),
      List.getElem?_take_of_lt (by omega)]
  have hnow : y.log[i]? = L[i]? := by
    obtain ⟨rest, hrest⟩ := hy
    rw [← hrest, List.getElem?_append_left (by omega)]
  rw [hold, hnow]

/-- A request that reaches the commit index leaves the commit state stable. -/
theorem Follows.appendEntries (hx : x.Follows L) (hreq : SentFrom L t req)
    (hreach : x.Reached req) :
    (x.appendEntries req).1.Follows L ∧ x.Preserves (x.appendEntries req).1 := by
  obtain ⟨leader, id, p, hlog, hcommit, hbuild⟩ := hreq
  by_cases hacc : x.Accepts req
  · obtain ⟨hbound, hmono⟩ := hx.toInBounds.of_accepts hacc (hreach hacc)
    have hnew := (appendEntries_of_accepts hacc).1
    have hpre : (x.appendEntries req).1.log <+: L := by
      rwa [hnew, hx.newLog_eq hlog hbuild hacc]
    have hne : (x.appendEntries req).1.log ≠ [] := by
      have hlt := hacc.prevLogIndex_lt
      rw [hnew, newLog, ← List.length_pos_iff, List.length_append, List.length_take]
      omega
    exact ⟨⟨hbound, hne, fun i e e' he _ _ => matching_of_isPrefix hpre he,
      (List.take_prefix _ _).trans hpre⟩, hx.preserves hpre hbound hne hmono⟩
  · obtain ⟨hsame, hcommit', happlied⟩ := appendEntries_of_not_accepts hacc
    refine ⟨⟨⟨?_, ?_⟩, ?_, ?_, ?_⟩, hcommit'.ge, fun i _ => by rw [hsame]⟩
    · rw [happlied, hcommit']
      exact hx.applied
    · rw [hsame, hcommit']
      exact hx.committed
    · rw [hsame]
      exact hx.ne_nil
    · rw [hsame]
      exact hx.matching
    · rw [hsame, hcommit']
      exact hx.in_leader

/-! ### Many requests -/

theorem deliver_append (x : Node ι) (as bs : List (AppendEntriesRequest ι)) :
    x.deliver (as ++ bs) = (x.deliver as).deliver bs := List.foldl_append

theorem deliver_concat (x : Node ι) (reqs : List (AppendEntriesRequest ι))
    (req : AppendEntriesRequest ι) :
    x.deliver (reqs ++ [req]) = ((x.deliver reqs).appendEntries req).1 := by
  rw [deliver_append]
  rfl

/-- Requests that all reach the commit index. -/
theorem Follows.deliver (hx : x.Follows L) {reqs : List (AppendEntriesRequest ι)}
    (hreqs : ∀ req ∈ reqs, SentFrom L t req)
    (hreach : ∀ before req later, reqs = before ++ req :: later →
      (x.deliver before).Reached req) :
    (x.deliver reqs).Follows L ∧ x.Preserves (x.deliver reqs) := by
  induction reqs generalizing x with
  | nil => exact ⟨hx, .refl x⟩
  | cons req reqs ih =>
    obtain ⟨hreq, hreqs⟩ := List.forall_mem_cons.1 hreqs
    obtain ⟨hx', hpres⟩ := hx.appendEntries hreq (hreach [] req reqs rfl)
    obtain ⟨hend, hpres'⟩ := ih hx' hreqs fun before r later heq =>
      hreach (req :: before) r later (by rw [heq]; rfl)
    exact ⟨hend, hpres.trans hpres'⟩

/-- A node as `NewNode` makes it follows every leader. -/
theorem follows_newNode (h : L.head? = some .dummy) : (newNode : Node ι).Follows L where
  applied := le_rfl
  committed := le_rfl
  ne_nil := List.cons_ne_nil _ _
  matching i e e' he _ _ := by
    refine matching_of_isPrefix ?_ he
    obtain ⟨rest, rfl⟩ := List.head?_eq_some_iff.1 h
    exact ⟨rest, rfl⟩
  in_leader := by
    obtain ⟨rest, rfl⟩ := List.head?_eq_some_iff.1 h
    exact ⟨rest, rfl⟩

end Node

/-- **When the commit state of a follower is stable.** The requests are built from moments of a log
that grows to `L` in term `t`, and delivered in the order of the list. At every point of it the
bounds hold, and from every point to every later one the commit index and the entries up to it are
preserved, if and only if each request that is accepted reaches as far as the commit index. -/
theorem follower_stable_iff (L : List LogEntry) (t : ℕ) (x : Node ι)
    (reqs : List (AppendEntriesRequest ι)) (hx : x.Follows L)
    (hreqs : ∀ req ∈ reqs, SentFrom L t req) :
    (∀ before next later, reqs = before ++ next ++ later →
        (x.deliver before).InBounds ∧
          (x.deliver before).Preserves (x.deliver (before ++ next))) ↔
      ∀ before req later, reqs = before ++ req :: later → (x.deliver before).Reached req := by
  constructor
  · intro hstable before req later heq hacc
    have hnext := hstable before [req] later (by rw [heq]; simp)
    have hafter := hstable (before ++ [req]) [] later (by rw [heq]; simp)
    have hmono := hnext.2.commitIndex
    have hbound := hafter.1.committed
    rw [Node.deliver_concat] at hmono hbound
    rw [(Node.appendEntries_of_accepts hacc).1, hacc.lastLogIndex_newLog] at hbound
    exact hmono.trans hbound
  · intro hreach before next later heq
    subst heq
    have hfirst : ∀ req ∈ before, SentFrom L t req := fun req hreq => hreqs req (by simp [hreq])
    have hsecond : ∀ req ∈ next, SentFrom L t req := fun req hreq => hreqs req (by simp [hreq])
    obtain ⟨hbefore, -⟩ := hx.deliver hfirst
      (fun b req l h => hreach b req (l ++ next ++ later) (by rw [h]; simp))
    obtain ⟨-, hpres⟩ := hbefore.deliver hsecond
      (fun b req l h => by
        rw [← Node.deliver_append]
        exact hreach (before ++ b) req (l ++ later) (by rw [h]; simp))
    rw [Node.deliver_append]
    exact ⟨hbefore.toInBounds, hpres⟩

/-! ### An old request -/

/-- The entry of the leader. -/
def appended : LogEntry := ⟨1, 1, [1]⟩

/-- The leader of term `1`, whose log is `log`, committed up to `c`. -/
def leaderWith (log : List LogEntry) (c : ℕ) : Node Bool :=
  ⟨.leader, 1, none, 0, c, c, log, fun _ => 1, fun _ => 0⟩

/-- What the leader sends before it has appended the entry. -/
def oldRequest : AppendEntriesRequest Bool := ⟨1, true, 0, 0, [], 0⟩

/-- What the leader sends when it has committed the entry. -/
def newRequest : AppendEntriesRequest Bool := ⟨1, true, 0, 0, [appended], 1⟩

private theorem sentFrom_old : SentFrom [.dummy, appended] 1 oldRequest :=
  ⟨leaderWith [.dummy] 0, true, false, ⟨[appended], rfl⟩, le_rfl, rfl⟩

private theorem sentFrom_new : SentFrom [.dummy, appended] 1 newRequest :=
  ⟨leaderWith [.dummy, appended] 1, true, false, List.prefix_rfl, le_rfl, rfl⟩

/-- The requests in the order they were built. -/
theorem follower_stable_in_order :
    ((Node.newNode : Node Bool).deliver [oldRequest]).InBounds ∧
      ((Node.newNode : Node Bool).deliver [oldRequest]).Preserves
        (Node.newNode.deliver [oldRequest, newRequest]) := by
  refine (follower_stable_iff [.dummy, appended] 1 Node.newNode [oldRequest, newRequest]
    (Node.follows_newNode rfl) ?_).2 ?_ [oldRequest] [newRequest] [] rfl
  · exact List.forall_mem_cons.2 ⟨sentFrom_old, List.forall_mem_singleton.2 sentFrom_new⟩
  · intro before req later heq _
    -- the commit index is `0` until the last request
    rcases before with _ | ⟨a, _ | ⟨b, _ | ⟨c, before⟩⟩⟩
    · exact Nat.zero_le _
    · cases heq
      exact Nat.zero_le _
    · cases heq
    · cases heq

/-- **A committed entry disappears**: the older request arrives last. -/
theorem follower_goes_back :
    SentFrom [.dummy, appended] 1 newRequest ∧ SentFrom [.dummy, appended] 1 oldRequest ∧
      (Node.newNode.deliver [newRequest]).commitIndex = 1 ∧
      (Node.newNode.deliver [newRequest]).log[1]? = some appended ∧
      (Node.newNode.deliver [newRequest, oldRequest]).log[1]? = none ∧
      ¬ (Node.newNode.deliver [newRequest, oldRequest]).InBounds := by
  refine ⟨sentFrom_new, sentFrom_old, rfl, rfl, rfl, fun h => ?_⟩
  have hbound := h.committed
  revert hbound
  decide

end Stratum.Raft
