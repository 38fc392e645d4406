import Stratum.Raft.Follower

/-!
# Requests that share the array of the log

`entries := n.log[nextIdx:]` is a slice of the log and no copy. The request that gets it is encoded
by the transport, after `n.mu` was given back, and `AppendEntries` writes to the array meanwhile:
`append(n.log[:PrevLogIndex+1], ...)` works in place where the capacity allows it. What goes out is
what the array holds **when the request is encoded**.

`Shared` is the cluster with the arrays of the logs. Its steps are the critical sections, and
`SharedAct.encode`, which exchanges the entries of a request for what its slice then reads. Where
that is what they were (`Unwritten`), the cluster does not notice (`run_world`). The arrays hold the
logs in every state of every run (`holds_of_run`), so a request that is encoded at once goes out as
it was built (`unwritten_of_build`).
-/

namespace Stratum.Raft

/-- The arrays of a log: those it has left behind, and the one it is in, as long as its capacity.
What lies behind the log is never read. -/
structure Arrays where
  left : List (List LogEntry)
  current : List LogEntry

/-- A slice of one of the arrays; the current one has the number `left.length`. -/
structure Slice where
  array : ℕ
  start : ℕ
  length : ℕ

namespace Arrays

/-- The log of `NewNode`. -/
def init : Arrays := ⟨[], [.dummy]⟩

/-- What a slice reads. -/
def read (m : Arrays) (sl : Slice) : List LogEntry :=
  ((((m.left ++ [m.current])[sl.array]?).getD []).drop sl.start).take sl.length

/-- `append(n.log[:k], es...)`: in place if the capacity is enough, or else in a new array. `grow`
is the capacity that the runtime gives to it, for the old capacity and the length it needs. -/
def append (grow : ℕ → ℕ → ℕ) (m : Arrays) (k : ℕ) (es : List LogEntry) : Arrays :=
  let length := k + es.length
  if length ≤ m.current.length then
    { m with current := m.current.take k ++ es ++ m.current.drop length }
  else
    ⟨m.left ++ [m.current],
      m.current.take k ++ es ++ List.replicate (grow m.current.length length - length) .dummy⟩

/-- The log after an append is in the array after it. -/
theorem prefix_append {grow : ℕ → ℕ → ℕ} {m : Arrays} {log es : List LogEntry} {k : ℕ}
    (h : log <+: m.current) (hk : k ≤ log.length) :
    log.take k ++ es <+: (m.append grow k es).current := by
  obtain ⟨rest, hrest⟩ := h
  have htake : log.take k = m.current.take k := by
    rw [← hrest, List.take_append_of_le_length hk]
  rw [htake]
  unfold append
  dsimp only
  split
  · exact List.prefix_append _ _
  · exact List.prefix_append _ _

end Arrays

/-- The cluster and the arrays of its logs; for each round and peer the slice of the request, and
whether the request was encoded. -/
structure Shared (ι : Type*) where
  world : World ι
  arrays : ι → Arrays
  slices : ℕ → ι → Slice
  encoded : ℕ → ι → Bool

/-- What can happen next: a critical section, or the transport encodes the request of round `r` for
peer `p`. -/
inductive SharedAct (ι : Type*)
  | run (a : Act ι)
  | encode (r : ℕ) (p : ι)

/-- The critical section, if it is one. -/
def SharedAct.act? {ι : Type*} : SharedAct ι → Option (Act ι)
  | .run a => some a
  | .encode _ _ => none

namespace Shared

variable {ι : Type*}

def init : Shared ι := ⟨.init, fun _ => .init, fun _ _ => ⟨0, 0, 0⟩, fun _ _ => false⟩

/-- `n.log[nextIdx:]`, for peer `p`. -/
def slice (s : Shared ι) (n p : ι) : Slice :=
  let x := s.world.nodes n
  ⟨(s.arrays n).left.length, x.nextIndex p, x.log.length - x.nextIndex p⟩

variable [DecidableEq ι] [Fintype ι]

/-- Whether an action can come now: a request is handled after it was encoded. -/
def ready (s : Shared ι) : Act ι → Bool
  | .appendEntries r p => s.encoded r p
  | _ => true

/-- The slices after an action. -/
def sliced (s : Shared ι) : Act ι → ℕ → ι → Slice
  | .buildRequest r p => (s.world.rounds r).elim s.slices fun R =>
    Function.update s.slices r (Function.update (s.slices r) p (s.slice R.node p))
  | _ => s.slices

/-- The arrays after an action. -/
def written (grow : ℕ → ℕ → ℕ) (s : Shared ι) : Act ι → ι → Arrays
  | .appendEntries r p => (s.world.rounds r).elim s.arrays fun R =>
    match R.calls p with
    | .sent req =>
      if ((s.world.nodes p).appendEntries req).2.1.success then
        Function.update s.arrays p ((s.arrays p).append grow (req.prevLogIndex + 1) req.entries)
      else s.arrays
    | _ => s.arrays
  | .propose n e =>
    Function.update s.arrays n ((s.arrays n).append grow (s.world.nodes n).log.length [e])
  | _ => s.arrays

/-- One step. -/
def step (cl : Cluster ι) (grow : ℕ → ℕ → ℕ) (s : Shared ι) : SharedAct ι → Option (Shared ι)
  | .run a =>
    if s.ready a then (Raft.step cl s.world a).map fun w =>
      { s with world := w, arrays := s.written grow a, slices := s.sliced a }
    else none
  | .encode r p => (s.world.rounds r).bind fun R =>
    match R.calls p, s.encoded r p with
    | .sent req, false =>
      let entries := (s.arrays R.node).read (s.slices r p)
      some { s with
        world := s.world.setRound r (R.setCall p (.sent { req with entries := entries }))
        encoded := Function.update s.encoded r (Function.update (s.encoded r) p true) }
    | _, _ => none

/-- **The condition on a step**: when a request is encoded, its slice reads what it read when the
request was built. -/
def Unwritten (s : Shared ι) : SharedAct ι → Prop
  | .encode r p => ∀ R req, s.world.rounds r = some R → R.calls p = .sent req →
      (s.arrays R.node).read (s.slices r p) = req.entries
  | .run _ => True

/-- The same, and a condition on the critical sections. -/
def Meets (guard : World ι → Act ι → Prop) (s : Shared ι) (a : SharedAct ι) : Prop :=
  s.Unwritten a ∧ ∀ b, a = .run b → guard s.world b

variable {cl : Cluster ι} {grow : ℕ → ℕ → ℕ} {s s' : Shared ι}

/-- A critical section is one of the cluster. -/
theorem step_run {a : Act ι} (h : step cl grow s (.run a) = some s') :
    Raft.step cl s.world a = some s'.world ∧ s'.arrays = s.written grow a ∧
      s'.slices = s.sliced a := by
  obtain ⟨-, h⟩ := Option.ite_none_right_eq_some.1 h
  obtain ⟨w, hw, rfl⟩ := Option.map_eq_some_iff.1 h
  exact ⟨hw, rfl, rfl⟩

variable {r : ℕ} {p n : ι} {tr : List (SharedAct ι)} {x : Node ι}

/-- A request that is encoded as it was built changes nothing. -/
theorem step_encode (hun : s.Unwritten (.encode r p)) (h : step cl grow s (.encode r p) = some s') :
    s'.world = s.world := by
  obtain ⟨R, hR, h⟩ := Option.bind_eq_some_iff.1 h
  split at h
  · next req hcall _ =>
    obtain rfl := Option.some.inj h
    have hsame : R.setCall p (.sent req) = R := by
      rw [Round.setCall, ← hcall, Function.update_eq_self]
    dsimp only
    rw [hun R req hR hcall, hsame, World.setRound, ← hR, Function.update_eq_self]
  · cases h

/-- **Runs that keep to the condition are runs of the cluster**, whatever guard they keep to. -/
theorem run_world {guard : World ι → Act ι → Prop} {s₀ : Shared ι}
    (hg : Machine.Guarded (step cl grow) (Meets guard) s₀ tr)
    (h : Machine.run (step cl grow) s₀ tr = some s) :
    Machine.Guarded (Raft.step cl) guard s₀.world (tr.filterMap SharedAct.act?) ∧
      Machine.run (Raft.step cl) s₀.world (tr.filterMap SharedAct.act?) = some s.world := by
  refine Machine.run_project (f := Shared.world) (fun s a s' ha hg hs => ?_)
    (fun s a b s' ha hg hs => ?_) hg h
  · cases a with
    | run a => cases ha
    | encode r p => exact step_encode hg.1 hs
  · cases a with
    | run a =>
      cases ha
      exact ⟨hg.2 _ rfl, (step_run hs).1⟩
    | encode r p => cases ha

/-! ### The arrays hold the logs -/

/-- Each log is in its array. -/
def Holds (s : Shared ι) : Prop := ∀ n, (s.world.nodes n).log <+: (s.arrays n).current

omit [Fintype ι] in
/-- A node and its array change together. -/
theorem Holds.update (hs : s.Holds) {arrays : Arrays} (hx : x.log <+: arrays.current) (m : ι) :
    (Function.update s.world.nodes n x m).log <+:
      (Function.update s.arrays n arrays m).current := by
  by_cases hm : m = n
  · subst hm
    simpa using hx
  · simpa [hm] using hs m

omit [Fintype ι] in
/-- A node changes, and its log does not. -/
theorem Holds.keep (hs : s.Holds) (hx : x.log = (s.world.nodes n).log) (m : ι) :
    (Function.update s.world.nodes n x m).log <+: (s.arrays m).current := by
  have hkept : _ <+: (Function.update s.arrays n (s.arrays n) m).current :=
    hs.update (hx ▸ hs n) m
  rwa [Function.update_eq_self] at hkept

theorem Holds.step {a : SharedAct ι} (hs : s.Holds) (h : Shared.step cl grow s a = some s') :
    s'.Holds := by
  intro m
  cases a with
  | encode r p =>
    obtain ⟨R, -, h⟩ := Option.bind_eq_some_iff.1 h
    split at h <;> cases h
    exact hs m
  | run a =>
    obtain ⟨hw, harrays, -⟩ := step_run h
    rw [harrays]
    generalize s'.world = w' at hw ⊢
    cases step_cases hw with
    | voteFinished | voteCounted | notLeader | sendHeartbeats | countReply => exact hs m
    | startElection | voteStepDown | elected | buildRequest | extendLease =>
      exact hs.keep (by rfl) m
    | requestVote =>
      refine hs.keep ?_ m
      unfold Node.requestVote
      dsimp only
      split <;> exact Node.observe_log _ _
    | appendReply =>
      refine hs.keep ?_ m
      unfold Node.appendReply Node.advanceCommitIndex
      dsimp only
      repeat' split
      all_goals rfl
    | appendEntries r p R req hR hcall =>
      simp only [written, hR, Option.elim_some, hcall]
      split
      · rename_i hsuccess
        have hacc := Node.appendEntries_success.1 hsuccess
        refine hs.update ?_ m
        rw [(Node.appendEntries_of_accepts hacc).1]
        exact Arrays.prefix_append (hs p) hacc.prevLogIndex_lt
      · rename_i hfail
        exact hs.keep (Node.appendEntries_of_not_accepts
          (mt Node.appendEntries_success.2 hfail)).1 m
    | propose n e =>
      have happend : _ <+: ((s.arrays n).append grow _ [e]).current :=
        Arrays.prefix_append (hs n) le_rfl
      rw [List.take_length] at happend
      exact hs.update happend m

/-- **In every state of every run the arrays hold the logs.** -/
theorem holds_of_run (h : Machine.run (step cl grow) init tr = some s) : s.Holds :=
  Machine.run_invariant (I := Holds) (fun _ _ _ hs hstep => hs.step hstep)
    (fun _ => List.prefix_rfl) h

/-- **A request that is encoded at once goes out as it was built.** -/
theorem unwritten_of_build (h : Machine.run (step cl grow) init tr = some s)
    (hbuild : step cl grow s (.run (.buildRequest r p)) = some s') :
    s'.Unwritten (.encode r p) := by
  intro R' req' hR' hcall'
  obtain ⟨hw, harrays, hslices⟩ := step_run hbuild
  rw [harrays, hslices]
  generalize s'.world = w' at hw hR'
  cases step_cases hw with
  | buildRequest _ _ R req hR hcall hreq =>
    obtain rfl : R.setCall p (.sent req) = R' := by simpa [World.setRound] using hR'
    obtain rfl : req = req' := by simpa [Round.setCall] using hcall'
    obtain ⟨rest, hrest⟩ := holds_of_run h R.node
    unfold Node.buildRequest at hreq
    split at hreq
    · rename_i hrange
      obtain rfl := Option.some.inj hreq
      simp [Arrays.read, written, sliced, slice, hR, Round.setCall, ← hrest,
        List.drop_append_of_le_length hrange.2]
    · cases hreq

end Shared

end Stratum.Raft
