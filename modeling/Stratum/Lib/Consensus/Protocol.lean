import Mathlib.Data.Fintype.Card
import Mathlib.Data.List.Infix
import Mathlib.Logic.Relation
import Mathlib.Logic.Function.Basic

/-!
# Leader-based log replication

An abstract protocol by which peers agree on one growing log. A peer has a term, a vote in
that term, a log whose entries carry the term they were made in (`τ`), and a number of entries
it takes as final. Nothing is said about messages on the wire: what a peer may rely on is the
**history**, the list of everything that has happened so far, which only grows.

* `Local τ G s n p evs` are the moves of peer `n`: it becomes `p` and `evs` is recorded. A vote
  is given once a term to a candidate whose log is at least as recent; a candidate with the
  votes of a majority is elected; a leader appends entries of its own term; whoever was elected
  in a term may publish its current log under that term, **at any later moment**; a peer in that
  term may take over a published log as a whole, when `G` allows it.
* `Move` lifts them to the whole system, `Reachable` to runs.
* The lemmas `Local.voted`, `Local.elected`, ... say for each kind of event when it is recorded;
  every invariant is proved from them.

The guard `G` is a parameter: election and log matching hold for every `G`, agreement on the
final entries does not.
-/

namespace Consensus

variable {ι ε : Type*}

/-- What a peer is in its current term. -/
inductive Role
  | follower
  | candidate
  | leader
deriving DecidableEq, Repr

/-- A peer: its role, term and vote, its log, and the index up to which the log is final. -/
structure Peer (ι ε : Type*) where
  role : Role
  term : ℕ
  vote : Option ι
  log : List ε
  commit : ℕ

/-- What can happen. Each event carries the log of the peer it happens at. -/
inductive Event (ι ε : Type*)
  | campaigned (n : ι) (t : ℕ) (log : List ε)
  | voted (v c : ι) (t : ℕ) (log : List ε)
  | elected (n : ι) (t : ℕ) (voters : Finset ι) (log : List ε)
  | proposed (n : ι) (t : ℕ) (log : List ε)
  | sent (n : ι) (t : ℕ) (log : List ε) (commit : ℕ)
  | accepted (n : ι) (t : ℕ) (log : List ε)
  | applied (n : ι) (i : ℕ) (e : ε)
deriving DecidableEq

/-- The peers and all that has happened. -/
structure State (ι ε : Type*) where
  peers : ι → Peer ι ε
  history : List (Event ι ε)

/-! ### Majorities -/

section Majority

variable [Fintype ι]

/-- More than half of all peers. -/
def Majority (Q : Finset ι) : Prop :=
  Fintype.card ι < 2 * Q.card

/-- Two majorities have a peer in common. -/
theorem Majority.exists_mem_both [DecidableEq ι] {A B : Finset ι} (hA : Majority A)
    (hB : Majority B) : ∃ i, i ∈ A ∧ i ∈ B := by
  have hcard : (Finset.univ : Finset ι).card < A.card + B.card := by
    unfold Majority at hA hB
    rw [Finset.card_univ]
    omega
  obtain ⟨i, hi⟩ := Finset.inter_nonempty_of_card_lt_card_add_card
    (Finset.subset_univ A) (Finset.subset_univ B) hcard
  exact ⟨i, Finset.mem_inter.1 hi⟩

end Majority

/-! ### Logs -/

section Logs

variable (τ : ε → ℕ)

/-- The term of the last entry. -/
def lastTerm (L : List ε) : ℕ :=
  (L.getLast?.map τ).getD 0

@[simp] theorem lastTerm_concat (L : List ε) (e : ε) : lastTerm τ (L ++ [e]) = τ e := by
  simp [lastTerm]

/-- `C` is at least as recent as `W`: a later last term, or the same one and no shorter. -/
def UpToDate (C W : List ε) : Prop :=
  lastTerm τ W < lastTerm τ C ∨ lastTerm τ C = lastTerm τ W ∧ W.length ≤ C.length

theorem UpToDate.refl (L : List ε) : UpToDate τ L L :=
  .inr ⟨rfl, le_rfl⟩

end Logs

/-- Peer `q` has held `P` in term `t`: it took over a log that begins with `P`, or made one. -/
def Acked (h : List (Event ι ε)) (q : ι) (t : ℕ) (P : List ε) : Prop :=
  ∃ L, (.accepted q t L ∈ h ∨ .proposed q t L ∈ h) ∧ P <+: L

/-- What a majority has held in the term it was made in. -/
def Committed [Fintype ι] (h : List (Event ι ε)) (t : ℕ) (P : List ε) : Prop :=
  (∃ m, .proposed m t P ∈ h) ∧ ∃ Q : Finset ι, Majority Q ∧ ∀ q ∈ Q, Acked h q t P

/-! ### Moves -/

section Moves

variable [Fintype ι] (τ : ε → ℕ) (G : Peer ι ε → List ε → Prop)

/-- The moves of peer `n`: what it becomes and what is recorded. -/
inductive Local (s : State ι ε) (n : ι) : Peer ι ε → List (Event ι ε) → Prop
  /-- Stand for election in the next term, with one's own vote. -/
  | campaign : Local s n
      { s.peers n with role := .candidate, term := (s.peers n).term + 1, vote := some n }
      [.campaigned n ((s.peers n).term + 1) (s.peers n).log,
        .voted n n ((s.peers n).term + 1) (s.peers n).log]
  /-- Learn of a later term. -/
  | adopt {t : ℕ} (later : (s.peers n).term < t) : Local s n
      { s.peers n with role := .follower, term := t, vote := none } []
  /-- Vote for a candidate of the current term. -/
  | grant {c : ι} {C : List ε} (campaigned : .campaigned c (s.peers n).term C ∈ s.history)
      (free : (s.peers n).vote = none ∨ (s.peers n).vote = some c)
      (recent : UpToDate τ C (s.peers n).log) : Local s n
      { s.peers n with vote := some c } [.voted n c (s.peers n).term (s.peers n).log]
  /-- Win the election of the current term. -/
  | elect {V : Finset ι} (candidate : (s.peers n).role = .candidate) (majority : Majority V)
      (votes : ∀ v ∈ V, ∃ W, .voted v n (s.peers n).term W ∈ s.history) : Local s n
      { s.peers n with role := .leader } [.elected n (s.peers n).term V (s.peers n).log]
  /-- Hear from the other peer that leads the current term. -/
  | follow {m : ι} {L : List ε} {c : ℕ} (other : m ≠ n)
      (sent : .sent m (s.peers n).term L c ∈ s.history) : Local s n
      { s.peers n with role := .follower } []
  /-- Append an entry, as the leader. -/
  | propose {e : ε} (leader : (s.peers n).role = .leader) (term : τ e = (s.peers n).term) :
      Local s n { s.peers n with log := (s.peers n).log ++ [e] }
        [.proposed n (s.peers n).term ((s.peers n).log ++ [e])]
  /-- Publish the current log under a term one was elected in. -/
  | send {t : ℕ} {V : Finset ι} {E : List ε} (elected : .elected n t V E ∈ s.history) :
      Local s n (s.peers n) [.sent n t (s.peers n).log (s.peers n).commit]
  /-- Take over a log published under the current term. -/
  | accept {m : ι} {L : List ε} {c : ℕ} (follower : (s.peers n).role = .follower) (other : m ≠ n)
      (sent : .sent m (s.peers n).term L c ∈ s.history) (guard : G (s.peers n) L) :
      Local s n { s.peers n with log := L } [.accepted n (s.peers n).term L]
  /-- As the leader, take as final what a majority has held in the current term. -/
  | advance {i : ℕ} (leader : (s.peers n).role = .leader) (inLog : i < (s.peers n).log.length)
      (committed : Committed s.history (s.peers n).term ((s.peers n).log.take (i + 1))) :
      Local s n { s.peers n with commit := i } []
  /-- Take as final what the publisher of one's log took as final. -/
  | learn {m : ι} {c : ℕ} (sent : .sent m (s.peers n).term (s.peers n).log c ∈ s.history) :
      Local s n { s.peers n with commit := min c ((s.peers n).log.length - 1) } []
  /-- Hand a final entry to the application. -/
  | apply {i : ℕ} {e : ε} (final : i ≤ (s.peers n).commit) (entry : (s.peers n).log[i]? = some e) :
      Local s n (s.peers n) [.applied n i e]

end Moves

section System

variable [DecidableEq ι]

/-- Peer `n` becomes `p` and `evs` is recorded. -/
def State.set (s : State ι ε) (n : ι) (p : Peer ι ε) (evs : List (Event ι ε)) : State ι ε :=
  ⟨Function.update s.peers n p, s.history ++ evs⟩

@[simp] theorem State.peers_set_self (s : State ι ε) (n : ι) (p : Peer ι ε)
    (evs : List (Event ι ε)) : (s.set n p evs).peers n = p := by
  simp [State.set]

@[simp] theorem State.peers_set_of_ne (s : State ι ε) {n m : ι} (p : Peer ι ε)
    (evs : List (Event ι ε)) (h : m ≠ n) : (s.set n p evs).peers m = s.peers m := by
  simp [State.set, h]

/-- What holds of the peer that moves and of every other one, holds of every peer after the
move. -/
theorem State.forall_set {s : State ι ε} {n : ι} {p : Peer ι ε} {evs : List (Event ι ε)}
    {φ : ι → Peer ι ε → Prop} (hn : φ n p) (h : ∀ m ≠ n, φ m (s.peers m)) :
    ∀ m, φ m ((s.set n p evs).peers m) := by
  intro m
  by_cases hm : m = n
  · subst hm
    rwa [s.peers_set_self]
  · rw [s.peers_set_of_ne _ _ hm]
    exact h m hm

variable [Fintype ι] (τ : ε → ℕ) (G : Peer ι ε → List ε → Prop)

/-- One move of one peer. -/
def Move (s s' : State ι ε) : Prop :=
  ∃ n p evs, Local τ G s n p evs ∧ s' = s.set n p evs

/-- Moves of peer `n` one after the other: in the end it is `p`, and `evs` is recorded. -/
def Moves (s : State ι ε) (n : ι) (p : Peer ι ε) (evs : List (Event ι ε)) : Prop :=
  Relation.ReflTransGen (Move τ G) s (s.set n p evs)

/-- Every peer a follower in term `0`, its log the entry `d` alone. -/
def State.init (d : ε) : State ι ε :=
  ⟨fun _ => ⟨.follower, 0, none, [d], 0⟩, []⟩

/-- What runs from the first state reach. -/
def Reachable (d : ε) (s : State ι ε) : Prop :=
  Relation.ReflTransGen (Move τ G) (State.init d) s

variable {τ G} {s : State ι ε} {n : ι} {p p' : Peer ι ε} {evs evs' : List (Event ι ε)}

theorem Moves.refl : Moves τ G s n (s.peers n) [] := by
  have hs : s.set n (s.peers n) [] = s := by
    simp [State.set]
  rw [Moves, hs]

theorem Local.moves (h : Local τ G s n p evs) : Moves τ G s n p evs :=
  .single ⟨n, p, evs, h, rfl⟩

/-- One series of moves after another. -/
theorem Moves.trans (h : Moves τ G s n p evs) (h' : Moves τ G (s.set n p evs) n p' evs') :
    Moves τ G s n p' (evs ++ evs') := by
  have hset : (s.set n p evs).set n p' evs' = s.set n p' (evs ++ evs') := by
    simp [State.set]
  rw [Moves, hset] at h'
  exact Relation.ReflTransGen.trans h h'

end System

/-! ### What a move can do -/

section Inversion

variable [Fintype ι] {τ : ε → ℕ} {G : Peer ι ε → List ε → Prop} {s : State ι ε} {n m : ι}
  {p : Peer ι ε} {evs : List (Event ι ε)} {t : ℕ} {L : List ε} (h : Local τ G s n p evs)

include h

theorem Local.term_le : (s.peers n).term ≤ p.term := by
  rcases h with _ | hlater | _ | _ | _ | _ | _ | _ | _ | _ | _
  case campaign => exact Nat.le_succ _
  case adopt => exact hlater.le
  all_goals exact le_rfl

/-- Within a term a vote is final. -/
theorem Local.vote_kept (hterm : p.term = (s.peers n).term) {c : ι}
    (hvote : (s.peers n).vote = some c) : p.vote = some c := by
  rcases h with _ | hlater | ⟨_, hfree, _⟩ | _ | _ | _ | _ | _ | _ | _ | _
  case campaign => simp at hterm
  case adopt => exact absurd hterm hlater.ne'
  case grant =>
    rcases hfree with hfree | hfree
    · rw [hvote] at hfree
      cases hfree
    · rw [← hfree, hvote]
  all_goals exact hvote

/-- A vote is given in the current term, by a peer that has no other vote in it, to a candidate
that is up to date with its log. -/
theorem Local.voted {v c : ι} (hm : .voted v c t L ∈ evs) :
    v = n ∧ t = p.term ∧ p.vote = some c ∧ L = (s.peers n).log ∧
      ((s.peers n).term = t → (s.peers n).vote = none ∨ (s.peers n).vote = some c) ∧
        ∃ C, .campaigned c t C ∈ s.history ++ evs ∧ UpToDate τ C L := by
  rcases h with _ | _ | ⟨hc, hfree, hup⟩ | _ | _ | _ | _ | _ | _ | _ | _
  case campaign =>
    simp only [List.mem_cons, reduceCtorEq, List.not_mem_nil, or_false, false_or,
      Event.voted.injEq] at hm
    obtain ⟨rfl, rfl, rfl, rfl⟩ := hm
    exact ⟨rfl, rfl, rfl, rfl, fun h => absurd h (Nat.ne_of_lt (Nat.lt_succ_self _)),
      _, List.mem_append_right _ List.mem_cons_self, .refl τ _⟩
  case grant =>
    simp only [List.mem_singleton, Event.voted.injEq] at hm
    obtain ⟨rfl, rfl, rfl, rfl⟩ := hm
    exact ⟨rfl, rfl, rfl, rfl, fun _ => hfree, _, List.mem_append_left _ hc, hup⟩
  all_goals simp at hm

/-- A campaign is for a new term and leaves the log as it is. -/
theorem Local.campaigned (hm : .campaigned m t L ∈ evs) :
    m = n ∧ (s.peers n).term < t ∧ p.term = t ∧ L = (s.peers n).log ∧ p.log = L ∧
      p.role = .candidate := by
  rcases h with _ | _ | _ | _ | _ | _ | _ | _ | _ | _ | _
  case campaign =>
    simp only [List.mem_cons, reduceCtorEq, List.not_mem_nil, or_false,
      Event.campaigned.injEq] at hm
    obtain ⟨rfl, rfl, rfl⟩ := hm
    exact ⟨rfl, Nat.lt_succ_self _, rfl, rfl, rfl, rfl⟩
  all_goals simp at hm

/-- Whoever campaigns votes for itself. -/
theorem Local.campaigned_voted (hm : .campaigned m t L ∈ evs) : .voted m m t L ∈ evs := by
  rcases h
  case campaign =>
    simp only [List.mem_cons, reduceCtorEq, List.not_mem_nil, or_false,
      Event.campaigned.injEq] at hm
    obtain ⟨rfl, rfl, rfl⟩ := hm
    exact List.mem_cons_of_mem _ List.mem_cons_self
  all_goals simp at hm

/-- Only a candidate is elected, in its term and by a majority of votes. -/
theorem Local.elected {V : Finset ι} (hm : .elected m t V L ∈ evs) :
    m = n ∧ t = (s.peers n).term ∧ p = { s.peers n with role := .leader } ∧
      L = (s.peers n).log ∧ (s.peers n).role = .candidate ∧ Majority V ∧
        ∀ v ∈ V, ∃ W, .voted v n t W ∈ s.history := by
  rcases h with _ | _ | _ | ⟨hcand, hV, hvotes⟩ | _ | _ | _ | _ | _ | _ | _
  case elect =>
    simp only [List.mem_singleton, Event.elected.injEq] at hm
    obtain ⟨rfl, rfl, rfl, rfl⟩ := hm
    exact ⟨rfl, rfl, rfl, rfl, hcand, hV, hvotes⟩
  all_goals simp at hm

/-- Only a leader makes entries, at the end of its log and with its term. -/
theorem Local.proposed (hm : .proposed m t L ∈ evs) :
    m = n ∧ t = (s.peers n).term ∧ (s.peers n).role = .leader ∧ p = { s.peers n with log := L } ∧
      ∃ e, τ e = t ∧ L = (s.peers n).log ++ [e] := by
  rcases h with _ | _ | _ | _ | _ | ⟨hlead, hterm⟩ | _ | _ | _ | _ | _
  case propose =>
    simp only [List.mem_singleton, Event.proposed.injEq] at hm
    obtain ⟨rfl, rfl, rfl⟩ := hm
    exact ⟨rfl, rfl, hlead, rfl, _, hterm, rfl⟩
  all_goals simp at hm

/-- What is published is the current log, under a term one was elected in. -/
theorem Local.sent {c : ℕ} (hm : .sent m t L c ∈ evs) :
    m = n ∧ L = (s.peers n).log ∧ c = (s.peers n).commit ∧ p = s.peers n ∧
      ∃ V E, .elected n t V E ∈ s.history := by
  rcases h with _ | _ | _ | _ | _ | _ | helected | _ | _ | _ | _
  case send =>
    simp only [List.mem_singleton, Event.sent.injEq] at hm
    obtain ⟨rfl, rfl, rfl, rfl⟩ := hm
    exact ⟨rfl, rfl, rfl, rfl, _, _, helected⟩
  all_goals simp at hm

/-- What is taken over was published by another peer under the current term. -/
theorem Local.accepted (hm : .accepted m t L ∈ evs) :
    m = n ∧ t = (s.peers n).term ∧ (s.peers n).role = .follower ∧
      p = { s.peers n with log := L } ∧ G (s.peers n) L ∧
        ∃ k c, k ≠ n ∧ .sent k t L c ∈ s.history := by
  rcases h with _ | _ | _ | _ | _ | _ | _ | ⟨hfoll, hother, hsent, hguard⟩ | _ | _ | _
  case accept =>
    simp only [List.mem_singleton, Event.accepted.injEq] at hm
    obtain ⟨rfl, rfl, rfl⟩ := hm
    exact ⟨rfl, rfl, hfoll, rfl, hguard, _, _, hother, hsent⟩
  all_goals simp at hm

/-- A move that makes an entry records nothing else. -/
theorem Local.eq_of_proposed (hm : .proposed m t L ∈ evs) : evs = [.proposed m t L] := by
  rcases h
  case propose => rw [List.mem_singleton.1 hm]
  all_goals simp at hm

/-- Only final entries are handed over. -/
theorem Local.applied {i : ℕ} {e : ε} (hm : .applied m i e ∈ evs) :
    m = n ∧ i ≤ (s.peers n).commit ∧ (s.peers n).log[i]? = some e := by
  rcases h with _ | _ | _ | _ | _ | _ | _ | _ | _ | _ | ⟨hfinal, hentry⟩
  case apply =>
    simp only [List.mem_singleton, Event.applied.injEq] at hm
    obtain ⟨rfl, rfl, rfl⟩ := hm
    exact ⟨rfl, hfinal, hentry⟩
  all_goals simp at hm

/-- A log stays, grows at the leader, or is taken over. -/
theorem Local.log_cases : p.log = (s.peers n).log ∨ .proposed n (s.peers n).term p.log ∈ evs ∨
      .accepted n (s.peers n).term p.log ∈ evs := by
  rcases h <;> simp

/-- A candidate has just begun its campaign, or was one with the same term and log. -/
theorem Local.candidate (hr : p.role = .candidate) : .campaigned n p.term p.log ∈ evs ∨
      (s.peers n).role = .candidate ∧ p.term = (s.peers n).term ∧ p.log = (s.peers n).log := by
  rcases h with _ | _ | _ | _ | _ | hlead | _ | hfoll | _ | _ | _
  case campaign => simp
  case adopt => cases hr
  case elect => cases hr
  case follow => cases hr
  case propose => rw [hlead] at hr; cases hr
  case accept => rw [hfoll] at hr; cases hr
  all_goals exact .inr ⟨hr, rfl, rfl⟩

/-- A leader has just been elected, or was one in the same term and with a beginning of its
log. -/
theorem Local.leader (hr : p.role = .leader) : p.term = (s.peers n).term ∧
      ((s.peers n).role = .leader ∧ (s.peers n).log <+: p.log ∨
        (∃ V, .elected n (s.peers n).term V (s.peers n).log ∈ evs) ∧
          p.log = (s.peers n).log) := by
  rcases h with _ | _ | _ | _ | _ | hlead | _ | hfoll | _ | _ | _
  case campaign => cases hr
  case adopt => cases hr
  case elect => exact ⟨rfl, .inr ⟨⟨_, List.mem_singleton_self _⟩, rfl⟩⟩
  case follow => cases hr
  case propose => exact ⟨rfl, .inl ⟨hlead, List.prefix_append _ _⟩⟩
  case accept => rw [hfoll] at hr; cases hr
  all_goals exact ⟨rfl, .inl ⟨hr, List.prefix_rfl⟩⟩

/-- A leader leaves office with its term, or because another peer leads that term. -/
theorem Local.of_leader (hr : (s.peers n).role = .leader) :
    (s.peers n).term < p.term ∨ p.term = (s.peers n).term ∧
      (p.role = .leader ∨ ∃ k L c, k ≠ n ∧ .sent k (s.peers n).term L c ∈ s.history) := by
  rcases h with _ | hlater | _ | hcand | ⟨hother, hsent⟩ | _ | _ | _ | _ | _ | _
  case campaign => exact .inl (Nat.lt_succ_self _)
  case adopt => exact .inl hlater
  case elect => exact .inr ⟨rfl, .inl rfl⟩
  case follow => exact .inr ⟨rfl, .inr ⟨_, _, _, hother, hsent⟩⟩
  all_goals exact .inr ⟨rfl, .inl hr⟩

/-- What is final changes at a leader that knows a majority, or with what a publisher knew. -/
theorem Local.commit_cases : p.commit = (s.peers n).commit ∨
      p.log = (s.peers n).log ∧ p.commit < p.log.length ∧
          Committed s.history (s.peers n).term (p.log.take (p.commit + 1)) ∨
        p.log = (s.peers n).log ∧ ∃ m c, .sent m (s.peers n).term p.log c ∈ s.history ∧
          p.commit = min c (p.log.length - 1) := by
  rcases h with _ | _ | _ | _ | _ | _ | _ | _ | ⟨_, hin, hcomm⟩ | hsent | _
  case advance => exact .inr (.inl ⟨rfl, hin, hcomm⟩)
  case learn => exact .inr (.inr ⟨rfl, _, _, hsent, rfl⟩)
  all_goals exact .inl rfl

end Inversion

end Consensus
