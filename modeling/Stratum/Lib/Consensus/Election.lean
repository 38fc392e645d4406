import Stratum.Lib.Consensus.Protocol

/-!
# At most one leader a term

`Elections` collects what the history says about terms, votes and offices: a vote of the
current term is the peer's vote, a candidate still has the log it campaigned with, an elected
peer leads until its term passes. Every move keeps it (`Elections.local`), for any guard on
taking over logs, so it holds in every reachable state (`Reachable.elections`).

**`Elections.elected_unique`**: two majorities share a voter, and a voter votes once a term.
-/

namespace Consensus

variable {ι ε : Type*} [Fintype ι]

/-- What the history says about terms, votes and offices. -/
structure Elections (τ : ε → ℕ) (s : State ι ε) : Prop where
  voted_term : ∀ {v c t W}, .voted v c t W ∈ s.history →
    t ≤ (s.peers v).term ∧ ((s.peers v).term = t → (s.peers v).vote = some c)
  voted_once : ∀ {v c c' t W W'}, .voted v c t W ∈ s.history → .voted v c' t W' ∈ s.history →
    c = c'
  voted_recent : ∀ {v c t W}, .voted v c t W ∈ s.history →
    ∃ C, .campaigned c t C ∈ s.history ∧ UpToDate τ C W
  campaigned_term : ∀ {n t C}, .campaigned n t C ∈ s.history → 0 < t ∧ t ≤ (s.peers n).term
  campaigned_once : ∀ {n t C C'}, .campaigned n t C ∈ s.history →
    .campaigned n t C' ∈ s.history → C = C'
  campaigned_voted : ∀ {n t C}, .campaigned n t C ∈ s.history → .voted n n t C ∈ s.history
  candidate : ∀ {n}, (s.peers n).role = .candidate →
    .campaigned n (s.peers n).term (s.peers n).log ∈ s.history
  elected_votes : ∀ {n t V E}, .elected n t V E ∈ s.history →
    Majority V ∧ ∀ v ∈ V, ∃ W, .voted v n t W ∈ s.history
  elected_term : ∀ {n t V E}, .elected n t V E ∈ s.history →
    t ≤ (s.peers n).term ∧ ((s.peers n).term = t → (s.peers n).role = .leader)
  leader : ∀ {n}, (s.peers n).role = .leader →
    ∃ V E, .elected n (s.peers n).term V E ∈ s.history
  sent_elected : ∀ {n t L c}, .sent n t L c ∈ s.history → ∃ V E, .elected n t V E ∈ s.history

variable {τ : ε → ℕ} {G : Peer ι ε → List ε → Prop} {s : State ι ε} {n m : ι} {p : Peer ι ε}
  {evs : List (Event ι ε)} {t : ℕ}

/-- **Election safety.** -/
theorem Elections.elected_unique [DecidableEq ι] (h : Elections τ s) {V V' : Finset ι}
    {E E' : List ε} (hn : .elected n t V E ∈ s.history) (hm : .elected m t V' E' ∈ s.history) :
    n = m := by
  obtain ⟨hV, hvotes⟩ := h.elected_votes hn
  obtain ⟨hV', hvotes'⟩ := h.elected_votes hm
  obtain ⟨v, hv, hv'⟩ := hV.exists_mem_both hV'
  obtain ⟨W, hW⟩ := hvotes v hv
  obtain ⟨W', hW'⟩ := hvotes' v hv'
  exact h.voted_once hW hW'

variable [DecidableEq ι]

/-- Terms never go back. -/
theorem Local.term_le_set (hl : Local τ G s n p evs) (m : ι) :
    (s.peers m).term ≤ ((s.set n p evs).peers m).term :=
  State.forall_set (φ := fun m q => (s.peers m).term ≤ q.term) hl.term_le
    (fun _ _ => le_rfl) m

/-! ### Every move keeps it -/

section Step

variable (h : Elections τ s) (hl : Local τ G s n p evs)

include h hl

variable {v c c' : ι} {W W' C E : List ε} {V : Finset ι}

private theorem voted_term_set (hm : .voted v c t W ∈ s.history ++ evs) :
    t ≤ ((s.set n p evs).peers v).term ∧
      (((s.set n p evs).peers v).term = t → ((s.set n p evs).peers v).vote = some c) := by
  rcases List.mem_append.1 hm with hm | hm
  · obtain ⟨hle, hvote⟩ := h.voted_term hm
    refine ⟨hle.trans (hl.term_le_set v), ?_⟩
    by_cases hv : v = n
    · subst hv
      rw [s.peers_set_self]
      intro ht
      have hterm : (s.peers v).term = t := le_antisymm (ht ▸ hl.term_le) hle
      exact hl.vote_kept (ht.trans hterm.symm) (hvote hterm)
    · rw [s.peers_set_of_ne _ _ hv]
      exact hvote
  · obtain ⟨rfl, rfl, hvote, -⟩ := hl.voted hm
    rw [s.peers_set_self]
    exact ⟨le_rfl, fun _ => hvote⟩

omit [DecidableEq ι] in
/-- A vote just given agrees with what was given before in its term. -/
private theorem voted_old_new (hm : .voted v c t W ∈ s.history) (hm' : .voted v c' t W' ∈ evs) :
    c = c' := by
  obtain ⟨rfl, rfl, -, -, hfree, -⟩ := hl.voted hm'
  obtain ⟨hle, hvote⟩ := h.voted_term hm
  have hterm : (s.peers v).term = p.term := le_antisymm hl.term_le hle
  rcases hfree hterm with hnone | hsome
  · rw [hvote hterm] at hnone
    cases hnone
  · rw [hvote hterm] at hsome
    exact Option.some.inj hsome

omit [DecidableEq ι] in
private theorem voted_once_set (hm : .voted v c t W ∈ s.history ++ evs)
    (hm' : .voted v c' t W' ∈ s.history ++ evs) :
    c = c' := by
  rcases List.mem_append.1 hm with hm | hm <;> rcases List.mem_append.1 hm' with hm' | hm'
  · exact h.voted_once hm hm'
  · exact voted_old_new h hl hm hm'
  · exact (voted_old_new h hl hm' hm).symm
  · obtain ⟨-, -, hvote, -⟩ := hl.voted hm
    obtain ⟨-, -, hvote', -⟩ := hl.voted hm'
    exact Option.some.inj (hvote.symm.trans hvote')

private theorem campaigned_term_set (hm : .campaigned m t C ∈ s.history ++ evs) :
    0 < t ∧ t ≤ ((s.set n p evs).peers m).term := by
  rcases List.mem_append.1 hm with hm | hm
  · obtain ⟨hpos, hle⟩ := h.campaigned_term hm
    exact ⟨hpos, hle.trans (hl.term_le_set m)⟩
  · obtain ⟨rfl, hlt, hterm, -⟩ := hl.campaigned hm
    rw [s.peers_set_self, hterm]
    exact ⟨Nat.zero_lt_of_lt hlt, le_rfl⟩

omit [DecidableEq ι] in
private theorem campaigned_once_set {C' : List ε} (hm : .campaigned m t C ∈ s.history ++ evs)
    (hm' : .campaigned m t C' ∈ s.history ++ evs) : C = C' := by
  -- a campaign is for a term later than all of the peer before
  have hnew : ∀ {C C'}, .campaigned m t C ∈ s.history → ¬ .campaigned m t C' ∈ evs := by
    intro C C' hm hm'
    obtain ⟨rfl, hlt, -⟩ := hl.campaigned hm'
    exact absurd (h.campaigned_term hm).2 hlt.not_ge
  rcases List.mem_append.1 hm with hm | hm <;> rcases List.mem_append.1 hm' with hm' | hm'
  · exact h.campaigned_once hm hm'
  · exact absurd hm' (hnew hm)
  · exact absurd hm (hnew hm')
  · exact (hl.campaigned hm).2.2.2.1.trans (hl.campaigned hm').2.2.2.1.symm

private theorem candidate_set (hr : ((s.set n p evs).peers m).role = .candidate) :
    .campaigned m ((s.set n p evs).peers m).term ((s.set n p evs).peers m).log ∈
      s.history ++ evs := by
  by_cases hm : m = n
  · subst hm
    rw [s.peers_set_self] at hr ⊢
    rcases hl.candidate hr with hnew | ⟨hold, hterm, hlog⟩
    · exact List.mem_append_right _ hnew
    · rw [hterm, hlog]
      exact List.mem_append_left _ (h.candidate hold)
  · rw [s.peers_set_of_ne _ _ hm] at hr ⊢
    exact List.mem_append_left _ (h.candidate hr)

omit [DecidableEq ι] in
private theorem elected_votes_set (hm : .elected m t V E ∈ s.history ++ evs) :
    Majority V ∧ ∀ v ∈ V, ∃ W, .voted v m t W ∈ s.history ++ evs := by
  have hvotes : Majority V ∧ ∀ v ∈ V, ∃ W, .voted v m t W ∈ s.history := by
    rcases List.mem_append.1 hm with hm | hm
    · exact h.elected_votes hm
    · obtain ⟨rfl, -, -, -, -, hvotes⟩ := hl.elected hm
      exact hvotes
  refine ⟨hvotes.1, fun v hv => ?_⟩
  obtain ⟨W, hW⟩ := hvotes.2 v hv
  exact ⟨W, List.mem_append_left _ hW⟩

private theorem elected_term_set (hm : .elected m t V E ∈ s.history ++ evs) :
    t ≤ ((s.set n p evs).peers m).term ∧
      (((s.set n p evs).peers m).term = t → ((s.set n p evs).peers m).role = .leader) := by
  rcases List.mem_append.1 hm with hm | hm
  · obtain ⟨hle, hlead⟩ := h.elected_term hm
    refine ⟨hle.trans (hl.term_le_set m), ?_⟩
    by_cases hmn : m = n
    · subst hmn
      rw [s.peers_set_self]
      intro ht
      have hterm : (s.peers m).term = t := le_antisymm (ht ▸ hl.term_le) hle
      rcases hl.of_leader (hlead hterm) with hlt | ⟨-, hr | ⟨k, L, c, hne, hsent⟩⟩
      · exact absurd ht (hterm ▸ hlt).ne'
      · exact hr
      · -- nobody else leads this term
        obtain ⟨V', E', hk⟩ := h.sent_elected (hterm ▸ hsent)
        exact absurd (h.elected_unique hk hm) hne
    · rw [s.peers_set_of_ne _ _ hmn]
      exact hlead
  · obtain ⟨rfl, rfl, rfl, -⟩ := hl.elected hm
    rw [s.peers_set_self]
    exact ⟨le_rfl, fun _ => rfl⟩

private theorem leader_set (hr : ((s.set n p evs).peers m).role = .leader) :
    ∃ V E, .elected m ((s.set n p evs).peers m).term V E ∈ s.history ++ evs := by
  by_cases hm : m = n
  · subst hm
    rw [s.peers_set_self] at hr ⊢
    obtain ⟨hterm, ⟨hold, -⟩ | ⟨⟨V, hnew⟩, -⟩⟩ := hl.leader hr
    · obtain ⟨V, E, hE⟩ := h.leader hold
      exact ⟨V, E, hterm ▸ List.mem_append_left _ hE⟩
    · exact ⟨V, _, hterm ▸ List.mem_append_right _ hnew⟩
  · rw [s.peers_set_of_ne _ _ hm] at hr ⊢
    obtain ⟨V, E, hE⟩ := h.leader hr
    exact ⟨V, E, List.mem_append_left _ hE⟩

omit [DecidableEq ι] in
private theorem sent_elected_set {L : List ε} {c : ℕ} (hm : .sent m t L c ∈ s.history ++ evs) :
    ∃ V E, .elected m t V E ∈ s.history ++ evs := by
  have hold : ∃ V E, .elected m t V E ∈ s.history := by
    rcases List.mem_append.1 hm with hm | hm
    · exact h.sent_elected hm
    · obtain ⟨rfl, -, -, -, helected⟩ := hl.sent hm
      exact helected
  obtain ⟨V, E, hE⟩ := hold
  exact ⟨V, E, List.mem_append_left _ hE⟩

/-- Every move keeps what the history says about terms, votes and offices. -/
theorem Elections.local : Elections τ (s.set n p evs) where
  voted_term := voted_term_set h hl
  voted_once := voted_once_set h hl
  voted_recent hm := by
    rcases List.mem_append.1 hm with hm | hm
    · obtain ⟨C, hC, hup⟩ := h.voted_recent hm
      exact ⟨C, List.mem_append_left _ hC, hup⟩
    · exact (hl.voted hm).2.2.2.2.2
  campaigned_term := campaigned_term_set h hl
  campaigned_once := campaigned_once_set h hl
  campaigned_voted hm := by
    rcases List.mem_append.1 hm with hm | hm
    · exact List.mem_append_left _ (h.campaigned_voted hm)
    · exact List.mem_append_right _ (hl.campaigned_voted hm)
  candidate := candidate_set h hl
  elected_votes := elected_votes_set h hl
  elected_term := elected_term_set h hl
  leader := leader_set h hl
  sent_elected := sent_elected_set h hl

end Step

omit [DecidableEq ι] in
theorem Elections.init (d : ε) : Elections τ (State.init d : State ι ε) := by
  constructor <;> simp [State.init]

/-- In every reachable state a term has at most one leader. -/
theorem Reachable.elections {d : ε} (h : Reachable τ G d s) : Elections τ s := by
  induction h with
  | refl => exact .init d
  | tail _ hmove ih =>
    obtain ⟨n, p, evs, hl, rfl⟩ := hmove
    exact ih.local hl

end Consensus
