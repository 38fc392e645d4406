import Stratum.Lib.Consensus.Election

/-!
# Log matching

A log is **canonical** when each of its beginnings was, at the moment its last entry was made,
the whole log of the leader that made it (`Canon`). All logs are canonical, those of the peers
and those on record, whoever published them and under whatever term (`Logs`): a canonical log
is taken over as a whole or grows at a leader, and one leader's logs form a chain.

* **`Logs.matching`**: two canonical logs with an entry of the same term at the same index agree
  up to it.
* `Terms`: whoever is elected has only entries of earlier terms, and a leader none of later ones.
  A candidate with an entry of a later term cannot win: the majority that elected the maker of
  that entry had left the candidate's term before it campaigned.

Both hold for any guard on taking over logs.
-/

namespace Consensus

variable {ι ε : Type*}

/-- The log an event carries. -/
def Event.log? : Event ι ε → Option (List ε)
  | .campaigned _ _ L | .voted _ _ _ L | .elected _ _ _ L => some L
  | .proposed _ _ L | .sent _ _ L _ | .accepted _ _ L => some L
  | .applied _ _ _ => none

/-- Every beginning of `L` beyond the first entry `d` was once the whole log of the leader that
made its last entry. -/
def Canon (τ : ε → ℕ) (d : ε) (h : List (Event ι ε)) (L : List ε) : Prop :=
  [d] <+: L ∧ ∀ Q e, Q ++ [e] <+: L → Q ≠ [] → ∃ n, .proposed n (τ e) (Q ++ [e]) ∈ h

section Canon

variable {τ : ε → ℕ} {d : ε} {h h' : List (Event ι ε)} {L : List ε}

theorem Canon.mono (hL : Canon τ d h L) (hh : h ⊆ h') : Canon τ d h' L := by
  refine ⟨hL.1, fun Q e hQ hne => ?_⟩
  obtain ⟨n, hn⟩ := hL.2 Q e hQ hne
  exact ⟨n, hh hn⟩

theorem Canon.singleton : Canon τ d h [d] := by
  refine ⟨List.prefix_rfl, fun Q e hQ hne => ?_⟩
  have hlen := hQ.length_le
  simp only [List.length_append, List.length_singleton] at hlen
  exact absurd (List.length_eq_zero_iff.1 (by omega)) hne

theorem Canon.ne_nil (hL : Canon τ d h L) : L ≠ [] := by
  rintro rfl
  simpa using hL.1.length_le

/-- The log of the leader after it made an entry. -/
theorem Canon.concat (hL : Canon τ d h L) {n : ι} {e : ε}
    (hn : .proposed n (τ e) (L ++ [e]) ∈ h) : Canon τ d h (L ++ [e]) := by
  refine ⟨hL.1.trans (List.prefix_append _ _), fun Q e' hQ hne => ?_⟩
  rcases List.prefix_concat_iff.1 hQ with hQ | hQ
  · obtain ⟨rfl, he⟩ := List.append_inj' hQ rfl
    obtain rfl := List.singleton_inj.1 he
    exact ⟨n, hn⟩
  · exact hL.2 Q e' hQ hne

/-- A canonical log longer than its first entry is what the maker of its last entry had. -/
theorem Canon.proposed (hL : Canon τ d h L) (hlen : 1 < L.length) :
    ∃ n, .proposed n (lastTerm τ L) L ∈ h := by
  obtain ⟨Q, e, rfl⟩ := (List.eq_nil_or_concat' L).resolve_left hL.ne_nil
  rw [lastTerm_concat]
  refine hL.2 Q e List.prefix_rfl ?_
  rintro rfl
  simp at hlen

/-- Each entry but the first one was made by the leader of its term. -/
theorem Canon.of_mem (hL : Canon τ d h L) {e : ε} (he : e ∈ L) :
    e = d ∨ ∃ n P, .proposed n (τ e) P ∈ h := by
  obtain ⟨A, B, rfl⟩ := List.append_of_mem he
  rcases A with _ | ⟨a, A⟩
  · left
    exact (List.cons_prefix_cons.1 hL.1).1.symm
  · right
    obtain ⟨n, hn⟩ := hL.2 (a :: A) e ⟨B, by simp⟩ (List.cons_ne_nil _ _)
    exact ⟨n, _, hn⟩

end Canon

/-- All logs are canonical, each leader's logs form a chain, and what it published is on it. -/
structure Logs (τ : ε → ℕ) (d : ε) (s : State ι ε) : Prop where
  log : ∀ n, Canon τ d s.history (s.peers n).log
  recorded : ∀ {ev L}, ev ∈ s.history → ev.log? = some L → Canon τ d s.history L
  proposed_elected : ∀ {n t P}, .proposed n t P ∈ s.history →
    ∃ V E, .elected n t V E ∈ s.history ∧ E <+: P
  proposed_last : ∀ {n t P}, .proposed n t P ∈ s.history → 1 < P.length ∧ lastTerm τ P = t
  comparable : ∀ {n m t P P'}, .proposed n t P ∈ s.history → .proposed m t P' ∈ s.history →
    P <+: P' ∨ P' <+: P
  sent_prefix : ∀ {n t L c}, .sent n t L c ∈ s.history → (s.peers n).term = t →
    L <+: (s.peers n).log
  leader_elected : ∀ {n V E}, (s.peers n).role = .leader →
    .elected n (s.peers n).term V E ∈ s.history → E <+: (s.peers n).log
  leader_proposed : ∀ {n P}, (s.peers n).role = .leader →
    .proposed n (s.peers n).term P ∈ s.history → P <+: (s.peers n).log

variable {τ : ε → ℕ} {d : ε} {G : Peer ι ε → List ε → Prop} {s : State ι ε} {n m : ι}
  {p : Peer ι ε} {evs : List (Event ι ε)} {t : ℕ}

/-- Two lists that agree on the entry at `i` and before it. -/
private theorem take_succ_eq_concat {L : List ε} {i : ℕ} {e : ε} (he : L[i]? = some e) :
    L.take (i + 1) = L.take i ++ [e] := by
  rw [List.take_add_one, he]
  rfl

/-- **Log matching.** -/
theorem Logs.matching (h : Logs τ d s) {L L' : List ε} (hL : Canon τ d s.history L)
    (hL' : Canon τ d s.history L') {i : ℕ} {e e' : ε} (he : L[i]? = some e)
    (he' : L'[i]? = some e') (hterm : τ e = τ e') : L.take (i + 1) = L'.take (i + 1) := by
  have hi : i < L.length := (List.getElem?_eq_some_iff.1 he).1
  have hi' : i < L'.length := (List.getElem?_eq_some_iff.1 he').1
  rcases Nat.eq_zero_or_pos i with rfl | hpos
  · -- at index 0 both have the first entry
    obtain ⟨R, rfl⟩ := hL.1
    obtain ⟨R', rfl⟩ := hL'.1
    rfl
  · -- both beginnings were the log of the leader of that term, so one begins the other
    have hproposed : ∀ {K : List ε} {x : ε}, Canon τ d s.history K → i < K.length →
        K[i]? = some x → ∃ n, .proposed n (τ x) (K.take (i + 1)) ∈ s.history := by
      intro K x hK hlen hx
      rw [take_succ_eq_concat hx]
      refine hK.2 _ _ ?_ ?_
      · rw [← take_succ_eq_concat hx]
        exact List.take_prefix _ _
      · exact List.ne_nil_of_length_pos (by rw [List.length_take]; omega)
    obtain ⟨n, hn⟩ := hproposed hL hi he
    obtain ⟨n', hn'⟩ := hproposed hL' hi' he'
    have hlen : (L.take (i + 1)).length = (L'.take (i + 1)).length := by
      rw [List.length_take, List.length_take]
      omega
    rcases h.comparable hn (hterm ▸ hn') with hpre | hpre
    · exact hpre.eq_of_length hlen
    · exact (hpre.eq_of_length hlen.symm).symm

variable [Fintype ι] [DecidableEq ι]

/-- Whatever was made in a leader's term is in its log. -/
theorem Logs.proposed_prefix_leader (h : Logs τ d s) (he : Elections τ s)
    (hr : (s.peers n).role = .leader) {P : List ε}
    (hP : .proposed m (s.peers n).term P ∈ s.history) : P <+: (s.peers n).log := by
  obtain ⟨V, E, hE⟩ := he.leader hr
  obtain ⟨V', E', hE', -⟩ := h.proposed_elected hP
  obtain rfl := he.elected_unique hE hE'
  exact h.leader_proposed hr hP

/-! ### Every move keeps it -/

section Step

variable (he : Elections τ s) (h : Logs τ d s) (hl : Local τ G s n p evs)

variable {L P : List ε}

omit [DecidableEq ι] in
include hl in
/-- The log that a new event carries is that of the peer, before or after. -/
private theorem event_log {ev : Event ι ε} (hev : ev ∈ evs) (hL : ev.log? = some L) :
    L = (s.peers n).log ∨ L = p.log := by
  rcases hl
  case campaign =>
    rcases List.mem_pair.1 hev with rfl | rfl <;> exact .inl (Option.some.inj hL).symm
  case adopt => cases hev
  case follow => cases hev
  case advance => cases hev
  case learn => cases hev
  case apply =>
    obtain rfl := List.mem_singleton.1 hev
    cases hL
  all_goals
    obtain rfl := List.mem_singleton.1 hev
    first
    | exact .inl (Option.some.inj hL).symm
    | exact .inr (Option.some.inj hL).symm

include h hl

omit [DecidableEq ι] in
private theorem canon_moved : Canon τ d (s.history ++ evs) p.log := by
  have hsub : s.history ⊆ s.history ++ evs := List.subset_append_left _ _
  rcases hl.log_cases with hlog | hnew | hnew
  · rw [hlog]
    exact (h.log n).mono hsub
  · obtain ⟨-, -, -, -, e, hterm, hP⟩ := hl.proposed hnew
    rw [hP] at hnew ⊢
    exact ((h.log n).mono hsub).concat (hterm ▸ List.mem_append_right _ hnew)
  · obtain ⟨-, -, -, -, -, k, c, -, hsent⟩ := hl.accepted hnew
    exact (h.recorded hsent rfl).mono hsub

omit [DecidableEq ι] in
private theorem recorded_set {ev : Event ι ε} (hev : ev ∈ s.history ++ evs)
    (hL : ev.log? = some L) :
    Canon τ d (s.history ++ evs) L := by
  have hsub : s.history ⊆ s.history ++ evs := List.subset_append_left _ _
  rcases List.mem_append.1 hev with hev | hev
  · exact (h.recorded hev hL).mono hsub
  · rcases event_log hl hev hL with rfl | rfl
    · exact (h.log n).mono hsub
    · exact canon_moved h hl

include he

omit h in
/-- A term is won once. -/
private theorem elected_new {V V' : Finset ι} {E E' : List ε} (hnew : .elected n t V E ∈ evs)
    (hold : .elected m t V' E' ∈ s.history) : False := by
  have hmn : m = n := (he.local hl).elected_unique (List.mem_append_left _ hold)
    (List.mem_append_right _ hnew)
  subst hmn
  obtain ⟨-, rfl, -, -, hcand, -⟩ := hl.elected hnew
  rw [(he.elected_term hold).2 rfl] at hcand
  cases hcand

omit [DecidableEq ι] in
private theorem proposed_elected_set (hm : .proposed m t P ∈ s.history ++ evs) :
    ∃ V E, .elected m t V E ∈ s.history ++ evs ∧ E <+: P := by
  have hold : ∃ V E, .elected m t V E ∈ s.history ∧ E <+: P := by
    rcases List.mem_append.1 hm with hm | hm
    · exact h.proposed_elected hm
    · obtain ⟨rfl, rfl, hlead, -, e, -, rfl⟩ := hl.proposed hm
      obtain ⟨V, E, hE⟩ := he.leader hlead
      exact ⟨V, E, hE, (h.leader_elected hlead hE).trans (List.prefix_append _ _)⟩
  obtain ⟨V, E, hE, hpre⟩ := hold
  exact ⟨V, E, List.mem_append_left _ hE, hpre⟩

omit he [DecidableEq ι] in
private theorem proposed_last_set (hm : .proposed m t P ∈ s.history ++ evs) :
    1 < P.length ∧ lastTerm τ P = t := by
  rcases List.mem_append.1 hm with hm | hm
  · exact h.proposed_last hm
  · obtain ⟨-, -, -, -, e, rfl, rfl⟩ := hl.proposed hm
    refine ⟨?_, lastTerm_concat τ _ e⟩
    have hpos := List.length_pos_of_ne_nil (h.log n).ne_nil
    rw [List.length_append, List.length_singleton]
    omega

private theorem proposed_old_new {k : ι} {P' : List ε} (hm : .proposed m t P ∈ s.history)
    (hm' : .proposed k t P' ∈ evs) : P <+: P' := by
  obtain ⟨-, rfl, hlead, -, e, -, rfl⟩ := hl.proposed hm'
  exact (h.proposed_prefix_leader he hlead hm).trans (List.prefix_append _ _)

private theorem comparable_set {k : ι} {P' : List ε} (hm : .proposed m t P ∈ s.history ++ evs)
    (hm' : .proposed k t P' ∈ s.history ++ evs) : P <+: P' ∨ P' <+: P := by
  rcases List.mem_append.1 hm with hm | hm <;> rcases List.mem_append.1 hm' with hm' | hm'
  · exact h.comparable hm hm'
  · exact .inl (proposed_old_new he h hl hm hm')
  · exact .inr (proposed_old_new he h hl hm' hm)
  · obtain ⟨-, -, -, hp, -⟩ := hl.proposed hm
    obtain ⟨-, -, -, hp', -⟩ := hl.proposed hm'
    have hlog : P = P' := congrArg Peer.log (hp.symm.trans hp')
    exact .inl (hlog ▸ List.prefix_rfl)

private theorem sent_prefix_set {c : ℕ} (hm : .sent m t L c ∈ s.history ++ evs)
    (hterm : ((s.set n p evs).peers m).term = t) : L <+: ((s.set n p evs).peers m).log := by
  rcases List.mem_append.1 hm with hm | hm
  · by_cases hk : m = n
    · subst hk
      rw [s.peers_set_self] at hterm ⊢
      obtain ⟨V, E, hE⟩ := he.sent_elected hm
      obtain ⟨hle, hlead⟩ := he.elected_term hE
      have hnow : (s.peers m).term = t := le_antisymm (hterm ▸ hl.term_le) hle
      have hpre := h.sent_prefix hm hnow
      rcases hl.log_cases with hlog | hnew | hnew
      · rwa [hlog]
      · obtain ⟨-, -, -, -, e, -, hlog⟩ := hl.proposed hnew
        rw [hlog]
        exact hpre.trans (List.prefix_append _ _)
      · -- a leader takes over nothing
        have hrole := (hl.accepted hnew).2.2.1
        rw [hlead hnow] at hrole
        cases hrole
    · rw [s.peers_set_of_ne _ _ hk] at hterm ⊢
      exact h.sent_prefix hm hterm
  · obtain ⟨rfl, rfl, -, rfl, -⟩ := hl.sent hm
    rw [s.peers_set_self]

private theorem leader_elected_set {V : Finset ι} {E : List ε}
    (hr : ((s.set n p evs).peers m).role = .leader)
    (hE : .elected m ((s.set n p evs).peers m).term V E ∈ s.history ++ evs) :
    E <+: ((s.set n p evs).peers m).log := by
  by_cases hm : m = n
  · subst hm
    rw [s.peers_set_self] at hr hE ⊢
    obtain ⟨hterm, hcase⟩ := hl.leader hr
    rw [hterm] at hE
    rcases List.mem_append.1 hE with hE | hE
    · rcases hcase with ⟨hold, hpre⟩ | ⟨⟨V', hnew⟩, -⟩
      · exact (h.leader_elected hold hE).trans hpre
      · exact (elected_new he hl hnew hE).elim
    · obtain ⟨-, -, rfl, rfl, -⟩ := hl.elected hE
      exact List.prefix_rfl
  · rw [s.peers_set_of_ne _ _ hm] at hr hE ⊢
    rcases List.mem_append.1 hE with hE | hE
    · exact h.leader_elected hr hE
    · exact absurd (hl.elected hE).1 hm

private theorem leader_proposed_set (hr : ((s.set n p evs).peers m).role = .leader)
    (hP : .proposed m ((s.set n p evs).peers m).term P ∈ s.history ++ evs) :
    P <+: ((s.set n p evs).peers m).log := by
  by_cases hm : m = n
  · subst hm
    rw [s.peers_set_self] at hr hP ⊢
    obtain ⟨hterm, hcase⟩ := hl.leader hr
    rw [hterm] at hP
    rcases List.mem_append.1 hP with hP | hP
    · rcases hcase with ⟨hold, hpre⟩ | ⟨⟨V', hnew⟩, -⟩
      · exact (h.leader_proposed hold hP).trans hpre
      · obtain ⟨V, E, hE, -⟩ := h.proposed_elected hP
        exact (elected_new he hl hnew hE).elim
    · obtain ⟨-, -, -, rfl, -⟩ := hl.proposed hP
      exact List.prefix_rfl
  · rw [s.peers_set_of_ne _ _ hm] at hr hP ⊢
    rcases List.mem_append.1 hP with hP | hP
    · exact h.leader_proposed hr hP
    · exact absurd (hl.proposed hP).1 hm

/-- Every move keeps all logs canonical. -/
theorem Logs.local : Logs τ d (s.set n p evs) where
  log := State.forall_set (φ := fun _ q => Canon τ d (s.history ++ evs) q.log)
    (canon_moved h hl) fun m _ => (h.log m).mono (List.subset_append_left _ _)
  recorded := recorded_set h hl
  proposed_elected := proposed_elected_set he h hl
  proposed_last := proposed_last_set h hl
  comparable := comparable_set he h hl
  sent_prefix := sent_prefix_set he h hl
  leader_elected := leader_elected_set he h hl
  leader_proposed := leader_proposed_set he h hl

end Step

omit [Fintype ι] [DecidableEq ι] in
theorem Logs.init : Logs τ d (State.init d : State ι ε) := by
  constructor <;> simp [State.init, Canon.singleton]

/-- In every reachable state all logs are canonical. -/
theorem Reachable.logs (h : Reachable τ G d s) : Logs τ d s := by
  induction h with
  | refl => exact .init
  | tail hreach hmove ih =>
    obtain ⟨n, p, evs, hl, rfl⟩ := hmove
    exact ih.local (Reachable.elections hreach) hl

/-! ### Terms in logs -/

/-- Whoever is elected has only entries of earlier terms, and a leader none of later ones. -/
structure Terms (τ : ε → ℕ) (s : State ι ε) : Prop where
  candidate : ∀ {n m e V E v W}, (s.peers n).role = .candidate → e ∈ (s.peers n).log →
    (s.peers n).term < τ e → .elected m (τ e) V E ∈ s.history → v ∈ V →
      ¬ .voted v n (s.peers n).term W ∈ s.history
  elected : ∀ {n t V E e}, .elected n t V E ∈ s.history → e ∈ E → τ e < t
  leader : ∀ {n e}, (s.peers n).role = .leader → e ∈ (s.peers n).log → τ e ≤ (s.peers n).term
  proposed : ∀ {n t P e}, .proposed n t P ∈ s.history → e ∈ P → τ e ≤ t

/-- What a majority elects has only entries of earlier terms: for an entry of the same or of a
later term the majority of that term's leader stands against it. -/
private theorem candidate_terms_lt (he : Elections τ s) (h : Logs τ d s) (ht : Terms τ s)
    (hd : τ d = 0) (hcand : (s.peers n).role = .candidate) {V : Finset ι} (hV : Majority V)
    (hvotes : ∀ v ∈ V, ∃ W, .voted v n (s.peers n).term W ∈ s.history) {e : ε}
    (hmem : e ∈ (s.peers n).log) : τ e < (s.peers n).term := by
  by_contra hge
  rw [not_lt] at hge
  have hpos : 0 < (s.peers n).term := (he.campaigned_term (he.candidate hcand)).1
  rcases (h.log n).of_mem hmem with rfl | ⟨m, P, hP⟩
  · omega
  · obtain ⟨V', E, hE, -⟩ := h.proposed_elected hP
    obtain ⟨hV', hvotes'⟩ := he.elected_votes hE
    obtain ⟨v, hv, hv'⟩ := hV.exists_mem_both hV'
    obtain ⟨W, hW⟩ := hvotes v hv
    rcases hge.lt_or_eq with hlt | heq
    · exact ht.candidate hcand hmem hlt hE hv' hW
    · -- the voter's one vote of this term makes the candidate the leader it was made by
      obtain ⟨W', hW'⟩ := hvotes' v hv'
      rw [← heq] at hW' hE
      obtain rfl := he.voted_once hW hW'
      rw [(he.elected_term hE).2 rfl] at hcand
      cases hcand

section Step

variable (he : Elections τ s) (h : Logs τ d s) (ht : Terms τ s) (hl : Local τ G s n p evs)

include he h ht hl

variable {k : ι} {e : ε} {V : Finset ι} {E : List ε}

omit ht in
/-- A term's leader has been elected by the time one of its entries is in a log. -/
private theorem not_elected_of_mem_log (hd : τ d = 0) (hmem : e ∈ (s.peers k).log) (hlt : t < τ e) :
    ¬ .elected m (τ e) V E ∈ evs := by
  intro hnew
  obtain rfl := (hl.elected hnew).1
  rcases (h.log k).of_mem hmem with rfl | ⟨m, P, hP⟩
  · omega
  · obtain ⟨V', E', hE', -⟩ := h.proposed_elected hP
    exact elected_new he hl hnew hE'

private theorem candidate_voted_set (hd : τ d = 0) {v : ι} {W : List ε}
    (hcand : ((s.set n p evs).peers k).role = .candidate) (hmem : e ∈ ((s.set n p evs).peers k).log)
    (hlt : ((s.set n p evs).peers k).term < τ e) (hE : .elected m (τ e) V E ∈ s.history ++ evs)
    (hv : v ∈ V) :
    ¬ .voted v k ((s.set n p evs).peers k).term W ∈ s.history ++ evs := by
  intro hvoted
  have he' := he.local hl
  -- the voter is in the later term already, so this vote is not the one just given
  have hold : .voted v k ((s.set n p evs).peers k).term W ∈ s.history := by
    refine (List.mem_append.1 hvoted).resolve_right fun hnew => ?_
    obtain ⟨rfl, hterm, -⟩ := hl.voted hnew
    obtain ⟨W', hW'⟩ := (he'.elected_votes hE).2 v hv
    have hle := (he'.voted_term hW').1
    rw [s.peers_set_self] at hle
    omega
  by_cases hk : k = n
  · subst hk
    rw [s.peers_set_self] at hcand hmem hlt hold
    rcases hl.candidate hcand with hnew | ⟨hrole, hterm, hlog⟩
    · -- no vote was given in a term before its campaign
      obtain ⟨C, hC, -⟩ := he.voted_recent hold
      exact absurd (he.campaigned_term hC).2 (hl.campaigned hnew).2.1.not_ge
    · rw [hlog] at hmem
      rw [hterm] at hlt hold
      have hE := (List.mem_append.1 hE).resolve_right (not_elected_of_mem_log he h hl hd hmem hlt)
      exact ht.candidate hrole hmem hlt hE hv hold
  · rw [s.peers_set_of_ne _ _ hk] at hcand hmem hlt hold
    have hE := (List.mem_append.1 hE).resolve_right (not_elected_of_mem_log he h hl hd hmem hlt)
    exact ht.candidate hcand hmem hlt hE hv hold

private theorem elected_terms_set (hd : τ d = 0) (hE : .elected m t V E ∈ s.history ++ evs)
    (hmem : e ∈ E) : τ e < t := by
  rcases List.mem_append.1 hE with hE | hE
  · exact ht.elected hE hmem
  · obtain ⟨rfl, rfl, -, rfl, hcand, hV, hvotes⟩ := hl.elected hE
    exact candidate_terms_lt he h ht hd hcand hV hvotes hmem

omit he h [DecidableEq ι] in
private theorem proposed_terms_set {P : List ε} (hP : .proposed m t P ∈ s.history ++ evs)
    (hmem : e ∈ P) : τ e ≤ t := by
  rcases List.mem_append.1 hP with hP | hP
  · exact ht.proposed hP hmem
  · obtain ⟨rfl, rfl, hlead, -, e', hterm, rfl⟩ := hl.proposed hP
    rcases List.mem_append.1 hmem with hmem | hmem
    · exact ht.leader hlead hmem
    · obtain rfl := List.mem_singleton.1 hmem
      exact hterm.le

private theorem leader_terms_set (hd : τ d = 0) (hr : ((s.set n p evs).peers k).role = .leader)
    (hmem : e ∈ ((s.set n p evs).peers k).log) : τ e ≤ ((s.set n p evs).peers k).term := by
  by_cases hk : k = n
  · subst hk
    rw [s.peers_set_self] at hr hmem ⊢
    obtain ⟨hterm, ⟨hold, -⟩ | ⟨⟨V, hnew⟩, hlog⟩⟩ := hl.leader hr
    · rw [hterm]
      rcases hl.log_cases with hlog | hnew | hnew
      · rw [hlog] at hmem
        exact ht.leader hold hmem
      · exact proposed_terms_set ht hl (List.mem_append_right _ hnew) hmem
      · rw [(hl.accepted hnew).2.2.1] at hold
        cases hold
    · rw [hterm]
      rw [hlog] at hmem
      exact (elected_terms_set he h ht hl hd (List.mem_append_right _ hnew) hmem).le
  · rw [s.peers_set_of_ne _ _ hk] at hr hmem ⊢
    exact ht.leader hr hmem

/-- Every move keeps the terms in logs within bounds. -/
theorem Terms.local (hd : τ d = 0) : Terms τ (s.set n p evs) where
  candidate := candidate_voted_set he h ht hl hd
  elected := elected_terms_set he h ht hl hd
  leader := leader_terms_set he h ht hl hd
  proposed := proposed_terms_set ht hl

end Step

theorem Reachable.terms (hd : τ d = 0) (h : Reachable τ G d s) : Terms τ s := by
  induction h with
  | refl => constructor <;> simp [State.init]
  | tail hreach hmove ih =>
    obtain ⟨n, p, evs, hl, rfl⟩ := hmove
    exact ih.local (Reachable.elections hreach) (Reachable.logs hreach) hl hd

end Consensus
