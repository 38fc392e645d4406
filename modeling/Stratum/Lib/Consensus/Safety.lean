import Stratum.Lib.Consensus.Logs

/-!
# Agreement on final entries

The guard `Kept` restricts how a log is taken over: entries are dropped only where the new log
contradicts them, and never what the peer took as final. With it, no two peers hand over
different entries for one index (`Reachable.applied_unique`).

A log `P` made in term `t` is **choosable** as long as a majority may still come to hold it in
that term: each of its members has held it, or has not left the term (`Choosable`). A log that
is not choosable stays so, and a committed one is choosable for ever. The invariant `Carried`
says that a choosable log is not lost:

* whoever has held it, or was elected later, has it in its log;
* whoever was elected later had it when it was elected (**leader completeness**), because a voter
  of the later term that has held `P` still had it when it gave its vote;
* what is published from then on under `t` or a later term does not contradict it.

Nothing here is an induction on terms: a log made after a later election is not choosable to
begin with.
-/

namespace Consensus

variable {ι ε : Type*}

/-- A log may replace the peer's: it contradicts what it does not keep, and keeps what is
final. -/
def Kept (q : Peer ι ε) (L : List ε) : Prop :=
  (q.log <+: L ∨ ∃ i, i < q.log.length ∧ i < L.length ∧ q.log[i]? ≠ L[i]?) ∧
    q.log.take (q.commit + 1) <+: L

/-- A log that begins the old one is no replacement unless it is the old one. -/
theorem Kept.prefix_of_prefix {q : Peer ι ε} {L : List ε} (h : Kept q L) (hL : L <+: q.log) :
    q.log <+: L := by
  rcases h.1 with hkeep | ⟨i, -, hi, hne⟩
  · exact hkeep
  · obtain ⟨R, hR⟩ := hL
    rw [← hR, List.getElem?_append_left hi] at hne
    exact absurd rfl hne

/-- Peer `q` answers for `P`: it has held it, or was elected in a later term. -/
def Bound (h : List (Event ι ε)) (q : ι) (t : ℕ) (P : List ε) : Prop :=
  Acked h q t P ∨ ∃ t' V E, t < t' ∧ .elected q t' V E ∈ h

variable [Fintype ι]

/-- A majority may still come to hold `P` in term `t`. -/
def Choosable (s : State ι ε) (t : ℕ) (P : List ε) : Prop :=
  ∃ Q : Finset ι, Majority Q ∧ ∀ q ∈ Q, Acked s.history q t P ∨ (s.peers q).term ≤ t

theorem Committed.choosable {s : State ι ε} {t : ℕ} {P : List ε}
    (h : Committed s.history t P) : Choosable s t P := by
  obtain ⟨-, Q, hQ, hacked⟩ := h
  exact ⟨Q, hQ, fun q hq => .inl (hacked q hq)⟩

/-- A choosable log is not lost. -/
structure Carried (s : State ι ε) : Prop where
  accepted_term : ∀ {q t L}, .accepted q t L ∈ s.history → t ≤ (s.peers q).term
  complete : ∀ {n t' V E m t P}, .elected n t' V E ∈ s.history → .proposed m t P ∈ s.history →
    t < t' → Choosable s t P → P <+: E
  carried : ∀ {m t P q}, .proposed m t P ∈ s.history → Choosable s t P →
    Bound s.history q t P → P <+: (s.peers q).log
  voted : ∀ {v c t' W m t P}, .voted v c t' W ∈ s.history → .proposed m t P ∈ s.history →
    t < t' → Acked s.history v t P → Choosable s t P → P <+: W
  sent_comparable : ∀ {n t' L c m t P}, .sent n t' L c ∈ s.history →
    .proposed m t P ∈ s.history → t ≤ t' → Choosable s t P → P <+: L ∨ L <+: P

variable [DecidableEq ι] {τ : ε → ℕ} {d : ε} {G : Peer ι ε → List ε → Prop} {s : State ι ε}
  {n m k : ι} {p : Peer ι ε} {evs : List (Event ι ε)} {t t' : ℕ} {P : List ε}

/-! ### What becomes choosable -/

omit [DecidableEq ι] in
/-- What a peer newly holds, it holds in its current term and in its log. -/
theorem Local.acked (hl : Local τ G s n p evs) (h : Acked (s.history ++ evs) k t P) :
    Acked s.history k t P ∨ k = n ∧ (s.peers n).term = t ∧ P <+: p.log := by
  obtain ⟨L, hL, hpre⟩ := h
  simp only [List.mem_append] at hL
  rcases hL with (hL | hL) | (hL | hL)
  · exact .inl ⟨L, .inl hL, hpre⟩
  · obtain ⟨rfl, rfl, -, rfl, -⟩ := hl.accepted hL
    exact .inr ⟨rfl, rfl, hpre⟩
  · exact .inl ⟨L, .inr hL, hpre⟩
  · obtain ⟨rfl, rfl, -, rfl, -⟩ := hl.proposed hL
    exact .inr ⟨rfl, rfl, hpre⟩

/-- What is choosable after a move was so before it. -/
theorem Choosable.of_local (hl : Local τ G s n p evs) (h : Choosable (s.set n p evs) t P) :
    Choosable s t P := by
  obtain ⟨Q, hQ, hall⟩ := h
  refine ⟨Q, hQ, fun q hq => ?_⟩
  rcases hall q hq with hacked | hterm
  · rcases hl.acked hacked with hacked | ⟨rfl, hterm, -⟩
    · exact .inl hacked
    · exact .inr hterm.le
  · exact .inr ((hl.term_le_set q).trans hterm)

/-! ### Winning an election -/

omit [Fintype ι] [DecidableEq ι] in
/-- The last entry of a beginning is of no later term than the maker of the whole. -/
private theorem lastTerm_le_of_prefix (ht : Terms τ s) {W : List ε}
    (hW : .proposed k t' W ∈ s.history) (hP : P <+: W) (hne : P ≠ []) : lastTerm τ P ≤ t' := by
  obtain ⟨Q, e, rfl⟩ := (List.eq_nil_or_concat' P).resolve_left hne
  rw [lastTerm_concat]
  exact ht.proposed hW (hP.subset (by simp))

omit [DecidableEq ι] in
/-- A log that is up to date with `W` has what is choosable and in `W`. -/
private theorem upToDate_carries (hg : Logs τ d s) (ht : Terms τ s) (hc : Carried s)
    (hd : τ d = 0) (hP : .proposed m t P ∈ s.history) (hch : Choosable s t P) {C W : List ε}
    (hC : Canon τ d s.history C) (hW : Canon τ d s.history W) (hup : UpToDate τ C W)
    (hPW : P <+: W) : P <+: C := by
  obtain ⟨hPlen, hPlast⟩ := hg.proposed_last hP
  have hWlen : 1 < W.length := hPlen.trans_le hPW.length_le
  obtain ⟨k, hk⟩ := hW.proposed hWlen
  have hPt : t ≤ lastTerm τ W :=
    hPlast ▸ lastTerm_le_of_prefix ht hk hPW (List.ne_nil_of_length_pos (by omega))
  rcases hup with hlt | ⟨heq, hlen⟩
  · -- the maker of the last entry of `C` was elected after `t`
    have hClen : 1 < C.length := by
      by_contra hle
      have hCd : C = [d] := by
        have hlen : C.length = 1 := by
          have := List.length_pos_of_ne_nil hC.ne_nil
          omega
        exact (hC.1.eq_of_length hlen.symm).symm
      rw [hCd] at hlt
      simp [lastTerm, hd] at hlt
    obtain ⟨k', hk'⟩ := hC.proposed hClen
    obtain ⟨V, E, hE, hEC⟩ := hg.proposed_elected hk'
    exact (hc.complete hE hP (hPt.trans_lt hlt) hch).trans hEC
  · -- `C` and `W` are logs of one leader
    obtain ⟨k', hk'⟩ := hC.proposed (hWlen.trans_le hlen)
    rcases hg.comparable hk (heq ▸ hk') with hpre | hpre
    · exact hPW.trans hpre
    · exact hpre.eq_of_length (le_antisymm hpre.length_le hlen) ▸ hPW

/-- Whoever wins an election has what is choosable in earlier terms. -/
private theorem elect_carries (he : Elections τ s) (hg : Logs τ d s) (ht : Terms τ s)
    (hc : Carried s) (hd : τ d = 0) (hcand : (s.peers n).role = .candidate) {V : Finset ι}
    (hV : Majority V) (hvotes : ∀ v ∈ V, ∃ W, .voted v n (s.peers n).term W ∈ s.history)
    (hP : .proposed m t P ∈ s.history) (hlt : t < (s.peers n).term) (hch : Choosable s t P) :
    P <+: (s.peers n).log := by
  obtain ⟨Q, hQ, hall⟩ := hch
  obtain ⟨v, hvQ, hvV⟩ := hQ.exists_mem_both hV
  obtain ⟨W, hW⟩ := hvotes v hvV
  -- the common voter has left term `t`, so it has held `P` and had it when it voted
  have hacked : Acked s.history v t P :=
    (hall v hvQ).resolve_right (hlt.trans_le (he.voted_term hW).1).not_ge
  have hPW : P <+: W := hc.voted hW hP hlt hacked ⟨Q, hQ, hall⟩
  obtain ⟨C, hC, hup⟩ := he.voted_recent hW
  obtain rfl := he.campaigned_once hC (he.candidate hcand)
  exact upToDate_carries hg ht hc hd hP ⟨Q, hQ, hall⟩ (hg.log n) (hg.recorded hW rfl) hup hPW

/-! ### Every move keeps it -/

section Step

variable (he : Elections τ s) (hg : Logs τ d s) (ht : Terms τ s) (hc : Carried s)

include he hg in
/-- Nobody has held a log that is being made. -/
private theorem not_acked_new (hl : Local τ G s n p evs) (hnew : .proposed m t P ∈ evs) :
    ¬ Acked s.history k t P := by
  rintro ⟨L, hL, hpre⟩
  obtain ⟨rfl, rfl, hlead, -, e, hterm, rfl⟩ := hl.proposed hnew
  have hcanon : Canon τ d s.history L := by
    rcases hL with hL | hL <;> exact hg.recorded hL rfl
  obtain ⟨j, hj⟩ := hcanon.2 _ e hpre (hg.log m).ne_nil
  have hlen := (hg.proposed_prefix_leader he hlead (hterm ▸ hj)).length_le
  rw [List.length_append, List.length_singleton] at hlen
  omega

include he hg in
/-- A log made after a later election is not choosable. -/
private theorem not_choosable_new (hl : Local τ G s n p evs) (hnew : .proposed m t P ∈ evs)
    {V : Finset ι} {E : List ε} (hE : .elected k t' V E ∈ s.history ++ evs) (hlt : t < t') :
    ¬ Choosable (s.set n p evs) t P := by
  rintro ⟨Q, hQ, hall⟩
  have he' := he.local hl
  obtain ⟨hV, hvotes⟩ := he'.elected_votes hE
  obtain ⟨v, hvQ, hvV⟩ := hQ.exists_mem_both hV
  obtain ⟨W, hW⟩ := hvotes v hvV
  have hterm := (he'.voted_term hW).1
  have hacked := (hall v hvQ).resolve_right (hlt.trans_le hterm).not_ge
  rcases hl.acked hacked with hacked | ⟨rfl, hnow, -⟩
  · exact not_acked_new he hg hl hnew hacked
  · obtain ⟨-, -, -, rfl, -⟩ := hl.proposed hnew
    rw [s.peers_set_self] at hterm
    exact absurd (hnow ▸ hterm) hlt.not_ge

include he hg in
omit [DecidableEq ι] in
/-- A peer does not answer for a log of a later term than its own. -/
private theorem Bound.term_le (hacc : ∀ {q t L}, .accepted q t L ∈ s.history →
    t ≤ (s.peers q).term) (hb : Bound s.history k t P) : t ≤ (s.peers k).term := by
  rcases hb with ⟨L, hL | hL, -⟩ | ⟨t', V, E, hlt, hE⟩
  · exact hacc hL
  · obtain ⟨V, E, hE, -⟩ := hg.proposed_elected hL
    exact (he.elected_term hE).1
  · exact hlt.le.trans (he.elected_term hE).1

variable (hd : τ d = 0) (hl : Local τ Kept s n p evs)

include hc hl

private theorem accepted_term_set {q : ι} {L : List ε}
    (hm : .accepted q t L ∈ s.history ++ evs) :
    t ≤ ((s.set n p evs).peers q).term := by
  rcases List.mem_append.1 hm with hm | hm
  · exact (hc.accepted_term hm).trans (hl.term_le_set q)
  · obtain ⟨rfl, rfl, -⟩ := hl.accepted hm
    exact hl.term_le_set q

include he hg ht hd in
private theorem complete_set {V : Finset ι} {E : List ε}
    (hE : .elected k t' V E ∈ s.history ++ evs) (hP : .proposed m t P ∈ s.history ++ evs)
    (hlt : t < t') (hch : Choosable (s.set n p evs) t P) : P <+: E := by
  rcases List.mem_append.1 hP with hP | hnew
  · have hbefore := hch.of_local hl
    rcases List.mem_append.1 hE with hE | hE
    · exact hc.complete hE hP hlt hbefore
    · obtain ⟨rfl, rfl, -, rfl, hcand, hV, hvotes⟩ := hl.elected hE
      exact elect_carries he hg ht hc hd hcand hV hvotes hP hlt hbefore
  · exact absurd hch (not_choosable_new he hg hl hnew hE hlt)

include he hg in
omit [DecidableEq ι] in
/-- What the moving peer answered for stays in its log. -/
private theorem carried_moved (hP : .proposed m t P ∈ s.history) (hch : Choosable s t P)
    (hb : Bound s.history n t P) : P <+: p.log := by
  have hold := hc.carried hP hch hb
  rcases hl.log_cases with hlog | hnew | hnew
  · rwa [hlog]
  · obtain ⟨-, -, -, -, e, -, hlog⟩ := hl.proposed hnew
    rw [hlog]
    exact hold.trans (List.prefix_append _ _)
  · -- what it takes over does not contradict `P`, and does not cut it off
    obtain ⟨-, -, -, -, hkept, j, c, -, hsent⟩ := hl.accepted hnew
    have hle : t ≤ (s.peers n).term := Bound.term_le he hg hc.accepted_term hb
    rcases hc.sent_comparable hsent hP hle hch with hpre | hpre
    · exact hpre
    · exact hold.trans (hkept.prefix_of_prefix (hpre.trans hold))

include he hg ht hd in
private theorem carried_set (hP : .proposed m t P ∈ s.history ++ evs)
    (hch : Choosable (s.set n p evs) t P) (hb : Bound (s.history ++ evs) k t P) :
    P <+: ((s.set n p evs).peers k).log := by
  rcases hb with hacked | ⟨t', V, E, hlt, hE⟩
  · rcases hl.acked hacked with hacked | ⟨rfl, -, hpre⟩
    · have hP := (List.mem_append.1 hP).resolve_right
        fun hnew => not_acked_new he hg hl hnew hacked
      by_cases hk : k = n
      · subst hk
        rw [s.peers_set_self]
        exact carried_moved he hg hc hl hP (hch.of_local hl) (.inl hacked)
      · rw [s.peers_set_of_ne _ _ hk]
        exact hc.carried hP (hch.of_local hl) (.inl hacked)
    · rwa [s.peers_set_self]
  · rcases List.mem_append.1 hP with hP | hnew
    · have hbefore := hch.of_local hl
      rcases List.mem_append.1 hE with hE | hE
      · by_cases hk : k = n
        · subst hk
          rw [s.peers_set_self]
          exact carried_moved he hg hc hl hP hbefore (.inr ⟨t', V, E, hlt, hE⟩)
        · rw [s.peers_set_of_ne _ _ hk]
          exact hc.carried hP hbefore (.inr ⟨t', V, E, hlt, hE⟩)
      · obtain ⟨rfl, rfl, rfl, rfl, hcand, hV, hvotes⟩ := hl.elected hE
        rw [s.peers_set_self]
        exact elect_carries he hg ht hc hd hcand hV hvotes hP hlt hbefore
    · exact absurd hch (not_choosable_new he hg hl hnew hE hlt)

include he hg in
private theorem voted_set {v c : ι} {W : List ε} (hW : .voted v c t' W ∈ s.history ++ evs)
    (hP : .proposed m t P ∈ s.history ++ evs) (hlt : t < t')
    (hacked : Acked (s.history ++ evs) v t P) (hch : Choosable (s.set n p evs) t P) :
    P <+: W := by
  have hterm : t' ≤ ((s.set n p evs).peers v).term := ((he.local hl).voted_term hW).1
  -- the voter has left term `t`: it held `P` before this move
  have hacked : Acked s.history v t P := by
    obtain ⟨L, hL, hpre⟩ := hacked
    have hold : .accepted v t L ∈ s.history ∨ .proposed v t L ∈ s.history := by
      refine hL.imp (fun hL => (List.mem_append.1 hL).resolve_right fun hnew => ?_)
        (fun hL => (List.mem_append.1 hL).resolve_right fun hnew => ?_)
      · obtain ⟨rfl, rfl, -, rfl, -⟩ := hl.accepted hnew
        rw [s.peers_set_self] at hterm
        exact hlt.not_ge hterm
      · obtain ⟨rfl, rfl, -, rfl, -⟩ := hl.proposed hnew
        rw [s.peers_set_self] at hterm
        exact hlt.not_ge hterm
    exact ⟨L, hold, hpre⟩
  have hP := (List.mem_append.1 hP).resolve_right
    fun hnew => not_acked_new he hg hl hnew hacked
  rcases List.mem_append.1 hW with hW | hW
  · exact hc.voted hW hP hlt hacked (hch.of_local hl)
  · obtain ⟨rfl, -, -, rfl, -⟩ := hl.voted hW
    exact hc.carried hP (hch.of_local hl) (.inl hacked)

include he hg in
private theorem sent_comparable_set {L : List ε} {c : ℕ}
    (hL : .sent k t' L c ∈ s.history ++ evs) (hP : .proposed m t P ∈ s.history ++ evs)
    (hle : t ≤ t') (hch : Choosable (s.set n p evs) t P) : P <+: L ∨ L <+: P := by
  rcases List.mem_append.1 hP with hP | hnew
  · have hbefore := hch.of_local hl
    rcases List.mem_append.1 hL with hL | hL
    · exact hc.sent_comparable hL hP hle hbefore
    · -- the publisher was elected in `t` and made `P`, or was elected later
      obtain ⟨rfl, rfl, -, -, V, E, hE⟩ := hl.sent hL
      refine .inl (hc.carried hP hbefore ?_)
      rcases hle.lt_or_eq with hlt | rfl
      · exact .inr ⟨t', V, E, hlt, hE⟩
      · obtain ⟨V', E', hE', -⟩ := hg.proposed_elected hP
        obtain rfl := he.elected_unique hE hE'
        exact .inl ⟨P, .inr hP, List.prefix_rfl⟩
  · have hL : .sent k t' L c ∈ s.history := (List.mem_append.1 hL).resolve_right fun h => by
      rw [hl.eq_of_proposed hnew] at h
      simp at h
    obtain ⟨V, E, hE⟩ := he.sent_elected hL
    rcases hle.lt_or_eq with hlt | rfl
    · exact absurd hch (not_choosable_new he hg hl hnew (List.mem_append_left _ hE) hlt)
    · -- it was published by the leader that now makes `P`
      obtain ⟨rfl, rfl, hlead, -, e, -, rfl⟩ := hl.proposed hnew
      obtain ⟨V', E', hE'⟩ := he.leader hlead
      obtain rfl := he.elected_unique hE hE'
      exact .inr ((hg.sent_prefix hL rfl).trans (List.prefix_append _ _))

include he hg ht hd in
/-- Every move that drops entries only as `Kept` allows loses nothing choosable. -/
theorem Carried.local : Carried (s.set n p evs) where
  accepted_term := accepted_term_set hc hl
  complete := complete_set he hg ht hc hd hl
  carried := carried_set he hg ht hc hd hl
  voted := voted_set he hg hc hl
  sent_comparable := sent_comparable_set he hg hc hl

end Step

theorem Reachable.carried (hd : τ d = 0) (h : Reachable τ Kept d s) : Carried s := by
  induction h with
  | refl => constructor <;> simp [State.init]
  | tail hreach hmove ih =>
    obtain ⟨n, p, evs, hl, rfl⟩ := hmove
    exact ih.local (Reachable.elections hreach) (Reachable.logs hreach)
      (Reachable.terms hd hreach) hd hl

/-! ### Final entries -/

/-- The first entry, or the beginning of a committed log. -/
def Stable (d : ε) (h : List (Event ι ε)) (L : List ε) : Prop :=
  L = [d] ∨ ∃ t P, Committed h t P ∧ L <+: P

omit [DecidableEq ι] in
theorem Committed.append {h : List (Event ι ε)} (hP : Committed h t P) :
    Committed (h ++ evs) t P := by
  obtain ⟨⟨m, hm⟩, Q, hQ, hacked⟩ := hP
  refine ⟨⟨m, List.mem_append_left _ hm⟩, Q, hQ, fun q hq => ?_⟩
  obtain ⟨L, hL, hPL⟩ := hacked q hq
  exact ⟨L, hL.imp (List.mem_append_left _) (List.mem_append_left _), hPL⟩

omit [DecidableEq ι] in
theorem Stable.append {h : List (Event ι ε)} {L : List ε} (hL : Stable d h L) :
    Stable d (h ++ evs) L := by
  rcases hL with rfl | ⟨t, P, hP, hpre⟩
  · exact .inl rfl
  · exact .inr ⟨t, P, hP.append, hpre⟩

omit [DecidableEq ι] in
/-- Of two committed logs one begins the other. -/
theorem Committed.comparable (hg : Logs τ d s) (hc : Carried s) {P' : List ε}
    (hP : Committed s.history t P) (hP' : Committed s.history t' P') : P <+: P' ∨ P' <+: P := by
  obtain ⟨m, hm⟩ := hP.1
  obtain ⟨m', hm'⟩ := hP'.1
  obtain ⟨V, E, hE, hEP⟩ := hg.proposed_elected hm
  obtain ⟨V', E', hE', hEP'⟩ := hg.proposed_elected hm'
  rcases lt_trichotomy t t' with hlt | rfl | hlt
  · exact .inl ((hc.complete hE' hm hlt hP.choosable).trans hEP')
  · exact hg.comparable hm hm'
  · exact .inr ((hc.complete hE hm' hlt hP'.choosable).trans hEP)

omit [DecidableEq ι] in
/-- Of two stable logs one begins the other. -/
theorem Stable.comparable (hg : Logs τ d s) (hc : Carried s) {L L' : List ε}
    (hL : Stable d s.history L) (hL' : Stable d s.history L') : L <+: L' ∨ L' <+: L := by
  have hfirst : ∀ {t P}, Committed s.history t P → [d] <+: P := by
    intro t P hP
    obtain ⟨m, hm⟩ := hP.1
    exact (hg.recorded hm rfl).1
  rcases hL with rfl | ⟨t, P, hP, hpre⟩ <;> rcases hL' with rfl | ⟨t', P', hP', hpre'⟩
  · exact .inl List.prefix_rfl
  · exact List.prefix_or_prefix_of_prefix (hfirst hP') hpre'
  · exact List.prefix_or_prefix_of_prefix hpre (hfirst hP)
  · rcases Committed.comparable hg hc hP hP' with h | h
    · exact List.prefix_or_prefix_of_prefix (hpre.trans h) hpre'
    · exact List.prefix_or_prefix_of_prefix hpre (hpre'.trans h)

/-- What is taken as final, published as final or handed over is stable. -/
structure Final (d : ε) (s : State ι ε) : Prop where
  commit : ∀ n, (s.peers n).commit < (s.peers n).log.length ∧
    Stable d s.history ((s.peers n).log.take ((s.peers n).commit + 1))
  sent : ∀ {n t L c}, .sent n t L c ∈ s.history →
    c < L.length ∧ Stable d s.history (L.take (c + 1))
  applied : ∀ {n i e}, .applied n i e ∈ s.history →
    ∃ L, Stable d s.history L ∧ L[i]? = some e

omit [Fintype ι] [DecidableEq ι] in
/-- A list that begins with the first `c + 1` entries of another has the same ones. -/
private theorem take_eq_of_take_prefix {A B : List ε} {c : ℕ} (hc : c < A.length)
    (h : A.take (c + 1) <+: B) : c < B.length ∧ B.take (c + 1) = A.take (c + 1) := by
  have hlen : (A.take (c + 1)).length = c + 1 := by
    rw [List.length_take]
    omega
  refine ⟨by have := h.length_le; omega, ?_⟩
  obtain ⟨R, rfl⟩ := h
  rw [List.take_append_of_le_length hlen.ge, List.take_of_length_le hlen.le]

omit [DecidableEq ι] in
private theorem commit_moved (hf : Final d s) (hl : Local τ Kept s n p evs) :
    p.commit < p.log.length ∧ Stable d (s.history ++ evs) (p.log.take (p.commit + 1)) := by
  obtain ⟨hlt, hstable⟩ := hf.commit n
  rcases hl.commit_cases with hcommit | ⟨-, hin, hcommitted⟩ | ⟨-, m, c, hsent, hcommit⟩
  · -- the index stays, and the log keeps all up to it
    have hkept : (s.peers n).log.take ((s.peers n).commit + 1) <+: p.log := by
      rcases hl.log_cases with hlog | hnew | hnew
      · rw [hlog]
        exact List.take_prefix _ _
      · obtain ⟨-, -, -, -, e, -, hlog⟩ := hl.proposed hnew
        rw [hlog]
        exact (List.take_prefix _ _).trans (List.prefix_append _ _)
      · exact (hl.accepted hnew).2.2.2.2.1.2
    obtain ⟨hlt', htake⟩ := take_eq_of_take_prefix hlt hkept
    rw [hcommit, htake]
    exact ⟨hlt', hstable.append⟩
  · exact ⟨hin, Stable.append (.inr ⟨_, _, hcommitted, List.prefix_rfl⟩)⟩
  · obtain ⟨hc, hstable⟩ := hf.sent hsent
    rw [hcommit, min_eq_left (by omega)]
    exact ⟨hc, hstable.append⟩

/-- Every move that drops entries only as `Kept` allows keeps what is final stable. -/
theorem Final.local (hf : Final d s) (hl : Local τ Kept s n p evs) :
    Final d (s.set n p evs) where
  commit := State.forall_set
    (φ := fun _ q => q.commit < q.log.length ∧
      Stable d (s.history ++ evs) (q.log.take (q.commit + 1)))
    (commit_moved hf hl) fun m _ => ⟨(hf.commit m).1, (hf.commit m).2.append⟩
  sent hm := by
    rcases List.mem_append.1 hm with hm | hm
    · exact ⟨(hf.sent hm).1, (hf.sent hm).2.append⟩
    · obtain ⟨rfl, rfl, rfl, -⟩ := hl.sent hm
      exact ⟨(hf.commit _).1, (hf.commit _).2.append⟩
  applied hm := by
    rcases List.mem_append.1 hm with hm | hm
    · obtain ⟨L, hL, hentry⟩ := hf.applied hm
      exact ⟨L, hL.append, hentry⟩
    · obtain ⟨-, hle, hentry⟩ := hl.applied hm
      refine ⟨_, (hf.commit n).2.append, ?_⟩
      rwa [List.getElem?_take_of_lt (Nat.lt_succ_of_le hle)]

theorem Reachable.final (h : Reachable τ Kept d s) : Final d s := by
  induction h with
  | refl => constructor <;> simp [State.init, Stable]
  | tail _ hmove ih =>
    obtain ⟨n, p, evs, hl, rfl⟩ := hmove
    exact ih.local hl

/-- **State machine safety.** -/
theorem Reachable.applied_unique (hd : τ d = 0) (h : Reachable τ Kept d s) {i : ℕ} {e e' : ε}
    (he : .applied n i e ∈ s.history) (he' : .applied m i e' ∈ s.history) : e = e' := by
  obtain ⟨L, hL, hentry⟩ := h.final.applied he
  obtain ⟨L', hL', hentry'⟩ := h.final.applied he'
  have hi : i < L.length := (List.getElem?_eq_some_iff.1 hentry).1
  have hi' : i < L'.length := (List.getElem?_eq_some_iff.1 hentry').1
  have hsame : L[i]? = L'[i]? := by
    rcases hL.comparable h.logs (h.carried hd) hL' with ⟨R, rfl⟩ | ⟨R, rfl⟩
    · rw [List.getElem?_append_left hi]
    · rw [List.getElem?_append_left hi']
  exact Option.some.inj (hentry.symm.trans (hsame.trans hentry'))

end Consensus
