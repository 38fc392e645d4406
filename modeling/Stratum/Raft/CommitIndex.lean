import Mathlib.Data.Finset.Card
import Mathlib.Order.Bounds.Basic
import Stratum.Raft.Node

/-!
# The commit index of a leader

`advanceCommitIndex` and `applyLog` loop by loop, with every access to the log checked: the scan
**downwards** from the end of the log, the count over the peers for each index, and the entries that
go to `applyCh` one by one. An access out of range is `none`.

* `advance_eq` says that the loops compute `Node.advanceCommitIndex`.
* `majority_of_matchCount`: a count above the threshold is a strict majority of the cluster, both
  when the peers of a node contain the node itself and when they do not.
* `advance_selects`: the scan stops at the **greatest** index that can be committed, and sends what
  is new up to there.
-/

namespace Stratum.Raft.Node

variable {ι : Type*} [DecidableEq ι]

/-- The loop over the peers, for the index `i`. -/
def matchLoop (n : Node ι) (id : ι) (i : ℕ) : ℕ → List ι → ℕ
  | count, [] => count
  | count, p :: peers =>
    matchLoop n id i (if p ≠ id ∧ n.matchIndex p ≥ i then count + 1 else count) peers

/-- The loop of `applyLog`; `sent` is what has gone to `applyCh`. -/
def applyLoop (n : Node ι) (sent : List LogEntry) : Option (Node ι × List LogEntry) :=
  if n.lastApplied < n.commitIndex then
    let n := { n with lastApplied := n.lastApplied + 1 }
    (n.log[n.lastApplied]?).bind fun entry => applyLoop n (sent ++ [entry])
  else some (n, sent)
termination_by n.commitIndex - n.lastApplied

/-- The loop of `advanceCommitIndex`, from an index downwards. -/
def advanceLoop (n : Node ι) (id : ι) (peers : List ι) : ℕ → Option (Node ι × List LogEntry)
  -- `0 > commitIndex` is false
  | 0 => some (n, [])
  | i + 1 =>
    if i + 1 > n.commitIndex then
      if n.matchLoop id (i + 1) 1 peers > threshold peers then
        (n.log[i + 1]?).bind fun entry =>
          if entry.term = n.currentTerm then { n with commitIndex := i + 1 }.applyLoop []
          else advanceLoop n id peers i
      else advanceLoop n id peers i
    else some (n, [])

/-- `advanceCommitIndex`, with what it sends to `applyCh`. -/
def advance (n : Node ι) (id : ι) (peers : List ι) : Option (Node ι × List LogEntry) :=
  n.advanceLoop id peers (n.log.length - 1)

/-- The indices that can be committed now. -/
def Committable (n : Node ι) (id : ι) (peers : List ι) : Set ℕ :=
  {i | n.commitIndex < i ∧ i < n.log.length ∧ n.CanCommit id peers i}

/-- The nodes of the cluster: the peers and the node itself, which may be one of them. -/
def clusterOf (id : ι) (peers : List ι) : Finset ι := insert id peers.toFinset

/-- The nodes that hold the entry at `i`, as far as the leader knows. -/
def holders (n : Node ι) (id : ι) (peers : List ι) (i : ℕ) : Finset ι :=
  (clusterOf id peers).filter fun p => p = id ∨ n.matchIndex p ≥ i

variable {n : Node ι} {id : ι} {peers : List ι} {i : ℕ}

/-! ### The count -/

theorem matchLoop_eq (n : Node ι) (id : ι) (i count : ℕ) (peers : List ι) :
    n.matchLoop id i count peers =
      count + (peers.filter fun p => p ≠ id ∧ n.matchIndex p ≥ i).length := by
  induction peers generalizing count with
  | nil => rfl
  | cons p peers ih =>
    rw [matchLoop, ih]
    by_cases hp : p ≠ id ∧ n.matchIndex p ≥ i
    · rw [if_pos hp, List.filter_cons_of_pos (by simpa using hp), List.length_cons]
      omega
    · rw [if_neg hp, List.filter_cons_of_neg (by simpa using hp)]

/-- The count is the number of holders, when no peer is listed twice. -/
theorem card_holders (h : peers.Nodup) : (n.holders id peers i).card = n.matchCount id peers i := by
  have hholders : n.holders id peers i =
      insert id (peers.filter fun p => p ≠ id ∧ n.matchIndex p ≥ i).toFinset := by
    ext p
    simp only [holders, clusterOf, Finset.mem_filter, Finset.mem_insert, List.mem_toFinset,
      List.mem_filter, decide_eq_true_eq]
    by_cases hp : p = id <;> simp [hp]
  have hself : id ∉ (peers.filter fun p => p ≠ id ∧ n.matchIndex p ≥ i).toFinset := by simp
  rw [hholders, Finset.card_insert_of_notMem hself,
    List.toFinset_card_of_nodup (h.filter _), matchCount, Nat.add_comm]

/-- **A count above the threshold is a strict majority**, whether or not the node is among its own
peers. -/
theorem majority_of_matchCount (h : peers.Nodup)
    (hcount : n.matchCount id peers i > threshold peers) :
    (clusterOf id peers).card < 2 * (n.holders id peers i).card := by
  have hcluster : (clusterOf id peers).card ≤ peers.length + 1 := by
    refine (Finset.card_insert_le _ _).trans ?_
    rw [List.toFinset_card_of_nodup h]
  rw [card_holders h]
  rw [threshold] at hcount
  omega

/-! ### Sending -/

/-- The entries from `a + 1` to `c`, the first one apart. -/
private theorem slice_cons {l : List LogEntry} {a c : ℕ} (hac : a < c) (hc : c < l.length) :
    (l.take (c + 1)).drop (a + 1) =
      l[a + 1] :: (l.take (c + 1)).drop (a + 1 + 1) := by
  have hlt : a + 1 < (l.take (c + 1)).length := by
    rw [List.length_take]
    omega
  rw [List.drop_eq_getElem_cons hlt, List.getElem_take]

omit [DecidableEq ι] in
private theorem applyLoop_from (hlt : n.commitIndex < n.log.length) (k : ℕ) {a : ℕ}
    (hk : a + k = n.commitIndex) (sent : List LogEntry) :
    ({ n with lastApplied := a } : Node ι).applyLoop sent =
      some ({ n with lastApplied := n.commitIndex },
        sent ++ (n.log.take (n.commitIndex + 1)).drop (a + 1)) := by
  induction k generalizing a sent with
  | zero =>
    obtain rfl : a = n.commitIndex := hk
    have hnone : (n.log.take (n.commitIndex + 1)).drop (n.commitIndex + 1) = [] :=
      List.drop_eq_nil_of_le (List.length_take_le _ _)
    rw [applyLoop, if_neg (Nat.lt_irrefl _), hnone, List.append_nil]
  | succ k ih =>
    have hnext : a + 1 < n.log.length := by omega
    have hmore : a < n.commitIndex := by omega
    rw [applyLoop, if_pos hmore]
    dsimp only
    rw [List.getElem?_eq_getElem hnext, Option.bind_some, ih (by omega), slice_cons hmore hlt,
      List.append_assoc]
    rfl

omit [DecidableEq ι] in
/-- The loop sends what lies between `lastApplied` and `commitIndex`, in order and once each. -/
theorem applyLoop_eq (hle : n.lastApplied ≤ n.commitIndex) (hlt : n.commitIndex < n.log.length)
    (sent : List LogEntry) : n.applyLoop sent =
      some ({ n with lastApplied := n.commitIndex },
        sent ++ (n.log.take (n.commitIndex + 1)).drop (n.lastApplied + 1)) :=
  applyLoop_from hlt _ (Nat.add_sub_cancel' hle) sent

/-! ### The scan -/

/-- An index is passed over when it cannot be committed. -/
private theorem advanceLoop_pass {k : ℕ} (hk : k + 1 < n.log.length)
    (hpos : n.commitIndex < k + 1) (hnot : ¬ n.CanCommit id peers (k + 1)) :
    n.advanceLoop id peers (k + 1) = n.advanceLoop id peers k := by
  rw [advanceLoop, if_pos hpos, matchLoop_eq]
  split
  · rename_i hcount
    have hterm : n.log[k + 1].term ≠ n.currentTerm := by
      intro hterm
      refine hnot ⟨hcount, ?_⟩
      rw [termAt, List.getElem?_eq_getElem hk, Option.map_some, hterm]
    rw [List.getElem?_eq_getElem hk, Option.bind_some, if_neg hterm]
  · rfl

private theorem advanceLoop_stop {k : ℕ} (hk : k + 1 < n.log.length)
    (hpos : n.commitIndex < k + 1) (hcan : n.CanCommit id peers (k + 1)) :
    n.advanceLoop id peers (k + 1) = ({ n with commitIndex := k + 1 } : Node ι).applyLoop [] := by
  obtain ⟨hcount, hterm⟩ := hcan
  rw [termAt, List.getElem?_eq_getElem hk, Option.map_some, Option.some.injEq] at hterm
  rw [advanceLoop, if_pos hpos, matchLoop_eq, ← matchCount, if_pos hcount,
    List.getElem?_eq_getElem hk, Option.bind_some, if_pos hterm]

/-- The scan from `k` downwards stops at the greatest index that can be committed. -/
theorem advanceLoop_cases {k : ℕ} (hk : k < n.log.length) :
    (∀ j ∈ n.Committable id peers, k < j) ∧ n.advanceLoop id peers k = some (n, []) ∨
      ∃ i ∈ n.Committable id peers, (∀ j ∈ n.Committable id peers, j ≤ k → j ≤ i) ∧
        n.advanceLoop id peers k = ({ n with commitIndex := i } : Node ι).applyLoop [] := by
  induction k with
  | zero => exact .inl ⟨fun j hj => Nat.zero_lt_of_lt hj.1, rfl⟩
  | succ k ih =>
    by_cases hpos : n.commitIndex < k + 1
    · by_cases hcan : n.CanCommit id peers (k + 1)
      · exact .inr ⟨k + 1, ⟨hpos, hk, hcan⟩, fun j _ hle => hle, advanceLoop_stop hk hpos hcan⟩
      · -- the index is passed over, and is not one of them
        have hbelow : ∀ j ∈ n.Committable id peers, j ≠ k + 1 := by
          rintro j ⟨-, -, hj⟩ rfl
          exact hcan hj
        rw [advanceLoop_pass hk hpos hcan]
        rcases ih (Nat.lt_of_succ_lt hk) with ⟨hnone, hrun⟩ | ⟨i, hi, hmax, hrun⟩
        · exact .inl ⟨fun j hj => lt_of_le_of_ne (hnone j hj) (hbelow j hj).symm, hrun⟩
        · refine .inr ⟨i, hi, fun j hj hle => hmax j hj ?_, hrun⟩
          exact Nat.le_of_lt_succ (lt_of_le_of_ne hle (hbelow j hj))
    · -- the scan has come down to the commit index
      refine .inl ⟨fun j hj => lt_of_le_of_lt (Nat.le_of_not_lt hpos) hj.1, ?_⟩
      rw [advanceLoop, if_neg hpos]

omit [DecidableEq ι] in
/-- What `applyLog` sends, by index, is that part of the log. -/
private theorem map_snd_slice (l : List LogEntry) (a k : ℕ) :
    ((List.range' a k).filterMap fun i => (l[i]?).map fun e => (i, e)).map Prod.snd =
      (l.drop a).take k := by
  induction k generalizing a with
  | zero => rfl
  | succ k ih =>
    rw [List.range'_succ]
    by_cases ha : a < l.length
    · rw [List.drop_eq_getElem_cons ha, List.take_succ_cons, ← ih,
        List.filterMap_cons_some (by rw [List.getElem?_eq_getElem ha]; rfl), List.map_cons]
    · have hnone : l.drop (a + 1) = [] := List.drop_eq_nil_of_le (by omega)
      rw [List.filterMap_cons_none (by rw [List.getElem?_eq_none (by omega)]; rfl), ih, hnone,
        List.drop_eq_nil_of_le (by omega)]
      simp

omit [DecidableEq ι] in
/-- The loop computes `Node.applyLog`. -/
theorem applyLoop_eq_applyLog (hle : n.lastApplied ≤ n.commitIndex)
    (hlt : n.commitIndex < n.log.length) :
    n.applyLoop [] = some (n.applyLog.1, n.applyLog.2.map Prod.snd) := by
  rw [applyLoop_eq hle hlt, applyLog, max_eq_right hle, map_snd_slice, List.drop_take,
    List.nil_append, Nat.add_sub_add_right]

/-- The scan as a search of the indices in descending order. -/
private theorem advanceLoop_eq_find {k : ℕ} (hk : k < n.log.length) :
    n.advanceLoop id peers k =
      ((List.range' (n.commitIndex + 1) (k - n.commitIndex)).reverse.find?
        fun i => n.CanCommit id peers i).elim (some (n, []))
          fun i => ({ n with commitIndex := i } : Node ι).applyLoop [] := by
  induction k with
  | zero =>
    rw [Nat.zero_sub]
    rfl
  | succ k ih =>
    by_cases hpos : n.commitIndex < k + 1
    · have hend : n.commitIndex + 1 + (k - n.commitIndex) = k + 1 := by omega
      rw [Nat.succ_sub (Nat.le_of_lt_succ hpos), List.range'_1_concat, hend,
        List.reverse_append, List.reverse_singleton, List.singleton_append, List.find?_cons]
      by_cases hcan : n.CanCommit id peers (k + 1)
      · rw [advanceLoop_stop hk hpos hcan, decide_eq_true hcan]
        rfl
      · rw [advanceLoop_pass hk hpos hcan, decide_eq_false hcan]
        exact ih (Nat.lt_of_succ_lt hk)
    · rw [Nat.sub_eq_zero_of_le (Nat.le_of_not_lt hpos), advanceLoop, if_neg hpos]
      rfl

/-- **The loops compute `Node.advanceCommitIndex`.** -/
theorem advance_eq (happlied : n.lastApplied ≤ n.commitIndex)
    (hcommit : n.commitIndex < n.log.length) : n.advance id peers =
      some ((n.advanceCommitIndex id peers).1,
        (n.advanceCommitIndex id peers).2.map Prod.snd) := by
  rw [advance, advanceLoop_eq_find (by omega), advanceCommitIndex, lastLogIndex]
  cases hfind : (List.range' (n.commitIndex + 1) (n.log.length - 1 - n.commitIndex)).reverse.find?
      fun i => n.CanCommit id peers i with
  | none => rfl
  | some i =>
    have hmem := List.mem_of_find?_eq_some hfind
    rw [List.mem_reverse, List.mem_range'_1] at hmem
    exact @applyLoop_eq_applyLog _ { n with commitIndex := i }
      (happlied.trans (Nat.le_of_succ_le hmem.1)) (by dsimp only; omega)

/-- **What `advanceCommitIndex` does.** No access is out of range. If no index can be committed,
nothing changes and nothing is sent. Otherwise the commit index becomes the greatest one, which a
strict majority of the cluster holds, and the entries behind `lastApplied` up to it are sent, in
order and once each. -/
theorem advance_selects (n : Node ι) (id : ι) (peers : List ι) (hpeers : peers.Nodup)
    (happlied : n.lastApplied ≤ n.commitIndex) (hcommit : n.commitIndex < n.log.length) :
    n.Committable id peers = ∅ ∧ n.advance id peers = some (n, []) ∨
      ∃ i, IsGreatest (n.Committable id peers) i ∧
        (clusterOf id peers).card < 2 * (n.holders id peers i).card ∧
        n.advance id peers = some ({ n with commitIndex := i, lastApplied := i },
          (n.log.take (i + 1)).drop (n.lastApplied + 1)) := by
  have hlast : n.log.length - 1 < n.log.length := by omega
  have hcases := @advanceLoop_cases _ _ n id peers _ hlast
  rcases hcases with ⟨hnone, hrun⟩ | ⟨i, hi, hmax, hrun⟩
  · refine .inl ⟨Set.eq_empty_of_forall_notMem fun j hj => ?_, hrun⟩
    have hlt := hnone j hj
    have hj := hj.2.1
    omega
  · refine .inr ⟨i, ⟨hi, fun j hj => hmax j hj (Nat.le_sub_one_of_lt hj.2.1)⟩,
      majority_of_matchCount hpeers hi.2.2.1, ?_⟩
    have hsent := @applyLoop_eq _ { n with commitIndex := i } (happlied.trans hi.1.le) hi.2.1 []
    rw [advance, hrun, hsent, List.nil_append]

/-- The leader of term `2` in a cluster of three, with two entries of its term behind an older
one; peer `b` has them all, the other nothing. -/
def ahead (b : Fin 3) : Node (Fin 3) :=
  { (newNode : Node (Fin 3)) with
    state := .leader
    currentTerm := 2
    log := [.dummy, ⟨1, 1, []⟩, ⟨2, 2, []⟩, ⟨2, 3, []⟩]
    matchIndex := fun p => if p = b then 3 else 0 }

/-- Both conventions for the peers: without the node itself one other holder is enough, with it
both others are needed. -/
theorem advance_selects_ahead :
    (∃ i, IsGreatest ((ahead 1).Committable 0 [1, 2]) i ∧
        (clusterOf 0 [1, 2]).card < 2 * ((ahead 1).holders 0 [1, 2] i).card ∧
        (ahead 1).advance 0 [1, 2] = some ({ ahead 1 with commitIndex := i, lastApplied := i },
          ((ahead 1).log.take (i + 1)).drop 1)) ∧
      (ahead 1).advance 0 [0, 1, 2] = some (ahead 1, []) := by
  have hin : 3 ∈ (ahead 1).Committable 0 [1, 2] := ⟨by decide, by decide, by decide⟩
  refine ⟨?_, ?_⟩
  · rcases advance_selects (ahead 1) 0 [1, 2] (by decide) (by decide) (by decide) with
      ⟨hempty, -⟩ | hgreatest
    · rw [hempty] at hin
      exact hin.elim
    · exact hgreatest
  · rcases advance_selects (ahead 1) 0 [0, 1, 2] (by decide) (by decide) (by decide) with
      ⟨-, hnone⟩ | ⟨i, ⟨⟨hlo, hhi, hcan⟩, -⟩, -⟩
    · exact hnone
    · have hno : ∀ i < 4, 0 < i → ¬ (ahead 1).CanCommit 0 [0, 1, 2] i := by decide
      exact absurd hcan (hno i hhi hlo)

end Stratum.Raft.Node
