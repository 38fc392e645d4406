import Mathlib.Algebra.BigOperators.Group.List.Basic
import Mathlib.Data.List.Nodup
import Stratum.Sstable.Cache

/-!
# The block cache and its history

What the cache holds is compared with the calls that were made. `latest` is the data of the last
`Put` of a block with no `RemoveFile` of its file behind it, and `lastUse` the position of the last
call that asked for the block or put it.

* A shard stays within its capacity and counts its bytes right (`CacheShard.WF`); `Put` throws out
  items **from the end only, and only as long as there are too many bytes**
  (`CacheShard.KeepsRecent`).
* `BlockCache.Remembers` is the invariant of a history: every item is the latest of its block, and
  the items of a shard are in the order of their last use.
-/

namespace Stratum.Sstable

/-- File and offset. -/
def CacheItem.key (x : CacheItem) : ℕ × ℕ := (x.fileID, x.offset)

namespace CacheShard

/-- The bytes of these items. -/
def total (xs : List CacheItem) : ℤ := (xs.map fun x => (x.data.length : ℤ)).sum

/-- The items of other blocks. -/
def others (sh : CacheShard) (fileID offset : ℕ) : List CacheItem :=
  sh.order.filter fun x => decide (x.key ≠ (fileID, offset))

/-- `kept` is what is left of `all` when items go from the end until there are at most `cap`
bytes. -/
def KeepsRecent (cap : ℤ) (all kept : List CacheItem) : Prop :=
  ∃ dropped, all = kept ++ dropped ∧ total kept ≤ cap ∧
    ∀ x rest, dropped = x :: rest → cap < total (kept ++ [x])

/-- A shard as it is between two calls. -/
structure WF (sh : CacheShard) : Prop where
  nodup : (sh.order.map CacheItem.key).Nodup
  size_eq : sh.size = total sh.order
  size_le : sh.size ≤ sh.cap
  cap_pos : 0 < sh.cap

variable {sh : CacheShard} {x : CacheItem} {fileID offset : ℕ} {data : Bytes}

theorem total_cons (x : CacheItem) (xs : List CacheItem) :
    total (x :: xs) = x.data.length + total xs := by
  simp [total]

theorem total_append (xs ys : List CacheItem) : total (xs ++ ys) = total xs + total ys := by
  simp [total]

theorem total_reverse (xs : List CacheItem) : total xs.reverse = total xs := by
  rw [total, List.map_reverse, List.sum_reverse, total]

theorem total_nonneg (xs : List CacheItem) : 0 ≤ total xs := by
  induction xs with
  | nil => exact le_rfl
  | cons x xs ih =>
    rw [total_cons]
    omega

/-! ### Looking an item up -/

theorem others_eq_of_none (h : sh.item? fileID offset = none) :
    sh.others fileID offset = sh.order := by
  refine List.filter_eq_self.mpr fun x hx => ?_
  have hx := List.find?_eq_none.mp h x hx
  simpa [CacheItem.key, Prod.ext_iff, imp_iff_not_or] using hx

/-- Taking the item out leaves the others. -/
theorem WF.erase_eq (h : sh.WF) (hx : sh.item? fileID offset = some x) :
    sh.order.erase x = sh.others fileID offset := by
  obtain ⟨hmem, rfl, rfl⟩ := item?_eq_some hx
  have hnodup : sh.order.Nodup := .of_map _ h.nodup
  rw [hnodup.erase_eq_filter]
  refine List.filter_congr fun y hy => ?_
  rw [bne, Bool.not_eq_eq_eq_not, ← decide_not, Bool.eq_iff_iff]
  simp only [beq_iff_eq, decide_eq_true_eq, not_not]
  exact ⟨fun heq => by rw [heq]; rfl, fun heq => List.inj_on_of_nodup_map h.nodup hy hmem heq⟩

/-- The item and the others are all there is. -/
theorem WF.perm (h : sh.WF) (hx : sh.item? fileID offset = some x) :
    sh.order.Perm (x :: sh.others fileID offset) := by
  rw [← h.erase_eq hx]
  exact List.perm_cons_erase (item?_eq_some hx).1

theorem key_ne_of_mem_others (hx : x ∈ sh.others fileID offset) : x.key ≠ (fileID, offset) := by
  simpa using (List.mem_filter.mp hx).2

theorem WF.nodup_cons (h : sh.WF) (z : CacheItem) (hz : z.key = (fileID, offset)) :
    ((z :: sh.others fileID offset).map CacheItem.key).Nodup := by
  rw [List.map_cons, List.nodup_cons]
  refine ⟨fun hmem => ?_, h.nodup.sublist (List.filter_sublist.map _)⟩
  obtain ⟨y, hy, hkey⟩ := List.mem_map.mp hmem
  exact key_ne_of_mem_others hy (hkey.trans hz)

theorem WF.get_order (h : sh.WF) (fileID offset : ℕ) : (sh.get fileID offset).1 =
    { sh with order := (sh.item? fileID offset).toList ++ sh.others fileID offset } := by
  rw [CacheShard.get]
  rcases hx : sh.item? fileID offset with _ | x
  · rw [others_eq_of_none hx]
    rfl
  · simp only [h.erase_eq hx]
    rfl

theorem WF.get (h : sh.WF) (fileID offset : ℕ) : (sh.get fileID offset).1.WF := by
  have hperm : sh.order.Perm ((sh.item? fileID offset).toList ++ sh.others fileID offset) := by
    rcases hx : sh.item? fileID offset with _ | x
    · rw [others_eq_of_none hx]
      rfl
    · exact h.perm hx
  rw [h.get_order]
  refine ⟨(hperm.map _).nodup_iff.mp h.nodup, ?_, h.size_le, h.cap_pos⟩
  rw [h.size_eq]
  exact (hperm.map _).sum_eq

/-! ### Eviction -/

private theorem evictFrom_spec (cap : ℤ) (xs : List CacheItem) (size : ℤ) :
    ∃ dropped, xs = dropped ++ (evictFrom cap xs size).1 ∧
      (evictFrom cap xs size).2 = size - total dropped ∧
      ((evictFrom cap xs size).2 ≤ cap ∨ (evictFrom cap xs size).1 = []) ∧
      ∀ init x, dropped = init ++ [x] → cap < (evictFrom cap xs size).2 + x.data.length := by
  induction xs generalizing size with
  | nil => exact ⟨[], rfl, by simp [evictFrom, total], .inr rfl, by simp⟩
  | cons y ys ih =>
    rw [evictFrom]
    split
    · rename_i hover
      obtain ⟨dropped, hys, hsize, hend, hlast⟩ := ih (size - y.data.length)
      refine ⟨y :: dropped, by rw [List.cons_append, ← hys], ?_, hend, fun init x hx => ?_⟩
      · rw [hsize, total_cons]
        omega
      · rcases init with _ | ⟨z, init⟩
        · obtain ⟨rfl, rfl⟩ := List.cons.inj hx
          rw [hsize]
          simp [total, hover]
        · exact hlast init x (List.cons.inj hx).2
    · rename_i hfits
      exact ⟨[], rfl, by simp [total], .inl (not_lt.mp hfits), by simp⟩

/-- **Eviction** keeps the first items, as many as the capacity allows. -/
theorem evict_spec (hsize : sh.size = total sh.order) (hcap : 0 < sh.cap) :
    KeepsRecent sh.cap sh.order sh.evict.order ∧ sh.evict.size = total sh.evict.order ∧
      sh.evict.size ≤ sh.cap ∧ sh.evict.cap = sh.cap := by
  obtain ⟨dropped, horder, hsize', hend, hlast⟩ := evictFrom_spec sh.cap sh.order.reverse sh.size
  have hsplit : sh.order = sh.evict.order ++ dropped.reverse := by
    rw [← List.reverse_reverse sh.order, horder, List.reverse_append]
    rfl
  have htotal : sh.evict.size = total sh.evict.order := by
    have hsum := congrArg total hsplit
    rw [total_append, total_reverse] at hsum
    have hevict : sh.evict.size = sh.size - total dropped := hsize'
    omega
  have hle : sh.evict.size ≤ sh.cap := by
    rcases hend with hle | hnil
    · exact hle
    · have hempty : sh.evict.order = [] := congrArg List.reverse hnil
      rw [htotal, hempty]
      exact hcap.le
  refine ⟨⟨dropped.reverse, hsplit, htotal ▸ hle, fun x rest hx => ?_⟩, htotal, hle, rfl⟩
  have hdropped : dropped = rest.reverse ++ [x] := by
    rw [← List.reverse_reverse dropped, hx, List.reverse_cons]
  have hover : sh.cap < sh.evict.size + x.data.length := hlast _ x hdropped
  rw [total_append, ← htotal, total_cons]
  simpa [total] using hover

/-- **`Put`**: the block comes first, then the others, as many as the capacity allows. -/
theorem WF.put (h : sh.WF) (fileID offset : ℕ) (data : Bytes) :
    (sh.put fileID offset data).WF ∧ (sh.put fileID offset data).cap = sh.cap ∧
      KeepsRecent sh.cap (⟨fileID, offset, data⟩ :: sh.others fileID offset)
        (sh.put fileID offset data).order := by
  obtain ⟨sh', hput, horder, hsize, hcap⟩ : ∃ sh', sh.put fileID offset data = evict sh' ∧
      sh'.order = ⟨fileID, offset, data⟩ :: sh.others fileID offset ∧
      sh'.size = total sh'.order ∧ sh'.cap = sh.cap := by
    rw [CacheShard.put]
    rcases hx : sh.item? fileID offset with _ | x
    · refine ⟨_, rfl, by rw [others_eq_of_none hx], ?_, rfl⟩
      rw [total_cons, h.size_eq]
      exact add_comm _ _
    · refine ⟨_, rfl, by rw [h.erase_eq hx], ?_, rfl⟩
      have hsum : total sh.order = total (x :: sh.others fileID offset) :=
        ((h.perm hx).map _).sum_eq
      rw [total_cons, h.erase_eq hx, h.size_eq, hsum, total_cons]
      dsimp only
      omega
  obtain ⟨hkeeps, hsize', hle, hcap'⟩ := evict_spec hsize (hcap ▸ h.cap_pos)
  rw [hput]
  rw [hcap] at hkeeps hle hcap'
  rw [horder] at hkeeps
  refine ⟨⟨?_, hsize', hcap' ▸ hle, hcap' ▸ h.cap_pos⟩, hcap', hkeeps⟩
  obtain ⟨dropped, hall, -⟩ := hkeeps
  have hnodup := @WF.nodup_cons sh fileID offset h ⟨fileID, offset, data⟩ rfl
  rw [hall, List.map_append] at hnodup
  exact (List.nodup_append.mp hnodup).1

theorem removeFile_eq (sh : CacheShard) (fileID : ℕ) : sh.removeFile fileID =
    { sh with
      order := sh.order.filter fun x => decide (x.fileID ≠ fileID)
      size := sh.size - total (sh.order.filter fun x => decide (x.fileID = fileID)) } := by
  have hfilter : (sh.order.filter fun x => !decide (x.fileID = fileID)) =
      sh.order.filter fun x => decide (x.fileID ≠ fileID) :=
    List.filter_congr fun x _ => (decide_not).symm
  rw [removeFile, List.partition_eq_filter_filter, ← hfilter]
  rfl

theorem WF.removeFile (h : sh.WF) (fileID : ℕ) : (sh.removeFile fileID).WF := by
  have hsum : total (sh.order.filter fun x => decide (x.fileID = fileID)) +
      total (sh.order.filter fun x => decide (x.fileID ≠ fileID)) = total sh.order := by
    rw [← total_append]
    simp only [decide_not]
    exact ((List.filter_append_perm _ sh.order).map _).sum_eq
  have hnonneg := total_nonneg (sh.order.filter fun x => decide (x.fileID = fileID))
  rw [removeFile_eq]
  refine ⟨h.nodup.sublist (List.filter_sublist.map _), ?_, ?_, h.cap_pos⟩
  · rw [h.size_eq, ← hsum]
    exact add_sub_cancel_left _ _
  · exact (sub_le_self _ hnonneg).trans h.size_le

end CacheShard

namespace BlockCache

/-! ### The history of calls -/

/-- What a call makes of the data that a block had last. -/
def Call.record (fileID offset : ℕ) (data : Option Bytes) : Call → Option Bytes
  | .get _ _ => data
  | .put f o new => if (f, o) = (fileID, offset) then some new else data
  | .removeFile f => if f = fileID then none else data

/-- The data of the last `Put` of a block with no `RemoveFile` of its file behind it. -/
def latest (calls : List Call) (fileID offset : ℕ) : Option Bytes :=
  calls.foldl (Call.record fileID offset) none

/-- The call asks for the block, or puts it. -/
def Call.uses (fileID offset : ℕ) : Call → Bool
  | .get f o => decide ((f, o) = (fileID, offset))
  | .put f o _ => decide ((f, o) = (fileID, offset))
  | .removeFile _ => false

/-- The position, counted from `1`, of the last call that uses the block; `0` when there is none. -/
def lastUse (calls : List Call) (fileID offset : ℕ) : ℕ :=
  calls.length - calls.reverse.findIdx (Call.uses fileID offset)

variable {calls : List Call} {c : BlockCache} {a : Call} {x y : CacheItem} {fileID offset : ℕ}
  {l : List CacheItem}

theorem latest_concat (calls : List Call) (a : Call) (fileID offset : ℕ) :
    latest (calls ++ [a]) fileID offset = a.record fileID offset (latest calls fileID offset) := by
  simp [latest]

theorem lastUse_concat (calls : List Call) (a : Call) (fileID offset : ℕ) :
    lastUse (calls ++ [a]) fileID offset =
      if a.uses fileID offset then calls.length + 1 else lastUse calls fileID offset := by
  rw [lastUse, List.reverse_append, List.reverse_singleton, List.singleton_append,
    List.findIdx_cons, List.length_append, List.length_singleton]
  rcases a.uses fileID offset with _ | _
  · simp [lastUse]
  · simp

theorem lastUse_le (calls : List Call) (fileID offset : ℕ) :
    lastUse calls fileID offset ≤ calls.length := Nat.sub_le _ _

/-- Items in the order of their last use. -/
def ByUse (calls : List Call) (l : List CacheItem) : Prop :=
  l.Pairwise fun x y => lastUse calls y.fileID y.offset < lastUse calls x.fileID x.offset

/-- A call that uses none of the items does not matter. -/
theorem ByUse.concat (h : ByUse calls l)
    (hunused : ∀ x ∈ l, a.uses x.fileID x.offset = false) : ByUse (calls ++ [a]) l := by
  refine h.imp_of_mem fun {x y} hx hy hlt => ?_
  rwa [lastUse_concat, lastUse_concat, hunused x hx, hunused y hy]

/-- The item that a call uses comes first. -/
theorem ByUse.cons (h : ByUse calls l) (hx : a.uses x.fileID x.offset = true)
    (hunused : ∀ x ∈ l, a.uses x.fileID x.offset = false) : ByUse (calls ++ [a]) (x :: l) := by
  refine List.pairwise_cons.mpr ⟨fun y hy => ?_, h.concat hunused⟩
  rw [lastUse_concat, lastUse_concat, hunused y hy, hx]
  exact Nat.lt_succ_of_le (lastUse_le calls _ _)

/-! ### What the cache remembers -/

/-- A shard against the history. -/
structure ShardRemembers (calls : List Call) (i : Fin numShards) (sh : CacheShard) : Prop where
  wf : sh.WF
  home : ∀ x ∈ sh.order, getShard x.fileID x.offset = i
  latest : ∀ x ∈ sh.order, latest calls x.fileID x.offset = some x.data
  byUse : ByUse calls sh.order

/-- **Invariant of a history**. -/
def Remembers (calls : List Call) (c : BlockCache) : Prop :=
  ∀ i, ShardRemembers calls i (c.shards i)

theorem remembers_newBlockCache (capacityBytes : ℤ) :
    Remembers [] (newBlockCache capacityBytes) := by
  intro i
  have hcap : 0 <
      (if capacityBytes.tdiv numShards < 1 then 1 else capacityBytes.tdiv numShards) := by
    split <;> omega
  exact ⟨⟨.nil, rfl, hcap.le, hcap⟩, by simp [newBlockCache], by simp [newBlockCache], .nil⟩

variable {i : Fin numShards} {sh : CacheShard}

/-- A block that was put or asked for is of this shard: the others of the shard are as they were. -/
private theorem ShardRemembers.latest_others (h : ShardRemembers calls i sh)
    (hsame : ∀ x : CacheItem, x.key ≠ (fileID, offset) →
      ∀ d, a.record x.fileID x.offset d = d)
    (hx : x ∈ sh.others fileID offset) :
    BlockCache.latest (calls ++ [a]) x.fileID x.offset = some x.data := by
  rw [latest_concat, hsame x (CacheShard.key_ne_of_mem_others hx),
    h.latest x (List.mem_filter.mp hx).1]

theorem ShardRemembers.get (h : ShardRemembers calls i sh) (fileID offset : ℕ) :
    ShardRemembers (calls ++ [.get fileID offset]) i (sh.get fileID offset).1 := by
  have hlatest : ∀ x ∈ sh.order,
      BlockCache.latest (calls ++ [.get fileID offset]) x.fileID x.offset = some x.data := by
    intro x hx
    rw [latest_concat]
    exact h.latest x hx
  have hunused : ∀ x ∈ sh.others fileID offset,
      (Call.get fileID offset).uses x.fileID x.offset = false := fun x hx =>
    decide_eq_false (CacheShard.key_ne_of_mem_others hx).symm
  have hothers : ByUse calls (sh.others fileID offset) := h.byUse.sublist List.filter_sublist
  refine ⟨h.wf.get fileID offset, fun x hx => h.home x (CacheShard.mem_of_mem_get hx),
    fun x hx => hlatest x (CacheShard.mem_of_mem_get hx), ?_⟩
  rw [h.wf.get_order]
  rcases hx : sh.item? fileID offset with _ | x
  · exact hothers.concat hunused
  · obtain ⟨-, rfl, rfl⟩ := CacheShard.item?_eq_some hx
    exact hothers.cons (decide_eq_true rfl) hunused

theorem ShardRemembers.put (h : ShardRemembers calls i sh) (hi : getShard fileID offset = i)
    (data : Bytes) :
    ShardRemembers (calls ++ [.put fileID offset data]) i (sh.put fileID offset data) := by
  obtain ⟨hwf, -, dropped, hall, -⟩ := h.wf.put fileID offset data
  have hunused : ∀ x ∈ sh.others fileID offset,
      (Call.put fileID offset data).uses x.fileID x.offset = false := fun x hx =>
    decide_eq_false (CacheShard.key_ne_of_mem_others hx).symm
  have hsub : (sh.put fileID offset data).order.Sublist
      (⟨fileID, offset, data⟩ :: sh.others fileID offset) := by
    rw [hall]
    exact List.sublist_append_left _ _
  have hmem : ∀ x ∈ (sh.put fileID offset data).order,
      x = ⟨fileID, offset, data⟩ ∨ x ∈ sh.others fileID offset := fun x hx =>
    List.mem_cons.mp (hsub.subset hx)
  refine ⟨hwf, fun x hx => ?_, fun x hx => ?_, ?_⟩
  · rcases hmem x hx with rfl | hx
    · exact hi
    · exact h.home x (List.mem_filter.mp hx).1
  · rcases hmem x hx with rfl | hx
    · rw [latest_concat]
      exact if_pos rfl
    · exact h.latest_others (fun y hy d => if_neg hy.symm) hx
  · have hothers : ByUse calls (sh.others fileID offset) := h.byUse.sublist List.filter_sublist
    have hfirst : (Call.put fileID offset data).uses fileID offset = true := decide_eq_true rfl
    exact (hothers.cons (x := ⟨fileID, offset, data⟩) hfirst hunused).sublist hsub

theorem ShardRemembers.removeFile (h : ShardRemembers calls i sh) (fileID : ℕ) :
    ShardRemembers (calls ++ [.removeFile fileID]) i (sh.removeFile fileID) := by
  refine ⟨h.wf.removeFile fileID, fun x hx => h.home x (CacheShard.mem_of_mem_removeFile hx),
    fun x hx => ?_, ?_⟩
  · have hold := h.latest x (CacheShard.mem_of_mem_removeFile hx)
    rw [CacheShard.removeFile_eq] at hx
    have hne : x.fileID ≠ fileID := of_decide_eq_true (List.mem_filter.mp hx).2
    rw [latest_concat, hold]
    exact if_neg hne.symm
  · rw [CacheShard.removeFile_eq]
    have hkept : ByUse calls (sh.order.filter fun x => decide (x.fileID ≠ fileID)) :=
      h.byUse.sublist List.filter_sublist
    exact hkept.concat fun x _ => rfl

/-- A shard that a call does not go to. -/
theorem ShardRemembers.elsewhere (h : ShardRemembers calls i sh)
    (hi : getShard fileID offset ≠ i)
    (hrecord : ∀ f o, (fileID, offset) ≠ (f, o) → ∀ d, a.record f o d = d)
    (huses : ∀ f o, (fileID, offset) ≠ (f, o) → a.uses f o = false) :
    ShardRemembers (calls ++ [a]) i sh := by
  have hne : ∀ x ∈ sh.order, (fileID, offset) ≠ (x.fileID, x.offset) := by
    intro x hx heq
    obtain ⟨rfl, rfl⟩ := Prod.mk.inj heq
    exact hi (h.home x hx)
  refine ⟨h.wf, h.home, fun x hx => ?_, h.byUse.concat fun x hx => huses _ _ (hne x hx)⟩
  rw [latest_concat, hrecord _ _ (hne x hx)]
  exact h.latest x hx

/-- **Step lemma**. -/
theorem Remembers.after (h : Remembers calls c) (a : Call) :
    Remembers (calls ++ [a]) (c.after a) := by
  intro i
  cases a with
  | get fileID offset =>
    rw [BlockCache.after, BlockCache.get]
    dsimp only
    by_cases hi : getShard fileID offset = i
    · subst hi
      rw [Function.update_self]
      exact (h _).get fileID offset
    · rw [Function.update_of_ne (Ne.symm hi)]
      exact (h i).elsewhere hi (fun _ _ _ _ => rfl) fun f o hne => decide_eq_false hne
  | put fileID offset data =>
    rw [BlockCache.after, BlockCache.put]
    dsimp only
    by_cases hi : getShard fileID offset = i
    · subst hi
      rw [Function.update_self]
      exact (h _).put rfl data
    · rw [Function.update_of_ne (Ne.symm hi)]
      exact (h i).elsewhere hi (fun f o hne _ => if_neg hne) fun f o hne => decide_eq_false hne
  | removeFile fileID => exact (h i).removeFile fileID

/-- **Run lemma**. -/
theorem remembers_ofCalls (capacityBytes : ℤ) (calls : List Call) :
    Remembers calls (ofCalls capacityBytes calls) := by
  induction calls using List.reverseRecOn with
  | nil => exact remembers_newBlockCache capacityBytes
  | append_singleton calls a ih =>
    rw [ofCalls, List.foldl_append, List.foldl_cons, List.foldl_nil]
    exact ih.after a

/-- The capacity of a shard never changes. -/
theorem cap_ofCalls (capacityBytes : ℤ) (calls : List Call) (i : Fin numShards) :
    ((ofCalls capacityBytes calls).shards i).cap =
      ((newBlockCache capacityBytes).shards i).cap := by
  induction calls using List.reverseRecOn with
  | nil => rfl
  | append_singleton calls a ih =>
    rw [ofCalls, List.foldl_append, List.foldl_cons, List.foldl_nil, ← ih]
    cases a with
    | get fileID offset =>
      by_cases hi : i = getShard fileID offset
      · subst hi
        simp only [BlockCache.after, BlockCache.get, Function.update_self, CacheShard.get]
        split <;> rfl
      · simp only [BlockCache.after, BlockCache.get, Function.update_of_ne hi]
        rfl
    | put fileID offset data =>
      by_cases hi : i = getShard fileID offset
      · subst hi
        simp only [BlockCache.after, BlockCache.put, Function.update_self, CacheShard.put]
        split <;> rfl
      · simp only [BlockCache.after, BlockCache.put, Function.update_of_ne hi]
        rfl
    | removeFile fileID => rfl

end BlockCache

end Stratum.Sstable
