import Mathlib.Data.List.Induction
import Stratum.Lib.ByteCodec

/-!
# The block cache

`BlockCache` keeps data blocks of all tables in memory, under the number of the file and the offset
of the block. It has four shards, each a list of items with the **most recently used first**; a
block that is added may push out items from the other end.

What is in the cache, how large it is and what it has forgotten depends on everyone who uses it.
The one thing a reader needs is `BlockCache.put_of_get`: what `Get` returns for a file and an
offset was put there under that file and that offset.
-/

namespace Stratum.Sstable

/-- `NumShards`. -/
def numShards : ℕ := 4

theorem numShards_pos : 0 < numShards := by decide

/-- `cacheItem`. -/
structure CacheItem where
  fileID : ℕ
  offset : ℕ
  data : Bytes
deriving DecidableEq, Repr

/-- `cacheShard`: the items in order of use, the number of their bytes, and its limit. The map from
files and offsets to the items is the search in this list. -/
structure CacheShard where
  order : List CacheItem
  size : ℤ
  cap : ℤ
deriving DecidableEq, Repr

namespace CacheShard

/-- The item of a block. -/
def item? (sh : CacheShard) (fileID offset : ℕ) : Option CacheItem :=
  sh.order.find? fun x => decide (x.fileID = fileID ∧ x.offset = offset)

/-- `BlockCache.Get` in the shard: the item moves to the front. -/
def get (sh : CacheShard) (fileID offset : ℕ) : CacheShard × Option Bytes :=
  match sh.item? fileID offset with
  | some x => ({ sh with order := x :: sh.order.erase x }, some x.data)
  | none => (sh, none)

/-- The eviction loop, on the items from the least recently used on. -/
def evictFrom (cap : ℤ) : List CacheItem → ℤ → List CacheItem × ℤ
  | [], size => ([], size)
  | x :: xs, size => if cap < size then evictFrom cap xs (size - x.data.length) else (x :: xs, size)

/-- Evict while the shard is over its capacity. -/
def evict (sh : CacheShard) : CacheShard :=
  let (xs, size) := evictFrom sh.cap sh.order.reverse sh.size
  { sh with order := xs.reverse, size := size }

/-- `BlockCache.Put` in the shard: a new item, or new data for the one that is there. -/
def put (sh : CacheShard) (fileID offset : ℕ) (data : Bytes) : CacheShard :=
  match sh.item? fileID offset with
  | some x =>
    evict { sh with
      order := ⟨fileID, offset, data⟩ :: sh.order.erase x
      size := sh.size + (data.length - x.data.length) }
  | none =>
    evict { sh with
      order := ⟨fileID, offset, data⟩ :: sh.order
      size := sh.size + data.length }

/-- `BlockCache.RemoveFile` in the shard. -/
def removeFile (sh : CacheShard) (fileID : ℕ) : CacheShard :=
  let (removed, kept) := sh.order.partition fun x => decide (x.fileID = fileID)
  { sh with order := kept, size := sh.size - (removed.map fun x => (x.data.length : ℤ)).sum }

variable {sh : CacheShard} {x : CacheItem}

private theorem mem_of_mem_evictFrom {cap : ℤ} {xs : List CacheItem} {size : ℤ}
    (h : x ∈ (evictFrom cap xs size).1) : x ∈ xs := by
  induction xs generalizing size with
  | nil => exact h
  | cons y ys ih =>
    rw [evictFrom] at h
    split at h
    · exact List.mem_cons_of_mem _ (ih h)
    · exact h

/-- Eviction adds nothing. -/
theorem mem_of_mem_evict (h : x ∈ sh.evict.order) : x ∈ sh.order :=
  List.mem_reverse.1 (mem_of_mem_evictFrom (List.mem_reverse.1 h))

theorem item?_eq_some {fileID offset : ℕ} (h : sh.item? fileID offset = some x) :
    x ∈ sh.order ∧ x.fileID = fileID ∧ x.offset = offset := by
  refine ⟨List.mem_of_find?_eq_some h, ?_⟩
  simpa using List.find?_some h

theorem mem_of_mem_get {fileID offset : ℕ} (h : x ∈ (sh.get fileID offset).1.order) :
    x ∈ sh.order := by
  rw [get] at h
  split at h
  · rename_i y hy
    rcases List.mem_cons.1 h with rfl | h
    · exact (item?_eq_some hy).1
    · exact List.mem_of_mem_erase h
  · exact h

theorem mem_of_mem_put {fileID offset : ℕ} {data : Bytes}
    (h : x ∈ (sh.put fileID offset data).order) :
    x = ⟨fileID, offset, data⟩ ∨ x ∈ sh.order := by
  rw [put] at h
  split at h
  · rcases List.mem_cons.1 (mem_of_mem_evict h) with h | h
    · exact .inl h
    · exact .inr (List.mem_of_mem_erase h)
  · exact List.mem_cons.1 (mem_of_mem_evict h)

theorem mem_of_mem_removeFile {fileID : ℕ} (h : x ∈ (sh.removeFile fileID).order) :
    x ∈ sh.order := by
  rw [removeFile, List.partition_eq_filter_filter] at h
  exact (List.mem_filter.1 h).1

end CacheShard

/-- `BlockCache`. -/
structure BlockCache where
  shards : Fin numShards → CacheShard

/-- `NewBlockCache`. -/
def newBlockCache (capacityBytes : ℤ) : BlockCache :=
  let shardCap := capacityBytes.tdiv numShards
  ⟨fun _ => ⟨[], 0, if shardCap < 1 then 1 else shardCap⟩⟩

namespace BlockCache

/-- `getShard`. -/
def getShard (fileID offset : ℕ) : Fin numShards :=
  ⟨(fileID ^^^ (offset * 2654435761 % 2 ^ 64)) % numShards, Nat.mod_lt _ numShards_pos⟩

/-- `BlockCache.Get`. -/
def get (c : BlockCache) (fileID offset : ℕ) : BlockCache × Option Bytes :=
  let i := getShard fileID offset
  let (sh, data) := (c.shards i).get fileID offset
  (⟨Function.update c.shards i sh⟩, data)

/-- `BlockCache.Put`. -/
def put (c : BlockCache) (fileID offset : ℕ) (data : Bytes) : BlockCache :=
  let i := getShard fileID offset
  ⟨Function.update c.shards i ((c.shards i).put fileID offset data)⟩

/-- `BlockCache.RemoveFile`. -/
def removeFile (c : BlockCache) (fileID : ℕ) : BlockCache :=
  ⟨fun i => (c.shards i).removeFile fileID⟩

/-- A call of one of the methods. -/
inductive Call
  | get (fileID offset : ℕ)
  | put (fileID offset : ℕ) (data : Bytes)
  | removeFile (fileID : ℕ)
deriving DecidableEq, Repr

/-- The cache after a call. -/
def after (c : BlockCache) : Call → BlockCache
  | .get fileID offset => (c.get fileID offset).1
  | .put fileID offset data => c.put fileID offset data
  | .removeFile fileID => c.removeFile fileID

/-- The cache after a history of calls, from when it was new. -/
def ofCalls (capacityBytes : ℤ) (calls : List Call) : BlockCache :=
  calls.foldl after (newBlockCache capacityBytes)

/-- The item is in one of the shards. -/
def Has (c : BlockCache) (x : CacheItem) : Prop := ∃ i, x ∈ (c.shards i).order

variable {c : BlockCache} {x : CacheItem}

private theorem has_of_update {i : Fin numShards} {sh : CacheShard}
    (h : Has ⟨Function.update c.shards i sh⟩ x) : x ∈ sh.order ∨ c.Has x := by
  obtain ⟨j, hj⟩ := h
  by_cases hji : j = i
  · subst hji
    simp only [Function.update_self] at hj
    exact .inl hj
  · simp only [Function.update_of_ne hji] at hj
    exact .inr ⟨j, hj⟩

/-- **Step lemma**: an item of the cache was there before the call, or was put by it. -/
theorem has_of_after {a : Call} (h : (c.after a).Has x) :
    c.Has x ∨ a = .put x.fileID x.offset x.data := by
  cases a with
  | get fileID offset =>
    rcases has_of_update h with h | h
    · exact .inl ⟨_, CacheShard.mem_of_mem_get h⟩
    · exact .inl h
  | put fileID offset data =>
    rcases has_of_update h with h | h
    · rcases CacheShard.mem_of_mem_put h with rfl | h
      · exact .inr rfl
      · exact .inl ⟨_, h⟩
    · exact .inl h
  | removeFile fileID =>
    obtain ⟨i, hi⟩ := h
    exact .inl ⟨i, CacheShard.mem_of_mem_removeFile hi⟩

/-- **Run lemma**: all items of the cache were put. -/
theorem put_of_has {capacityBytes : ℤ} {calls : List Call}
    (h : (ofCalls capacityBytes calls).Has x) : .put x.fileID x.offset x.data ∈ calls := by
  induction calls using List.reverseRecOn with
  | nil =>
    obtain ⟨i, hi⟩ := h
    exact absurd hi List.not_mem_nil
  | append_singleton calls a ih =>
    rw [ofCalls, List.foldl_append, List.foldl_cons, List.foldl_nil] at h
    rcases has_of_after h with h | rfl
    · exact List.mem_append_left _ (ih h)
    · exact List.mem_append_right _ List.mem_cons_self

/-- **What `Get` returns was put** under the same file and offset. -/
theorem put_of_get {capacityBytes : ℤ} {calls : List Call} {fileID offset : ℕ} {data : Bytes}
    (h : ((ofCalls capacityBytes calls).get fileID offset).2 = some data) :
    .put fileID offset data ∈ calls := by
  simp only [get, CacheShard.get] at h
  split at h
  · rename_i x hx
    obtain ⟨hmem, rfl, rfl⟩ := CacheShard.item?_eq_some hx
    obtain rfl := Option.some.inj h
    exact put_of_has ⟨_, hmem⟩
  · cases h

end BlockCache

end Stratum.Sstable
