import Stratum.Lsm.Compaction

/-!
# The merge iterator, call by call

`MergeIterator` has the fields of the source: the iterators it was made of, the heap of those that
are still valid, and the key and value it has come to. `SeekToFirst` and `Seek` fill the heap and
`Next` moves on; `Key` and `Value` keep their last values when `Valid` has become false.

The iterators are given by the entries they pass, in increasing order of keys: `SeekToFirst` leads
to the first entry, `Seek` to the first one that is not below the target. A heap is ordered by
`CompareKeys` and, where keys are equal, by the index of the iterator; the loop of `Next` compares
keys **byte by byte**. Since `CompareKeys` tells different keys apart, the two agree.

`MergeIterator.item_iterate_next` says what repeated calls of `Next` come to: the entries of
`merge`, which is what the compaction goes through, one after the other and then nothing.
-/

namespace Stratum.Lsm

open Mvcc Memtable Sstable KWayMerge

/-- `MergeIterator`. -/
structure MergeIterator where
  iters : List (List Entry)
  hp : List (Cursor Bytes (Option Bytes))
  currentKey : Bytes
  currentVal : Option Bytes
  valid : Bool

namespace MergeIterator

/-- `NewMergeIterator`. -/
def new (iters : List (List Entry)) : MergeIterator := ⟨iters, [], [], none, false⟩

/-- `findSmallest`. -/
def findSmallest (m : MergeIterator) : MergeIterator :=
  match popTop compareKeys m.hp with
  | none => { m with valid := false }
  | some (top, _) =>
    { m with currentKey := top.entry.1, currentVal := top.entry.2, valid := true }

/-- `SeekToFirst`. -/
def seekToFirst (m : MergeIterator) : MergeIterator :=
  findSmallest { m with hp := m.iters.zipIdx.filterMap fun p => Cursor.atStart p.2 p.1 }

/-- What an iterator passes from `Seek` on. -/
def seekIn (target : Bytes) (es : List Entry) : List Entry :=
  es.dropWhile fun e => compareKeys e.1 target = .lt

/-- `Seek`. -/
def seek (m : MergeIterator) (target : Bytes) : MergeIterator :=
  findSmallest
    { m with hp := m.iters.zipIdx.filterMap fun p => Cursor.atStart p.2 (seekIn target p.1) }

/-- `Next`. The loop takes an entry off the heap in each round, so that `size` bounds its rounds. -/
def next (m : MergeIterator) : MergeIterator :=
  if m.valid then
    findSmallest { m with hp := skipKey compareKeys m.currentKey (size m.hp) m.hp }
  else m

/-- `Key` and `Value`, as long as `Valid`. -/
def item (m : MergeIterator) : Option Entry :=
  if m.valid then some (m.currentKey, m.currentVal) else none

/-! ### The fields and the merge in progress -/

/-- The merge in progress that the fields stand for. -/
def toIter (m : MergeIterator) : Iter Bytes (Option Bytes) := ⟨m.hp, m.item⟩

theorem toIter_findSmallest (m : MergeIterator) :
    m.findSmallest.toIter = .ofHeap compareKeys m.hp := by
  rw [findSmallest, Iter.ofHeap]
  cases hpop : popTop compareKeys m.hp with
  | none => rfl
  | some p => rfl

/-- `Next` is a step of the merge. -/
theorem toIter_next (m : MergeIterator) : m.next.toIter = m.toIter.next compareKeys := by
  rw [next]
  split
  · rename_i hvalid
    have hitem : m.item = some (m.currentKey, m.currentVal) := if_pos hvalid
    rw [toIter_findSmallest, Iter.next, toIter, hitem]
  · rename_i hvalid
    have hitem : m.item = none := if_neg hvalid
    rw [Iter.next, toIter, hitem]

/-- `Seek` finds the iterators as `SeekToFirst` would find their parts from the target on. -/
theorem toIter_seek (m : MergeIterator) (target : Bytes) :
    (m.seek target).toIter = .seekToFirst compareKeys (m.iters.map (seekIn target)) := by
  rw [seek, toIter_findSmallest, Iter.seekToFirst, List.zipIdx_map, List.filterMap_map]
  rfl

theorem item_iterate_next (m : MergeIterator) (n : ℕ) :
    (next^[n] m).item = ((Iter.next compareKeys)^[n] m.toIter).current := by
  have hall : (next^[n] m).toIter = (Iter.next compareKeys)^[n] m.toIter := by
    induction n generalizing m with
    | zero => rfl
    | succ n ih => rw [Function.iterate_succ_apply, Function.iterate_succ_apply, ih, toIter_next]
  exact congrArg Iter.current hall

/-- **Repeated calls of `Next`** from the first key on go through the merged entries, and then the
iterator is no longer valid. -/
theorem item_iterate_seekToFirst (m : MergeIterator) (n : ℕ) :
    (next^[n] m.seekToFirst).item = (merge m.iters)[n]? := by
  rw [item_iterate_next, seekToFirst, toIter_findSmallest]
  exact current_iterate_seekToFirst m.iters n

theorem item_iterate_seek (m : MergeIterator) (target : Bytes) (n : ℕ) :
    (next^[n] (m.seek target)).item = (merge (m.iters.map (seekIn target)))[n]? := by
  rw [item_iterate_next, toIter_seek]
  exact current_iterate_seekToFirst _ n

/-! ### The specification -/

/-- The merged entries of some iterators whose keys are in `p`: in increasing order, with all the
keys that the iterators have, each with the value of the **first iterator that has it**. -/
structure Merges (iters : List (List Entry)) (p : Bytes → Prop) (l : List Entry) : Prop where
  sorted : EntriesSorted l
  keys : ∀ k, (∃ v, (k, v) ∈ l) ↔ p k ∧ ∃ es ∈ iters, ∃ v, (k, v) ∈ es
  lowest : ∀ e ∈ l, ∃ (i : ℕ) (es : List Entry), iters[i]? = some es ∧ e ∈ es ∧
    ∀ (j : ℕ) (es' : List Entry), iters[j]? = some es' → (∃ v, (e.1, v) ∈ es') → i ≤ j

variable {iters : List (List Entry)}

theorem merges_merge (h : ∀ es ∈ iters, EntriesSorted es) :
    Merges iters (fun _ => True) (merge iters) where
  sorted := sorted_merge h
  keys k := by
    constructor
    · rintro ⟨v, hv⟩
      obtain ⟨es, hes, hmem⟩ := exists_of_mem_merge hv
      exact ⟨trivial, es, hes, v, hmem⟩
    · rintro ⟨-, es, hes, v, hv⟩
      -- the first iterator that has the key
      obtain ⟨i, hi⟩ := List.mem_iff_getElem?.mp hes
      have hex : ∃ i es v, iters[i]? = some es ∧ (k, v) ∈ es := ⟨i, es, v, hi, hv⟩
      classical
      obtain ⟨es', v', hget, hmem⟩ := Nat.find_spec hex
      refine ⟨v', (mem_merge h).mpr ⟨_, es', hget, hmem, fun j l hl w hw => ?_⟩⟩
      exact Nat.find_min' hex ⟨l, w, hl, hw⟩
  lowest e he := by
    obtain ⟨i, es, hes, hmem, hmin⟩ := (mem_merge h).mp he
    exact ⟨i, es, hes, hmem, fun j es' hes' ⟨v, hv⟩ => hmin j es' hes' v hv⟩

/-- What an iterator passes from a target on are its entries that are not below the target. -/
theorem mem_seekIn {es : List Entry} (h : EntriesSorted es) {target : Bytes} {e : Entry} :
    e ∈ seekIn target es ↔ e ∈ es ∧ compareKeys e.1 target ≠ .lt := by
  rw [seekIn, h.dropWhile_eq_filter, List.mem_filter, decide_eq_true_iff]

/-- Merging the parts from a target on gives the part of the merge from the target on. -/
theorem Merges.of_seekIn {target : Bytes} {l : List Entry} (h : ∀ es ∈ iters, EntriesSorted es)
    (hl : Merges (iters.map (seekIn target)) (fun _ => True) l) :
    Merges iters (fun k => compareKeys k target ≠ .lt) l where
  sorted := hl.sorted
  keys k := by
    rw [hl.keys k]
    constructor
    · rintro ⟨-, _, hpart, v, hv⟩
      obtain ⟨es, hes, rfl⟩ := List.mem_map.mp hpart
      obtain ⟨hv, hk⟩ := (mem_seekIn (h es hes)).mp hv
      exact ⟨hk, es, hes, v, hv⟩
    · rintro ⟨hk, es, hes, v, hv⟩
      exact ⟨trivial, _, List.mem_map_of_mem hes, v, (mem_seekIn (h es hes)).mpr ⟨hv, hk⟩⟩
  lowest e he := by
    obtain ⟨i, _, hes, hmem, hmin⟩ := hl.lowest e he
    rw [List.getElem?_map, Option.map_eq_some_iff] at hes
    obtain ⟨es, hes, rfl⟩ := hes
    obtain ⟨hmem, hk⟩ := (mem_seekIn (h es (List.mem_of_getElem? hes))).mp hmem
    refine ⟨i, es, hes, hmem, fun j es' hes' ⟨v, hv⟩ => hmin j (seekIn target es') ?_ ⟨v, ?_⟩⟩
    · rw [List.getElem?_map, hes']
      rfl
    · exact (mem_seekIn (h es' (List.mem_of_getElem? hes'))).mpr ⟨hv, hk⟩

/-- **The merge iterator.** Of iterators whose keys increase, in whatever state it is: after
`SeekToFirst`, or after `Seek`, there is a list of all their entries, or of those that are not below
the target, in increasing order of keys, each key once and with the value that the first iterator
has for it, nil included; after `n` calls of `Next` the iterator stands on the `n`-th entry of the
list, and it is valid exactly as long as there is one. -/
theorem merge_iterator_spec (h : ∀ es ∈ iters, EntriesSorted es) (m : MergeIterator)
    (hm : m.iters = iters) :
    (∃ l, Merges iters (fun _ => True) l ∧ ∀ n, (next^[n] m.seekToFirst).item = l[n]?) ∧
      ∀ target, ∃ l, Merges iters (fun k => compareKeys k target ≠ .lt) l ∧
        ∀ n, (next^[n] (m.seek target)).item = l[n]? := by
  subst hm
  refine ⟨⟨_, merges_merge h, m.item_iterate_seekToFirst⟩, fun target => ?_⟩
  have hseek : ∀ es ∈ m.iters.map (seekIn target), EntriesSorted es := by
    intro es hes
    obtain ⟨es', hes', rfl⟩ := List.mem_map.mp hes
    exact (h es' hes').sublist (List.dropWhile_sublist _)
  exact ⟨_, (merges_merge hseek).of_seekIn h, m.item_iterate_seek target⟩

/-- Two iterators that share a key. -/
def sharedKey : List (List Entry) := [[([1], some [5])], [([1], none), ([2], none)]]

/-- The value of the first iterator wins over the tombstone of the second. -/
theorem merge_iterator_sharedKey :
    (∀ es ∈ sharedKey, EntriesSorted es) ∧
      (new sharedKey).seekToFirst.item = some ([1], some [5]) ∧
      (new sharedKey).seekToFirst.next.item = some ([2], none) ∧
      ∃ l, Merges sharedKey (fun _ => True) l ∧
        ∀ n, (next^[n] (new sharedKey).seekToFirst).item = l[n]? := by
  have h : ∀ es ∈ sharedKey, EntriesSorted es := by
    simp only [sharedKey, EntriesSorted]
    decide
  exact ⟨h, by decide, by decide, (merge_iterator_spec h (new sharedKey) rfl).1⟩

end MergeIterator

end Stratum.Lsm
