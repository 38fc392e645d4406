import Stratum.Mvcc.Key

/-!
# The in-memory table

`SkipList` is the skip list seen from its bottom level: the nodes in key order, each with its
value and the height of its tower. The towers above the bottom level only speed up the descent;
what they contribute to the state is their height, which counts towards `memSize`. The height a
node gets is drawn by `randomLevel` and is a parameter of `put` here.

A nil value is a tombstone: `Delete` is `Put` of nil, and nodes are never removed. The order of
the nodes is a field of the structure, so that a lookup may stop at the first key that is not
smaller, as `Get` does, and still answer for the whole list (`SkipList.get_put`).
-/

namespace Stratum.Memtable

open Mvcc

/-- A key with its value, nil standing for a deletion. -/
abbrev Entry := Bytes × Option Bytes

/-- `node`: key, value, and the number of forward pointers. -/
structure Node where
  key : Bytes
  value : Option Bytes
  height : ℕ
deriving DecidableEq, Repr

/-- The bottom level is in strictly increasing key order. -/
def NodesSorted (ns : List Node) : Prop :=
  ns.Pairwise fun a b => compareKeys a.key b.key = .lt

/-- Link a node at its place in the bottom level, or overwrite the value of the node that is
already there (whose tower stays as it is). -/
def insertNode (n : Node) : List Node → List Node
  | [] => [n]
  | m :: ms =>
    if compareKeys m.key n.key = .lt then m :: insertNode n ms
    else if m.key = n.key then { m with value := n.value } :: ms
    else n :: m :: ms

/-- Walk to the first node that is not smaller and compare its key. -/
def getNode (key : Bytes) : List Node → Option (Option Bytes)
  | [] => none
  | m :: ms =>
    if compareKeys m.key key = .lt then getNode key ms
    else if m.key = key then some m.value
    else none

/-- What `Put` accounts for a node. -/
def Node.cost (n : Node) : ℤ := 32 + n.key.length + (n.value.getD []).length + 8 * n.height

/-- What the nodes account for together. -/
def nodesCost (ns : List Node) : ℤ := (ns.map Node.cost).sum

/-- What `Put` adds for a node, when the value of its key was `old`. -/
def Node.costAfter (n : Node) : Option (Option Bytes) → ℤ
  | some old => ((n.value.getD []).length : ℤ) - (old.getD []).length
  | none => n.cost

/-- Linking a node changes the sum by what `Put` adds. -/
theorem nodesCost_insertNode (n : Node) (ns : List Node) :
    nodesCost (insertNode n ns) = nodesCost ns + n.costAfter (getNode n.key ns) := by
  induction ns with
  | nil => simp [insertNode, getNode, nodesCost, Node.costAfter]
  | cons m ms ih =>
    rw [nodesCost] at ih ⊢
    rw [nodesCost, insertNode, getNode]
    split
    · rw [List.map_cons, List.sum_cons, List.map_cons, List.sum_cons, ih, nodesCost, add_assoc]
    · split
      · -- the tower stays, the value is another
        simp only [List.map_cons, List.sum_cons, Node.cost, Node.costAfter]
        omega
      · simp only [List.map_cons, List.sum_cons, Node.costAfter]
        omega

theorem mem_insertNode {n a : Node} {ns : List Node} (h : a ∈ insertNode n ns) :
    a.key = n.key ∨ a ∈ ns := by
  induction ns with
  | nil => simp_all [insertNode]
  | cons m ms ih =>
    simp only [insertNode] at h
    split at h
    · rcases List.mem_cons.mp h with rfl | h
      · exact .inr (by simp)
      · exact (ih h).imp_right (List.mem_cons_of_mem m)
    · split at h
      · rcases List.mem_cons.mp h with rfl | h
        · rename_i heq
          exact .inl heq
        · exact .inr (List.mem_cons_of_mem m h)
      · rcases List.mem_cons.mp h with rfl | h
        · exact .inl rfl
        · exact .inr h

/-- Linking a node keeps the bottom level sorted. -/
theorem nodesSorted_insertNode (n : Node) {ns : List Node} (h : NodesSorted ns) :
    NodesSorted (insertNode n ns) := by
  induction ns with
  | nil => simp [insertNode, NodesSorted]
  | cons m ms ih =>
    obtain ⟨hm, hms⟩ := List.pairwise_cons.mp h
    simp only [insertNode]
    split
    · rename_i hlt
      refine List.pairwise_cons.mpr ⟨fun a ha => ?_, ih hms⟩
      rcases mem_insertNode ha with heq | hmem
      · rw [heq]
        exact hlt
      · exact hm a hmem
    · rename_i hnlt
      split
      · exact List.pairwise_cons.mpr ⟨hm, hms⟩
      · rename_i hne
        have hlt : compareKeys n.key m.key = .lt := compareKeys_lt_of_not_lt_of_ne hnlt hne
        refine List.pairwise_cons.mpr ⟨fun a ha => ?_, h⟩
        rcases List.mem_cons.mp ha with rfl | ha
        · exact hlt
        · exact compareKeys_lt_trans hlt (hm a ha)

/-- **Lookup after insertion**: the inserted key has the new value, every other key what it had
before. -/
theorem getNode_insertNode (key : Bytes) (n : Node) (ns : List Node) :
    getNode key (insertNode n ns) = if n.key = key then some n.value else getNode key ns := by
  induction ns with
  | nil =>
    by_cases h : n.key = key
    · simp [insertNode, getNode, h]
    · simp [insertNode, getNode, h]
  | cons m ms ih =>
    simp only [insertNode]
    split
    · rename_i hlt
      simp only [getNode, ih]
      by_cases hk : n.key = key
      · subst hk
        simp [hlt]
      · simp [hk]
    · rename_i hnlt
      split
      · rename_i heq
        by_cases hk : n.key = key
        · simp [getNode, heq, hk]
        · simp [getNode, heq, hk]
      · rename_i hne
        by_cases hk : n.key = key
        · simp [getNode, hk]
        · -- a key below the new node is below everything that follows it
          simp only [getNode, hk, if_false]
          split
          · rfl
          · rename_i hnk
            have hlt : compareKeys n.key m.key = .lt := compareKeys_lt_of_not_lt_of_ne hnlt hne
            have hmk : compareKeys m.key key ≠ .lt := compareKeys_not_lt_of_not_lt hnk hlt
            have hmne : m.key ≠ key := by
              rintro rfl
              exact hnk hlt
            simp [hmk, hmne]

/-- `SkipList`: its bottom level, and the bytes it accounts for. -/
structure SkipList where
  nodes : List Node
  sorted : NodesSorted nodes
  memSize : ℤ

namespace SkipList

/-- `NewSkipList`. -/
def empty : SkipList := ⟨[], List.Pairwise.nil, 0⟩

/-- `SkipList.Get`. -/
def get (sl : SkipList) (key : Bytes) : Option (Option Bytes) := getNode key sl.nodes

/-- The change of `memSize` made by `Put`: the difference of the value lengths when the key is
there already, else the size of the new node. -/
def putSize (sl : SkipList) (key : Bytes) (value : Option Bytes) (level : ℕ) : ℤ :=
  match sl.get key with
  | some old => ((value.getD []).length : ℤ) - (old.getD []).length
  | none => 32 + key.length + (value.getD []).length + 8 * level

/-- `SkipList.Put`, the tower height of a new node being `level`. -/
def put (sl : SkipList) (key : Bytes) (value : Option Bytes) (level : ℕ) : SkipList :=
  ⟨insertNode ⟨key, value, level⟩ sl.nodes, nodesSorted_insertNode _ sl.sorted,
    sl.memSize + sl.putSize key value level⟩

/-- `memSize` is what the nodes account for. -/
def Weighed (sl : SkipList) : Prop := sl.memSize = nodesCost sl.nodes

theorem Weighed.put {sl : SkipList} (h : sl.Weighed) (key : Bytes) (value : Option Bytes)
    (level : ℕ) : (sl.put key value level).Weighed := by
  rw [Weighed, SkipList.put, nodesCost_insertNode, ← h]
  rfl

/-- What an iterator yields from `SeekToFirst` on. -/
def entries (sl : SkipList) : List Entry := sl.nodes.map fun n => (n.key, n.value)

@[simp] theorem get_empty (key : Bytes) : empty.get key = none := rfl

/-- **A skip list is a map**: `Get` after `Put`. -/
theorem get_put (sl : SkipList) (key : Bytes) (value : Option Bytes) (level : ℕ) (k : Bytes) :
    (sl.put key value level).get k = if key = k then some value else sl.get k :=
  getNode_insertNode k ⟨key, value, level⟩ sl.nodes

/-- Looking a key up in the list of entries is `Get`. -/
theorem lookup_entries (sl : SkipList) (k : Bytes) : sl.entries.lookup k = sl.get k := by
  obtain ⟨ns, hs, size⟩ := sl
  simp only [entries, get]
  induction ns with
  | nil => rfl
  | cons m ms ih =>
    obtain ⟨hm, hms⟩ := List.pairwise_cons.mp hs
    simp only [List.map_cons, List.lookup_cons, getNode]
    rcases compareKeys_trichotomy m.key k with h | h | h
    · have hne : (k == m.key) = false := beq_eq_false_iff_ne.mpr (compareKeys_ne_of_lt h).symm
      simp [h, hne, ih hms]
    · simp [h]
    · -- every later key is larger than `k`, so the scan finds nothing either
      have hnlt : compareKeys m.key k ≠ .lt := by
        intro h'
        simp [compareKeys_gt_iff.mpr h] at h'
      have hne : k ≠ m.key := compareKeys_ne_of_lt h
      have hbeq : (k == m.key) = false := beq_eq_false_iff_ne.mpr hne
      have hnone : (ms.map fun n => (n.key, n.value)).lookup k = none := by
        rw [List.lookup_eq_none_iff]
        intro p hp
        obtain ⟨n, hn, rfl⟩ := List.mem_map.mp hp
        simpa using compareKeys_ne_of_lt (compareKeys_lt_trans h (hm n hn))
      simp [hnlt, hbeq, hne.symm, hnone]

end SkipList

/-- `ErrMemTableFull`: "memtable: is full or frozen". -/
inductive MemTableErr
  | full
deriving DecidableEq, Repr

/-- `MemTable`. -/
structure MemTable where
  sl : SkipList
  maxSize : ℤ
  frozen : Bool

namespace MemTable

/-- `NewMemTable`. -/
def new (maxSize : ℤ) : MemTable := ⟨.empty, maxSize, false⟩

/-- `MemTable.ShouldFlush`. -/
def shouldFlush (mt : MemTable) : Bool := decide (mt.maxSize ≤ mt.sl.memSize)

/-- The test both writes make first. -/
def isFull (mt : MemTable) : Bool := mt.frozen || mt.shouldFlush

/-- `MemTable.Put`; `MemTable.Delete` is the same with a nil value. -/
def put (mt : MemTable) (key : Bytes) (value : Option Bytes) (level : ℕ) :
    Except MemTableErr MemTable :=
  if mt.isFull then .error .full else .ok { mt with sl := mt.sl.put key value level }

/-- `MemTable.Delete`. -/
def delete (mt : MemTable) (key : Bytes) (level : ℕ) : Except MemTableErr MemTable :=
  mt.put key none level

/-- `MemTable.Freeze`. -/
def freeze (mt : MemTable) : MemTable := { mt with frozen := true }

/-- `MemTable.Get`. -/
def get (mt : MemTable) (key : Bytes) : Option (Option Bytes) := mt.sl.get key

/-- What `MemTable.NewIterator` yields. -/
def entries (mt : MemTable) : List Entry := mt.sl.entries

@[simp] theorem get_new (maxSize : ℤ) (key : Bytes) : (new maxSize).get key = none := rfl

@[simp] theorem get_freeze (mt : MemTable) (key : Bytes) : mt.freeze.get key = mt.get key := rfl

@[simp] theorem entries_freeze (mt : MemTable) : mt.freeze.entries = mt.entries := rfl

variable {mt : MemTable} {key : Bytes} {value : Option Bytes} {level : ℕ}

/-- A successful write is visible, and changes no other key. -/
theorem get_put {mt' : MemTable} (h : mt.put key value level = .ok mt') (k : Bytes) :
    mt'.get k = if key = k then some value else mt.get k := by
  simp only [put] at h
  split at h
  · cases h
  · cases h
    exact mt.sl.get_put key value level k

/-- The only reason to turn a write down. -/
theorem isFull_of_put {err : MemTableErr} (h : mt.put key value level = .error err) :
    mt.isFull = true := by
  simp only [put] at h
  split at h
  · assumption
  · cases h

/-- A write does not freeze a table. -/
theorem frozen_put {mt' : MemTable} (h : mt.put key value level = .ok mt') :
    mt'.frozen = mt.frozen := by
  simp only [put] at h
  split at h
  · cases h
  · cases h
    rfl

theorem lookup_entries (mt : MemTable) (k : Bytes) : mt.entries.lookup k = mt.get k :=
  mt.sl.lookup_entries k

end MemTable

end Stratum.Memtable
