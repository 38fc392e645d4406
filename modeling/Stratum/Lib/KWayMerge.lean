import Mathlib.Algebra.GroupWithZero.Nat
import Mathlib.Data.List.Nodup
import Mathlib.Data.List.Perm.Basic
import Mathlib.Data.Nat.Basic
import Mathlib.Logic.Function.Iterate
import Mathlib.Order.Compare
import Mathlib.Tactic.Common

/-!
# Merging sorted sources with priorities

Several sources, each a list of bindings in strictly increasing key order, are merged through a
heap of cursors. The heap hands out the cursor with the smallest key, and among those the one of
the source with the lowest index; advancing past a key advances every cursor that stands on it.
A key therefore comes out once, with the value of the **first** source that has it.

The heap is a list from which `popTop` takes the least element; of a heap only that is used. The
main results are `mem_merge` and `sorted_merge`, for lookups `lookup_merge`, and for the steps of
an iterator `current_iterate_seekToFirst`. Keys are compared by an arbitrary total order `cmp`.
-/

namespace KWayMerge

variable {κ β : Type*}

/-- A cursor: the index of its source, the binding it stands on, and what comes after it. -/
structure Cursor (κ β : Type*) where
  idx : ℕ
  entry : κ × β
  rest : List (κ × β)

namespace Cursor

/-- A cursor at the start of a source, when the source is not empty. -/
def atStart (idx : ℕ) : List (κ × β) → Option (Cursor κ β)
  | [] => none
  | e :: es => some ⟨idx, e, es⟩

/-- The cursor one binding further, when there is one. -/
def next (c : Cursor κ β) : Option (Cursor κ β) := atStart c.idx c.rest

/-- The bindings from the cursor on. -/
def entries (c : Cursor κ β) : List (κ × β) := c.entry :: c.rest

/-- The order of the heap: by key, then by index. -/
def compare (cmp : κ → κ → Ordering) (a b : Cursor κ β) : Ordering :=
  (cmp a.entry.1 b.entry.1).then (Ord.compare a.idx b.idx)

end Cursor

variable (cmp : κ → κ → Ordering)

/-- Take the least cursor out of the heap. -/
def popTop : List (Cursor κ β) → Option (Cursor κ β × List (Cursor κ β))
  | [] => none
  | c :: cs =>
    match popTop cs with
    | none => some (c, [])
    | some (top, rest) =>
      if Cursor.compare cmp c top = .lt then some (c, top :: rest) else some (top, c :: rest)

/-- The number of bindings that are still to come. -/
def size (heap : List (Cursor κ β)) : ℕ := (heap.map fun c => c.entries.length).sum

section Merge

variable [DecidableEq κ]

/-- Advance every cursor that stands on the key: as long as the least one does, it is taken out
and put back one binding further. -/
def skipKey (key : κ) : ℕ → List (Cursor κ β) → List (Cursor κ β)
  | 0, heap => heap
  | fuel + 1, heap =>
    match popTop cmp heap with
    | none => heap
    | some (top, rest) =>
      if top.entry.1 = key then skipKey key fuel (top.next.toList ++ rest) else heap

/-- The merge in progress: the heap, and the binding it has come to. -/
structure Iter (κ β : Type*) where
  heap : List (Cursor κ β)
  current : Option (κ × β)

/-- The iterator over a heap stands on the least binding. -/
def Iter.ofHeap (heap : List (Cursor κ β)) : Iter κ β :=
  ⟨heap, (popTop cmp heap).map fun p => p.1.entry⟩

/-- The iterator at the start of the sources. -/
def Iter.seekToFirst (sources : List (List (κ × β))) : Iter κ β :=
  .ofHeap cmp (sources.zipIdx.filterMap fun p => Cursor.atStart p.2 p.1)

/-- The iterator at the next key. -/
def Iter.next (it : Iter κ β) : Iter κ β :=
  match it.current with
  | none => it
  | some e => .ofHeap cmp (skipKey cmp e.1 (size it.heap) it.heap)

/-- The bindings an iterator passes in `fuel` rounds, as long as it is valid. -/
def Iter.collect : ℕ → Iter κ β → List (κ × β)
  | 0, _ => []
  | fuel + 1, it =>
    match it.current with
    | none => []
    | some e => e :: collect fuel (it.next cmp)

/-- All bindings of the merge. -/
def merge (sources : List (List (κ × β))) : List (κ × β) :=
  Iter.collect cmp (size (Iter.seekToFirst cmp sources).heap) (Iter.seekToFirst cmp sources)

end Merge

/-! ### The least cursor -/

/-- The bindings are in strictly increasing key order. -/
def Sorted (l : List (κ × β)) : Prop := l.Pairwise fun a b => cmp a.1 b.1 = .lt

variable {cmp}

variable {heap rest : List (Cursor κ β)} {top c : Cursor κ β}

theorem popTop_eq_none : popTop cmp heap = none ↔ heap = [] := by
  cases heap with
  | nil => simp [popTop]
  | cons c cs =>
    simp only [popTop, reduceCtorEq, iff_false]
    split
    · simp
    · split <;> simp

theorem popTop_perm (h : popTop cmp heap = some (top, rest)) : heap.Perm (top :: rest) := by
  induction heap generalizing top rest with
  | nil => simp [popTop] at h
  | cons c cs ih =>
    simp only [popTop] at h
    split at h
    · rename_i hnone
      cases h
      rw [popTop_eq_none.mp hnone]
    · rename_i top' rest' hsome
      split at h <;> cases h
      · exact (ih hsome).cons c
      · exact ((ih hsome).cons c).trans (.swap _ _ _)

section Order

private theorem not_lt_self {α : Type*} {cmp : α → α → Ordering} [Std.ReflCmp cmp] (a : α) :
    cmp a a ≠ .lt := by
  rw [@Std.ReflCmp.compare_self _ cmp]
  nofun

variable [Std.TransCmp cmp]

instance : Std.TransCmp (@Cursor.compare κ β cmp) :=
  letI : Ord κ := ⟨cmp⟩
  haveI : Std.TransOrd κ := inferInstanceAs (Std.TransCmp cmp)
  inferInstanceAs (Std.TransCmp
    (compareLex (compareOn fun c : Cursor κ β => c.entry.1) (compareOn Cursor.idx)))

/-- The cursor that is taken out is a least one. -/
theorem popTop_least {heap rest : List (Cursor κ β)} {top : Cursor κ β}
    (h : popTop cmp heap = some (top, rest)) :
    ∀ c ∈ rest, Cursor.compare cmp c top ≠ .lt := by
  induction heap generalizing top rest with
  | nil => simp [popTop] at h
  | cons c cs ih =>
    simp only [popTop] at h
    split at h
    · cases h
      simp
    · rename_i top' rest' hsome
      split at h <;> cases h
      · rename_i hlt
        rintro d hd hd'
        have hlt' : Cursor.compare cmp d top' = .lt := Std.TransCmp.lt_trans hd' hlt
        rcases List.mem_cons.mp hd with rfl | hd
        · exact not_lt_self d hlt'
        · exact ih hsome d hd hlt'
      · rename_i hnlt
        rintro d hd
        rcases List.mem_cons.mp hd with rfl | hd
        · exact hnlt
        · exact ih hsome d hd

/-- What the heap promises of its least cursor: no key is smaller, and among those with its key no
index. -/
theorem popTop_le {heap rest : List (Cursor κ β)} {top : Cursor κ β}
    (h : popTop cmp heap = some (top, rest)) {c : Cursor κ β} (hc : c ∈ heap) :
    cmp c.entry.1 top.entry.1 ≠ .lt ∧
      (cmp c.entry.1 top.entry.1 = .eq → top.idx ≤ c.idx) := by
  have hnlt : Cursor.compare cmp c top ≠ .lt := by
    rcases List.mem_cons.mp ((popTop_perm h).mem_iff.mp hc) with rfl | hc
    · exact not_lt_self c
    · exact popTop_least h c hc
  refine ⟨fun hlt => hnlt ?_, fun heq => ?_⟩
  · rw [Cursor.compare, hlt]
    rfl
  · by_contra hidx
    refine hnlt ?_
    rw [Cursor.compare, heq]
    exact Nat.compare_eq_lt.mpr (by omega)

end Order

/-! ### What a heap holds -/

/-- The heap has a cursor of this source that still has the binding to come. -/
def Holds (heap : List (Cursor κ β)) (idx : ℕ) (e : κ × β) : Prop :=
  ∃ c ∈ heap, c.idx = idx ∧ e ∈ c.entries

/-- The binding is the one of the first source that has its key. -/
def Wins (heap : List (Cursor κ β)) (e : κ × β) : Prop :=
  ∃ idx, Holds heap idx e ∧ ∀ j v, Holds heap j (e.1, v) → idx ≤ j

/-- A proper heap: at most one cursor for each source, and the sources sorted. -/
structure HeapInv (cmp : κ → κ → Ordering) (heap : List (Cursor κ β)) : Prop where
  nodup : (heap.map Cursor.idx).Nodup
  sorted : ∀ c ∈ heap, Sorted cmp c.entries

theorem HeapInv.perm {heap' : List (Cursor κ β)} (h : HeapInv cmp heap) (hp : heap.Perm heap') :
    HeapInv cmp heap' :=
  ⟨(hp.map Cursor.idx).nodup_iff.mp h.nodup, fun c hc => h.sorted c (hp.mem_iff.mpr hc)⟩

theorem Cursor.next_some {d : Cursor κ β} (h : c.next = some d) :
    d.idx = c.idx ∧ d.entries = c.rest := by
  rw [next] at h
  cases hr : c.rest with
  | nil => simp [hr, atStart] at h
  | cons e es =>
    rw [hr, atStart] at h
    cases h
    exact ⟨rfl, rfl⟩

theorem Cursor.next_none (h : c.next = none) : c.rest = [] := by
  rw [next] at h
  cases hr : c.rest with
  | nil => rfl
  | cons e es => simp [hr, atStart] at h

private theorem countP_le_size (p : Cursor κ β → Bool) (heap : List (Cursor κ β)) :
    heap.countP p ≤ size heap := by
  have hlen : heap.length ≤ size heap := by
    rw [size]
    induction heap with
    | nil => simp
    | cons c cs ih =>
      rw [List.map_cons, List.sum_cons, List.length_cons, Cursor.entries, List.length_cons]
      omega
  have hcount : heap.countP p ≤ heap.length := List.countP_le_length
  omega

private theorem size_perm {heap' : List (Cursor κ β)} (h : heap.Perm heap') :
    size heap = size heap' := (h.map _).sum_nat

private theorem size_advance (top : Cursor κ β) (rest : List (Cursor κ β)) :
    size (top.next.toList ++ rest) + 1 = size (top :: rest) := by
  rw [size, size, List.map_append, List.sum_append, List.map_cons, List.sum_cons]
  cases hnext : top.next with
  | none =>
    rw [Cursor.entries, Cursor.next_none hnext]
    simp
    omega
  | some d =>
    rw [Option.toList_some, List.map_singleton, List.sum_singleton, (Cursor.next_some hnext).2,
      Cursor.entries, List.length_cons]
    omega

private theorem size_pos (hpop : popTop cmp heap = some (top, rest)) : 0 < size heap := by
  rw [size_perm (popTop_perm hpop), ← size_advance]
  exact Nat.succ_pos _

/-- A cursor put back further on keeps the heap proper. -/
theorem HeapInv.advance (h : HeapInv cmp (top :: rest)) :
    HeapInv cmp (top.next.toList ++ rest) := by
  cases hnext : top.next with
  | none =>
    exact ⟨(List.nodup_cons.mp h.nodup).2, fun c hc => h.sorted c (List.mem_cons_of_mem _ hc)⟩
  | some d =>
    obtain ⟨hidx, hentries⟩ := Cursor.next_some hnext
    refine ⟨?_, fun c hc => ?_⟩
    · have hnodup := h.nodup
      rw [List.map_cons] at hnodup
      simpa [hidx] using hnodup
    · rcases List.mem_cons.mp hc with rfl | hc
      · rw [hentries]
        exact (List.pairwise_cons.mp (h.sorted top (by simp))).2
      · exact h.sorted c (List.mem_cons_of_mem _ hc)

/-- The keys after the one a cursor stands on are larger. -/
theorem Cursor.lt_of_mem_rest (h : Sorted cmp c.entries) {e : κ × β} (he : e ∈ c.rest) :
    cmp c.entry.1 e.1 = .lt := (List.pairwise_cons.mp h).1 e he

private theorem Cursor.lt_of_next {d : Cursor κ β} (h : Sorted cmp c.entries)
    (hnext : c.next = some d) : cmp c.entry.1 d.entry.1 = .lt :=
  lt_of_mem_rest h ((next_some hnext).2 ▸ List.mem_cons_self)

/-- In a cursor that is not past the key, the key is the one it stands on. -/
private theorem entry_of_mem (h : Sorted cmp c.entries) {e : κ × β} (he : e ∈ c.entries)
    (hmin : cmp c.entry.1 e.1 ≠ .lt) : e = c.entry := by
  rcases List.mem_cons.mp he with rfl | he
  · rfl
  · exact absurd (Cursor.lt_of_mem_rest h he) hmin

section Skip

variable [DecidableEq κ]

variable {heap : List (Cursor κ β)} {key : κ} {fuel : ℕ}

theorem HeapInv.skipKey (h : HeapInv cmp heap) (key : κ) (fuel : ℕ) :
    HeapInv cmp (skipKey cmp key fuel heap) := by
  induction fuel generalizing heap with
  | zero => exact h
  | succ fuel ih =>
    rw [KWayMerge.skipKey]
    split
    · exact h
    · rename_i hpop
      split
      · exact ih (h.perm (popTop_perm hpop)).advance
      · exact h

/-- The cursors after the key is skipped. -/
private def skipped (key : κ) (heap : List (Cursor κ β)) : List (Cursor κ β) :=
  heap.filterMap fun c => if c.entry.1 = key then c.next else some c

private theorem skipped_of_forall_ne (h : ∀ c ∈ heap, c.entry.1 ≠ key) :
    skipped key heap = heap := by
  rw [skipped]
  refine (List.filterMap_congr fun c hc => ?_).trans List.filterMap_some
  rw [if_neg (h c hc)]

private theorem size_skipKey_le (key : κ) (fuel : ℕ) (heap : List (Cursor κ β)) :
    size (skipKey cmp key fuel heap) ≤ size heap := by
  induction fuel generalizing heap with
  | zero => rfl
  | succ fuel ih =>
    rw [skipKey]
    split
    · rfl
    · rename_i top rest hpop
      split
      · have hsize := size_advance top rest
        rw [← size_perm (popTop_perm hpop)] at hsize
        exact (ih _).trans (by omega)
      · rfl

/-- Skipping the key of the least cursor makes the heap smaller. -/
private theorem size_skipKey_lt {fuel : ℕ} {heap rest : List (Cursor κ β)} {top : Cursor κ β}
    (hpop : popTop cmp heap = some (top, rest)) :
    size (skipKey cmp top.entry.1 (fuel + 1) heap) < size heap := by
  have hsize := size_advance top rest
  rw [← size_perm (popTop_perm hpop)] at hsize
  rw [skipKey, hpop]
  simp only [if_pos]
  have hle := @size_skipKey_le κ β cmp _ top.entry.1 fuel (top.next.toList ++ rest)
  omega

/-- What a heap holds after a key is skipped, it held before. -/
private theorem exists_of_mem_skipKey {c : Cursor κ β} (hc : c ∈ skipKey cmp key fuel heap) :
    ∃ d ∈ heap, c.entries ⊆ d.entries := by
  induction fuel generalizing heap with
  | zero => exact ⟨c, hc, List.Subset.refl _⟩
  | succ fuel ih =>
    rw [skipKey] at hc
    split at hc
    · exact ⟨c, hc, List.Subset.refl _⟩
    · rename_i top rest hpop
      have hperm := popTop_perm hpop
      split at hc
      · obtain ⟨d, hd, hsub⟩ := ih hc
        rcases List.mem_append.mp hd with hd | hd
        · refine ⟨top, hperm.mem_iff.mpr List.mem_cons_self, List.Subset.trans hsub ?_⟩
          rw [(Cursor.next_some (Option.mem_toList.mp hd)).2]
          exact List.subset_cons_self _ _
        · exact ⟨d, hperm.mem_iff.mpr (List.mem_cons_of_mem _ hd), hsub⟩
      · exact ⟨c, hc, List.Subset.refl _⟩

/-- Sorted or not, an iterator passes bindings of its heap only. -/
private theorem exists_of_mem_collect {e : κ × β}
    (he : e ∈ Iter.collect cmp fuel (.ofHeap cmp heap)) : ∃ c ∈ heap, e ∈ c.entries := by
  induction fuel generalizing heap with
  | zero => cases he
  | succ fuel ih =>
    rw [Iter.collect] at he
    split at he
    · cases he
    · rename_i x hcur
      obtain ⟨⟨top, rest⟩, hpop, rfl⟩ := Option.map_eq_some_iff.mp hcur
      rcases List.mem_cons.mp he with rfl | he
      · exact ⟨top, (popTop_perm hpop).mem_iff.mpr List.mem_cons_self, List.mem_cons_self⟩
      · rw [Iter.next, hcur] at he
        obtain ⟨c, hc, hec⟩ := ih he
        obtain ⟨d, hd, hsub⟩ := exists_of_mem_skipKey hc
        exact ⟨d, hd, hsub hec⟩

private theorem length_collect_le (fuel : ℕ) (it : Iter κ β) :
    (it.collect cmp fuel).length ≤ fuel := by
  induction fuel generalizing it with
  | zero => exact le_rfl
  | succ fuel ih =>
    rw [Iter.collect]
    split
    · exact Nat.zero_le _
    · exact Nat.succ_le_succ (ih _)

private theorem size_next_lt {rest : List (Cursor κ β)} {top : Cursor κ β}
    (hpop : popTop cmp heap = some (top, rest)) :
    size (skipKey cmp top.entry.1 (size heap) heap) < size heap := by
  have hlt := @size_skipKey_lt κ β cmp _ (size heap - 1) heap rest top hpop
  rwa [Nat.sub_add_cancel (size_pos hpop)] at hlt

omit [DecidableEq κ] in
private theorem current_ofHeap (heap : List (Cursor κ β)) :
    (Iter.ofHeap cmp heap).current = (popTop cmp heap).map fun p => p.1.entry := rfl

private theorem next_ofHeap {rest : List (Cursor κ β)} {top : Cursor κ β}
    (hpop : popTop cmp heap = some (top, rest)) :
    (Iter.ofHeap cmp heap).next cmp = .ofHeap cmp (skipKey cmp top.entry.1 (size heap) heap) := by
  rw [Iter.next, current_ofHeap, hpop]
  rfl

/-- **Step by step**: after `n` steps an iterator stands on the `n`-th of the bindings it passes,
and when there are no more it stands on none. -/
theorem Iter.current_iterate (n : ℕ) (hfuel : size heap ≤ fuel) :
    ((Iter.next cmp)^[n] (.ofHeap cmp heap)).current =
      (collect cmp fuel (.ofHeap cmp heap))[n]? := by
  induction n generalizing fuel heap with
  | zero =>
    cases hpop : popTop cmp heap with
    | none =>
      have hcur : (Iter.ofHeap cmp heap).current = none := by rw [current_ofHeap, hpop]; rfl
      cases fuel <;> simp [collect, hcur]
    | some p =>
      obtain ⟨fuel, rfl⟩ := Nat.exists_eq_add_of_lt ((size_pos hpop).trans_le hfuel)
      have hcur : (Iter.ofHeap cmp heap).current = some p.1.entry := by
        rw [current_ofHeap, hpop]
        rfl
      simp [collect, hcur]
  | succ n ih =>
    rw [Function.iterate_succ_apply]
    cases hpop : popTop cmp heap with
    | none =>
      have hcur : (Iter.ofHeap cmp heap).current = none := by rw [current_ofHeap, hpop]; rfl
      have hstay : (Iter.ofHeap cmp heap).next cmp = .ofHeap cmp heap := by rw [Iter.next, hcur]
      rw [hstay, ih hfuel]
      cases fuel <;> simp [collect, hcur]
    | some p =>
      obtain ⟨top, rest⟩ := p
      have hcur : (Iter.ofHeap cmp heap).current = some top.entry := by
        rw [current_ofHeap, hpop]
        rfl
      obtain ⟨fuel, rfl⟩ := Nat.exists_eq_add_of_lt ((size_pos hpop).trans_le hfuel)
      have hless := size_next_lt hpop
      rw [Nat.zero_add] at hfuel ⊢
      rw [collect, hcur, next_ofHeap hpop, ih (Nat.le_of_lt_succ (hless.trans_le hfuel))]
      rfl

variable [Std.TransCmp cmp] [Std.LawfulEqCmp cmp]

/-- The loop advances exactly the cursors on the key, when that is the least key. -/
private theorem skipKey_perm (h : HeapInv cmp heap) (hmin : ∀ c ∈ heap, cmp c.entry.1 key ≠ .lt)
    (hfuel : heap.countP (fun c => decide (c.entry.1 = key)) ≤ fuel) :
    (skipKey cmp key fuel heap).Perm (skipped key heap) := by
  induction fuel generalizing heap with
  | zero =>
    rw [skipKey, skipped_of_forall_ne]
    intro c hc
    have hzero := List.countP_eq_zero.mp (Nat.le_zero.mp hfuel) c hc
    simpa using hzero
  | succ fuel ih =>
    rw [skipKey]
    cases hpop : popTop cmp heap with
    | none => rw [popTop_eq_none.mp hpop, skipped_of_forall_ne (by simp)]
    | some p =>
      obtain ⟨top, rest⟩ := p
      have hperm := popTop_perm hpop
      have hcons := h.perm hperm
      dsimp only
      split
      · rename_i htop
        have hskip : (skipped key heap).Perm (top.next.toList ++ skipped key rest) := by
          refine (hperm.filterMap _).trans (List.Perm.of_eq ?_)
          rw [List.filterMap_cons, if_pos htop]
          cases top.next <;> rfl
        have hlt : ∀ d ∈ top.next, cmp key d.entry.1 = .lt := fun d hd =>
          htop ▸ Cursor.lt_of_next (hcons.sorted top (by simp)) hd
        have hnext : ∀ d ∈ top.next, d.entry.1 ≠ key := by
          rintro d hd rfl
          exact not_lt_self _ (hlt d hd)
        refine (ih hcons.advance ?_ ?_).trans ?_
        · intro c hc
          rcases List.mem_append.mp hc with hc | hc
          · exact fun hgt => not_lt_self key
              (Std.TransCmp.lt_trans (hlt c (Option.mem_toList.mp hc)) hgt)
          · exact hmin c (hperm.mem_iff.mpr (List.mem_cons_of_mem _ hc))
        · rw [hperm.countP_eq, List.countP_cons_of_pos (by simpa using htop)] at hfuel
          rw [List.countP_append, List.countP_eq_zero.mpr, Nat.zero_add]
          · omega
          · intro d hd
            simpa using hnext d (Option.mem_toList.mp hd)
        · rw [skipped, List.filterMap_append]
          refine List.Perm.trans ?_ hskip.symm
          refine List.Perm.append_right _ (List.Perm.of_eq ?_)
          cases hn : top.next with
          | none => rfl
          | some d =>
            simp [hnext d hn]
      · rename_i htop
        rw [skipped_of_forall_ne]
        rintro c hc rfl
        -- the least cursor would have to be below the key
        have hle := (popTop_le hpop hc).1
        have hge := hmin top (hperm.mem_iff.mpr List.mem_cons_self)
        cases hcmp : cmp top.entry.1 c.entry.1 with
        | lt => exact hge hcmp
        | eq => exact htop (Std.LawfulEqCmp.eq_of_compare hcmp)
        | gt => exact hle (Std.OrientedCmp.gt_iff_lt.mp hcmp)

/-! ### The merge -/

/-- Skipping the least key removes its bindings and nothing else. -/
private theorem holds_skipKey (h : HeapInv cmp heap) (hmin : ∀ c ∈ heap, cmp c.entry.1 key ≠ .lt)
    (hfuel : heap.countP (fun c => decide (c.entry.1 = key)) ≤ fuel) {idx : ℕ} {e : κ × β} :
    Holds (skipKey cmp key fuel heap) idx e ↔ Holds heap idx e ∧ e.1 ≠ key := by
  have hperm := skipKey_perm h hmin hfuel
  constructor
  · rintro ⟨d, hd, rfl, he⟩
    obtain ⟨c, hc, hcd⟩ := List.mem_filterMap.mp (hperm.mem_iff.mp hd)
    split at hcd
    · rename_i hkey
      obtain ⟨hidx, hentries⟩ := Cursor.next_some hcd
      rw [hentries] at he
      refine ⟨⟨c, hc, hidx.symm, List.mem_cons_of_mem _ he⟩, ?_⟩
      rintro rfl
      exact not_lt_self _ (hkey ▸ Cursor.lt_of_mem_rest (h.sorted c hc) he)
    · rename_i hkey
      cases hcd
      refine ⟨⟨d, hc, rfl, he⟩, ?_⟩
      rintro rfl
      exact hkey (congrArg Prod.fst (entry_of_mem (h.sorted d hc) he (hmin d hc))).symm
  · rintro ⟨⟨c, hc, rfl, he⟩, hne⟩
    by_cases hkey : c.entry.1 = key
    · have he' : e ∈ c.rest := by
        rcases List.mem_cons.mp he with rfl | he
        · exact absurd hkey hne
        · exact he
      cases hnext : c.next with
      | none =>
        rw [Cursor.next_none hnext] at he'
        cases he'
      | some d =>
        obtain ⟨hidx, hentries⟩ := Cursor.next_some hnext
        refine ⟨d, hperm.mem_iff.mpr (List.mem_filterMap.mpr ⟨c, hc, ?_⟩), hidx, hentries ▸ he'⟩
        rw [if_pos hkey, hnext]
    · refine ⟨c, hperm.mem_iff.mpr (List.mem_filterMap.mpr ⟨c, hc, ?_⟩), rfl, he⟩
      rw [if_neg hkey]

end Skip

section Spec

variable {sources : List (List (κ × β))} {e : κ × β}

private theorem holds_start {i : ℕ} :
    Holds (sources.zipIdx.filterMap fun p => Cursor.atStart p.2 p.1) i e ↔
      ∃ l, sources[i]? = some l ∧ e ∈ l := by
  constructor
  · rintro ⟨c, hc, rfl, he⟩
    obtain ⟨⟨l, j⟩, hl, hstart⟩ := List.mem_filterMap.mp hc
    have hget := List.mem_zipIdx_iff_getElem?.mp hl
    cases l with
    | nil => cases hstart
    | cons x xs =>
      cases hstart
      exact ⟨_, hget, he⟩
  · rintro ⟨l, hl, he⟩
    cases l with
    | nil => cases he
    | cons x xs =>
      exact ⟨⟨i, x, xs⟩, List.mem_filterMap.mpr
        ⟨(x :: xs, i), List.mem_zipIdx_iff_getElem?.mpr hl, rfl⟩, rfl, he⟩

private theorem atStart_idx {i : ℕ} {l : List (κ × β)} {c : Cursor κ β}
    (h : Cursor.atStart i l = some c) : c.idx = i := by
  cases l with
  | nil => cases h
  | cons e es =>
    cases h
    rfl

private theorem heapInv_start (h : ∀ l ∈ sources, Sorted cmp l) :
    HeapInv cmp (sources.zipIdx.filterMap fun p => Cursor.atStart p.2 p.1) := by
  refine ⟨?_, fun c hc => ?_⟩
  · have hidx : sources.zipIdx.Pairwise fun p q => p.2 ≠ q.2 := by
      rw [← List.pairwise_map, List.zipIdx_map_snd]
      exact List.nodup_range'
    refine List.pairwise_map.mpr (hidx.filterMap _ fun p q hpq c hc d hd => ?_)
    rwa [atStart_idx hc, atStart_idx hd]
  · obtain ⟨⟨l, j⟩, hl, hstart⟩ := List.mem_filterMap.mp hc
    have hmem : l ∈ sources := List.mem_of_getElem? (List.mem_zipIdx_iff_getElem?.mp hl)
    cases l with
    | nil => cases hstart
    | cons x xs =>
      cases hstart
      exact h _ hmem

private theorem size_start (sources : List (List (κ × β))) :
    size (sources.zipIdx.filterMap fun p => Cursor.atStart p.2 p.1) =
      (sources.map List.length).sum := by
  have hall : ∀ n, size ((sources.zipIdx n).filterMap fun p => Cursor.atStart p.2 p.1) =
      (sources.map List.length).sum := by
    induction sources with
    | nil => exact fun _ => rfl
    | cons l ls ih =>
      intro n
      rw [List.zipIdx_cons, List.map_cons, List.sum_cons, ← ih (n + 1)]
      cases l with
      | nil => simp [Cursor.atStart]
      | cons e es => simp [Cursor.atStart, size, Cursor.entries]
  exact hall 0

/-- Sorted or not, the steps of an iterator from the start on go through the merge. -/
theorem current_iterate_seekToFirst [DecidableEq κ] (sources : List (List (κ × β))) (n : ℕ) :
    ((Iter.next cmp)^[n] (Iter.seekToFirst cmp sources)).current = (merge cmp sources)[n]? :=
  Iter.current_iterate n le_rfl

/-- Sorted or not, the merge has no more bindings than the sources. -/
theorem length_merge_le [DecidableEq κ] (sources : List (List (κ × β))) :
    (merge cmp sources).length ≤ (sources.map List.length).sum :=
  (length_collect_le _ _).trans (size_start sources).le

/-- Sorted or not, the bindings of the merge are bindings of the sources. -/
theorem exists_of_mem_merge [DecidableEq κ] (he : e ∈ merge cmp sources) :
    ∃ l ∈ sources, e ∈ l := by
  obtain ⟨c, hc, hec⟩ := exists_of_mem_collect he
  obtain ⟨l, hl, hel⟩ := holds_start.mp ⟨c, hc, rfl, hec⟩
  exact ⟨l, List.mem_of_getElem? hl, hel⟩

variable [Std.TransCmp cmp] [Std.LawfulEqCmp cmp]

/-- Of the least key, the binding of the least cursor wins and no other does. -/
private theorem wins_top {heap rest : List (Cursor κ β)} {top : Cursor κ β} (h : HeapInv cmp heap)
    (hpop : popTop cmp heap = some (top, rest)) (hkey : e.1 = top.entry.1) :
    Wins heap e ↔ e = top.entry := by
  have htop : top ∈ heap := (popTop_perm hpop).mem_iff.mpr List.mem_cons_self
  -- a cursor with the key stands on it, so its index is not lower
  have hidx : ∀ c ∈ heap, ∀ v, (top.entry.1, v) ∈ c.entries → top.idx ≤ c.idx := by
    intro c hc v hv
    have hle := popTop_le hpop hc
    rcases List.mem_cons.mp hv with heq | hv
    · refine hle.2 ?_
      rw [← heq]
      exact Std.ReflCmp.compare_self
    · exact absurd (Cursor.lt_of_mem_rest (h.sorted c hc) hv) hle.1
  constructor
  · rintro ⟨i, ⟨c, hc, rfl, he⟩, hmin⟩
    have hle := hmin top.idx top.entry.2 ⟨top, htop, rfl, by rw [hkey]; exact List.mem_cons_self⟩
    have hge := hidx c hc e.2 (by rw [← hkey]; exact he)
    have hct : c = top :=
      List.inj_on_of_nodup_map h.nodup hc htop (le_antisymm hle hge)
    subst hct
    refine entry_of_mem (h.sorted c hc) he ?_
    rw [hkey]
    exact not_lt_self _
  · rintro rfl
    refine ⟨top.idx, ⟨top, htop, rfl, List.mem_cons_self⟩, ?_⟩
    rintro j v ⟨c, hc, rfl, hv⟩
    exact hidx c hc v hv

/-- A binding other than the least key comes after it. -/
private theorem lt_of_min {c : Cursor κ β} {key : κ} (h : Sorted cmp c.entries)
    (hmin : cmp c.entry.1 key ≠ .lt) (he : e ∈ c.entries) (hne : e.1 ≠ key) :
    cmp key e.1 = .lt := by
  have hge : cmp e.1 key ≠ .lt := by
    rcases List.mem_cons.mp he with rfl | he
    · exact hmin
    · exact fun hlt => hmin (Std.TransCmp.lt_trans (Cursor.lt_of_mem_rest h he) hlt)
  cases hcmp : cmp e.1 key with
  | lt => exact absurd hcmp hge
  | eq => exact absurd (Std.LawfulEqCmp.eq_of_compare hcmp) hne
  | gt => exact Std.OrientedCmp.gt_iff_lt.mp hcmp

variable [DecidableEq κ]

/-- **What an iterator passes**: the winning bindings of its heap, in key order. -/
private theorem collect_spec {fuel : ℕ} {heap : List (Cursor κ β)} (h : HeapInv cmp heap)
    (hfuel : size heap ≤ fuel) :
    (∀ e, e ∈ Iter.collect cmp fuel (.ofHeap cmp heap) ↔ Wins heap e) ∧
      Sorted cmp (Iter.collect cmp fuel (.ofHeap cmp heap)) := by
  induction fuel generalizing heap with
  | zero =>
    have hnil : heap = [] := by
      cases heap with
      | nil => rfl
      | cons c cs => simp [size, Cursor.entries] at hfuel
    subst hnil
    refine ⟨fun e => ⟨nofun, ?_⟩, List.Pairwise.nil⟩
    rintro ⟨i, ⟨c, hc, -⟩, -⟩
    cases hc
  | succ fuel ih =>
    cases hpop : popTop cmp heap with
    | none =>
      have hcur : (Iter.ofHeap cmp heap).current = none := by rw [current_ofHeap, hpop]; rfl
      rw [Iter.collect, hcur]
      rw [popTop_eq_none.mp hpop]
      refine ⟨fun e => ⟨nofun, ?_⟩, List.Pairwise.nil⟩
      rintro ⟨i, ⟨c, hc, -⟩, -⟩
      cases hc
    | some p =>
      obtain ⟨top, rest⟩ := p
      have hcur : (Iter.ofHeap cmp heap).current = some top.entry := by
        rw [current_ofHeap, hpop]
        rfl
      have hmin : ∀ c ∈ heap, cmp c.entry.1 top.entry.1 ≠ .lt := fun c hc =>
        (popTop_le hpop hc).1
      have hcount : heap.countP (fun c => decide (c.entry.1 = top.entry.1)) ≤ size heap :=
        countP_le_size _ _
      have hless := size_next_lt hpop
      have hholds : ∀ {i e}, Holds (skipKey cmp top.entry.1 (size heap) heap) i e ↔
          Holds heap i e ∧ e.1 ≠ top.entry.1 := holds_skipKey h hmin hcount
      obtain ⟨hmem, hsorted⟩ := ih (h.skipKey top.entry.1 (size heap)) (by omega)
      rw [Iter.collect, hcur, next_ofHeap hpop]
      dsimp only
      refine ⟨fun e => ?_, List.pairwise_cons.mpr ⟨fun e he => ?_, hsorted⟩⟩
      · rw [List.mem_cons, hmem]
        by_cases hkey : e.1 = top.entry.1
        · rw [wins_top h hpop hkey]
          refine ⟨fun hor => hor.resolve_right ?_, .inl⟩
          rintro ⟨i, hi, -⟩
          exact (hholds.mp hi).2 hkey
        · have hwins : Wins (skipKey cmp top.entry.1 (size heap) heap) e ↔ Wins heap e := by
            simp only [Wins, hholds, ne_eq, hkey, not_false_eq_true, and_true]
          rw [hwins]
          refine ⟨fun hor => hor.resolve_left ?_, .inr⟩
          rintro rfl
          exact hkey rfl
      · obtain ⟨i, hi, -⟩ := (hmem e).mp he
        obtain ⟨⟨c, hc, -, hec⟩, hne⟩ := hholds.mp hi
        exact lt_of_min (h.sorted c hc) (hmin c hc) hec hne

/-- **The bindings of the merge** are those of the first source that has their key. -/
theorem mem_merge (h : ∀ l ∈ sources, Sorted cmp l) :
    e ∈ merge cmp sources ↔
      ∃ (i : ℕ) (l : List (κ × β)), sources[i]? = some l ∧ e ∈ l ∧
        ∀ (j : ℕ) (l' : List (κ × β)), sources[j]? = some l' → ∀ v, (e.1, v) ∈ l' → i ≤ j := by
  refine ((collect_spec (heapInv_start h) le_rfl).1 e).trans ?_
  simp only [Wins, holds_start]
  constructor
  · rintro ⟨i, ⟨l, hl, he⟩, hmin⟩
    exact ⟨i, l, hl, he, fun j l' hl' v hv => hmin j v ⟨l', hl', hv⟩⟩
  · rintro ⟨i, l, hl, he, hmin⟩
    exact ⟨i, ⟨l, hl, he⟩, fun j v ⟨l', hl', hv⟩ => hmin j l' hl' v hv⟩

/-- The merge is in key order. -/
theorem sorted_merge (h : ∀ l ∈ sources, Sorted cmp l) :
    Sorted cmp (merge cmp sources) := (collect_spec (heapInv_start h) le_rfl).2

omit [Std.TransCmp cmp] [DecidableEq κ] in
/-- In a sorted list a binding is what its key is looked up to. -/
theorem lookup_eq_some_iff [BEq κ] [LawfulBEq κ] {l : List (κ × β)} (h : Sorted cmp l) {k : κ}
    {v : β} :
    l.lookup k = some v ↔ (k, v) ∈ l := by
  induction l with
  | nil => simp
  | cons e es ih =>
    obtain ⟨hlt, hes⟩ := List.pairwise_cons.mp h
    rw [List.lookup_cons, List.mem_cons]
    by_cases hk : k = e.1
    · subst hk
      simp only [beq_self_eq_true]
      refine ⟨fun heq => .inl ?_, fun hor => ?_⟩
      · cases heq
        rfl
      · rcases hor with heq | hmem
        · rw [← heq]
        · exact absurd (hlt _ hmem) (not_lt_self _)
    · rw [show (k == e.1) = false from by simpa using hk]
      simp only [ih hes]
      refine ⟨.inr, fun hor => hor.resolve_left ?_⟩
      rintro rfl
      exact hk rfl

/-- The first answer, by its position. -/
theorem findSome?_eq_some_iff_getElem? {α γ : Type*} {f : α → Option γ} {l : List α}
    {b : γ} :
    l.findSome? f = some b ↔ ∃ (i : ℕ) (a : α), l[i]? = some a ∧ f a = some b ∧
      ∀ (j : ℕ) (a' : α), l[j]? = some a' → f a' ≠ none → i ≤ j := by
  rw [List.findSome?_eq_some_iff]
  constructor
  · rintro ⟨l₁, a, l₂, rfl, ha, hnone⟩
    refine ⟨l₁.length, a, by simp, ha, fun j a' hj hne => ?_⟩
    by_contra hlt
    rw [List.getElem?_append_left (by omega)] at hj
    exact hne (hnone a' (List.mem_of_getElem? hj))
  · rintro ⟨i, a, hi, ha, hmin⟩
    obtain ⟨hlt, rfl⟩ := List.getElem?_eq_some_iff.mp hi
    refine ⟨l.take i, l[i], l.drop (i + 1), by simp, ha, fun x hx => ?_⟩
    obtain ⟨j, hj, rfl⟩ := List.mem_take_iff_getElem.mp hx
    by_contra hne
    have hle := hmin j _ (List.getElem?_eq_getElem (by omega)) hne
    omega

/-- **A lookup in the merge** is a lookup in the sources, from the first to the last. -/
theorem lookup_merge [BEq κ] [LawfulBEq κ] (h : ∀ l ∈ sources, Sorted cmp l) (k : κ) :
    (merge cmp sources).lookup k = sources.findSome? fun l => l.lookup k := by
  refine Option.ext fun v => ?_
  rw [lookup_eq_some_iff (sorted_merge h), mem_merge h, findSome?_eq_some_iff_getElem?]
  have hsorted : ∀ {i : ℕ} {l : List (κ × β)}, sources[i]? = some l → Sorted cmp l :=
    fun hl => h _ (List.mem_of_getElem? hl)
  constructor
  · rintro ⟨i, l, hl, he, hmin⟩
    refine ⟨i, l, hl, (lookup_eq_some_iff (hsorted hl)).mpr he, fun j l' hl' hne => ?_⟩
    obtain ⟨w, hw⟩ := Option.ne_none_iff_exists'.mp hne
    exact hmin j l' hl' w ((lookup_eq_some_iff (hsorted hl')).mp hw)
  · rintro ⟨i, l, hl, he, hmin⟩
    refine ⟨i, l, hl, (lookup_eq_some_iff (hsorted hl)).mp he, fun j l' hl' w hw => ?_⟩
    refine hmin j l' hl' ?_
    rw [(lookup_eq_some_iff (hsorted hl')).mpr hw]
    nofun

theorem mem_merge_iff_findSome? [BEq κ] [LawfulBEq κ] (h : ∀ l ∈ sources, Sorted cmp l)
    {e : κ × β} :
    e ∈ merge cmp sources ↔ (sources.findSome? fun l => l.lookup e.1) = some e.2 := by
  rw [← lookup_merge h, lookup_eq_some_iff (sorted_merge h)]

end Spec

end KWayMerge
