import Mathlib.Algebra.Ring.Int.Defs
import Stratum.Memtable.Manager
import Stratum.Memtable.Towers

/-!
# What the memtables weigh

`MemoryUsage` decides when a table is full, and is the only bound there is on the memory of the
database. `SkipList.Put` keeps it up to date by differences; a write is turned down only when the
table has already reached its size, so the last one may exceed it.

* `SkipList.Weighed.put`: the differences are right, so that `memSize` **is** the sum over the
  nodes.
* `memory_bounded`: along every run no table weighs more than `maxSize` and the last write that
  went in. At most two of the tables are in use at a time.
-/

namespace Stratum.Memtable

open Mvcc

/-- A write adds at most a node. -/
theorem SkipList.putSize_le (sl : SkipList) (key : Bytes) (value : Option Bytes) (level : ℕ) :
    sl.putSize key value level ≤ Node.cost ⟨key, value, level⟩ := by
  rw [putSize, Node.cost]
  split <;> dsimp only <;> omega

/-- What an entry can account for, with the highest tower. -/
def entryCost (x : Tagged) : ℤ := Node.cost ⟨x.2.key, x.2.effect, maxLevel⟩

/-- The table is as heavy as its nodes, and before the last of the writes `xs` it was not full. -/
structure Fitting (maxSize : ℤ) (xs : List Tagged) (t : MemTable) : Prop where
  maxSize_eq : t.maxSize = maxSize
  weighed : t.sl.Weighed
  bounded : t.sl.memSize ≤ 0 ∨ ∃ x ∈ xs, t.sl.memSize < maxSize + entryCost x

theorem fitting_new (maxSize : ℤ) (xs : List Tagged) : Fitting maxSize xs (.new maxSize) :=
  ⟨rfl, rfl, .inl le_rfl⟩

theorem Fitting.put {maxSize : ℤ} {xs : List Tagged} {t t' : MemTable} (h : Fitting maxSize xs t)
    {x : Tagged} {level : ℕ} (hlevel : level ≤ maxLevel)
    (ht : t.put x.2.key x.2.effect level = .ok t') : Fitting maxSize (xs ++ [x]) t' := by
  rw [MemTable.put] at ht
  split at ht
  · cases ht
  · rename_i hfull
    cases ht
    refine ⟨h.maxSize_eq, h.weighed.put _ _ _, .inr ⟨x, List.mem_concat_self, ?_⟩⟩
    have hsize : t.sl.memSize < maxSize := by
      simp only [MemTable.isFull, MemTable.shouldFlush, Bool.or_eq_true, decide_eq_true_eq,
        not_or, h.maxSize_eq] at hfull
      omega
    have hput := t.sl.putSize_le x.2.key x.2.effect level
    simp only [SkipList.put, entryCost, Node.cost] at hput ⊢
    omega

theorem Fitting.mono {maxSize : ℤ} {xs ys : List Tagged} {t : MemTable} (h : Fitting maxSize xs t)
    (hsub : xs ⊆ ys) : Fitting maxSize ys t := by
  refine ⟨h.maxSize_eq, h.weighed, h.bounded.imp_right ?_⟩
  rintro ⟨x, hx, hlt⟩
  exact ⟨x, hsub hx, hlt⟩

namespace Manager

variable {m m' : Manager} {a : Act}

/-- The tables, as they are now and were when they went out of use. -/
def AllFit (m : Manager) : Prop := ∀ i, Fitting m.maxSize m.history (m.tables i)

theorem AllFit.write (h : m.AllFit) {x : Tagged} {level : ℕ} {t : MemTable}
    (hlevel : level ≤ maxLevel) (ht : (m.tables m.active).put x.2.key x.2.effect level = .ok t) :
    (m.write x t).AllFit := by
  intro i
  simp only [write_tables, write_history, write_maxSize, Function.update_apply]
  split
  · exact (h m.active).put hlevel ht
  · exact (h i).mono (List.subset_append_left _ _)

theorem AllFit.freezeAndSwap (h : m.AllFit) : m.freezeAndSwap.AllFit := by
  intro i
  simp only [Manager.freezeAndSwap, Function.update_apply]
  split
  · exact fitting_new _ _
  · split
    · exact ⟨(h m.active).maxSize_eq, (h m.active).weighed, (h m.active).bounded⟩
    · exact h i

theorem AllFit.step (h : m.AllFit) (hlevel : ∀ c level, a = .insert c level → level ≤ maxLevel)
    (hs : Step m a m') : m'.AllFit ∧ m'.maxSize = m.maxSize := by
  cases hs with
  | write hc ht => exact ⟨h.write (hlevel _ _ rfl) ht, rfl⟩
  | writeSwap hc ht himm => exact ⟨(h.write (hlevel _ _ rfl) ht).freezeAndSwap, rfl⟩
  | swap hc hfull himm => exact ⟨h.freezeAndSwap, rfl⟩
  | _ => exact ⟨h, rfl⟩

/-- **The memory of the tables.** When the towers are as `randomLevel` makes them, in every state of
every run each table accounts for its nodes exactly, and for less than `maxSize` and the cost `B` of
an entry together. -/
theorem memory_bounded {maxSize B : ℤ} {tr : List Act}
    (hlevels : ∀ c level, .insert c level ∈ tr → level ≤ maxLevel)
    (hr : Machine.run step (new maxSize) tr = some m) (hB : ∀ x ∈ m.history, entryCost x ≤ B)
    (i : ℕ) :
    (m.tables i).sl.memSize = nodesCost (m.tables i).sl.nodes ∧
      (m.tables i).sl.memSize ≤ max 0 (maxSize + B - 1) := by
  have hguard : Machine.Guarded step
      (fun _ a => ∀ c level, a = .insert c level → level ≤ maxLevel) (new maxSize) tr := by
    refine Machine.guarded_of_forall_mem fun a ha _ c level heq => hlevels c level ?_
    rwa [← heq]
  have hinv : m.AllFit ∧ m.maxSize = maxSize := by
    refine Machine.run_guarded_invariant (I := fun m => m.AllFit ∧ m.maxSize = maxSize) ?_
      ⟨fun i => fitting_new maxSize [], rfl⟩ hguard hr
    rintro s a s' ⟨hfit, rfl⟩ hlevel hs
    exact hfit.step hlevel (step_cases hs)
  obtain ⟨hfit, rfl⟩ := hinv
  refine ⟨(hfit i).weighed, ?_⟩
  rcases (hfit i).bounded with hle | ⟨x, hx, hlt⟩
  · omega
  · have := hB x hx
    omega

/-- One entry goes into a table of one byte. -/
def oneWrite : List Act :=
  [.call 0 ⟨[⟨Wal.opPut, [107], some [1, 2]⟩]⟩, .submit 0, .lock 0, .insert 0 3]

theorem memory_bounded_oneWrite : ∃ m, Machine.run step (new 1) oneWrite = some m ∧
    (m.tables 0).sl.memSize = 59 ∧ (m.tables 0).sl.memSize ≤ max 0 (1 + 163 - 1) := by
  obtain ⟨m, hr, hsize, hhist⟩ : ∃ m, Machine.run step (new 1) oneWrite = some m ∧
      (m.tables 0).sl.memSize = 59 ∧ m.history = [(0, ⟨Wal.opPut, [107], some [1, 2]⟩)] :=
    ⟨_, rfl, rfl, rfl⟩
  refine ⟨m, hr, hsize, (memory_bounded (fun c level hmem => ?_) hr ?_ 0).2⟩
  · obtain ⟨-, rfl⟩ : c = 0 ∧ level = 3 := by simpa [oneWrite] using hmem
    decide
  · rw [hhist]
    decide

end Manager

end Stratum.Memtable
