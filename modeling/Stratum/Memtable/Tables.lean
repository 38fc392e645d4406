import Stratum.Memtable.Manager

/-!
# The tables of the manager in every run

Writers, swaps and flushes move the data of a key from the active table to the immutable one and
out of the manager. `TablesInv` collects what holds in every state of every run, whatever the
interleaving:

* the immutable table is the one created just before the active one, and it is what the flush
  loop works on;
* the newest table that has a key holds the write of that key that took effect last
  (`TablesInv.newest_eq`), so the tables together are the map that the history of writes
  describes;
* a writer past `m.mu.Lock` is the one that holds `m.mu`.

Only the active table ever changes (`Step.tables_of_lt`), and when a table has a new value for a key
that value is the current one (`Step.get_eq_current`).
-/

namespace Stratum.Memtable

open Wal LastWrite

namespace Manager

variable {m m' : Manager} {a : Act} {k : Bytes}

/-! ### What the elementary updates do to the tables -/

/-- The history read as a map, through the tagged entries. -/
theorem current_eq_getLast? (m : Manager) (k : Bytes) :
    m.current k = ((m.history.filter fun x => decide (x.2.key = k)).getLast?).map
      fun x => x.2.effect := by
  simp only [current, written, lastWrite, List.filter_map, List.getLast?_map, Option.map_map]
  rfl

theorem current_write (x : Tagged) (t : MemTable) :
    (m.write x t).current k = if x.2.key = k then some x.2.effect else m.current k := by
  simp only [current, written, write_history, List.map_append, List.map_cons, List.map_nil,
    lastWrite_concat]

/-- A write puts its value on top of everything. -/
theorem newest_write {x : Tagged} {level : ℕ} {t : MemTable}
    (ht : (m.tables m.active).put x.2.key x.2.effect level = .ok t) :
    newest (m.write x t).tables (m.active + 1) k
      = if x.2.key = k then some x.2.effect else newest m.tables (m.active + 1) k := by
  have hold : newest (m.write x t).tables m.active k = newest m.tables m.active k :=
    newest_congr fun j hj => by rw [write_tables, Function.update_of_ne (by omega)]
  rw [newest, newest, hold, write_tables, Function.update_self, MemTable.get_put ht]
  split <;> rfl

/-- Swapping the tables puts an empty one on top. -/
theorem newest_freezeAndSwap :
    newest m.freezeAndSwap.tables (m.active + 1 + 1) k = newest m.tables (m.active + 1) k := by
  rw [newest]
  have htop : (m.freezeAndSwap.tables (m.active + 1)).get k = none := by simp
  rw [htop, Option.none_or]
  refine newest_congr fun j hj => ?_
  rw [freezeAndSwap_tables, Function.update_of_ne (by omega)]
  by_cases hja : j = m.active
  · subst hja
    simp
  · rw [Function.update_of_ne hja]

/-! ### The invariant -/

/-- What holds of the tables in every state of every run. -/
structure TablesInv (m : Manager) : Prop where
  /-- the immutable table is the one before the active one -/
  immutable_succ : ∀ i, m.immutable = some i → i + 1 = m.active
  /-- the newest table that has a key holds its last write -/
  newest_eq : ∀ k, newest m.tables (m.active + 1) k = m.current k
  /-- the flush loop works on the immutable table -/
  flushing_eq : ∀ stop i, m.flush = .flushing stop i → m.immutable = some i
  flushed_eq : ∀ stop i, m.flush = .flushed stop i → m.immutable = some i
  /-- a writer inside the critical section holds the lock -/
  holder : ∀ c todo, m.pcs c = .inserting todo ∨ m.pcs c = .sending todo → m.mu = some c

/-- A state that differs only outside the tables keeps the part of the invariant about them. -/
private theorem newest_eq_of_same (h : TablesInv m) (ht : m'.tables = m.tables)
    (ha : m'.active = m.active) (hh : m'.history = m.history) (k : Bytes) :
    newest m'.tables (m'.active + 1) k = m'.current k := by
  rw [ht, ha, h.newest_eq k, current, written, current, written, hh]

/-- A step that leaves the tables, the history and the flush loop alone keeps the invariant, if the
lock is where it should be. -/
private theorem TablesInv.of_same (h : TablesInv m) (ht : m'.tables = m.tables)
    (ha : m'.active = m.active) (hh : m'.history = m.history) (hi : m'.immutable = m.immutable)
    (hf : m'.flush = m.flush)
    (holder : ∀ c todo, m'.pcs c = .inserting todo ∨ m'.pcs c = .sending todo → m'.mu = some c) :
    TablesInv m' := by
  refine ⟨?_, newest_eq_of_same h ht ha hh, ?_, ?_, holder⟩
  · rw [hi, ha]
    exact h.immutable_succ
  · rw [hf, hi]
    exact h.flushing_eq
  · rw [hf, hi]
    exact h.flushed_eq

/-- Without an immutable table the flush loop has nothing in its hands. -/
private theorem TablesInv.no_flush (h : TablesInv m) (himm : m.immutable = none) (stop : Bool)
    (i : ℕ) : m.flush ≠ .flushing stop i ∧ m.flush ≠ .flushed stop i := by
  refine ⟨fun hf => ?_, fun hf => ?_⟩
  · have := h.flushing_eq stop i hf
    rw [himm] at this
    cases this
  · have := h.flushed_eq stop i hf
    rw [himm] at this
    cases this

/-- The holder of the lock, after one writer moved: another writer is where it was. -/
private theorem holder_setPc {c : ClientId} {pc : WritePc} {mu : Option ClientId}
    (hself : ∀ todo, pc = .inserting todo ∨ pc = .sending todo → mu = some c)
    (hother : ∀ d, d ≠ c → ∀ todo, m.pcs d = .inserting todo ∨ m.pcs d = .sending todo →
      mu = some d) :
    ∀ d todo, Function.update m.pcs c pc d = .inserting todo ∨
      Function.update m.pcs c pc d = .sending todo → mu = some d := by
  intro d todo hd
  by_cases hdc : d = c
  · subst hdc
    rw [Function.update_self] at hd
    exact hself todo hd
  · rw [Function.update_of_ne hdc] at hd
    exact hother d hdc todo hd

theorem tablesInv_new (maxSize : ℤ) : TablesInv (new maxSize) where
  immutable_succ i h := by cases h
  newest_eq k := by simp [newest, new, current, written]
  flushing_eq stop i h := by cases h
  flushed_eq stop i h := by cases h
  holder c todo h := by simp [new] at h

/-- **Step lemma**: every step keeps the tables in order. -/
theorem TablesInv.step (h : TablesInv m) (hs : Step m a m') : TablesInv m' := by
  -- a writer that holds the lock is the only one inside the critical section
  have hexcl : ∀ c todo, m.pcs c = .inserting todo ∨ m.pcs c = .sending todo →
      ∀ d, d ≠ c → ∀ todo', ¬ (m.pcs d = .inserting todo' ∨ m.pcs d = .sending todo') := by
    intro c todo hc d hdc todo' hd
    have h₁ := h.holder c todo hc
    rw [h.holder d todo' hd] at h₁
    exact hdc (Option.some.inj h₁)
  cases hs with
  | call hpc | submit hpc | rejected hpc | persisted hpc | ret hpc =>
    exact h.of_same rfl rfl rfl rfl rfl (holder_setPc (by simp) fun d _ => h.holder d)
  | lock hpc hmu =>
    refine h.of_same rfl rfl rfl rfl rfl (holder_setPc (by simp) fun d _ todo hd => ?_)
    have := h.holder d todo hd
    rw [hmu] at this
    cases this
  | @write c level x todo t hpc ht =>
    refine ⟨h.immutable_succ, fun k => (newest_write ht).trans ?_, h.flushing_eq, h.flushed_eq,
      holder_setPc (fun todo _ => h.holder _ _ (.inl hpc)) fun d _ => h.holder d⟩
    rw [h.newest_eq k]
    exact (current_write x t).symm
  | @writeSwap c level x todo t hpc ht himm =>
    refine ⟨by simp, fun k => ?_, fun stop i hf => absurd hf (h.no_flush himm stop i).1,
      fun stop i hf => absurd hf (h.no_flush himm stop i).2,
      holder_setPc (fun todo _ => h.holder _ _ (.inl hpc)) fun d _ => h.holder d⟩
    refine newest_freezeAndSwap.trans ((newest_write ht).trans ?_)
    rw [h.newest_eq k]
    exact (current_write x t).symm
  | wait hpc hfull himm | finish hpc =>
    exact h.of_same rfl rfl rfl rfl rfl (holder_setPc (by simp) fun d hd todo hd' =>
      absurd hd' (hexcl _ _ (.inl hpc) d hd todo))
  | swap hpc hfull himm =>
    exact ⟨by simp, fun k => newest_freezeAndSwap.trans (h.newest_eq k),
      fun stop i hf => absurd hf (h.no_flush himm stop i).1,
      fun stop i hf => absurd hf (h.no_flush himm stop i).2,
      holder_setPc (fun todo _ => h.holder _ _ (.inl hpc)) fun d _ => h.holder d⟩
  | send hpc =>
    exact h.of_same rfl rfl rfl rfl rfl
      (holder_setPc (fun todo _ => h.holder _ _ (.inr hpc)) fun d _ => h.holder d)
  | recv hf hch | recvStop hf hch =>
    exact ⟨h.immutable_succ, newest_eq_of_same h rfl rfl rfl, by simp, by simp, h.holder⟩
  | @nothing stop hf hmu himm =>
    refine ⟨h.immutable_succ, newest_eq_of_same h rfl rfl rfl, ?_, ?_, h.holder⟩ <;>
      cases stop <;> simp [afterFlush]
  | readImmutable hf hmu himm =>
    refine ⟨h.immutable_succ, newest_eq_of_same h rfl rfl rfl, fun stop i hf' => ?_, by simp,
      h.holder⟩
    cases hf'
    exact himm
  | flushOk hf =>
    refine ⟨h.immutable_succ, newest_eq_of_same h rfl rfl rfl, by simp, fun stop i hf' => ?_,
      h.holder⟩
    cases hf'
    exact h.flushing_eq _ _ hf
  | @clear stop i hf hmu =>
    refine ⟨by simp, newest_eq_of_same h rfl rfl rfl, ?_, ?_, fun c todo hc => ?_⟩
    · cases stop <;> simp [afterFlush]
    · cases stop <;> simp [afterFlush]
    · refine h.holder c todo ?_
      simp only [wakeAll_pcs] at hc
      cases hpc : m.pcs c <;> simp_all
  | stop =>
    exact h.of_same rfl rfl rfl rfl rfl h.holder

/-- `Manager.Get`, and below it the tables that were flushed, answer with the last write. -/
theorem TablesInv.get_or_retired (h : TablesInv m) (k : Bytes) :
    (m.get k).or (newest m.tables m.retired k) = m.current k := by
  rw [← h.newest_eq k, newest, get, retired]
  cases himm : m.immutable with
  | none => simp
  | some i =>
    have hi : m.active = i + 1 := (h.immutable_succ i himm).symm
    simp only [Option.bind_some, Option.getD_some, hi, newest, Option.or_assoc]

/-! ### How one step changes one table -/

/-- Tables are only added. -/
theorem Step.active_le (hs : Step m a m') : m.active ≤ m'.active := by
  cases hs with
  | writeSwap hpc ht himm => exact Nat.le_succ _
  | swap hpc hfull himm => exact Nat.le_succ _
  | _ => exact le_rfl

/-- Only the active table changes. -/
theorem Step.tables_of_lt (hs : Step m a m') {j : ℕ} (hj : j < m.active) :
    m'.tables j = m.tables j := by
  cases hs with
  | write hpc ht => simp [Function.update_of_ne (show j ≠ m.active by omega)]
  | writeSwap hpc ht himm | swap hpc hfull himm =>
    simp [Function.update_of_ne (show j ≠ m.active by omega),
      Function.update_of_ne (show j ≠ m.active + 1 by omega)]
  | _ => rfl

theorem Step.get_of_lt (hs : Step m a m') {j : ℕ} (hj : j < m.active) (k : Bytes) :
    (m'.tables j).get k = (m.tables j).get k := by
  rw [hs.tables_of_lt hj]

/-- Inside `flushFn` the flush loop only moves by returning from it. -/
theorem Step.flush_of_flushing (hs : Step m a m') (ha : a ≠ .flushOk) {stop : Bool} {i : ℕ}
    (hf : m.flush = .flushing stop i) : m'.flush = .flushing stop i := by
  cases hs with
  | recv h | recvStop h | nothing h | readImmutable h | clear h =>
    rw [hf] at h
    cases h
  | flushOk h => exact absurd rfl ha
  | _ => exact hf

/-- A value that a table has after a step and did not have before is the current one. -/
theorem Step.get_eq_current (hs : Step m a m') {j : ℕ} (hj : j ≤ m'.active) {v : Option Bytes}
    (hv : (m'.tables j).get k = some v) :
    (j ≤ m.active ∧ (m.tables j).get k = some v) ∨ m'.current k = some v := by
  -- the effect of a write on the active table
  have hwrite : ∀ {x : Tagged} {level : ℕ} {t : MemTable},
      (m.tables m.active).put x.2.key x.2.effect level = .ok t → t.get k = some v →
      (m.tables m.active).get k = some v ∨ (m.write x t).current k = some v := by
    intro x level t ht htv
    rw [MemTable.get_put ht] at htv
    rw [current_write]
    split at htv
    · rename_i hk
      exact .inr (by rw [if_pos hk, htv])
    · exact .inl htv
  cases hs with
  | write hpc ht =>
    by_cases hja : j = m.active
    · subst hja
      simp only [setPc_tables, write_tables, Function.update_self] at hv
      exact (hwrite ht hv).imp_left fun h => ⟨le_rfl, h⟩
    · simp only [setPc_tables, write_tables, Function.update_of_ne hja] at hv
      exact .inl ⟨hj, hv⟩
  | writeSwap hpc ht himm =>
    by_cases hjn : j = m.active + 1
    · subst hjn
      simp at hv
    · by_cases hja : j = m.active
      · subst hja
        exact (hwrite ht (by simpa using hv)).imp_left fun h => ⟨le_rfl, h⟩
      · have hj' : j ≤ m.active + 1 := hj
        exact .inl ⟨by omega,
          by simpa [Function.update_of_ne hjn, Function.update_of_ne hja] using hv⟩
  | swap hpc hfull himm =>
    by_cases hjn : j = m.active + 1
    · subst hjn
      simp at hv
    · by_cases hja : j = m.active
      · subst hja
        exact .inl ⟨le_rfl, by simpa using hv⟩
      · have hj' : j ≤ m.active + 1 := hj
        exact .inl ⟨by omega,
          by simpa [Function.update_of_ne hjn, Function.update_of_ne hja] using hv⟩
  | _ => exact .inl ⟨hj, hv⟩

/-- A table never loses a key. -/
theorem Step.get_ne_none (hs : Step m a m') {j : ℕ} (hj : j ≤ m.active)
    (h : (m.tables j).get k ≠ none) : (m'.tables j).get k ≠ none := by
  rcases Nat.lt_or_eq_of_le hj with hlt | rfl
  · rwa [hs.get_of_lt hlt]
  · have hput : ∀ {x : Tagged} {level : ℕ} {t : MemTable},
        (m.tables m.active).put x.2.key x.2.effect level = .ok t → t.get k ≠ none := by
      intro x level t ht
      rw [MemTable.get_put ht]
      split
      · simp
      · exact h
    cases hs with
    | write hpc ht => simpa using hput ht
    | writeSwap hpc ht himm => simpa using hput ht
    | swap hpc hfull himm => simpa using h
    | _ => exact h

/-! ### Where the writers are -/

variable {c d : ClientId}

/-- A goroutine outside the manager stays there until it calls, and one that waits for the answer to
its request until it has it. -/
theorem Step.pcs_stay {pc : WritePc} (hs : Step m a m') (hd : m.pcs d = pc)
    (hpc : pc = .idle ∨ ∃ b, pc = .called b) (hcall : pc = .idle → ∀ b, a ≠ .call d b)
    (hanswer : pc ≠ .idle → a ≠ .submit d ∧ ∀ p, a ≠ .submitErr d p) : m'.pcs d = pc := by
  -- whoever moves is somebody else
  have hother : ∀ {c : ClientId} {pc' : WritePc}, d ≠ c → Function.update m.pcs c pc' d = pc :=
    fun hdc => (Function.update_of_ne hdc _ _).trans hd
  cases hs with
  | call hold =>
    refine hother ?_
    rintro rfl
    exact hcall (hd.symm.trans hold) _ rfl
  | submit hold =>
    refine hother ?_
    rintro rfl
    exact (hanswer (by rw [← hd, hold]; nofun)).1 rfl
  | rejected hold | persisted hold =>
    refine hother ?_
    rintro rfl
    exact (hanswer (by rw [← hd, hold]; nofun)).2 _ rfl
  | lock hold | write hold | writeSwap hold | wait hold | swap hold | send hold | finish hold
  | ret hold =>
    refine hother ?_
    rintro rfl
    rcases hpc with rfl | ⟨b, rfl⟩ <;> simp [hd] at hold
  | clear => rcases hpc with rfl | ⟨b, rfl⟩ <;> simp [hd]
  | _ => exact hd

theorem Step.pcs_ret (hs : Step m (.ret d) m') : m'.pcs d = .idle := by
  cases hs with
  | ret hpc => simp

/-- A writer parks itself when both tables are full, and stays parked until the broadcast. -/
theorem Step.pcs_waiting {todo : List Tagged} (hs : Step m a m') (hd : m'.pcs d = .waiting todo) :
    (m.pcs d = .waiting todo ∧ a ≠ .clear) ∨
      ((m.tables m.active).isFull = true ∧ m.immutable ≠ none ∧ ∃ level, a = .insert d level) := by
  -- a writer that moves does not park itself
  have hmove : ∀ {c : ClientId} {pc : WritePc}, Function.update m.pcs c pc d = .waiting todo →
      (∀ todo, pc ≠ .waiting todo) → m.pcs d = .waiting todo := by
    intro c pc hd hpc
    by_cases hdc : d = c
    · subst hdc
      rw [Function.update_self] at hd
      exact absurd hd (hpc todo)
    · rwa [Function.update_of_ne hdc] at hd
  cases hs with
  | @wait c level x todo' i hpc hfull himm =>
    by_cases hdc : d = c
    · subst hdc
      exact .inr ⟨hfull, by rw [himm]; nofun, level, rfl⟩
    · rw [setPc_pcs, Function.update_of_ne hdc] at hd
      exact .inl ⟨hd, nofun⟩
  | clear hf hmu =>
    simp only [wakeAll_pcs] at hd
    cases hpc : m.pcs d <;> simp [hpc] at hd
  | recv | recvStop | nothing | readImmutable | flushOk | stop => exact .inl ⟨hd, nofun⟩
  | _ => exact .inl ⟨hmove hd nofun, nofun⟩

/-- When no writer has anything to insert, and none is answered, the tables stay as they are. -/
theorem Step.quiet (hs : Step m a m') (hq : ∀ c, (m.pcs c).isQuiet = true)
    (hsubmit : ∀ c, a ≠ .submit c) :
    (∀ c, (m'.pcs c).isQuiet = true) ∧ m'.tables = m.tables ∧ m'.active = m.active := by
  have hset : ∀ {c : ClientId} {pc : WritePc}, pc.isQuiet = true →
      ∀ d, (Function.update m.pcs c pc d).isQuiet = true := by
    intro c pc hpc d
    by_cases hd : d = c
    · rw [hd, Function.update_self, hpc]
    · rw [Function.update_of_ne hd]
      exact hq d
  -- a writer with something to insert is not quiet
  have hno : ∀ {c : ClientId} {pc : WritePc}, m.pcs c = pc → pc.isQuiet = false → False := by
    intro c pc hpc hfalse
    have := hq c
    rw [hpc, hfalse] at this
    cases this
  cases hs with
  | call hpc | rejected hpc | persisted hpc | ret hpc => exact ⟨hset rfl, rfl, rfl⟩
  | submit hpc => exact absurd rfl (hsubmit _)
  | lock hpc =>
    rcases hpc with hpc | hpc
    · exact (hno hpc rfl).elim
    · exact (hno hpc rfl).elim
  | write hpc | writeSwap hpc | wait hpc | swap hpc | send hpc | finish hpc =>
    exact (hno hpc rfl).elim
  | clear hf hmu =>
    refine ⟨fun c => ?_, rfl, rfl⟩
    have := hq c
    rw [wakeAll_pcs]
    cases hpc : m.pcs c <;> simp_all [WritePc.isQuiet]
  | _ => exact ⟨hq, rfl, rfl⟩

/-- Only a writer that is inserting swaps the tables. -/
theorem Step.immutable_none (hs : Step m a m') (himm : m.immutable = none)
    (hins : ∀ c todo, m.pcs c ≠ .inserting todo) : m'.immutable = none := by
  cases hs with
  | writeSwap hpc | swap hpc => exact absurd hpc (hins _ _)
  | clear => rfl
  | _ => exact himm

theorem Step.immutable_clear (hs : Step m .clear m') : m'.immutable = none := by
  cases hs with
  | clear => rfl

/-- The flush loop moves by its own steps only. -/
theorem Step.flush_eq (hs : Step m a m') (ha : a.isLoop = false) : m'.flush = m.flush := by
  cases hs with
  | recv | recvStop | nothing | readImmutable | flushOk | clear => cases ha
  | _ => rfl

/-- Once `flushFn` has returned, the flush loop clears the immutable table next. -/
theorem Step.isFlushed (hs : Step m a m') (ha : a ≠ .clear) (hf : m.flush.isFlushed = true) :
    m'.flush.isFlushed = true := by
  cases hs with
  | recv h | recvStop h | nothing h | readImmutable h =>
    rw [h] at hf
    cases hf
  | flushOk => rfl
  | clear => exact absurd rfl ha
  | _ => exact hf

end Manager

end Stratum.Memtable
