import Stratum.Memtable.Tables

/-!
# Frozen tables are flushed once each, in order

The manager hands a full table to the flush loop through two places: the pointer `immutable`, which
says what to flush, and a token in `flushCh`, which says that there is something to flush. The send
on `flushCh` never blocks, so a token may be dropped, and the flush loop reads the pointer some time
after it took the token.

`Flushes` is the manager with two histories beside it: the tables in the order they were frozen, and
the tables for which `flushFn` has returned nil. A failing `flushFn` is called again on the same
table, so that it leaves the flush loop where it is.

* **Order**: the histories agree as far as the second one goes, and no table is in them twice
  (`FlushesInv`).
* **A frozen table stays as it is** (`Step.tables_of_lt`).
* **No lost wake-up**: when there is a table to flush, the flush loop is at it, or a token waits for
  it, or the writer that froze the table still has its token to send (`Woken`).
-/

namespace Stratum.Memtable

/-- The manager with the history of its tables. -/
structure Flushes where
  mgr : Manager
  /-- the tables in the order they were frozen -/
  frozen : List ℕ
  /-- the tables for which `flushFn` returned nil, in the order it did -/
  flushed : List ℕ

namespace Flushes

/-- `NewManager`. -/
def new (maxSize : ℤ) : Flushes := ⟨.new maxSize, [], []⟩

/-- The table that a step freezes: the one that was active, when another one is active after it. -/
def freezes (m m' : Manager) : List ℕ := if m'.active = m.active then [] else [m.active]

/-- The table that a step is the successful end of `flushFn` for. -/
def succeeds (m : Manager) : Act → List ℕ
  | .flushOk =>
    match m.flush with
    | .flushing _ i => [i]
    | _ => []
  | _ => []

/-- A step of the manager, with what it adds to the histories. -/
def step (s : Flushes) (a : Act) : Option Flushes :=
  (s.mgr.step a).map fun m => ⟨m, s.frozen ++ freezes s.mgr m, s.flushed ++ succeeds s.mgr a⟩

end Flushes

/-- The flush loop saw `stopCh` closed: it runs the last `doFlush` or has ended. -/
def FlushPc.isFinal : FlushPc → Bool
  | .idle => false
  | .received stop | .flushing stop _ | .flushed stop _ => stop
  | .stopped => true

namespace Manager

variable {m m' : Manager} {a : Act}

/-! ### The histories -/

/-- The number of tables for which `flushFn` has returned nil. -/
def succeeded (m : Manager) : ℕ :=
  match m.flush with
  | .flushed _ i => i + 1
  | _ => m.retired

/-- Away from the end of `flushFn`, the tables that were flushed are those that are gone. -/
theorem succeeded_of_not_isFlushed (h : m.flush.isFlushed = false) : m.succeeded = m.retired := by
  rw [succeeded]
  split
  · rename_i hf
    rw [hf] at h
    cases h
  · rfl

/-- The active table stays the active one, or it is frozen when there is no immutable table. -/
theorem Step.active_cases (hs : Step m a m') :
    (m'.active = m.active ∧ (m'.immutable = m.immutable ∨ m'.immutable = none)) ∨
      m'.active = m.active + 1 ∧ m.immutable = none ∧ m'.immutable = some m.active := by
  cases hs with
  | writeSwap hpc ht himm | swap hpc hfull himm => exact .inr ⟨rfl, himm, rfl⟩
  | clear hf hmu => exact .inl ⟨rfl, .inr rfl⟩
  | _ => exact .inl ⟨rfl, .inl rfl⟩

/-- The tables that carry the frozen mark are the ones below the active one. -/
def FrozenBelow (m : Manager) : Prop := ∀ j, (m.tables j).frozen = true ↔ j < m.active

private theorem frozenBelow_of_put {x : Tagged} {level : ℕ} {t : MemTable} (h : FrozenBelow m)
    (ht : (m.tables m.active).put x.2.key x.2.effect level = .ok t) :
    FrozenBelow (m.write x t) := by
  intro j
  have hactive : (m.tables m.active).frozen = false := by
    simpa using (h m.active).not.2 (lt_irrefl _)
  by_cases hj : j = m.active
  · subst hj
    simp [MemTable.frozen_put ht, hactive]
  · simpa [Function.update_of_ne hj] using h j

private theorem frozenBelow_freezeAndSwap (h : FrozenBelow m) : FrozenBelow m.freezeAndSwap := by
  intro j
  by_cases hj : j = m.active + 1
  · subst hj
    simp [MemTable.new]
  · by_cases hj' : j = m.active
    · subst hj'
      simp [MemTable.freeze]
    · have hiff : j < m.active ↔ j < m.active + 1 := by omega
      simpa [Function.update_of_ne hj, Function.update_of_ne hj', hiff] using h j

/-- A table is marked when it is swapped out, and never otherwise. -/
theorem FrozenBelow.step (h : FrozenBelow m) (hs : Step m a m') : FrozenBelow m' := by
  cases hs with
  | write hpc ht => exact frozenBelow_of_put h ht
  | writeSwap hpc ht himm => exact frozenBelow_freezeAndSwap (frozenBelow_of_put h ht)
  | swap hpc hfull himm => exact frozenBelow_freezeAndSwap h
  | _ => exact h

/-- When a table is swapped out, nothing was being flushed, and nothing more is flushed yet. -/
private theorem TablesInv.succeeded_swap (h : TablesInv m) (himm : m.immutable = none)
    (hflush : m'.flush = m.flush) (himm' : m'.immutable = some m.active) :
    m'.succeeded = m.succeeded := by
  have hnot : m.flush.isFlushed = false := by
    rcases hf : m.flush with _ | _ | _ | ⟨stop, i⟩ | _
    case flushed =>
      have := h.flushed_eq stop i hf
      rw [himm] at this
      cases this
    all_goals rfl
  rw [succeeded_of_not_isFlushed hnot, succeeded_of_not_isFlushed (hflush ▸ hnot), retired, retired,
    himm, himm']
  rfl

/-- The number of successes grows with the return of `flushFn`, and with nothing else: not when the
table is cleared, and not when the next one is swapped out. -/
theorem TablesInv.range_succeeded (h : TablesInv m) (hs : Step m a m') :
    List.range m'.succeeded = List.range m.succeeded ++ Flushes.succeeds m a := by
  cases hs with
  | writeSwap hpc ht himm | swap hpc hfull himm =>
    refine (congrArg List.range (h.succeeded_swap himm ?_ ?_)).trans (List.append_nil _).symm
    · rfl
    · rfl
  | @flushOk stop i hf =>
    have himm := h.flushing_eq stop i hf
    simp [succeeded, hf, Flushes.succeeds, retired, himm, List.range_succ]
  | @clear stop i hf hmu =>
    have hactive := h.immutable_succ i (h.flushed_eq stop i hf)
    cases stop <;> simp [succeeded, hf, Flushes.succeeds, retired, afterFlush, hactive]
  | recv hf | recvStop hf | readImmutable hf => simp [succeeded, hf, Flushes.succeeds, retired]
  | @nothing stop hf =>
    cases stop <;> simp [succeeded, hf, Flushes.succeeds, retired, afterFlush]
  | _ => simp [succeeded, Flushes.succeeds, retired]

/-! ### No lost wake-up -/

/-- What the manager does about an immutable table, before `Stop`. -/
structure Woken (m : Manager) : Prop where
  notStopped : m.stopCh = false
  /-- when the flush loop is at work, it took a token -/
  byToken : m.flush.isFinal = false
  /-- an immutable table has a token, or a writer about to send one, or the flush loop at it -/
  wake : m.immutable ≠ none →
    m.flushCh = true ∨ (∃ c todo, m.pcs c = .sending todo) ∨ m.flush ≠ .idle

private theorem isFinal_afterFlush (stop : Bool) : (afterFlush stop).isFinal = stop := by
  cases stop <;> rfl

theorem woken_new (maxSize : ℤ) : Woken (new maxSize) where
  notStopped := rfl
  byToken := rfl
  wake h := absurd rfl h

/-- A writer about to send stays so when another one moves. -/
private theorem exists_sending_setPc {c : ClientId} {pc : WritePc}
    (hpc : ∀ todo, m.pcs c ≠ .sending todo) (h : ∃ d todo, m.pcs d = .sending todo) :
    ∃ d todo, Function.update m.pcs c pc d = .sending todo := by
  obtain ⟨d, todo, hd⟩ := h
  have hdc : d ≠ c := by
    rintro rfl
    exact hpc todo hd
  exact ⟨d, todo, by rw [Function.update_of_ne hdc, hd]⟩

/-- A step of a writer that sends nothing and swaps nothing. -/
private theorem Woken.setPc {c : ClientId} {pc : WritePc} (h : Woken m)
    (hpc : ∀ todo, m.pcs c ≠ .sending todo) (hpcs : m'.pcs = Function.update m.pcs c pc)
    (hstop : m'.stopCh = m.stopCh) (hflush : m'.flush = m.flush)
    (himm : m'.immutable = m.immutable) (hch : m'.flushCh = m.flushCh) : Woken m' where
  notStopped := hstop.trans h.notStopped
  byToken := hflush ▸ h.byToken
  wake hne := by
    rw [hch, hpcs, hflush]
    exact (h.wake (himm ▸ hne)).imp_right (Or.imp_left (exists_sending_setPc hpc))

/-- **Step lemma**: no wake-up is lost. -/
theorem Woken.step (h : Woken m) (hs : Step m a m') (ha : a ≠ .stop) : Woken m' := by
  cases hs with
  | call hpc | submit hpc | rejected hpc | persisted hpc | write hpc | wait hpc | finish hpc
  | ret hpc =>
    exact h.setPc (fun todo => by rw [hpc]; nofun) rfl rfl rfl rfl rfl
  | lock hpc =>
    refine h.setPc (fun todo => ?_) rfl rfl rfl rfl rfl
    rcases hpc with hpc | hpc <;> rw [hpc] <;> nofun
  | writeSwap hpc ht himm =>
    exact ⟨h.notStopped, h.byToken, fun _ => .inr (.inl ⟨_, _, Function.update_self ..⟩)⟩
  | swap hpc hfull himm =>
    exact ⟨h.notStopped, h.byToken, fun _ => .inr (.inl ⟨_, _, Function.update_self ..⟩)⟩
  | send hpc => exact ⟨h.notStopped, h.byToken, fun _ => .inl rfl⟩
  | recv hf hch => exact ⟨h.notStopped, rfl, fun _ => .inr (.inr nofun)⟩
  | recvStop hf hch =>
    rw [h.notStopped] at hch
    cases hch
  | nothing hf hmu himm =>
    refine ⟨h.notStopped, ?_, fun hne => absurd himm hne⟩
    rw [← h.byToken, hf]
    exact isFinal_afterFlush _
  | readImmutable hf hmu himm =>
    exact ⟨h.notStopped, by rw [← h.byToken, hf]; rfl, fun _ => .inr (.inr nofun)⟩
  | flushOk hf => exact ⟨h.notStopped, by rw [← h.byToken, hf]; rfl, fun _ => .inr (.inr nofun)⟩
  | clear hf hmu =>
    refine ⟨h.notStopped, ?_, fun hne => absurd rfl hne⟩
    rw [← h.byToken, hf]
    exact isFinal_afterFlush _
  | stop => exact absurd rfl ha

end Manager

/-! ### Every run -/

namespace Flushes

open Manager

variable {s s' : Flushes} {a : Act}

/-- What holds of the histories in every state of every run. -/
structure FlushesInv (s : Flushes) : Prop where
  tables : TablesInv s.mgr
  below : FrozenBelow s.mgr
  frozen_eq : s.frozen = List.range s.mgr.active
  flushed_eq : s.flushed = List.range s.mgr.succeeded

theorem flushesInv_new (maxSize : ℤ) : FlushesInv (new maxSize) where
  tables := tablesInv_new maxSize
  below j := by simp [new, Manager.new, MemTable.new]
  frozen_eq := rfl
  flushed_eq := rfl

/-- **Inversion**: a step is one of the manager, and adds what it freezes or flushes. -/
theorem step_cases (h : s.step a = some s') :
    Manager.Step s.mgr a s'.mgr ∧ s'.frozen = s.frozen ++ freezes s.mgr s'.mgr ∧
      s'.flushed = s.flushed ++ succeeds s.mgr a := by
  obtain ⟨m, hm, rfl⟩ := Option.map_eq_some_iff.mp h
  exact ⟨Manager.step_cases hm, rfl, rfl⟩

/-- **Step lemma** for the histories. -/
theorem FlushesInv.step (h : FlushesInv s) (hs : s.step a = some s') : FlushesInv s' := by
  obtain ⟨hstep, hfrozen, hflushed⟩ := step_cases hs
  refine ⟨h.tables.step hstep, h.below.step hstep, ?_, ?_⟩
  · rw [hfrozen, h.frozen_eq, freezes]
    rcases hstep.active_cases with ⟨hactive, -⟩ | ⟨hactive, -⟩
    · rw [if_pos hactive, hactive, List.append_nil]
    · rw [if_neg (by omega), hactive, List.range_succ]
  · rw [hflushed, h.flushed_eq, h.tables.range_succeeded hstep]

/-- A table that is frozen stays as it is, in every run. -/
theorem FlushesInv.tables_eq {tr : List Act} (h : FlushesInv s)
    (hr : Machine.run Flushes.step s tr = some s') {j : ℕ} (hj : j ∈ s.frozen) :
    s'.mgr.tables j = s.mgr.tables j := by
  refine (Machine.run_invariant (I := fun t : Flushes => FlushesInv t ∧ j < t.mgr.active ∧
    t.mgr.tables j = s.mgr.tables j) ?_ ⟨h, ?_, rfl⟩ hr).2.2
  · intro t a t' ht hs
    obtain ⟨hinv, hlt, heq⟩ := ht
    have hstep := (step_cases hs).1
    exact ⟨hinv.step hs, lt_of_lt_of_le hlt hstep.active_le, (hstep.tables_of_lt hlt).trans heq⟩
  · rwa [h.frozen_eq, List.mem_range] at hj

/-- What was flushed is a beginning of what was frozen. -/
theorem FlushesInv.flushed_le_frozen (h : FlushesInv s) : s.flushed <+: s.frozen := by
  rw [h.flushed_eq, h.frozen_eq, List.prefix_iff_eq_take, List.length_range, List.take_range]
  congr 1
  refine (min_eq_left ?_).symm
  rw [succeeded]
  split
  · rename_i stop i hf
    exact (h.tables.immutable_succ i (h.tables.flushed_eq stop i hf)).le
  · rw [retired]
    rcases himm : s.mgr.immutable with _ | i
    · exact le_rfl
    · have := h.tables.immutable_succ i himm
      simp only [Option.getD_some]
      omega

/-- **Frozen tables are flushed exactly once, in order, and no wake-up is lost.** In every run of
any number of writers and the flush loop before `Stop`: the tables for which `flushFn` succeeded are
a beginning of the tables in the order they were frozen, which has no table twice; a table that was
frozen at some point of the run is the same ever after; and when there is an immutable table, a
token is in `flushCh`, or the writer that froze it holds the lock and is about to send one, or the
flush loop took a token and has not cleared the table yet. -/
theorem flushed_once_in_order {maxSize : ℤ} {tr tr' : List Act} {t : Flushes}
    (hr : Machine.run Flushes.step (new maxSize) tr = some t)
    (hr' : Machine.run Flushes.step t tr' = some s) (hstop : ∀ a ∈ tr ++ tr', a ≠ .stop) :
    s.flushed <+: s.frozen ∧ s.frozen.Nodup ∧
      (∀ j, (s.mgr.tables j).frozen = true ↔ j ∈ s.frozen) ∧
      (∀ j ∈ t.frozen, s.mgr.tables j = t.mgr.tables j) ∧
      ∀ i, s.mgr.immutable = some i →
        s.mgr.flushCh = true ∨
        (∃ c todo, s.mgr.pcs c = .sending todo ∧ s.mgr.mu = some c) ∨
        s.mgr.flush = .received false ∨ s.mgr.flush = .flushing false i ∨
          s.mgr.flush = .flushed false i := by
  have hinv : FlushesInv t :=
    Machine.run_invariant (fun _ _ _ hi hs => hi.step hs) (flushesInv_new maxSize) hr
  have hinv' : FlushesInv s := Machine.run_invariant (fun _ _ _ hi hs => hi.step hs) hinv hr'
  have hwoken : Woken s.mgr := by
    have hguard : Machine.Guarded Flushes.step (fun _ a => a ≠ .stop) (new maxSize) (tr ++ tr') :=
      Machine.guarded_of_forall_mem fun a ha _ => hstop a ha
    exact Machine.run_guarded_invariant (I := fun s : Flushes => Woken s.mgr)
      (fun _ _ _ hw ha hs => hw.step (step_cases hs).1 ha) (woken_new maxSize) hguard
      (Machine.run_append.2 ⟨t, hr, hr'⟩)
  refine ⟨hinv'.flushed_le_frozen, ?_, fun j => ?_, fun j hj => hinv.tables_eq hr' hj,
    fun i himm => ?_⟩
  · rw [hinv'.frozen_eq]
    exact List.nodup_range
  · rw [hinv'.below j, hinv'.frozen_eq, List.mem_range]
  · rcases hwoken.wake (by rw [himm]; nofun) with hch | ⟨c, todo, hc⟩ | hbusy
    · exact .inl hch
    · exact .inr (.inl ⟨c, todo, hc, hinv'.tables.holder c todo (.inr hc)⟩)
    · refine .inr (.inr ?_)
      have hfinal := hwoken.byToken
      rcases hf : s.mgr.flush with _ | stop | ⟨stop, j⟩ | ⟨stop, j⟩ | _
      · exact absurd hf hbusy
      · obtain rfl : stop = false := by rwa [hf] at hfinal
        exact .inl rfl
      · obtain rfl : stop = false := by rwa [hf] at hfinal
        obtain rfl : i = j := Option.some.inj (himm.symm.trans (hinv'.tables.flushing_eq _ j hf))
        exact .inr (.inl rfl)
      · obtain rfl : stop = false := by rwa [hf] at hfinal
        obtain rfl : i = j := Option.some.inj (himm.symm.trans (hinv'.tables.flushed_eq _ j hf))
        exact .inr (.inr rfl)
      · rw [hf] at hfinal
        cases hfinal

/-- One put fills a table of one byte; the table is frozen and flushed. -/
theorem flushed_once_one_put :
    ∃ t s, Machine.run Flushes.step (new 1)
        [.call 0 ⟨[⟨Wal.opPut, [1], some [2]⟩]⟩, .submit 0, .lock 0, .insert 0 1, .send 0]
          = some t ∧
      Machine.run Flushes.step t [.finish 0, .recv, .readImmutable, .flushOk] = some s ∧
      s.flushed = [0] ∧ s.flushed <+: s.frozen ∧ s.mgr.tables 0 = t.mgr.tables 0 := by
  refine ⟨_, _, rfl, rfl, rfl, ?_⟩
  have h := @flushed_once_in_order _ 1
    [.call 0 ⟨[⟨Wal.opPut, [1], some [2]⟩]⟩, .submit 0, .lock 0, .insert 0 1, .send 0]
    [.finish 0, .recv, .readImmutable, .flushOk] _ rfl rfl (by simp)
  exact ⟨h.1, h.2.2.2.1 0 (by decide)⟩

end Flushes

end Stratum.Memtable
