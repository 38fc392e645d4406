import Stratum.Memtable.Replay

/-!
# The replay loop of `Open`

`Open` hands the recovered batches to `ApplyRecoveredBatch` one after the other, and only then
calls `Start`: there is **no flush loop yet**. `ApplyRecoveredBatch` is the loop of a live write,
with the same `m.cond.Wait` for a table that is full while another one is still to be flushed.
Nobody is there to flush it and to broadcast.

* `openReplay` is the loop: `.ok m` when it comes to its end, `.error m` when it is parked in
  `cond.Wait` with the manager `m`. `replaySteps_applyRecoveredBatch` says that these are the steps
  of one client of the manager, `step_atWait` that no step of that client follows a wait.
* The entries fill the first table, which becomes the immutable one, and then the second, which
  cannot be swapped. So **the log is replayed when the entries behind the first full table do not
  fill another one before the last of them** (`openReplay_completes_iff`).
-/

namespace Stratum.Memtable

open Wal

/-- An entry of a recovered batch, with the height `randomLevel` draws if it needs a new node. -/
abbrev DrawnEntry := BatchEntry × ℕ

/-- The entries of a recovered batch, in order. -/
abbrev DrawnBatch := List DrawnEntry

/-- The batch without the heights. -/
def DrawnBatch.batch (b : DrawnBatch) : Batch := ⟨b.map Prod.fst⟩

namespace Manager

variable {m m' : Manager} {c : ClientId} {e : DrawnEntry} {es rest rest' : List DrawnEntry}
  {maxSize : ℤ}

/-- The tables are swapped, and the `select` leaves a token in `flushCh`. -/
def requestFlush (m : Manager) : Manager := { m.freezeAndSwap with flushCh := true }

/-- The inner loop of `ApplyRecoveredBatch`: an error is a `cond.Wait`. -/
def applyEntry (m : Manager) (e : DrawnEntry) : Except Manager Manager :=
  match (m.tables m.active).put e.1.key e.1.effect e.2 with
  | .ok t =>
    if t.shouldFlush && m.immutable.isNone then
      .ok (m.write (m.log.length, e.1) t).requestFlush
    else .ok (m.write (m.log.length, e.1) t)
  | .error .full =>
    if m.immutable.isSome then .error m
    else
      -- the second time round there is an immutable table
      match (m.requestFlush.tables m.requestFlush.active).put e.1.key e.1.effect e.2 with
      | .ok t => .ok (m.requestFlush.write (m.log.length, e.1) t)
      | .error .full => .error m.requestFlush

/-- `ApplyRecoveredBatch`. -/
def applyRecoveredBatch (m : Manager) (b : DrawnBatch) : Except Manager Manager :=
  b.foldlM applyEntry m

/-- The replay loop of `Open`, on the manager that `NewManager` has just made. -/
def openReplay (maxSize : ℤ) (batches : List DrawnBatch) : Except Manager Manager :=
  batches.foldlM applyRecoveredBatch (new maxSize)

/-! ### The loop is one client of the manager -/

/-- A step of the loop of client `c`, with nobody else there. -/
def IsReplay (c : ClientId) : Act → Prop
  | .insert d _ | .send d => d = c
  | _ => False

/-- The client holds `m.mu` and has the entries to do. -/
def atEntries (m : Manager) (c : ClientId) (todo : List Tagged) : Manager :=
  { m with mu := some c }.setPc c (.inserting todo)

/-- The client has given `m.mu` back and waits. -/
def atWait (m : Manager) (c : ClientId) (todo : List Tagged) : Manager :=
  { m with mu := none }.setPc c (.waiting todo)

/-- Steps of the loop lead from one state to the other. -/
abbrev ReplaySteps (c : ClientId) : Manager → Manager → Prop := Machine.Reaches step (IsReplay c)

/-- The first time round, when the active table takes the entry. -/
private theorem replaySteps_put {t : MemTable} {todo : List Tagged}
    (ht : (m.tables m.active).put e.1.key e.1.effect e.2 = .ok t) :
    ReplaySteps c (m.atEntries c ((m.log.length, e.1) :: todo))
      (atEntries (if t.shouldFlush && m.immutable.isNone then
          (m.write (m.log.length, e.1) t).requestFlush
        else m.write (m.log.length, e.1) t) c todo) := by
  split
  · rename_i hflush
    have hs : (m.atEntries c ((m.log.length, e.1) :: todo)).step (.insert c e.2) =
        some (((m.atEntries c ((m.log.length, e.1) :: todo)).write (m.log.length, e.1)
          t).freezeAndSwap.setPc c (.sending todo)) := by
      simp only [Manager.step, insert, atEntries, setPc_pcs, Function.update_self, setPc_tables,
        setPc_active, ht, setPc_immutable, hflush, if_true]
    have h₁ : ReplaySteps c _ _ := .single hs rfl
    refine h₁.trans (.single (a := .send c) ?_ rfl)
    simp [Manager.step, atEntries, requestFlush, setPc, write, freezeAndSwap]
  · rename_i hflush
    refine .single (a := .insert c e.2) ?_ rfl
    simp only [Manager.step, insert, atEntries, setPc_pcs, Function.update_self, setPc_tables,
      setPc_active, ht, setPc_immutable, hflush]
    simp [setPc, write]

private theorem replaySteps_swap {todo : List Tagged} {x : Tagged}
    (hfull : (m.tables m.active).isFull = true) (himm : m.immutable = none) :
    ReplaySteps c (m.atEntries c (x :: todo)) (m.requestFlush.atEntries c (x :: todo)) := by
  have hs : (m.atEntries c (x :: todo)).step (.insert c 1) =
      some ((m.atEntries c (x :: todo)).freezeAndSwap.setPc c (.sending (x :: todo))) := by
    simp [Manager.step, insert, atEntries, MemTable.put, hfull, himm]
  have h₁ : ReplaySteps c _ _ := .single hs rfl
  refine h₁.trans (.single (a := .send c) ?_ rfl)
  simp [Manager.step, atEntries, requestFlush, setPc, freezeAndSwap]

private theorem replaySteps_wait {todo : List Tagged} {x : Tagged}
    (hfull : (m.tables m.active).isFull = true) (himm : m.immutable.isSome = true) :
    ReplaySteps c (m.atEntries c (x :: todo)) (m.atWait c (x :: todo)) := by
  refine .single (a := .insert c 1) ?_ rfl
  simp [Manager.step, insert, atEntries, atWait, MemTable.put, hfull, himm, setPc]

/-- Where the client is behind an entry: at the next one, or in the wait. -/
def behindEntry (c : ClientId) (x : Tagged) (todo : List Tagged) : Except Manager Manager → Manager
  | .ok m => m.atEntries c todo
  | .error m => m.atWait c (x :: todo)

/-- One entry, by steps of the client. -/
theorem replaySteps_applyEntry (m : Manager) (c : ClientId) (e : DrawnEntry) (todo : List Tagged) :
    ReplaySteps c (m.atEntries c ((m.log.length, e.1) :: todo))
      (behindEntry c (m.log.length, e.1) todo (m.applyEntry e)) := by
  unfold applyEntry
  split
  · rename_i t ht
    have hsteps := @replaySteps_put m c e t todo ht
    split at hsteps <;> rename_i hflush
    · rwa [if_pos hflush]
    · rwa [if_neg hflush]
  · rename_i ht
    have hfull := MemTable.isFull_of_put ht
    split
    · exact replaySteps_wait hfull ‹_›
    · rename_i himm
      have himm : m.immutable = none := by simpa using himm
      have hswap := @replaySteps_swap m c todo (m.log.length, e.1) hfull himm
      split
      · rename_i t ht'
        have hput := @replaySteps_put m.requestFlush c e t todo ht'
        rw [if_neg (by simp [requestFlush])] at hput
        exact hswap.trans hput
      · rename_i ht'
        exact hswap.trans (replaySteps_wait (MemTable.isFull_of_put ht') rfl)

theorem log_applyEntry (h : m.applyEntry e = .ok m') : m'.log = m.log := by
  unfold applyEntry at h
  split at h
  · split at h <;> cases h <;> rfl
  · split at h
    · cases h
    · split at h <;> cases h
      rfl

/-- **`ApplyRecoveredBatch` is a run of one client** from the first entry of the batch: to its end,
or to a wait with entries to do. -/
theorem replaySteps_applyRecoveredBatch (m : Manager) (c : ClientId) (b : DrawnBatch) :
    (∀ m', m.applyRecoveredBatch b = .ok m' →
      ReplaySteps c (m.applying c b.batch) (m'.atEntries c [])) ∧
    ∀ m', m.applyRecoveredBatch b = .error m' →
      ∃ todo, ReplaySteps c (m.applying c b.batch) (m'.atWait c todo) := by
  change (∀ m', List.foldlM applyEntry m b = .ok m' →
      ReplaySteps c (m.atEntries c (tagEntries m.log.length b.batch)) (m'.atEntries c [])) ∧
    ∀ m', List.foldlM applyEntry m b = .error m' →
      ∃ todo, ReplaySteps c (m.atEntries c (tagEntries m.log.length b.batch)) (m'.atWait c todo)
  induction b generalizing m with
  | nil =>
    refine ⟨fun m' h => ?_, fun m' h => (nomatch h)⟩
    cases h
    exact .refl _ _ _
  | cons e b ih =>
    have hsteps := replaySteps_applyEntry m c e (tagEntries m.log.length (DrawnBatch.batch b))
    rw [List.foldlM_cons]
    rcases he : m.applyEntry e with m₁ | m₁ <;> rw [he] at hsteps
    · refine ⟨fun m' h => (nomatch h), fun m' h => ?_⟩
      cases h
      exact ⟨_, hsteps⟩
    · obtain ⟨hok, herr⟩ := ih m₁
      rw [log_applyEntry he] at hok herr
      refine ⟨fun m' h => hsteps.trans (hok m' h), fun m' h => ?_⟩
      obtain ⟨todo, hwait⟩ := herr m' h
      exact ⟨todo, hsteps.trans hwait⟩

/-- **Nobody wakes the client**: in the wait it has no step, whatever the rest of the state. -/
theorem step_atWait {a : Act} (ha : IsReplay c a) (todo : List Tagged) :
    (m.atWait c todo).step a = none := by
  cases a with
  | insert d level =>
    obtain rfl : d = c := ha
    simp [Manager.step, insert, atWait]
  | send d =>
    obtain rfl : d = c := ha
    simp [Manager.step, atWait]
  | _ => cases ha

/-! ### Two tables, and no more -/

/-- Write the entries to a skip list until it accounts for `maxSize` bytes: the entries that are
left then, and `none` when there are too few to fill it. -/
def leftAfterFill (maxSize : ℤ) : SkipList → List DrawnEntry → Option (List DrawnEntry)
  | _, [] => none
  | sl, e :: es =>
    let sl' := sl.put e.1.key e.1.effect e.2
    if maxSize ≤ sl'.memSize then some es else leftAfterFill maxSize sl' es

/-- The active table has the skip list `sl`, and room. -/
structure HasRoom (m : Manager) (sl : SkipList) : Prop where
  table : m.tables m.active = ⟨sl, m.maxSize, false⟩
  room : sl.memSize < m.maxSize

/-- The entry is written to the active table. -/
private def afterPut (m : Manager) (sl : SkipList) (e : DrawnEntry) : Manager :=
  m.write (m.log.length, e.1) ⟨sl.put e.1.key e.1.effect e.2, m.maxSize, false⟩

private theorem hasRoom_requestFlush (hsize : 0 < m.maxSize) : m.requestFlush.HasRoom .empty where
  table := by simp [requestFlush, MemTable.new]
  room := hsize

variable {sl : SkipList}

private theorem HasRoom.applyEntry (h : m.HasRoom sl) (e : DrawnEntry) :
    m.applyEntry e = .ok (if m.maxSize ≤ (sl.put e.1.key e.1.effect e.2).memSize ∧
      m.immutable = none then (m.afterPut sl e).requestFlush else m.afterPut sl e) := by
  have hroom := h.room
  have hput : (m.tables m.active).put e.1.key e.1.effect e.2 =
      .ok ⟨sl.put e.1.key e.1.effect e.2, m.maxSize, false⟩ := by
    rw [h.table, MemTable.put,
      if_neg (by simpa [MemTable.isFull, MemTable.shouldFlush] using hroom)]
  simp only [Manager.applyEntry, hput, MemTable.shouldFlush, Bool.and_eq_true,
    decide_eq_true_eq, Option.isNone_iff_eq_none]
  split <;> rfl

/-- An entry that does not fill the table leaves room. -/
private theorem HasRoom.afterPut (e : DrawnEntry)
    (hlt : (sl.put e.1.key e.1.effect e.2).memSize < m.maxSize) :
    (m.afterPut sl e).HasRoom (sl.put e.1.key e.1.effect e.2) where
  table := by simp [Manager.afterPut]
  room := hlt

private theorem applyEntry_full (himm : m.immutable.isSome = true)
    (hfull : (m.tables m.active).isFull = true) (e : DrawnEntry) :
    m.applyEntry e = .error m := by
  rw [applyEntry, MemTable.put, if_pos hfull]
  simp [himm]

/-- **The second table**: the entries fit if they do not fill it before the last. -/
theorem completes_second (h : m.HasRoom sl) (himm : m.immutable.isSome = true) :
    (∃ m', es.foldlM applyEntry m = .ok m') ↔
      ∀ rest, leftAfterFill m.maxSize sl es = some rest → rest = [] := by
  induction es generalizing m sl with
  | nil => simpa [leftAfterFill] using ⟨m, rfl⟩
  | cons e es ih =>
    have hne : m.immutable ≠ none := Option.isSome_iff_ne_none.1 himm
    rw [List.foldlM_cons, h.applyEntry, if_neg fun hand => hne hand.2, leftAfterFill]
    split
    · rename_i hle
      have hfull : ((m.afterPut sl e).tables (m.afterPut sl e).active).isFull = true := by
        simpa [Manager.afterPut, MemTable.isFull, MemTable.shouldFlush] using hle
      -- the table is full, and any further entry waits
      rcases es with _ | ⟨e', es⟩
      · exact ⟨fun _ rest hrest => (Option.some.inj hrest).symm, fun _ => ⟨_, rfl⟩⟩
      · have herr := @applyEntry_full (m.afterPut sl e) himm hfull e'
        constructor
        · rintro ⟨m', hm'⟩
          change (e' :: es).foldlM Manager.applyEntry (m.afterPut sl e) = .ok m' at hm'
          rw [List.foldlM_cons, herr] at hm'
          cases hm'
        · intro hall
          cases hall _ rfl
    · rename_i hlt
      exact ih (.afterPut e (not_le.1 hlt)) himm

/-- **The first table**: when the entries fill it, the others are for the second. -/
theorem completes_first (h : m.HasRoom sl) (hsize : 0 < m.maxSize) (himm : m.immutable = none) :
    (∃ m', es.foldlM applyEntry m = .ok m') ↔
      ∀ rest rest', leftAfterFill m.maxSize sl es = some rest →
        leftAfterFill m.maxSize .empty rest = some rest' → rest' = [] := by
  induction es generalizing m sl with
  | nil => simpa [leftAfterFill] using ⟨m, rfl⟩
  | cons e es ih =>
    rw [List.foldlM_cons, h.applyEntry, leftAfterFill]
    split
    · rename_i hle
      rw [if_pos hle.1]
      have hsecond := @completes_second (m.afterPut sl e).requestFlush es .empty
        (hasRoom_requestFlush hsize) rfl
      refine hsecond.trans ⟨fun hall rest rest' hrest => ?_, fun hall rest' => hall es rest' rfl⟩
      cases hrest
      exact hall rest'
    · rename_i hlt
      have hlt : ¬ m.maxSize ≤ (sl.put e.1.key e.1.effect e.2).memSize := fun hle =>
        hlt ⟨hle, himm⟩
      rw [if_neg hlt]
      exact ih (.afterPut e (not_le.1 hlt)) hsize himm

private theorem foldlM_applyRecoveredBatch (m : Manager) (batches : List DrawnBatch) :
    batches.foldlM applyRecoveredBatch m = batches.flatten.foldlM applyEntry m := by
  induction batches generalizing m with
  | nil => rfl
  | cons b batches ih =>
    rw [List.foldlM_cons, List.flatten_cons, List.foldlM_append]
    exact bind_congr ih

/-- **Replay before `Start` comes to its end exactly when it needs two tables at most.** Whatever
batches were recovered and whatever heights are drawn, the loop of `Open` returns if and only if the
entries behind those that fill the first table do not fill a second one before the last entry. -/
theorem openReplay_completes_iff (hsize : 0 < maxSize) (batches : List DrawnBatch) :
    (∃ m, openReplay maxSize batches = .ok m) ↔
      ∀ rest rest', leftAfterFill maxSize .empty batches.flatten = some rest →
        leftAfterFill maxSize .empty rest = some rest' → rest' = [] := by
  rw [openReplay, foldlM_applyRecoveredBatch]
  exact @completes_first (new maxSize) _ .empty ⟨rfl, hsize⟩ hsize rfl

/-- Two batches, of which each fills a table. -/
theorem openReplay_two :
    ∃ m, openReplay 1 [[(⟨opPut, [1], some [2]⟩, 1)], [(⟨opPut, [3], some [4]⟩, 1)]] = .ok m := by
  refine (openReplay_completes_iff (by decide) _).2 fun rest rest' hrest hrest' => ?_
  cases hrest
  cases hrest'
  rfl

/-- **A log that cannot be replayed.** With a `MemTableSize` of one byte each of three puts fills a
table. The third one waits for the first table to be flushed, and no step of the loop is left. -/
theorem openReplay_waits :
    ∃ m m' todo,
      openReplay 1 [[(⟨opPut, [1], some [2]⟩, 1)], [(⟨opPut, [3], some [4]⟩, 1)]] = .ok m ∧
      openReplay 1 [[(⟨opPut, [1], some [2]⟩, 1)], [(⟨opPut, [3], some [4]⟩, 1)],
        [(⟨opPut, [5], some [6]⟩, 1)]] = .error m' ∧
      ReplaySteps 0 (m.applying 0 ⟨[⟨opPut, [5], some [6]⟩]⟩) (m'.atWait 0 todo) ∧
      ∀ a, IsReplay 0 a → (m'.atWait 0 todo).step a = none := by
  have hwait : ∃ m m',
      openReplay 1 [[(⟨opPut, [1], some [2]⟩, 1)], [(⟨opPut, [3], some [4]⟩, 1)]] = .ok m ∧
      m.applyRecoveredBatch [(⟨opPut, [5], some [6]⟩, 1)] = .error m' ∧
      openReplay 1 [[(⟨opPut, [1], some [2]⟩, 1)], [(⟨opPut, [3], some [4]⟩, 1)],
        [(⟨opPut, [5], some [6]⟩, 1)]] = .error m' := ⟨_, _, rfl, rfl, rfl⟩
  obtain ⟨m, m', hm, hbatch, hm'⟩ := hwait
  obtain ⟨todo, hsteps⟩ := (replaySteps_applyRecoveredBatch m 0 _).2 m' hbatch
  exact ⟨m, m', todo, hm, hm', hsteps, fun a ha => step_atWait ha todo⟩

end Manager

end Stratum.Memtable
