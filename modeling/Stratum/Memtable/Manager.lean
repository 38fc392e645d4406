import Stratum.Lib.Run
import Stratum.Lib.LastWrite
import Stratum.Memtable.MemTable
import Stratum.Wal.Batch
import Mathlib.Tactic.Simps.Basic

/-!
# The memtable manager as a state machine

`Manager` is the state that writers, readers and the flush loop share, `Act` the steps they can
take, and `Manager.step` what each step does. A step is the code between two points where the
scheduler can be noticed: taking `m.mu`, one attempt to write one entry, the non-blocking send on
`flushCh`, releasing `m.mu`, and on the other side the receive, the read of `immutable`, the
return of `flushFn`, and clearing `immutable` with the broadcast.

`Put`, `Delete` and `WriteBatch` run the same code on a batch (of one entry for the first two):
submit the encoded batch, take the lock, and for each entry retry until the active table takes
it. So a writer is one machine, with the batch it was called with.

* Tables are numbered in the order they are created; `active` and `immutable` are such numbers,
  as the pointers of the code are, and a table that is no longer referenced stays readable for a
  reader that still holds its number.
* `log` is the sequence of records in the log file, `history` the sequence of writes as they take
  effect on the active table. Both are only ever appended to, and a write carries the position of
  its record in the log.
-/

namespace Stratum.Memtable

open Wal LastWrite

/-- A goroutine that calls into the database. -/
abbrev ClientId := ℕ

/-- An entry with the position of its record in the log. -/
abbrev Tagged := ℕ × BatchEntry

/-- A record of the log file: the batch, who submitted it, and whether `Submit` returned nil (a
record can reach the file although its `Submit` failed, when a later write or the sync of its
group fails). -/
structure LogRecord where
  batch : Batch
  caller : ClientId
  acked : Bool
deriving DecidableEq, Repr

/-- The entries of record number `i`. -/
def tagEntries (i : ℕ) (b : Batch) : List Tagged := b.entries.map fun e => (i, e)

/-- Where a writer stands in `Put`, `Delete` or `WriteBatch`; `todo` are the entries it has not
written yet. -/
inductive WritePc
  | idle
  /-- called, before `m.wal.Submit` -/
  | called (b : Batch)
  /-- `Submit` returned nil, before `m.mu.Lock` -/
  | logged (todo : List Tagged)
  /-- holds `m.mu`, at the top of the loop -/
  | inserting (todo : List Tagged)
  /-- holds `m.mu`, has swapped the tables and not yet run the `select` on `flushCh` -/
  | sending (todo : List Tagged)
  /-- parked in `m.cond.Wait`, without `m.mu` -/
  | waiting (todo : List Tagged)
  /-- woken by the broadcast, has to take `m.mu` again -/
  | woken (todo : List Tagged)
  /-- about to return, with nil or an error -/
  | returned (ok : Bool)
deriving DecidableEq, Repr

/-- The writer has nothing to insert. -/
def WritePc.isQuiet : WritePc → Bool
  | .idle | .called _ | .returned _ => true
  | _ => false

/-- Where the flush loop stands; `stop` says that it runs the final `doFlush` of the `stopCh`
branch. -/
inductive FlushPc
  | idle
  /-- took a token or saw `stopCh` closed, before reading `immutable` -/
  | received (stop : Bool)
  /-- inside `flushFn`, on table `imm` -/
  | flushing (stop : Bool) (imm : ℕ)
  /-- `flushFn` returned nil, before clearing `immutable` -/
  | flushed (stop : Bool) (imm : ℕ)
  | stopped
deriving DecidableEq, Repr

/-- `flushFn` has returned, and `immutable` is not cleared yet. -/
def FlushPc.isFlushed : FlushPc → Bool
  | .flushed _ _ => true
  | _ => false

/-- `Manager`, with the log file behind its committer and the goroutines that use it. -/
structure Manager where
  maxSize : ℤ
  tables : ℕ → MemTable
  active : ℕ
  immutable : Option ℕ
  /-- the writer that holds `m.mu` exclusively -/
  mu : Option ClientId
  /-- the one slot of `flushCh` is taken -/
  flushCh : Bool
  /-- `stopCh` is closed -/
  stopCh : Bool
  log : List LogRecord
  history : List Tagged
  pcs : ClientId → WritePc
  flush : FlushPc

/-- The steps of the manager's goroutines. -/
inductive Act
  | call (c : ClientId) (b : Batch)
  | submit (c : ClientId)
  | submitErr (c : ClientId) (persisted : Bool)
  | lock (c : ClientId)
  | insert (c : ClientId) (level : ℕ)
  | send (c : ClientId)
  | finish (c : ClientId)
  | ret (c : ClientId)
  | recv
  | recvStop
  | readImmutable
  | flushOk
  | clear
  | stop
deriving DecidableEq, Repr

/-- The steps of the flush loop. -/
def Act.isLoop : Act → Bool
  | .recv | .recvStop | .readImmutable | .flushOk | .clear => true
  | _ => false

namespace Manager

/-- `NewManager`. -/
def new (maxSize : ℤ) : Manager where
  maxSize := maxSize
  tables := fun _ => MemTable.new maxSize
  active := 0
  immutable := none
  mu := none
  flushCh := false
  stopCh := false
  log := []
  history := []
  pcs := fun _ => .idle
  flush := .idle

/-- Move one writer on. -/
@[simps]
def setPc (m : Manager) (c : ClientId) (pc : WritePc) : Manager :=
  { m with pcs := Function.update m.pcs c pc }

/-- A record reaches the log file. -/
@[simps]
def appendLog (m : Manager) (b : Batch) (c : ClientId) (acked : Bool) : Manager :=
  { m with log := m.log ++ [⟨b, c, acked⟩] }

/-- `m.active.Freeze(); m.immutable = m.active; m.active = NewMemTable(m.maxSize)`. -/
@[simps]
def freezeAndSwap (m : Manager) : Manager :=
  { m with
    tables := Function.update (Function.update m.tables m.active (m.tables m.active).freeze)
      (m.active + 1) (MemTable.new m.maxSize)
    immutable := some m.active
    active := m.active + 1 }

/-- The entry takes effect on the active table, which becomes `t`. -/
@[simps]
def write (m : Manager) (x : Tagged) (t : MemTable) : Manager :=
  { m with
    tables := Function.update m.tables m.active t
    history := m.history ++ [x] }

/-- `m.cond.Broadcast`: every waiting writer has to take the lock again. -/
@[simps]
def wakeAll (m : Manager) : Manager :=
  { m with
    pcs := fun c => match m.pcs c with
      | .waiting todo => .woken todo
      | pc => pc }

/-- One attempt to write the next entry: write it, and swap the tables if it filled the active
one and no table is being flushed; or, when the active table does not take it, swap or wait. -/
def insert (m : Manager) (c : ClientId) (level : ℕ) : Option Manager :=
  match m.pcs c with
  | .inserting (x :: todo) =>
    match (m.tables m.active).put x.2.key x.2.effect level with
    | .ok t =>
      if t.shouldFlush && m.immutable.isNone then
        some ((m.write x t).freezeAndSwap.setPc c (.sending todo))
      else some ((m.write x t).setPc c (.inserting todo))
    | .error .full =>
      if m.immutable.isSome then some ({ m with mu := none }.setPc c (.waiting (x :: todo)))
      else some (m.freezeAndSwap.setPc c (.sending (x :: todo)))
  | _ => none

/-- Where the flush loop goes when `doFlush` returns. -/
def afterFlush (stop : Bool) : FlushPc := if stop then .stopped else .idle

/-- What a step does; `none` when it is not enabled. -/
def step (m : Manager) : Act → Option Manager
  | .call c b =>
    match m.pcs c with
    | .idle => some (m.setPc c (.called b))
    | _ => none
  | .submit c =>
    match m.pcs c with
    | .called b =>
      some ((m.appendLog b c true).setPc c (.logged (tagEntries m.log.length b)))
    | _ => none
  | .submitErr c persisted =>
    match m.pcs c with
    | .called b =>
      some ((if persisted then m.appendLog b c false else m).setPc c (.returned false))
    | _ => none
  | .lock c =>
    match m.pcs c, m.mu with
    | .logged todo, none => some ({ m with mu := some c }.setPc c (.inserting todo))
    | .woken todo, none => some ({ m with mu := some c }.setPc c (.inserting todo))
    | _, _ => none
  | .insert c level => m.insert c level
  | .send c =>
    match m.pcs c with
    -- the `default` branch of the `select` leaves the token that is there
    | .sending todo => some ({ m with flushCh := true }.setPc c (.inserting todo))
    | _ => none
  | .finish c =>
    match m.pcs c with
    | .inserting [] => some ({ m with mu := none }.setPc c (.returned true))
    | _ => none
  | .ret c =>
    match m.pcs c with
    | .returned _ => some (m.setPc c .idle)
    | _ => none
  | .recv =>
    if m.flush = .idle ∧ m.flushCh = true then
      some { m with flushCh := false, flush := .received false }
    else none
  | .recvStop =>
    if m.flush = .idle ∧ m.stopCh = true then some { m with flush := .received true } else none
  | .readImmutable =>
    match m.flush, m.mu with
    | .received stop, none =>
      match m.immutable with
      | none => some { m with flush := afterFlush stop }
      | some i => some { m with flush := .flushing stop i }
    | _, _ => none
  | .flushOk =>
    match m.flush with
    | .flushing stop i => some { m with flush := .flushed stop i }
    | _ => none
  | .clear =>
    match m.flush, m.mu with
    | .flushed stop _, none =>
      some { m.wakeAll with immutable := none, flush := afterFlush stop }
    | _, _ => none
  | .stop => some { m with stopCh := true }

/-! ### What a step can do -/

/-- The transitions, one constructor for each way a step can go. -/
inductive Step (m : Manager) : Act → Manager → Prop
  | call {c b} (h : m.pcs c = .idle) : Step m (.call c b) (m.setPc c (.called b))
  | submit {c b} (h : m.pcs c = .called b) :
      Step m (.submit c) ((m.appendLog b c true).setPc c (.logged (tagEntries m.log.length b)))
  | rejected {c b} (h : m.pcs c = .called b) :
      Step m (.submitErr c false) (m.setPc c (.returned false))
  | persisted {c b} (h : m.pcs c = .called b) :
      Step m (.submitErr c true) ((m.appendLog b c false).setPc c (.returned false))
  | lock {c todo} (h : m.pcs c = .logged todo ∨ m.pcs c = .woken todo) (hmu : m.mu = none) :
      Step m (.lock c) ({ m with mu := some c }.setPc c (.inserting todo))
  | write {c level x todo t} (h : m.pcs c = .inserting (x :: todo))
      (ht : (m.tables m.active).put x.2.key x.2.effect level = .ok t) :
      Step m (.insert c level) ((m.write x t).setPc c (.inserting todo))
  | writeSwap {c level x todo t} (h : m.pcs c = .inserting (x :: todo))
      (ht : (m.tables m.active).put x.2.key x.2.effect level = .ok t)
      (himm : m.immutable = none) :
      Step m (.insert c level) ((m.write x t).freezeAndSwap.setPc c (.sending todo))
  | wait {c level x todo i} (h : m.pcs c = .inserting (x :: todo))
      (hfull : (m.tables m.active).isFull = true) (himm : m.immutable = some i) :
      Step m (.insert c level) ({ m with mu := none }.setPc c (.waiting (x :: todo)))
  | swap {c level x todo} (h : m.pcs c = .inserting (x :: todo))
      (hfull : (m.tables m.active).isFull = true) (himm : m.immutable = none) :
      Step m (.insert c level) (m.freezeAndSwap.setPc c (.sending (x :: todo)))
  | send {c todo} (h : m.pcs c = .sending todo) :
      Step m (.send c) ({ m with flushCh := true }.setPc c (.inserting todo))
  | finish {c} (h : m.pcs c = .inserting []) :
      Step m (.finish c) ({ m with mu := none }.setPc c (.returned true))
  | ret {c ok} (h : m.pcs c = .returned ok) : Step m (.ret c) (m.setPc c .idle)
  | recv (h : m.flush = .idle) (hch : m.flushCh = true) :
      Step m .recv { m with flushCh := false, flush := .received false }
  | recvStop (h : m.flush = .idle) (hch : m.stopCh = true) :
      Step m .recvStop { m with flush := .received true }
  | nothing {stop} (h : m.flush = .received stop) (hmu : m.mu = none)
      (himm : m.immutable = none) : Step m .readImmutable { m with flush := afterFlush stop }
  | readImmutable {stop i} (h : m.flush = .received stop) (hmu : m.mu = none)
      (himm : m.immutable = some i) : Step m .readImmutable { m with flush := .flushing stop i }
  | flushOk {stop i} (h : m.flush = .flushing stop i) :
      Step m .flushOk { m with flush := .flushed stop i }
  | clear {stop i} (h : m.flush = .flushed stop i) (hmu : m.mu = none) :
      Step m .clear { m.wakeAll with immutable := none, flush := afterFlush stop }
  | stop : Step m .stop { m with stopCh := true }

private theorem insert_cases {m m' : Manager} {c : ClientId} {level : ℕ}
    (h : m.insert c level = some m') : Step m (.insert c level) m' := by
  simp only [insert] at h
  split at h
  · rename_i x todo hpc
    split at h
    · rename_i t ht
      split at h
      · rename_i hflush
        cases h
        exact .writeSwap hpc ht (by simpa using (Bool.and_eq_true_iff.mp hflush).2)
      · cases h
        exact .write hpc ht
    · rename_i ht
      have hfull := MemTable.isFull_of_put ht
      split at h
      · rename_i hsome
        cases h
        obtain ⟨i, hi⟩ := Option.isSome_iff_exists.mp hsome
        exact .wait hpc hfull hi
      · rename_i hnone
        cases h
        exact .swap hpc hfull (by simpa using hnone)
  · cases h

/-- **Inversion**: a step is one of the transitions. -/
theorem step_cases {m m' : Manager} {a : Act} (h : m.step a = some m') : Step m a m' := by
  cases a with
  | call | submit | send | finish | ret | flushOk | clear =>
    simp only [step] at h
    split at h <;> cases h
    constructor <;> assumption
  | submitErr c persisted =>
    simp only [step] at h
    split at h <;> cases h
    cases persisted
    · exact .rejected ‹_›
    · exact .persisted ‹_›
  | lock c =>
    simp only [step] at h
    split at h <;> cases h
    · exact .lock (.inl ‹_›) ‹_›
    · exact .lock (.inr ‹_›) ‹_›
  | insert c level => exact insert_cases h
  | recv | recvStop =>
    simp only [step] at h
    split at h <;> cases h
    rename_i hc
    constructor
    · exact hc.1
    · exact hc.2
  | readImmutable =>
    simp only [step] at h
    split at h
    · split at h <;> cases h
      · exact .nothing ‹_› ‹_› ‹_›
      · exact .readImmutable ‹_› ‹_› ‹_›
    · cases h
  | stop =>
    cases h
    exact .stop

/-! ### Reading the tables -/

/-- `Manager.Get`, on one state: the active table, then the immutable one. -/
def get (m : Manager) (key : Bytes) : Option (Option Bytes) :=
  ((m.tables m.active).get key).or (m.immutable.bind fun i => (m.tables i).get key)

/-- The value of a key in the newest of the first `n` tables that has it. -/
def newest (tables : ℕ → MemTable) : ℕ → Bytes → Option (Option Bytes)
  | 0, _ => none
  | n + 1, key => ((tables n).get key).or (newest tables n key)

/-- The number of tables that were flushed: those below the ones still referenced. -/
def retired (m : Manager) : ℕ := m.immutable.getD m.active

/-- The writes that took effect, as bindings. -/
def written (m : Manager) : List Entry := m.history.map fun x => (x.2.key, x.2.effect)

/-- What a key holds: the write that took effect last. -/
def current (m : Manager) (key : Bytes) : Option (Option Bytes) := lastWrite key m.written

theorem newest_congr {t t' : ℕ → MemTable} {n : ℕ} {key : Bytes}
    (h : ∀ j < n, (t j).get key = (t' j).get key) : newest t n key = newest t' n key := by
  induction n with
  | zero => rfl
  | succ n ih =>
    rw [newest, newest, h n (by omega), ih fun j hj => h j (by omega)]

end Manager

end Stratum.Memtable
