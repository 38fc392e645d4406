import Stratum.Db.Store
import Stratum.Wal.Recovery

/-!
# The database as a state machine

`DB` puts the store behind `db.mu` and in front of the log files: the group committers, the
rotation of the log that follows every flush, and `Close`.

* **The lock.** `Put`, `Delete` and `WriteBatch` hold `db.mu` shared from beginning to end
  (`readers`), `Get` only while it looks at `db.closed`. `rotateWAL` and `Close` take it
  exclusively, as `sync.RWMutex` does it: first they announce themselves (`writer`), which keeps
  new readers out, then they wait for the readers to leave.
* **The logs.** A log file, the writer on it and the committer of the writer share one number.
  The directory entry `wal.log` names at most one of them, `db.wal` and `db.gc` one each, and
  `mgrWal` is the committer that `NewManager` was given. The committer appends the records of a
  group, syncs, and then answers its members one after the other.
* **Opening.** `opening` is the state in which `Open` starts to replay the batches it recovered:
  they are the first records of the log, and goroutine `0` has their entries to write, in order.
  `start` is the end of `Open`.

A step of the store is a step of the database where the code around it allows it; `Step` lists
what all steps can do, and `LockInv` what holds of the lock and its holders in every state.
-/

namespace Stratum.Db

open Memtable Lsm Sstable Wal ByteCodec

/-- How far `rotateWAL` has come. -/
inductive RotatePc
  | outside
  /-- has called `db.mu.Lock` -/
  | locking
  /-- keeps new readers out, waits for the others -/
  | announced
  | locked
  /-- `db.gc.Stop` has returned -/
  | stopped
  /-- `db.wal.Close` has returned -/
  | closed
  /-- `wal.log` has another name -/
  | renamed
  /-- the new writer and committer are in place -/
  | installed
  /-- about to return, with or without an error -/
  | leaving
  /-- has returned -/
  | done
deriving DecidableEq, Repr

/-- `rotateWAL` holds `db.mu`. -/
def RotatePc.holds : RotatePc → Bool
  | .locked | .stopped | .closed | .renamed | .installed | .leaving => true
  | _ => false

/-- `rotateWAL` has stopped the committer and not yet returned an error or installed another. -/
def RotatePc.pastStop : RotatePc → Bool
  | .stopped | .closed | .renamed | .installed => true
  | _ => false

/-- How far a call of `Close` has come. -/
inductive ClosePc
  | outside
  | locking
  | announced
  /-- has set `db.closed` -/
  | locked
  /-- inside `Manager.Stop`, waits for the flush loop -/
  | stopping
  | stopped
  /-- `db.gc.Stop` has returned -/
  | gcStopped
deriving DecidableEq, Repr

/-- `Close` holds `db.mu`. -/
def ClosePc.holds : ClosePc → Bool
  | .locked | .stopping | .stopped | .gcStopped => true
  | _ => false

/-- `Close` has stopped the committer. -/
def ClosePc.isGcStopped : ClosePc → Bool
  | .gcStopped => true
  | _ => false

/-- Who wants `db.mu` exclusively. -/
inductive Owner
  | rotation
  | closer (c : ClientId)
deriving DecidableEq, Repr

/-- `DB`, with its log files and the goroutines that use it. -/
structure DB (fmt : TableFormat) where
  store : Store fmt
  /-- `Open` has returned -/
  started : Bool
  closed : Bool
  /-- who has announced itself to `db.mu`, and holds it once the readers are gone -/
  writer : Option Owner
  /-- who holds `db.mu` shared -/
  readers : List ClientId
  wals : ℕ → Wal.Writer
  /-- the committers that were not stopped -/
  running : ℕ → Bool
  wal : ℕ
  gc : ℕ
  mgrWal : ℕ
  nextWal : ℕ
  /-- the file that has the name `wal.log` -/
  walLog : Option ℕ
  /-- the files that were renamed and not removed -/
  rotated : List ℕ
  /-- the members of the group that the manager's committer writes -/
  group : List ClientId
  /-- the group is written and synced, its members get their answers -/
  synced : Bool
  rotate : RotatePc
  closers : ClientId → ClosePc

/-- The steps of the database. -/
inductive DBAct
  | start
  | call (c : ClientId) (b : Batch)
  | append (c : ClientId)
  | sync
  | ack
  | reject (c : ClientId)
  | ret (c : ClientId)
  | store (a : StoreAct)
  | rotateEnter
  | rotateAnnounce
  | rotateLock
  | rotateStop
  | rotateClose
  | rotateRename (ok : Bool)
  | rotateCreate (ok : Bool)
  | rotateRemove (ok : Bool)
  | rotateUnlock
  | flushed
  | closeEnter (c : ClientId)
  | closeAnnounce (c : ClientId)
  | closeLock (c : ClientId)
  | closeStop (c : ClientId)
  | closeWait (c : ClientId)
  | closeGc (c : ClientId)
  | closeWal (c : ClientId)
deriving DecidableEq, Repr

/-- What `Open` finds in the directory: `wal.log` as `Recover` leaves it and the batches it
returned, and the tree as `NewLSMTree` loads it. -/
structure Opening (fmt : TableFormat) where
  log : LogFile
  batches : List Batch
  manifest : Manifest
  files : ℕ → Option fmt.File
  readers : ℕ → Option fmt.Reader

namespace DB

variable {fmt : TableFormat}

/-- The database before `Open` replays the log. -/
def opening (o : Opening fmt) (maxSize : ℤ) : DB fmt where
  store := .start o.manifest o.files o.readers o.batches maxSize
  started := false
  closed := false
  writer := none
  readers := []
  wals := fun _ => Writer.new (some o.log)
  running := fun n => decide (n = 0)
  wal := 0
  gc := 0
  mgrWal := 0
  nextWal := 1
  walLog := some 0
  rotated := []
  group := []
  synced := false
  rotate := .outside
  closers := fun _ => .outside

/-- The steps of the store that need nothing but the store, or only look at the database: the
flush loop runs after `Start`, a flush is over once `rotateWAL` is called, and `Get` looks at
`db.closed` under `db.mu`. The others are part of steps of the database. -/
def allows (s : DB fmt) : StoreAct → Bool
  | .mgr (.lock _) | .mgr (.insert _ _) | .mgr (.send _) | .mgr (.finish _) => true
  | .mgr .recv | .mgr .recvStop | .mgr .readImmutable | .mgr .clear => s.started
  | .mgr _ => false
  | .create | .register | .apply | .applyErr _ | .flushErr => decide (s.rotate = .outside)
  | .getStart _ _ => s.started && !s.closed && s.writer.isNone
  | _ => true

/-- Move one call of `Close` on. -/
@[simps]
def setCloser (s : DB fmt) (c : ClientId) (pc : ClosePc) : DB fmt :=
  { s with closers := Function.update s.closers c pc }

/-- The record of `c` is appended to the log of the manager's committer. -/
@[simps]
def append (s : DB fmt) (c : ClientId) (b : Batch) : DB fmt :=
  { s with
    wals := Function.update s.wals s.mgrWal ((s.wals s.mgrWal).append b.encode).1
    group := s.group ++ [c] }

/-- The group is synced. -/
@[simps]
def sync (s : DB fmt) : DB fmt :=
  { s with
    wals := Function.update s.wals s.mgrWal (s.wals s.mgrWal).sync.1
    synced := true }

/-- The first member of the group has its answer. -/
@[simps]
def ack (s : DB fmt) (st : Store fmt) (rest : List ClientId) : DB fmt :=
  { s with store := st, group := rest, synced := !rest.isEmpty }

/-- A committer is stopped. -/
@[simps]
def stopGc (s : DB fmt) : DB fmt :=
  { s with running := Function.update s.running s.gc false }

/-- A writer is closed. -/
@[simps]
def closeWriter (s : DB fmt) : DB fmt :=
  { s with wals := Function.update s.wals s.wal (s.wals s.wal).close.1 }

/-- `NewWriter` creates `wal.log`, and a committer is started on it. -/
@[simps]
def install (s : DB fmt) : DB fmt :=
  { s with
    wals := Function.update s.wals s.nextWal (Writer.new none)
    running := Function.update s.running s.nextWal true
    wal := s.nextWal
    gc := s.nextWal
    nextWal := s.nextWal + 1
    walLog := some s.nextWal
    rotate := .installed }

/-- What a step does; `none` when it is not enabled. -/
def step (s : DB fmt) : DBAct → Option (DB fmt)
  | .start =>
    if s.started = false ∧ s.store.mgr.pcs 0 = .returned true then
      (s.store.step (.mgr (.ret 0))).map fun st => { s with store := st, started := true }
    else none
  | .call c b =>
    if s.started = true ∧ s.closed = false ∧ s.writer = none then
      (s.store.step (.mgr (.call c b))).map fun st =>
        { s with store := st, readers := c :: s.readers }
    else none
  | .append c =>
    match s.store.mgr.pcs c with
    | .called b =>
      if s.running s.mgrWal = true ∧ s.synced = false ∧ c ∉ s.group then some (s.append c b)
      else none
    | _ => none
  | .sync => if s.group ≠ [] ∧ s.synced = false then some s.sync else none
  | .ack =>
    match s.group, s.synced with
    | c :: rest, true => (s.store.step (.mgr (.submit c))).map fun st => s.ack st rest
    | _, _ => none
  -- `Submit` on a stopped committer: the closed `stopCh` is taken
  | .reject c =>
    if s.running s.mgrWal = false ∧ c ∉ s.group then
      (s.store.step (.mgr (.submitErr c false))).map fun st => { s with store := st }
    else none
  | .ret c =>
    if s.started = true then
      (s.store.step (.mgr (.ret c))).map fun st =>
        { s with store := st, readers := s.readers.filter fun d => decide (d ≠ c) }
    else none
  | .store a =>
    if s.allows a = true then (s.store.step a).map fun st => { s with store := st } else none
  | .rotateEnter =>
    if s.store.job = .applied ∧ s.rotate = .outside then some { s with rotate := .locking }
    else none
  | .rotateAnnounce =>
    if s.rotate = .locking ∧ s.writer = none then
      some { s with rotate := .announced, writer := some .rotation }
    else none
  | .rotateLock =>
    if s.rotate = .announced ∧ s.readers = [] then some { s with rotate := .locked } else none
  -- stopping a committer twice panics
  | .rotateStop =>
    if s.rotate = .locked ∧ s.running s.gc = true then some { s.stopGc with rotate := .stopped }
    else none
  | .rotateClose =>
    if s.rotate = .stopped then some { s.closeWriter with rotate := .closed } else none
  | .rotateRename true =>
    match s.rotate, s.walLog with
    | .closed, some n =>
      some { s with walLog := none, rotated := n :: s.rotated, rotate := .renamed }
    | _, _ => none
  | .rotateRename false =>
    if s.rotate = .closed then some { s with rotate := .leaving } else none
  | .rotateCreate true => if s.rotate = .renamed then some s.install else none
  | .rotateCreate false =>
    if s.rotate = .renamed then some { s with rotate := .leaving } else none
  | .rotateRemove ok =>
    if s.rotate = .installed then
      some { s with rotated := if ok then s.rotated.tail else s.rotated, rotate := .leaving }
    else none
  | .rotateUnlock =>
    if s.rotate = .leaving then some { s with rotate := .done, writer := none } else none
  | .flushed =>
    if s.rotate = .done then
      (s.store.step (.mgr .flushOk)).map fun st => { s with store := st, rotate := .outside }
    else none
  | .closeEnter c =>
    if s.started = true ∧ s.closers c = .outside then some (s.setCloser c .locking) else none
  | .closeAnnounce c =>
    if s.closers c = .locking ∧ s.writer = none then
      some ({ s with writer := some (.closer c) }.setCloser c .announced)
    else none
  | .closeLock c =>
    if s.closers c = .announced ∧ s.readers = [] then
      if s.closed then some ({ s with writer := none }.setCloser c .outside)
      else some ({ s with closed := true }.setCloser c .locked)
    else none
  | .closeStop c =>
    if s.closers c = .locked then
      (s.store.step (.mgr .stop)).map fun st => { s with store := st }.setCloser c .stopping
    else none
  | .closeWait c =>
    if s.closers c = .stopping ∧ s.store.mgr.flush = .stopped then
      some (s.setCloser c .stopped)
    else none
  | .closeGc c =>
    if s.closers c = .stopped ∧ s.running s.gc = true then
      some (s.stopGc.setCloser c .gcStopped)
    else none
  -- `wal.Close`, then `lsm.Close`, and `db.mu` is released
  | .closeWal c =>
    if s.closers c = .gcStopped then
      some ({ s.closeWriter with writer := none }.setCloser c .outside)
    else none

/-! ### What a step can do -/

/-- The transitions, one constructor for each way a step can go. -/
inductive Step (s : DB fmt) : DBAct → DB fmt → Prop
  | start {st} (hstarted : s.started = false) (hpc : s.store.mgr.pcs 0 = .returned true)
      (h : Store.Step s.store (.mgr (.ret 0)) st) :
      Step s .start { s with store := st, started := true }
  | call {c b st} (hstarted : s.started = true) (hclosed : s.closed = false)
      (hw : s.writer = none) (h : Store.Step s.store (.mgr (.call c b)) st) :
      Step s (.call c b) { s with store := st, readers := c :: s.readers }
  | append {c b} (hpc : s.store.mgr.pcs c = .called b) (hrun : s.running s.mgrWal = true)
      (hsynced : s.synced = false) (hc : c ∉ s.group) : Step s (.append c) (s.append c b)
  | sync (hgroup : s.group ≠ []) (hsynced : s.synced = false) : Step s .sync s.sync
  | ack {c rest st} (hgroup : s.group = c :: rest) (hsynced : s.synced = true)
      (h : Store.Step s.store (.mgr (.submit c)) st) : Step s .ack (s.ack st rest)
  | reject {c st} (hrun : s.running s.mgrWal = false) (hc : c ∉ s.group)
      (h : Store.Step s.store (.mgr (.submitErr c false)) st) :
      Step s (.reject c) { s with store := st }
  | ret {c st} (hstarted : s.started = true) (h : Store.Step s.store (.mgr (.ret c)) st) :
      Step s (.ret c)
        { s with store := st, readers := s.readers.filter fun d => decide (d ≠ c) }
  | store {a st} (hallows : s.allows a = true) (h : Store.Step s.store a st) :
      Step s (.store a) { s with store := st }
  | rotateEnter (hjob : s.store.job = .applied) (h : s.rotate = .outside) :
      Step s .rotateEnter { s with rotate := .locking }
  | rotateAnnounce (h : s.rotate = .locking) (hw : s.writer = none) :
      Step s .rotateAnnounce { s with rotate := .announced, writer := some .rotation }
  | rotateLock (h : s.rotate = .announced) (hr : s.readers = []) :
      Step s .rotateLock { s with rotate := .locked }
  | rotateStop (h : s.rotate = .locked) (hrun : s.running s.gc = true) :
      Step s .rotateStop { s.stopGc with rotate := .stopped }
  | rotateClose (h : s.rotate = .stopped) :
      Step s .rotateClose { s.closeWriter with rotate := .closed }
  | rotateRename {n} (h : s.rotate = .closed) (hn : s.walLog = some n) :
      Step s (.rotateRename true)
        { s with walLog := none, rotated := n :: s.rotated, rotate := .renamed }
  | rotateRenameErr (h : s.rotate = .closed) :
      Step s (.rotateRename false) { s with rotate := .leaving }
  | rotateCreate (h : s.rotate = .renamed) : Step s (.rotateCreate true) s.install
  | rotateCreateErr (h : s.rotate = .renamed) :
      Step s (.rotateCreate false) { s with rotate := .leaving }
  | rotateRemove {ok} (h : s.rotate = .installed) :
      Step s (.rotateRemove ok)
        { s with rotated := if ok then s.rotated.tail else s.rotated, rotate := .leaving }
  | rotateUnlock (h : s.rotate = .leaving) :
      Step s .rotateUnlock { s with rotate := .done, writer := none }
  | flushed {st} (h : s.rotate = .done) (hst : Store.Step s.store (.mgr .flushOk) st) :
      Step s .flushed { s with store := st, rotate := .outside }
  | closeEnter {c} (hstarted : s.started = true) (h : s.closers c = .outside) :
      Step s (.closeEnter c) (s.setCloser c .locking)
  | closeAnnounce {c} (h : s.closers c = .locking) (hw : s.writer = none) :
      Step s (.closeAnnounce c) ({ s with writer := some (.closer c) }.setCloser c .announced)
  | closeAgain {c} (h : s.closers c = .announced) (hr : s.readers = []) (hc : s.closed = true) :
      Step s (.closeLock c) ({ s with writer := none }.setCloser c .outside)
  | closeLock {c} (h : s.closers c = .announced) (hr : s.readers = []) (hc : s.closed = false) :
      Step s (.closeLock c) ({ s with closed := true }.setCloser c .locked)
  | closeStop {c st} (h : s.closers c = .locked) (hst : Store.Step s.store (.mgr .stop) st) :
      Step s (.closeStop c) ({ s with store := st }.setCloser c .stopping)
  | closeWait {c} (h : s.closers c = .stopping) (hf : s.store.mgr.flush = .stopped) :
      Step s (.closeWait c) (s.setCloser c .stopped)
  | closeGc {c} (h : s.closers c = .stopped) (hrun : s.running s.gc = true) :
      Step s (.closeGc c) (s.stopGc.setCloser c .gcStopped)
  | closeWal {c} (h : s.closers c = .gcStopped) :
      Step s (.closeWal c) ({ s.closeWriter with writer := none }.setCloser c .outside)

/-- **Inversion**: a step is one of the transitions. -/
theorem step_cases {s s' : DB fmt} {a : DBAct} (h : s.step a = some s') : Step s a s' := by
  cases a with
  -- what moves the store along
  | ret | store | flushed | closeStop =>
    obtain ⟨hguard, hm⟩ := Option.ite_none_right_eq_some.mp h
    obtain ⟨st, hst, rfl⟩ := Option.map_eq_some_iff.mp hm
    constructor
    · exact hguard
    · exact Store.step_cases hst
  | start | reject =>
    obtain ⟨⟨hguard, hguard'⟩, hm⟩ := Option.ite_none_right_eq_some.mp h
    obtain ⟨st, hst, rfl⟩ := Option.map_eq_some_iff.mp hm
    constructor
    · exact hguard
    · exact hguard'
    · exact Store.step_cases hst
  | call c b =>
    obtain ⟨⟨hstarted, hclosed, hw⟩, hm⟩ := Option.ite_none_right_eq_some.mp h
    obtain ⟨st, hst, rfl⟩ := Option.map_eq_some_iff.mp hm
    exact .call hstarted hclosed hw (Store.step_cases hst)
  | ack =>
    simp only [step] at h
    split at h
    · obtain ⟨st, hst, rfl⟩ := Option.map_eq_some_iff.mp h
      exact .ack ‹_› ‹_› (Store.step_cases hst)
    · cases h
  -- what leaves it alone
  | sync | rotateEnter | rotateAnnounce | rotateLock | rotateStop | closeEnter | closeAnnounce
  | closeWait | closeGc =>
    obtain ⟨⟨hguard, hguard'⟩, hm⟩ := Option.ite_none_right_eq_some.mp h
    cases hm
    constructor <;> assumption
  | rotateClose | rotateRemove | rotateUnlock | closeWal =>
    obtain ⟨hguard, hm⟩ := Option.ite_none_right_eq_some.mp h
    cases hm
    constructor
    exact hguard
  | append c =>
    simp only [step] at h
    split at h
    · obtain ⟨⟨hrun, hsynced, hc⟩, hm⟩ := Option.ite_none_right_eq_some.mp h
      cases hm
      exact .append ‹_› hrun hsynced hc
    · cases h
  | rotateRename ok =>
    cases ok with
    | true =>
      simp only [step] at h
      split at h
      · cases h
        exact .rotateRename ‹_› ‹_›
      · cases h
    | false =>
      obtain ⟨hpc, hm⟩ := Option.ite_none_right_eq_some.mp h
      cases hm
      exact .rotateRenameErr hpc
  | rotateCreate ok =>
    cases ok <;> obtain ⟨hpc, hm⟩ := Option.ite_none_right_eq_some.mp h <;> cases hm
    · exact .rotateCreateErr hpc
    · exact .rotateCreate hpc
  | closeLock c =>
    obtain ⟨⟨hpc, hr⟩, hm⟩ := Option.ite_none_right_eq_some.mp h
    split at hm
    · cases hm
      exact .closeAgain hpc hr ‹_›
    · cases hm
      exact .closeLock hpc hr (by simpa using ‹¬ s.closed = true›)

/-! ### Steps of the store inside steps of the database -/

/-- The step of the store that a step of the database contains. -/
def Lifts (s : DB fmt) : DBAct → StoreAct → Prop
  | .start, b => b = .mgr (.ret 0)
  | .call c batch, b => b = .mgr (.call c batch)
  | .ack, b => ∃ c rest, s.group = c :: rest ∧ s.synced = true ∧ b = .mgr (.submit c)
  | .reject c, b => b = .mgr (.submitErr c false) ∧ c ∉ s.group
  | .ret c, b => b = .mgr (.ret c)
  | .store a, b => b = a ∧ s.allows a = true
  | .flushed, b => b = .mgr .flushOk
  | .closeStop _, b => b = .mgr .stop
  | _, _ => False

/-- Every step leaves the store as it is or contains a step of the store. -/
theorem Step.lifts {s s' : DB fmt} {a : DBAct} (hs : Step s a s') :
    (s'.store = s.store ∧ ∀ b, a ≠ .store b) ∨
      ∃ b, Lifts s a b ∧ Store.Step s.store b s'.store := by
  cases hs with
  | start _ _ h => exact .inr ⟨_, rfl, h⟩
  | call _ _ _ h => exact .inr ⟨_, rfl, h⟩
  | ack hgroup hsynced h => exact .inr ⟨_, ⟨_, _, hgroup, hsynced, rfl⟩, h⟩
  | reject _ hc h => exact .inr ⟨_, ⟨rfl, hc⟩, h⟩
  | ret _ h | flushed _ h | closeStop _ h => exact .inr ⟨_, rfl, h⟩
  | store hallows h => exact .inr ⟨_, ⟨rfl, hallows⟩, h⟩
  | _ => exact .inl ⟨rfl, nofun⟩

/-- Inserting and the end of a flush are steps of the store by themselves. -/
theorem Lifts.eq_store {s : DB fmt} {a : DBAct} {b : Act} (h : Lifts s a (.mgr b))
    (hb : (∃ c level, b = .insert c level) ∨ b = .clear) : a = .store (.mgr b) := by
  cases a with
  | store b' => rw [h.1]
  | ack =>
    obtain ⟨c, rest, -, -, heq⟩ := h
    cases heq
    rcases hb with ⟨c, level, hb⟩ | hb <;> cases hb
  | start | call | ret | flushed | closeStop =>
    cases h
    rcases hb with ⟨c, level, hb⟩ | hb <;> cases hb
  | reject c =>
    cases h.1
    rcases hb with ⟨c, level, hb⟩ | hb <;> cases hb
  | _ => exact h.elim

end DB

end Stratum.Db
