import Stratum.Lsm.Tree
import Stratum.Memtable.Tables

/-!
# The memtables and the tree below them

`Store` adds to the memtable manager what a flush publishes and what a read goes through: the
SSTables on disk, the readers that are open on them, the manifest with its file, the flush in
progress, and the reads in progress. The compaction of the tree is not part of it.

* `openStore` is what `Open` makes of a directory, before it replays the batches of the log: the
  manifest is replayed, and every live file gets a reader.
* A flush (`LSMTree.Flush`, run by the flush loop inside `flushFn`) draws a file number and
  creates the file, truncating whatever had that number; writes the frozen table, opens a reader
  and registers it; and only then applies the edit that makes the file part of the version. A
  failed attempt is retried with a new number; when it is the edit that fails, a part of its bytes
  may stay in the file of the manifest.
* A read (`DB.Get`) reads the pointers to the tables under `m.mu`, searches the active table as it
  then is, the immutable one, takes the current version, and searches that with the readers that
  are then open. Each of these is a step of its own.

`StoreInv` is what the steps keep, as long as no flush draws the number of a live file
(`FreshNumber`) and every table that is flushed can be read back (`ReadableTable`).
-/

namespace Stratum.Db

open Memtable Lsm LastWrite Sstable Wal

/-- How far `LSMTree.Flush` has come. -/
inductive FlushJob
  | none
  /-- the file is created, its contents are not complete -/
  | created (num : ℕ)
  /-- the file is complete and its reader registered -/
  | registered (num : ℕ)
  /-- the edit is applied -/
  | applied
deriving DecidableEq, Repr

/-- How far a read has come; `done` carries an error of the tree, or the value, none standing for
`ErrNotFound`. -/
inductive GetPc (E : Type)
  | idle
  | started (key : Bytes)
  | snapped (key : Bytes) (active : ℕ) (immutable : Option ℕ)
  | missedActive (key : Bytes) (immutable : Option ℕ)
  | missedTables (key : Bytes)
  | snappedVersion (key : Bytes) (v : Version)
  | done (key : Bytes) (result : Except E (Option Bytes))

/-- The answer of a read that has come to its end. -/
def GetPc.answered {E : Type} : GetPc E → Option (Bytes × Except E (Option Bytes))
  | .done key result => some (key, result)
  | _ => none

theorem GetPc.answered_eq_some {E : Type} {pc : GetPc E} {key : Bytes}
    {result : Except E (Option Bytes)} :
    pc.answered = some (key, result) ↔ pc = .done key result := by
  cases pc <;> simp [answered]

/-- The memtables, the tree, and the reads in progress. -/
structure Store (fmt : TableFormat) where
  mgr : Manager
  manifest : Manifest
  files : ℕ → Option fmt.File
  readers : ℕ → Option fmt.Reader
  job : FlushJob
  gets : ClientId → GetPc fmt.Err

/-- The steps of the store. -/
inductive StoreAct
  | mgr (a : Act)
  | create
  | register
  | apply
  /-- `Apply` fails when `n` bytes have reached the file -/
  | applyErr (n : ℕ)
  | flushErr
  | getStart (c : ClientId) (key : Bytes)
  | getSnap (c : ClientId)
  | getActive (c : ClientId)
  | getImmutable (c : ClientId)
  | getVersion (c : ClientId)
  | getSearch (c : ClientId)
  | getEnd (c : ClientId)
deriving DecidableEq, Repr

/-- The entries of all batches, each with the position of its record. -/
def tagAll (batches : List Batch) : List Tagged :=
  batches.zipIdx.flatMap fun b => tagEntries b.2 b.1

/-- The manager before the batches are replayed: the log holds them, goroutine `0` has to write
them. -/
def recovering (maxSize : ℤ) (batches : List Batch) : Manager :=
  { Manager.new maxSize with
    log := batches.map fun b => ⟨b, 0, true⟩
    pcs := Function.update (fun _ => .idle) 0 (.logged (tagAll batches)) }

/-- The tables are still empty. -/
theorem tablesInv_recovering (maxSize : ℤ) (batches : List Batch) :
    (recovering maxSize batches).TablesInv where
  immutable_succ i h := by cases h
  newest_eq k := by simp [Manager.newest, recovering, Manager.new, Manager.current,
    Manager.written]
  flushing_eq stop i h := by cases h
  flushed_eq stop i h := by cases h
  holder c todo h := by
    by_cases hc : c = 0
    · subst hc
      simp [recovering] at h
    · simp [recovering, Function.update_of_ne hc] at h

namespace Store

variable {fmt : TableFormat}

/-- The current version. -/
abbrev version (s : Store fmt) : Version := s.manifest.current

/-- `LSMTree.Get`, when nothing comes between the version and the search. -/
def treeGet (s : Store fmt) (key : Bytes) : Except fmt.Err (Option (Option Bytes)) :=
  s.version.get s.readers fmt.get key

/-- `OpenReader` on the file of a number. -/
def openTable (files : ℕ → Option fmt.File) (num : ℕ) : Option fmt.Reader :=
  (files num).bind fun file => (fmt.openReader file).toOption

/-- The store with this tree, before the batches are replayed. -/
def start (manifest : Manifest) (files : ℕ → Option fmt.File) (readers : ℕ → Option fmt.Reader)
    (batches : List Batch) (maxSize : ℤ) : Store fmt where
  mgr := recovering maxSize batches
  manifest := manifest
  files := files
  readers := readers
  job := .none
  gets := fun _ => .idle

/-- `NewLSMTree`: the manifest is replayed, and every live file must open. -/
def openTree (files : ℕ → Option fmt.File) (manifest : Bytes) :
    Option (Manifest × (ℕ → Option fmt.Reader)) :=
  match openManifest manifest with
  | .error _ => none
  | .ok m =>
    if ∀ n ∈ m.current.fileNums, openTable files n ≠ none then
      some (m, fun n => if n ∈ m.current.fileNums then openTable files n else none)
    else none

/-- `Open` on a directory with these tables and this manifest, and with these batches in its
log. -/
def openStore (files : ℕ → Option fmt.File) (manifest : Bytes) (batches : List Batch)
    (maxSize : ℤ) : Option (Store fmt) :=
  (openTree files manifest).map fun p => start p.1 files p.2 batches maxSize

/-- Move one reader on. -/
@[simps]
def setGet (s : Store fmt) (c : ClientId) (pc : GetPc fmt.Err) : Store fmt :=
  { s with gets := Function.update s.gets c pc }

/-- Where a read goes after searching a table: it ends when the table has the key. -/
def answer (key : Bytes) (found : Option (Option Bytes)) (miss : GetPc fmt.Err) : GetPc fmt.Err :=
  match found with
  | some val => .done key (.ok val)
  | none => miss

/-- `create`: the file number is drawn and the file truncated. -/
@[simps]
def create (s : Store fmt) : Store fmt :=
  { s with
    manifest := s.manifest.draw
    files := Function.update s.files s.manifest.nextFileNum (some fmt.created)
    job := .created s.manifest.nextFileNum }

/-- `register`: the file is complete, and its reader is in the map. -/
@[simps]
def register (s : Store fmt) (num : ℕ) (es : List Entry) (r : fmt.Reader) : Store fmt :=
  { s with
    files := Function.update s.files num (some (fmt.write es))
    readers := Function.update s.readers num (some r)
    job := .registered num }

/-- The edit of the flush of table `i` to the file `num`. -/
def edit (s : Store fmt) (num i : ℕ) : VersionEdit :=
  flushEdit (tableFile fmt 0 num (s.mgr.tables i).entries)

/-- What a step does; `none` when it is not enabled. -/
def step (s : Store fmt) : StoreAct → Option (Store fmt)
  | .mgr .flushOk =>
    match s.job with
    | .applied => (s.mgr.step .flushOk).map fun m => { s with mgr := m, job := .none }
    | _ => none
  | .mgr a => (s.mgr.step a).map fun m => { s with mgr := m }
  | .create =>
    match s.mgr.flush, s.job with
    | .flushing _ _, .none => some s.create
    | _, _ => none
  | .register =>
    match s.mgr.flush, s.job with
    | .flushing _ i, .created num =>
      match fmt.openReader (fmt.write (s.mgr.tables i).entries) with
      | .ok r => some (s.register num (s.mgr.tables i).entries r)
      | .error _ => none
    | _, _ => none
  | .apply =>
    match s.mgr.flush, s.job with
    | .flushing _ i, .registered num =>
      (s.manifest.apply (s.edit num i)).map fun m => { s with manifest := m, job := .applied }
    | _, _ => none
  | .applyErr n =>
    match s.mgr.flush, s.job with
    | .flushing _ i, .registered num =>
      some { s with manifest := s.manifest.applyTorn (s.edit num i) n, job := .none }
    | _, _ => none
  | .flushErr =>
    match s.job with
    | .created _ => some { s with job := .none }
    | _ => none
  | .getStart c key =>
    match s.gets c with
    | .idle => some (s.setGet c (.started key))
    | _ => none
  | .getSnap c =>
    match s.gets c, s.mgr.mu with
    | .started key, none => some (s.setGet c (.snapped key s.mgr.active s.mgr.immutable))
    | _, _ => none
  | .getActive c =>
    match s.gets c with
    | .snapped key active immutable =>
      some (s.setGet c
        (answer key ((s.mgr.tables active).get key) (.missedActive key immutable)))
    | _ => none
  | .getImmutable c =>
    match s.gets c with
    | .missedActive key immutable =>
      some (s.setGet c
        (answer key (immutable.bind fun i => (s.mgr.tables i).get key) (.missedTables key)))
    | _ => none
  | .getVersion c =>
    match s.gets c with
    | .missedTables key => some (s.setGet c (.snappedVersion key s.version))
    | _ => none
  | .getSearch c =>
    match s.gets c with
    | .snappedVersion key v =>
      some (s.setGet c (.done key ((v.get s.readers fmt.get key).map Option.join)))
    | _ => none
  | .getEnd c =>
    match s.gets c with
    | .done _ _ => some (s.setGet c .idle)
    | _ => none

/-! ### What a step can do -/

/-- The transitions, one constructor for each way a step can go. -/
inductive Step (s : Store fmt) : StoreAct → Store fmt → Prop
  | mgr {a m} (ha : a ≠ .flushOk) (h : Manager.Step s.mgr a m) :
      Step s (.mgr a) { s with mgr := m }
  | flushOk {m} (hj : s.job = .applied) (h : Manager.Step s.mgr .flushOk m) :
      Step s (.mgr .flushOk) { s with mgr := m, job := .none }
  | create {stop i} (hf : s.mgr.flush = .flushing stop i) (hj : s.job = .none) :
      Step s .create s.create
  | register {stop i num r} (hf : s.mgr.flush = .flushing stop i) (hj : s.job = .created num)
      (hr : fmt.openReader (fmt.write (s.mgr.tables i).entries) = .ok r) :
      Step s .register (s.register num (s.mgr.tables i).entries r)
  | apply {stop i num m} (hf : s.mgr.flush = .flushing stop i) (hj : s.job = .registered num)
      (hm : s.manifest.apply (s.edit num i) = some m) :
      Step s .apply { s with manifest := m, job := .applied }
  | applyErr {n stop i num} (hf : s.mgr.flush = .flushing stop i) (hj : s.job = .registered num) :
      Step s (.applyErr n)
        { s with manifest := s.manifest.applyTorn (s.edit num i) n, job := .none }
  | flushErr {num} (hj : s.job = .created num) : Step s .flushErr { s with job := .none }
  | getStart {c key} (h : s.gets c = .idle) : Step s (.getStart c key) (s.setGet c (.started key))
  | getSnap {c key} (h : s.gets c = .started key) (hmu : s.mgr.mu = none) :
      Step s (.getSnap c) (s.setGet c (.snapped key s.mgr.active s.mgr.immutable))
  | getActive {c key active immutable} (h : s.gets c = .snapped key active immutable) :
      Step s (.getActive c) (s.setGet c
        (answer key ((s.mgr.tables active).get key) (.missedActive key immutable)))
  | getImmutable {c key immutable} (h : s.gets c = .missedActive key immutable) :
      Step s (.getImmutable c) (s.setGet c
        (answer key (immutable.bind fun i => (s.mgr.tables i).get key) (.missedTables key)))
  | getVersion {c key} (h : s.gets c = .missedTables key) :
      Step s (.getVersion c) (s.setGet c (.snappedVersion key s.version))
  | getSearch {c key v} (h : s.gets c = .snappedVersion key v) :
      Step s (.getSearch c)
        (s.setGet c (.done key ((v.get s.readers fmt.get key).map Option.join)))
  | getEnd {c key r} (h : s.gets c = .done key r) : Step s (.getEnd c) (s.setGet c .idle)

/-- **Inversion**: a step is one of the transitions. -/
theorem step_cases {s s' : Store fmt} {a : StoreAct} (h : s.step a = some s') : Step s a s' := by
  cases a with
  | mgr a =>
    by_cases ha : a = .flushOk
    · subst ha
      simp only [step] at h
      split at h
      · obtain ⟨m, hm, rfl⟩ := Option.map_eq_some_iff.mp h
        exact .flushOk ‹_› (Manager.step_cases hm)
      · cases h
    · have h' : (s.mgr.step a).map (fun m => { s with mgr := m }) = some s' := by
        cases a <;> first | exact absurd rfl ha | exact h
      obtain ⟨m, hm, rfl⟩ := Option.map_eq_some_iff.mp h'
      exact .mgr ha (Manager.step_cases hm)
  | create | applyErr | flushErr | getStart | getSnap | getActive | getImmutable | getVersion
  | getSearch | getEnd =>
    simp only [step] at h
    split at h <;> cases h
    constructor <;> assumption
  | register =>
    simp only [step] at h
    split at h
    · split at h <;> cases h
      exact .register ‹_› ‹_› ‹_›
    · cases h
  | apply =>
    simp only [step] at h
    split at h
    · obtain ⟨m, hm, rfl⟩ := Option.map_eq_some_iff.mp h
      exact .apply ‹_› ‹_› hm
    · cases h

/-- Seen from the manager, a step is one of its own or none. -/
theorem Step.mgr_cases {s s' : Store fmt} {a : StoreAct} (hs : Step s a s') :
    s'.mgr = s.mgr ∨ ∃ b, a = .mgr b ∧ Manager.Step s.mgr b s'.mgr := by
  cases hs with
  | mgr ha h | flushOk hj h => exact .inr ⟨_, rfl, h⟩
  | _ => exact .inl rfl

/-- A step of the manager inside the store. -/
theorem Step.of_mgr {s s' : Store fmt} {b : Act} (hs : Step s (.mgr b) s') :
    Manager.Step s.mgr b s'.mgr := by
  cases hs with
  | mgr _ hm => exact hm
  | flushOk _ hm => exact hm

/-- Only the flush loop runs `Flush`. -/
theorem Step.flushing_of_job {s s' : Store fmt} {a : StoreAct} (hs : Step s a s')
    (h : s.job ≠ .none → ∃ stop i, s.mgr.flush = .flushing stop i) :
    s'.job ≠ .none → ∃ stop i, s'.mgr.flush = .flushing stop i := by
  cases hs with
  | mgr ha hm =>
    intro hj
    obtain ⟨stop, i, hf⟩ := h hj
    exact ⟨stop, i, hm.flush_of_flushing ha hf⟩
  | flushOk | applyErr | flushErr => exact fun hj => absurd rfl hj
  | create hf hj | register hf hj hr | apply hf hj hm => exact fun _ => ⟨_, _, hf⟩
  | _ => exact h

/-! ### What is published -/

/-- The immutable table is in the version already: its edit is applied, or `flushFn` has even
returned. -/
def flushedImmutable (s : Store fmt) : Bool := s.mgr.flush.isFlushed || decide (s.job = .applied)

/-- The number of tables whose contents are part of the version. -/
def published (s : Store fmt) : ℕ :=
  match s.mgr.immutable with
  | none => s.mgr.active
  | some i => if s.flushedImmutable then i + 1 else i

/-- The step does not draw the number of a file of the current version. -/
def FreshNumber (s : Store fmt) : StoreAct → Prop
  | .create => ¬ s.version.Live s.manifest.nextFileNum
  | _ => True

/-- A step that writes a table writes one that can be read back. -/
def ReadableTable (s : Store fmt) : StoreAct → Prop
  | .register => ∀ stop i, s.mgr.flush = .flushing stop i →
      ∃ r, fmt.Readable (s.mgr.tables i).entries r
  | _ => True

/-- What holds in every state of every run whose flushes draw fresh numbers; `base` is what the
tree answered when the run began. -/
structure StoreInv (base : Bytes → Except fmt.Err (Option (Option Bytes))) (s : Store fmt) :
    Prop where
  tables : s.mgr.TablesInv
  /-- only the flush loop runs `Flush` -/
  flushing_of_job : s.job ≠ .none → ∃ stop i, s.mgr.flush = .flushing stop i
  /-- the tree answers with the newest published table that has the key -/
  lookup : ∀ key, s.treeGet key
    = orTree (Manager.newest s.mgr.tables s.published key) (base key)
  sorted : s.version.Sorted
  /-- the readers are open on the files of the version -/
  disk : ∀ n, s.version.Live n → ∃ f r, s.files n = some f ∧ fmt.openReader f = .ok r ∧
    s.readers n = some r
  /-- the file that is being written is not part of the version -/
  fresh_job : ∀ num, s.job = .created num ∨ s.job = .registered num → ¬ s.version.Live num
  /-- the reader that was registered last answers for the table -/
  registered : ∀ num stop i, s.job = .registered num → s.mgr.flush = .flushing stop i →
    ∃ f r, s.files num = some f ∧ fmt.openReader f = .ok r ∧ s.readers num = some r ∧
      ∀ key, fmt.get r key = .ok ((s.mgr.tables i).get key)

variable {base : Bytes → Except fmt.Err (Option (Option Bytes))} {s s' : Store fmt}
  {a : StoreAct}

theorem StoreInv.published_le (h : StoreInv base s) : s.published ≤ s.mgr.active := by
  rw [published]
  cases himm : s.mgr.immutable with
  | none => exact le_rfl
  | some i =>
    have := h.tables.immutable_succ i himm
    dsimp only
    split <;> omega

/-- A step of the manager that is not the end of `flushFn` publishes nothing. -/
theorem StoreInv.published_mgr (h : StoreInv base s) {a : Act} {m : Manager}
    (ha : a ≠ .flushOk) (hs : Manager.Step s.mgr a m) :
    ({ s with mgr := m } : Store fmt).published = s.published := by
  -- with no immutable table the flush loop is not in `flushFn`
  have hidle : s.mgr.immutable = none → s.flushedImmutable = false := by
    intro himm
    have hjob : s.job = .none := by
      by_contra hj
      obtain ⟨stop, i, hf⟩ := h.flushing_of_job hj
      rw [h.tables.flushing_eq stop i hf] at himm
      cases himm
    rw [flushedImmutable, hjob]
    cases hf : s.mgr.flush with
    | flushed stop i =>
      rw [h.tables.flushed_eq stop i hf] at himm
      cases himm
    | _ => rfl
  cases hs with
  | writeSwap hpc ht himm | swap hpc hfull himm =>
    have := hidle himm
    simp_all [published, flushedImmutable]
  | @clear stop i hf hmu =>
    have himm := h.tables.flushed_eq stop i hf
    have := h.tables.immutable_succ i himm
    simp only [published, flushedImmutable, himm, hf, FlushPc.isFlushed, Bool.true_or, if_true]
    exact this.symm
  | recv hf hch | recvStop hf hch | readImmutable hf hmu himm =>
    simp [published, flushedImmutable, hf, FlushPc.isFlushed]
  | @nothing stop hf hmu himm => simp [published, himm]
  | flushOk hf => exact absurd rfl ha
  | _ => rfl

/-- What a manager step leaves of the tables that are published. -/
theorem StoreInv.newest_mgr (h : StoreInv base s) {a : Act} {m : Manager}
    (hs : Manager.Step s.mgr a m) (key : Bytes) :
    Manager.newest m.tables s.published key = Manager.newest s.mgr.tables s.published key :=
  Manager.newest_congr fun _ hj => hs.get_of_lt (lt_of_lt_of_le hj h.published_le) key

/-- A step of a read changes nothing else. -/
private theorem StoreInv.setGet (h : StoreInv base s) (c : ClientId) (pc : GetPc fmt.Err) :
    StoreInv base (s.setGet c pc) :=
  ⟨h.tables, h.flushing_of_job, h.lookup, h.sorted, h.disk, h.fresh_job, h.registered⟩

variable {m : Manifest} {stop : Bool} {i num : ℕ} {files : ℕ → Option fmt.File} {manifest : Bytes}

/-- `Flush` is at work on the immutable table, which is not published yet. -/
private theorem StoreInv.published_of_flushing (h : StoreInv base s)
    (hf : s.mgr.flush = .flushing stop i) :
    s.mgr.immutable = some i ∧ i < s.mgr.active ∧
      s.published = if s.job = .applied then i + 1 else i := by
  have himm := h.tables.flushing_eq stop i hf
  have := h.tables.immutable_succ i himm
  refine ⟨himm, by omega, ?_⟩
  simp [published, flushedImmutable, himm, hf, FlushPc.isFlushed]

private theorem StoreInv.step_mgr (h : StoreInv base s) {a : Act} {m : Manager}
    (ha : a ≠ .flushOk) (hs : Manager.Step s.mgr a m) :
    StoreInv base ({ s with mgr := m } : Store fmt) where
  tables := h.tables.step hs
  flushing_of_job := (Step.mgr ha hs).flushing_of_job h.flushing_of_job
  lookup key := by
    rw [h.published_mgr ha hs, h.newest_mgr hs]
    exact h.lookup key
  sorted := h.sorted
  disk := h.disk
  fresh_job := h.fresh_job
  registered num stop i hj hf := by
    obtain ⟨stop', i', hf'⟩ := h.flushing_of_job (by rw [hj]; simp)
    rw [hs.flush_of_flushing ha hf'] at hf
    cases hf
    obtain ⟨f, r, hfile, hopen, hreader, hget⟩ := h.registered num stop i hj hf'
    refine ⟨f, r, hfile, hopen, hreader, fun key => ?_⟩
    rw [hs.get_of_lt (h.published_of_flushing hf').2.1]
    exact hget key

private theorem StoreInv.step_flushOk (h : StoreInv base s) {m : Manager}
    (hj : s.job = .applied) (hs : Manager.Step s.mgr .flushOk m) :
    StoreInv base ({ s with mgr := m, job := .none } : Store fmt) := by
  have htables := h.tables.step hs
  cases hs with
  | @flushOk stop i hf =>
    obtain ⟨himm, -, hpub⟩ := h.published_of_flushing hf
    refine ⟨htables, fun hj' => absurd rfl hj', fun key => ?_, h.sorted, h.disk, by simp, by simp⟩
    have hpub' : ({ s with mgr := { s.mgr with flush := .flushed stop i }, job := .none } :
        Store fmt).published = s.published := by
      rw [hpub, if_pos hj]
      simp [published, flushedImmutable, himm, FlushPc.isFlushed]
    rw [hpub']
    exact h.lookup key

private theorem StoreInv.step_create (h : StoreInv base s) (hf : s.mgr.flush = .flushing stop i)
    (hj : s.job = .none) (hfresh : ¬ s.version.Live s.manifest.nextFileNum) :
    StoreInv base s.create where
  tables := h.tables
  flushing_of_job _ := ⟨stop, i, hf⟩
  lookup key := by
    have hpub : s.create.published = s.published := by
      simp [published, flushedImmutable, hj]
    rw [hpub]
    exact h.lookup key
  sorted := h.sorted
  disk n hn := by
    have hne : n ≠ s.manifest.nextFileNum := by
      rintro rfl
      exact hfresh hn
    rw [create_files, Function.update_of_ne hne]
    exact h.disk n hn
  fresh_job num hnum := by
    obtain rfl : s.manifest.nextFileNum = num := by simpa using hnum
    exact hfresh
  registered num stop i hnum := by simp at hnum

private theorem StoreInv.step_register (h : StoreInv base s) {r : fmt.Reader}
    (hf : s.mgr.flush = .flushing stop i) (hj : s.job = .created num)
    (hr : fmt.Readable (s.mgr.tables i).entries r) :
    StoreInv base (s.register num (s.mgr.tables i).entries r) := by
  have hnum := h.fresh_job num (.inl hj)
  have hne : ∀ n, s.version.Live n → n ≠ num := by
    rintro n hn rfl
    exact hnum hn
  refine ⟨h.tables, fun _ => ⟨stop, i, hf⟩, fun key => ?_, h.sorted, fun n hn => ?_,
    fun n hn => ?_, fun n stop' i' hn hf' => ?_⟩
  · have hpub : (s.register num (s.mgr.tables i).entries r).published = s.published := by
      simp [published, flushedImmutable, hj]
    rw [hpub]
    refine Eq.trans (Version.get_congr (fun n hn => ?_) key) (h.lookup key)
    rw [register_readers, Function.update_of_ne (hne n hn)]
  · rw [register_files, register_readers, Function.update_of_ne (hne n hn),
      Function.update_of_ne (hne n hn)]
    exact h.disk n hn
  · obtain rfl : num = n := by simpa using hn
    exact hnum
  · obtain rfl : num = n := by simpa using hn
    have hf'' : s.mgr.flush = .flushing stop' i' := hf'
    rw [hf] at hf''
    cases hf''
    refine ⟨_, r, by simp, hr.opens, by simp, fun key => ?_⟩
    rw [hr.get_eq, MemTable.lookup_entries]
    rfl

/-- The version after the edit of a flush. -/
theorem StoreInv.current_apply (h : StoreInv base s)
    (hm : s.manifest.apply (s.edit num i) = some m) :
    m.current = s.version.addL0 (tableFile fmt 0 num (s.mgr.tables i).entries) := by
  rw [edit, Manifest.apply_flushEdit _ rfl] at hm
  cases hm
  exact Version.edit_addL0 rfl h.sorted

private theorem StoreInv.step_apply (h : StoreInv base s) (hf : s.mgr.flush = .flushing stop i)
    (hj : s.job = .registered num) (hm : s.manifest.apply (s.edit num i) = some m) :
    StoreInv base ({ s with manifest := m, job := .applied } : Store fmt) := by
  obtain ⟨f, r, hfile, hopen, hreader, hget⟩ := h.registered num stop i hj hf
  obtain ⟨himm, -, hpub⟩ := h.published_of_flushing hf
  rw [hj, if_neg (by simp)] at hpub
  have hcurrent := h.current_apply hm
  refine ⟨h.tables, fun _ => ⟨stop, i, hf⟩, fun key => ?_, fun level h1 hlt => ?_, fun n hn => ?_,
    by simp, by simp⟩
  · have hpub' : ({ s with manifest := m, job := .applied } : Store fmt).published = i + 1 := by
      simp [published, flushedImmutable, himm]
    have hask : askFile s.readers fmt.get key (tableFile fmt 0 num (s.mgr.tables i).entries)
        = .ok ((s.mgr.tables i).get key) := by
      simp [askFile, tableFile, hreader, hget]
    have hold := h.lookup key
    rw [hpub, treeGet] at hold
    rw [hpub', treeGet]
    change m.current.get s.readers fmt.get key
      = orTree (Manager.newest s.mgr.tables (i + 1) key) (base key)
    rw [hcurrent, Version.get_addL0, hask, hold, Manager.newest]
    cases (s.mgr.tables i).get key <;> rfl
  · change (m.current.levels level).Pairwise _
    rw [hcurrent, Version.levels_addL0_of_pos _ _ h1]
    exact h.sorted level h1 hlt
  · have hn' : m.current.Live n := hn
    rw [hcurrent, Version.live_addL0] at hn'
    rcases hn' with hn' | hn'
    · exact h.disk n hn'
    · obtain rfl : num = n := hn'
      exact ⟨f, r, hfile, hopen, hreader⟩

/-- A failed attempt to flush leaves the version as it is. -/
private theorem StoreInv.step_fail (h : StoreInv base s) (hj : s.job ≠ .applied) (file : Bytes) :
    StoreInv base ({ s with manifest := { s.manifest with file }, job := .none } : Store fmt) := by
  refine ⟨h.tables, fun hj' => absurd rfl hj', fun key => ?_, h.sorted, h.disk, by simp, by simp⟩
  have hpub : ({ s with manifest := { s.manifest with file }, job := .none } :
      Store fmt).published = s.published := by
    simp [published, flushedImmutable, hj]
  rw [hpub]
  exact h.lookup key

/-- **Step lemma**: with fresh numbers and readable tables, the tree answers with what was
flushed. -/
theorem StoreInv.step (h : StoreInv base s) (hfresh : FreshNumber s a)
    (hread : ReadableTable s a) (hs : Step s a s') : StoreInv base s' := by
  cases hs with
  | mgr ha hm => exact h.step_mgr ha hm
  | flushOk hj hm => exact h.step_flushOk hj hm
  | create hf hj => exact h.step_create hf hj hfresh
  | @register stop i num r hf hj hr =>
    obtain ⟨r', hr'⟩ := hread stop i hf
    obtain rfl : r = r' := by
      have := hr'.opens
      rw [hr] at this
      exact Except.ok.inj this
    exact h.step_register hf hj hr'
  | apply hf hj hm => exact h.step_apply hf hj hm
  | applyErr hf hj => exact h.step_fail (by simp [hj]) _
  | flushErr hj => exact h.step_fail (by simp [hj]) _
  | _ => exact h.setGet _ _

/-- A store whose readers are open on the files of a sorted version. -/
theorem storeInv_start {readers : ℕ → Option fmt.Reader} (hsorted : m.current.Sorted)
    (hdisk : ∀ n, m.current.Live n → ∃ f r, files n = some f ∧ fmt.openReader f = .ok r ∧
      readers n = some r) (batches : List Batch) (maxSize : ℤ) :
    StoreInv (m.current.get readers fmt.get) (start m files readers batches maxSize) where
  tables := tablesInv_recovering maxSize batches
  flushing_of_job hj := absurd rfl hj
  lookup _ := rfl
  sorted := hsorted
  disk := hdisk
  fresh_job := by simp [start]
  registered := by simp [start]

/-- What `NewLSMTree` returns. -/
theorem openTree_spec {readers : ℕ → Option fmt.Reader}
    (h : openTree files manifest = some (m, readers)) :
    openManifest manifest = .ok m ∧ ∀ n, m.current.Live n → ∃ f r, files n = some f ∧
      fmt.openReader f = .ok r ∧ readers n = some r := by
  rw [openTree] at h
  split at h
  · cases h
  · rename_i m' hm'
    obtain ⟨hall, heq⟩ := Option.ite_none_right_eq_some.mp h
    cases heq
    refine ⟨hm', fun n hn => ?_⟩
    have hmem := Version.mem_fileNums.mpr hn
    obtain ⟨r, hr⟩ := Option.ne_none_iff_exists'.mp (hall n hmem)
    obtain ⟨f, hf, hopen⟩ := Option.bind_eq_some_iff.mp hr
    refine ⟨f, r, hf, ?_, (if_pos hmem).trans hr⟩
    cases hfr : fmt.openReader f with
    | error e => simp [hfr, Except.toOption] at hopen
    | ok r' => simpa [hfr, Except.toOption] using hopen

/-- `NewLSMTree` on a directory whose live files can be opened. -/
theorem openTree_eq (hm : openManifest manifest = .ok m)
    (hopen : ∀ n, m.current.Live n → openTable files n ≠ none) :
    openTree files manifest =
      some (m, fun n => if n ∈ m.current.fileNums then openTable files n else none) := by
  rw [openTree, hm]
  exact if_pos fun n hn => hopen n (Version.mem_fileNums.mp hn)

/-- **An opened store** answers what its tree holds. -/
theorem storeInv_openStore {batches : List Batch} {maxSize : ℤ}
    (h : openStore files manifest batches maxSize = some s) : StoreInv s.treeGet s := by
  obtain ⟨⟨m, readers⟩, hp, rfl⟩ := Option.map_eq_some_iff.mp h
  obtain ⟨hm, hdisk⟩ := openTree_spec hp
  exact storeInv_start (openManifest_spec hm).2 hdisk batches maxSize

end Store

end Stratum.Db
