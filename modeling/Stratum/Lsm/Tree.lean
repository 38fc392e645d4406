import Stratum.Lib.Run
import Stratum.Lsm.Compaction

/-!
# The tree as a machine

`Tree` is an `LSMTree` with its directory: the SSTables, the manifest, the open readers, the stall
flag and the channel to the compaction loop. Its steps are those of `Flush`, of one round of
`doCompaction`, of `Get`, and of a session as a whole.

* **Flush** waits for a stall to end, draws a file number and creates the file; writes it, opens
  and registers a reader; applies the edit; looks at the stall condition; and tells the compaction
  loop.
* **Compaction** picks on the current version, opens its inputs and merges them entry by entry
  into new tables, one step for each round of the loop; applies the edit; removes the inputs from
  the disk; exchanges the readers; and releases the stall. What happens between two of these steps
  is up to the others.
* **A lookup** takes the version, and later searches it with the readers that are then open.
* **A session** begins with `NewLSMTree` and ends with `Close` or with the death of the process,
  which keeps the files and nothing else. An `Apply` may fail, or the process die in it, after any
  number of bytes.

Reading a table back is where errors of the disk enter: an iterator may stop early with an error
that its user does not ask for, so `compactOpen` says after how many entries each input stops.
Tables are read when the compaction opens them; that is when they are read in the source as long
as nothing overwrites them.
-/

namespace Stratum.Lsm

open Memtable Sstable

/-- How far `Flush` has come with a table. -/
inductive FlushPc
  | idle
  | waiting (es : List Entry)
  /-- past `WaitForStall` -/
  | passed (es : List Entry)
  | created (num : ℕ) (es : List Entry)
  | registered (num : ℕ) (es : List Entry)
  /-- the edit is applied, the stall condition not yet looked at -/
  | applied
  | checked
deriving DecidableEq, Repr

/-- How far the compaction loop has come. -/
inductive CompactPc
  /-- waiting on the channel -/
  | idle
  /-- about to pick -/
  | looping
  | picked (c : Compaction) (maxOccupied : ℕ)
  /-- in the loop of `Execute` -/
  | executing (c : Compaction) (maxOccupied : ℕ) (x : Exec)
  /-- all outputs are closed -/
  | finished (c : Compaction) (added : List FileMetadata)
  /-- the edit is applied, these inputs are still on the disk -/
  | removing (c : Compaction) (dfs : List DeletedFile)
  /-- the readers are exchanged -/
  | swapped (c : Compaction)
deriving DecidableEq, Repr

/-- How far a lookup has come. -/
inductive LookupPc (E : Type)
  | idle
  | snapped (key : Bytes) (v : Version)
  | done (key : Bytes) (result : Except E (Option (Option Bytes)))

/-- `LSMTree` and its directory. `contents` is what was added to each table by the time it was
closed, and `found` the version that the session started with; the program keeps neither. -/
structure Tree (fmt : TableFormat) where
  files : ℕ → Option fmt.File
  manifest : Manifest
  readers : ℕ → Option fmt.Reader
  opened : Bool
  stalled : Bool
  compactCh : Bool
  flush : FlushPc
  compact : CompactPc
  lookups : ℕ → LookupPc fmt.Err
  contents : ℕ → List Entry
  found : Version

/-- The steps of the tree. -/
inductive TreeAct
  | openTree
  | close
  | kill
  | flushCall (mt : MemTable)
  | flushPass
  | flushCreate
  | flushRegister
  | flushApply
  | flushTorn (n : ℕ)
  | flushErr
  | flushCheck
  | flushSend
  | compactRecv
  | compactPick
  | compactOpen (cuts : ℕ → Option ℕ)
  | compactNext (minActive : UInt64)
  | compactFinish
  | compactApply
  | compactTorn (n : ℕ)
  | compactErr
  | compactRemove (ok : Bool)
  | compactSwap
  | compactSwapErr (failed : List ℕ)
  | compactRelease
  | getVersion (c : ℕ) (key : Bytes)
  | getSearch (c : ℕ)
  | getEnd (c : ℕ)

/-- The numbers of the files of a version. -/
def Version.fileNums (v : Version) : List ℕ :=
  (List.range maxLevels).flatMap fun level => (v.levels level).map FileMetadata.fileNum

theorem Version.mem_fileNums {v : Version} {n : ℕ} : n ∈ v.fileNums ↔ v.Live n := by
  simp [fileNums, Live]

/-- The first and the last key of a table, nil when it is empty. -/
def firstKey (es : List Entry) : Bytes := (es.head?.map Prod.fst).getD []

def lastKeyOf (es : List Entry) : Bytes := (es.getLast?.map Prod.fst).getD []

/-- The metadata of a table of these entries: what `Flush` records for its table, and `Execute`
for each of its outputs. -/
def tableFile (fmt : TableFormat) (level num : ℕ) (es : List Entry) : FileMetadata where
  level := level
  fileNum := num
  fileSize := fmt.size (fmt.write es)
  smallestKey := firstKey es
  largestKey := lastKeyOf es
  numEntries := es.length

/-- The edit of a flush. -/
def flushEdit (f : FileMetadata) : VersionEdit := ⟨[f], [], 0⟩

/-- The edit of a flush can always be applied, and says nothing of the counter. -/
theorem Manifest.apply_flushEdit (m : Manifest) {f : FileMetadata} (hf : f.level = 0) :
    m.apply (flushEdit f) =
      some ⟨m.file ++ (flushEdit f).frame, m.current.edit (flushEdit f), m.nextFileNum⟩ := by
  have hrange : (flushEdit f).InRange := by simp [VersionEdit.InRange, flushEdit, hf, maxLevels]
  rw [apply, applyEditToMemory, if_pos hrange]
  simp [flushEdit]

namespace Tree

variable {fmt : TableFormat}

/-- The current version. -/
abbrev version (t : Tree fmt) : Version := t.manifest.current

/-- `LSMTree.Get`, when nothing comes between the version and the search. -/
def get (t : Tree fmt) (key : Bytes) : Except fmt.Err (Option (Option Bytes)) :=
  t.version.get t.readers fmt.get key

/-- `OpenReader` on the file of a number. -/
def openTable (t : Tree fmt) (num : ℕ) : Option fmt.Reader :=
  (t.files num).bind fun file => (fmt.openReader file).toOption

/-- A new table: its number is drawn, and the file of that number created or truncated. -/
@[simps]
def createTable (t : Tree fmt) : Tree fmt :=
  { t with
    files := Function.update t.files t.manifest.nextFileNum (some fmt.created)
    manifest := t.manifest.draw }

/-- A table is complete on disk. -/
@[simps]
def closeTable (t : Tree fmt) (num : ℕ) (es : List Entry) : Tree fmt :=
  { t with
    files := Function.update t.files num (some (fmt.write es))
    contents := Function.update t.contents num es }

/-- `CheckWriteStall`. -/
@[simps]
def checkWriteStall (t : Tree fmt) (trigger : ℕ) : Tree fmt :=
  { t with stalled := decide (trigger ≤ (t.version.levels 0).length) }

/-- `NewLSMTree`: the manifest is replayed, and every live file must open. -/
def openSession (t : Tree fmt) : Option (Tree fmt) :=
  match openManifest t.manifest.file with
  | .error _ => none
  | .ok m =>
    if ∀ n ∈ m.current.fileNums, t.openTable n ≠ none then
      some { t with
        manifest := m
        readers := fun n => if n ∈ m.current.fileNums then t.openTable n else none
        opened := true
        found := m.current }
    else none

/-- The end of a session: only the files are left. -/
@[simps]
def endSession (t : Tree fmt) : Tree fmt :=
  { t with
    readers := fun _ => none
    opened := false
    stalled := false
    compactCh := false
    flush := .idle
    compact := .idle
    lookups := fun _ => .idle }

/-! ### The rounds of `Execute` -/

/-- What the iterator of an opened input passes: all entries, or the first `n` and then an error. -/
def passed (r : fmt.Reader) : Option ℕ → List Entry
  | none => fmt.iterate r
  | some n => (fmt.iterate r).take n

/-- Open the inputs; `none` when one of them cannot be opened. -/
def openInputs (t : Tree fmt) (inputs : List FileMetadata) : Option (List fmt.Reader) :=
  inputs.mapM fun f => t.openTable f.fileNum

/-- What the iterators over the opened inputs pass. -/
def streams (rs : List fmt.Reader) (cuts : ℕ → Option ℕ) : List (List Entry) :=
  rs.zipIdx.map fun p => passed p.1 (cuts p.2)

/-- The open table of the loop, begun if there is none. -/
def currentTable (t : Tree fmt) (x : Exec) (key : Bytes) : Tree fmt × Exec × List Entry :=
  match x.currentWriter with
  | some es => (t, x, es)
  | none => (t.createTable, x.create t.manifest.nextFileNum key, [])

/-- An entry is added, and the table closed when it has reached its size. -/
def addEntry (t : Tree fmt) (x : Exec) (es : List Entry) (e : Entry) (outputLevel target : ℕ) :
    Tree fmt × Exec :=
  let x := x.write es e
  if target ≤ x.currentSize then
    (t.closeTable x.currentFileNum (es ++ [e]),
      (x.finish outputLevel (fmt.size (fmt.write (es ++ [e])))).setLargest)
  else (t, x)

/-- An entry that is kept. -/
def keepEntry (t : Tree fmt) (x : Exec) (e : Entry) (outputLevel target : ℕ) : Tree fmt × Exec :=
  let (t, x, es) := t.currentTable x e.1
  t.addEntry x es e outputLevel target

/-- One round of the loop. -/
def nextEntry (t : Tree fmt) (c : Compaction) (maxOccupied : ℕ) (x : Exec) (e : Entry)
    (rest : List Entry) (minActive : UInt64) : Tree fmt × Exec :=
  let (gc, keep) := gcStep c.outputLevel maxOccupied minActive x.gc e
  let x := { x with rest := rest, gc := gc }
  if keep then t.keepEntry x e c.outputLevel (targetSize 1) else (t, x)

/-- After the loop: the last table is closed, and the largest key of the last file set. -/
def finishLoop (t : Tree fmt) (c : Compaction) (x : Exec) : Tree fmt × Exec :=
  match x.currentWriter with
  | none => (t, x.setLargest)
  | some es =>
    (t.closeTable x.currentFileNum es,
      (x.finish c.outputLevel (fmt.size (fmt.write es))).setLargest)

/-- The readers after a compaction: those of the inputs are closed, and the files of the output
level that have none are opened. -/
def swapReaders (t : Tree fmt) (c : Compaction) (n : ℕ) : Option fmt.Reader :=
  match if n ∈ c.inputs.map FileMetadata.fileNum then none else t.readers n with
  | some r => some r
  | none =>
    if n ∈ (t.version.levels c.outputLevel).map FileMetadata.fileNum then t.openTable n else none

/-- The same when `OpenReader` fails on some files for another reason than their bytes. That error
is only logged, and the files stay without a reader. -/
def swapReadersErr (t : Tree fmt) (c : Compaction) (failed : List ℕ) (n : ℕ) : Option fmt.Reader :=
  if n ∈ failed then
    if n ∈ c.inputs.map FileMetadata.fileNum then none else t.readers n
  else t.swapReaders c n

/-! ### Steps -/

/-- The part of a step that belongs to `Flush`; `trigger` is `L0StallTrigger`. -/
def flushStep (trigger : ℕ) (t : Tree fmt) : TreeAct → Option (Tree fmt)
  | .flushCall mt =>
    match t.flush with
    | .idle => some { t with flush := .waiting mt.entries }
    | _ => none
  | .flushPass =>
    match t.flush, t.stalled with
    | .waiting es, false => some { t with flush := .passed es }
    | _, _ => none
  | .flushCreate =>
    match t.flush with
    | .passed es => some { t.createTable with flush := .created t.manifest.nextFileNum es }
    | _ => none
  | .flushRegister =>
    match t.flush with
    | .created num es =>
      match fmt.openReader (fmt.write es) with
      | .error _ => none
      | .ok r => some { t.closeTable num es with
          readers := Function.update t.readers num (some r)
          flush := .registered num es }
    | _ => none
  | .flushApply =>
    match t.flush with
    | .registered num es =>
      (t.manifest.apply (flushEdit (tableFile fmt 0 num es))).map fun m =>
        { t with manifest := m, flush := .applied }
    | _ => none
  | .flushTorn n =>
    match t.flush with
    | .registered num es =>
      some { t with
        manifest := t.manifest.applyTorn (flushEdit (tableFile fmt 0 num es)) n
        flush := .idle }
    | _ => none
  | .flushErr =>
    match t.flush with
    | .passed _ | .created _ _ => some { t with flush := .idle }
    | _ => none
  | .flushCheck =>
    match t.flush with
    | .applied => some { t.checkWriteStall trigger with flush := .checked }
    | _ => none
  | .flushSend =>
    match t.flush with
    | .checked => some { t with compactCh := true, flush := .idle }
    | _ => none
  | _ => none

/-- The part of a step that belongs to the compaction loop. -/
def compactStep (trigger : ℕ) (t : Tree fmt) : TreeAct → Option (Tree fmt)
  | .compactRecv =>
    match t.compact, t.compactCh with
    | .idle, true => some { t with compactCh := false, compact := .looping }
    | _, _ => none
  | .compactPick =>
    match t.compact with
    | .looping =>
      match pickCompaction t.version with
      | none => some { t with compact := .idle }
      | some c => some { t with compact := .picked c (maxOccupiedLevel t.version) }
    | _ => none
  | .compactOpen cuts =>
    match t.compact with
    | .picked c occ =>
      -- nothing to do without source files: `Execute` returns at once
      if c.inputFiles.1 = [] then some { t with compact := .removing c [] }
      else (t.openInputs c.inputs).map fun rs =>
        { t with compact := .executing c occ (.start (merge (streams rs cuts))) }
    | _ => none
  | .compactNext minActive =>
    match t.compact with
    | .executing c occ x =>
      match x.rest with
      | [] => none
      | e :: rest =>
        let (t', x') := t.nextEntry c occ x e rest minActive
        some { t' with compact := .executing c occ x' }
    | _ => none
  | .compactFinish =>
    match t.compact with
    | .executing c _ x =>
      match x.rest with
      | [] =>
        let (t', x') := t.finishLoop c x
        some { t' with compact := .finished c x'.addedFiles }
      | _ => none
    | _ => none
  | .compactApply =>
    match t.compact with
    | .finished c added =>
      (t.manifest.apply (compactionEdit c added)).map fun m =>
        { t with manifest := m, compact := .removing c (compactionEdit c added).deletedFiles }
    | _ => none
  | .compactTorn n =>
    match t.compact with
    | .finished c added =>
      some { t with
        manifest := t.manifest.applyTorn (compactionEdit c added) n
        compact := .looping }
    | _ => none
  | .compactErr =>
    match t.compact with
    | .picked _ _ | .executing _ _ _ => some { t with compact := .looping }
    | _ => none
  | .compactRemove ok =>
    match t.compact with
    | .removing c (df :: dfs) =>
      some { t with
        files := if ok then Function.update t.files df.fileNum none else t.files
        compact := .removing c dfs }
    | _ => none
  | .compactSwap =>
    match t.compact with
    | .removing c [] => some { t with readers := t.swapReaders c, compact := .swapped c }
    | _ => none
  | .compactSwapErr failed =>
    match t.compact with
    | .removing c [] =>
      some { t with readers := t.swapReadersErr c failed, compact := .swapped c }
    | _ => none
  | .compactRelease =>
    match t.compact with
    | .swapped _ => some { t.checkWriteStall trigger with compact := .looping }
    | _ => none
  | _ => none

/-- The part of a step that belongs to a lookup. -/
def lookupStep (t : Tree fmt) : TreeAct → Option (Tree fmt)
  | .getVersion c key =>
    match t.lookups c with
    | .idle => some { t with lookups := Function.update t.lookups c (.snapped key t.version) }
    | _ => none
  | .getSearch c =>
    match t.lookups c with
    | .snapped key v =>
      some { t with
        lookups := Function.update t.lookups c (.done key (v.get t.readers fmt.get key)) }
    | _ => none
  | .getEnd c =>
    match t.lookups c with
    | .done _ _ => some { t with lookups := Function.update t.lookups c .idle }
    | _ => none
  | _ => none

/-- What a step does; `none` when it is not enabled. -/
def step (trigger : ℕ) (t : Tree fmt) : TreeAct → Option (Tree fmt)
  | .openTree => if t.opened then none else t.openSession
  | .close =>
    if t.opened ∧ t.flush = .idle ∧ t.compact = .idle then some t.endSession else none
  | .kill => if t.opened then some t.endSession else none
  | a =>
    if t.opened then
      (t.flushStep trigger a).or ((t.compactStep trigger a).or (t.lookupStep a))
    else none

/-- A directory in which no session is open. -/
def closed (files : ℕ → Option fmt.File) (contents : ℕ → List Entry) (manifest : Bytes) :
    Tree fmt where
  files := files
  manifest := ⟨manifest, .empty, 1⟩
  readers := fun _ => none
  opened := false
  stalled := false
  compactCh := false
  flush := .idle
  compact := .idle
  lookups := fun _ => .idle
  contents := contents
  found := .empty

/-! ### What a step can do -/

/-- The transitions of `Flush`. -/
inductive FlushStep (trigger : ℕ) (t : Tree fmt) : TreeAct → Tree fmt → Prop
  | call {mt} (h : t.flush = .idle) :
      FlushStep trigger t (.flushCall mt) { t with flush := .waiting mt.entries }
  | pass {es} (h : t.flush = .waiting es) (hs : t.stalled = false) :
      FlushStep trigger t .flushPass { t with flush := .passed es }
  | create {es} (h : t.flush = .passed es) :
      FlushStep trigger t .flushCreate
        { t.createTable with flush := .created t.manifest.nextFileNum es }
  | register {num es r} (h : t.flush = .created num es)
      (hr : fmt.openReader (fmt.write es) = .ok r) :
      FlushStep trigger t .flushRegister { t.closeTable num es with
        readers := Function.update t.readers num (some r)
        flush := .registered num es }
  | apply {num es m} (h : t.flush = .registered num es)
      (hm : t.manifest.apply (flushEdit (tableFile fmt 0 num es)) = some m) :
      FlushStep trigger t .flushApply { t with manifest := m, flush := .applied }
  | torn {num es n} (h : t.flush = .registered num es) :
      FlushStep trigger t (.flushTorn n) { t with
        manifest := t.manifest.applyTorn (flushEdit (tableFile fmt 0 num es)) n
        flush := .idle }
  | err {es} (h : t.flush = .passed es ∨ ∃ num, t.flush = .created num es) :
      FlushStep trigger t .flushErr { t with flush := .idle }
  | check (h : t.flush = .applied) :
      FlushStep trigger t .flushCheck { t.checkWriteStall trigger with flush := .checked }
  | send (h : t.flush = .checked) :
      FlushStep trigger t .flushSend { t with compactCh := true, flush := .idle }

/-- The transitions of the compaction loop. -/
inductive CompactStep (trigger : ℕ) (t : Tree fmt) : TreeAct → Tree fmt → Prop
  | recv (h : t.compact = .idle) (hch : t.compactCh = true) :
      CompactStep trigger t .compactRecv { t with compactCh := false, compact := .looping }
  | pickNone (h : t.compact = .looping) (hp : pickCompaction t.version = none) :
      CompactStep trigger t .compactPick { t with compact := .idle }
  | pick {c} (h : t.compact = .looping) (hp : pickCompaction t.version = some c) :
      CompactStep trigger t .compactPick
        { t with compact := .picked c (maxOccupiedLevel t.version) }
  | openNone {c occ cuts} (h : t.compact = .picked c occ) (he : c.inputFiles.1 = []) :
      CompactStep trigger t (.compactOpen cuts) { t with compact := .removing c [] }
  | openInputs {c occ cuts rs} (h : t.compact = .picked c occ) (he : c.inputFiles.1 ≠ [])
      (hrs : t.openInputs c.inputs = some rs) :
      CompactStep trigger t (.compactOpen cuts)
        { t with compact := .executing c occ (.start (merge (streams rs cuts))) }
  | next {c occ x e rest minActive t' x'} (h : t.compact = .executing c occ x)
      (hx : x.rest = e :: rest) (hn : t.nextEntry c occ x e rest minActive = (t', x')) :
      CompactStep trigger t (.compactNext minActive)
        { t' with compact := .executing c occ x' }
  | finish {c occ x t' x'} (h : t.compact = .executing c occ x) (hx : x.rest = [])
      (hn : t.finishLoop c x = (t', x')) :
      CompactStep trigger t .compactFinish { t' with compact := .finished c x'.addedFiles }
  | apply {c added m} (h : t.compact = .finished c added)
      (hm : t.manifest.apply (compactionEdit c added) = some m) :
      CompactStep trigger t .compactApply
        { t with manifest := m, compact := .removing c (compactionEdit c added).deletedFiles }
  | torn {c added n} (h : t.compact = .finished c added) :
      CompactStep trigger t (.compactTorn n) { t with
        manifest := t.manifest.applyTorn (compactionEdit c added) n
        compact := .looping }
  | err {c occ} (h : t.compact = .picked c occ ∨ ∃ x, t.compact = .executing c occ x) :
      CompactStep trigger t .compactErr { t with compact := .looping }
  | remove {c df dfs ok} (h : t.compact = .removing c (df :: dfs)) :
      CompactStep trigger t (.compactRemove ok) { t with
        files := if ok then Function.update t.files df.fileNum none else t.files
        compact := .removing c dfs }
  | swap {c} (h : t.compact = .removing c []) :
      CompactStep trigger t .compactSwap
        { t with readers := t.swapReaders c, compact := .swapped c }
  | swapErr {c failed} (h : t.compact = .removing c []) :
      CompactStep trigger t (.compactSwapErr failed)
        { t with readers := t.swapReadersErr c failed, compact := .swapped c }
  | release {c} (h : t.compact = .swapped c) :
      CompactStep trigger t .compactRelease { t.checkWriteStall trigger with compact := .looping }

/-- The transitions of a lookup. -/
inductive LookupStep (t : Tree fmt) : TreeAct → Tree fmt → Prop
  | version {c key} (h : t.lookups c = .idle) :
      LookupStep t (.getVersion c key)
        { t with lookups := Function.update t.lookups c (.snapped key t.version) }
  | search {c key v} (h : t.lookups c = .snapped key v) :
      LookupStep t (.getSearch c) { t with
        lookups := Function.update t.lookups c (.done key (v.get t.readers fmt.get key)) }
  | stop {c key r} (h : t.lookups c = .done key r) :
      LookupStep t (.getEnd c) { t with lookups := Function.update t.lookups c .idle }

/-- The transitions of the tree. -/
inductive Step (trigger : ℕ) (t : Tree fmt) : TreeAct → Tree fmt → Prop
  | openTree {t'} (h : t.opened = false) (ho : t.openSession = some t') :
      Step trigger t .openTree t'
  | close (h : t.opened = true) (hf : t.flush = .idle) (hc : t.compact = .idle) :
      Step trigger t .close t.endSession
  | kill (h : t.opened = true) : Step trigger t .kill t.endSession
  | flush {a t'} (h : t.opened = true) (hs : FlushStep trigger t a t') : Step trigger t a t'
  | compact {a t'} (h : t.opened = true) (hs : CompactStep trigger t a t') : Step trigger t a t'
  | lookup {a t'} (h : t.opened = true) (hs : LookupStep t a t') : Step trigger t a t'

variable {trigger : ℕ} {t t' : Tree fmt} {a : TreeAct}

theorem flushStep_cases (h : t.flushStep trigger a = some t') : FlushStep trigger t a t' := by
  cases a with
  | flushCall | flushPass | flushCreate | flushTorn | flushCheck | flushSend =>
    simp only [flushStep] at h
    split at h <;> cases h
    constructor <;> assumption
  | flushRegister =>
    simp only [flushStep] at h
    split at h
    · split at h <;> cases h
      exact .register ‹_› ‹_›
    · cases h
  | flushApply =>
    simp only [flushStep] at h
    split at h
    · obtain ⟨m, hm, rfl⟩ := Option.map_eq_some_iff.mp h
      exact .apply ‹_› hm
    · cases h
  | flushErr =>
    simp only [flushStep] at h
    split at h <;> cases h
    · exact .err (.inl ‹_›)
    · exact .err (.inr ⟨_, ‹_›⟩)
  | _ => cases h

theorem compactStep_cases (h : t.compactStep trigger a = some t') :
    CompactStep trigger t a t' := by
  cases a with
  | compactRecv | compactTorn | compactRemove | compactSwap | compactSwapErr | compactRelease =>
    simp only [compactStep] at h
    split at h <;> cases h
    constructor <;> assumption
  | compactPick =>
    simp only [compactStep] at h
    split at h
    · split at h <;> cases h
      · exact .pickNone ‹_› ‹_›
      · exact .pick ‹_› ‹_›
    · cases h
  | compactOpen cuts =>
    simp only [compactStep] at h
    split at h
    · split at h
      · cases h
        exact .openNone ‹_› ‹_›
      · obtain ⟨rs, hrs, rfl⟩ := Option.map_eq_some_iff.mp h
        exact .openInputs ‹_› ‹_› hrs
    · cases h
  | compactNext | compactFinish =>
    simp only [compactStep] at h
    split at h
    · split at h <;> cases h
      constructor <;> first | assumption | rfl
    · cases h
  | compactApply =>
    simp only [compactStep] at h
    split at h
    · obtain ⟨m, hm, rfl⟩ := Option.map_eq_some_iff.mp h
      exact .apply ‹_› hm
    · cases h
  | compactErr =>
    simp only [compactStep] at h
    split at h <;> cases h
    · exact .err (.inl ‹_›)
    · exact .err (.inr ⟨_, ‹_›⟩)
  | _ => cases h

theorem lookupStep_cases (h : t.lookupStep a = some t') : LookupStep t a t' := by
  cases a with
  | getVersion | getSearch | getEnd =>
    simp only [lookupStep] at h
    split at h <;> cases h
    constructor
    assumption
  | _ => cases h

/-- **Inversion**: a step is one of the transitions. -/
theorem step_cases (h : t.step trigger a = some t') : Step trigger t a t' := by
  have hrest : (if t.opened then
      (t.flushStep trigger a).or ((t.compactStep trigger a).or (t.lookupStep a)) else none)
      = some t' → Step trigger t a t' := by
    intro h
    rw [Option.ite_none_right_eq_some, Option.or_eq_some_iff, Option.or_eq_some_iff] at h
    obtain ⟨ho, h | ⟨-, h | ⟨-, h⟩⟩⟩ := h
    · exact .flush ho (flushStep_cases h)
    · exact .compact ho (compactStep_cases h)
    · exact .lookup ho (lookupStep_cases h)
  cases a with
  | openTree =>
    simp only [step] at h
    split at h
    · cases h
    · exact .openTree (by simpa using ‹¬ t.opened = true›) h
  | close =>
    simp only [step] at h
    split at h <;> cases h
    rename_i hc
    exact .close hc.1 hc.2.1 hc.2.2
  | kill =>
    simp only [step] at h
    split at h <;> cases h
    exact .kill ‹_›
  | _ => exact hrest h

/-- Every transition of a flush is a step. -/
theorem FlushStep.step_eq (h : FlushStep trigger t a t') (ho : t.opened = true) :
    t.step trigger a = some t' := by
  have key : t.flushStep trigger a = some t' := by
    cases h with
    | register hf hr | apply hf hr | pass hf hr => simp [flushStep, hf, hr]
    | err hf =>
      rcases hf with hf | ⟨num, hf⟩
      · simp [flushStep, hf]
      · simp [flushStep, hf]
    | call hf | create hf | torn hf | check hf | send hf => simp [flushStep, hf]
  cases h <;> simp [step, ho, key]

/-- Every transition of the compaction loop is a step. -/
theorem CompactStep.step_eq (h : CompactStep trigger t a t') (ho : t.opened = true) :
    t.step trigger a = some t' := by
  have key : t.compactStep trigger a = some t' := by
    cases h with
    | recv hc hch | openNone hc hch | apply hc hch => simp [compactStep, hc, hch]
    | pickNone hc hp | pick hc hp => simp [compactStep, hc, hp]
    | openInputs hc he hrs => simp [compactStep, hc, he, hrs]
    | next hc hx hn | finish hc hx hn => simp [compactStep, hc, hx, hn]
    | err hc =>
      rcases hc with hc | ⟨x, hc⟩
      · simp [compactStep, hc]
      · simp [compactStep, hc]
    | torn hc | remove hc | swap hc | swapErr hc | release hc => simp [compactStep, hc]
  cases h <;> simp [step, ho, flushStep, key]

/-- Every transition of a lookup is a step. -/
theorem LookupStep.step_eq (h : LookupStep t a t') (ho : t.opened = true) :
    t.step trigger a = some t' := by
  cases h with
  | version hl | search hl | stop hl => simp [step, ho, flushStep, compactStep, lookupStep, hl]

end Tree

end Stratum.Lsm
