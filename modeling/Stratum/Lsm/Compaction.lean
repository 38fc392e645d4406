import Stratum.Lib.KWayMerge
import Stratum.Lsm.Manifest
import Stratum.Sstable.TableFormat

/-!
# Choosing and merging

`pickCompaction` is `PickCompaction`: it scores the levels and takes, for level `0`, all its files
and, for a deeper level, its largest file, each time with the files of the next level that overlap.
`merge` is the merge iterator over the inputs, and `gcStep` the rule by which `Execute` drops old
versions of a user key.

`Exec` holds the local variables of the loop of `Execute`, from `currentWriter` to `addedFiles`.
Its transitions are here as far as they do not touch the disk: `write` adds an entry to the open
table and `finish` records a table that was closed.
-/

namespace Stratum.Lsm

open Mvcc Memtable Sstable

/-- `Compaction`: the source level, the files of the two levels, the level of the outputs. -/
structure Compaction where
  level : ℕ
  inputFiles : List FileMetadata × List FileMetadata
  outputLevel : ℕ
deriving DecidableEq, Repr

/-- The input files in the order in which `Execute` opens them. -/
def Compaction.inputs (c : Compaction) : List FileMetadata := c.inputFiles.1 ++ c.inputFiles.2

/-! ### The picker -/

/-- The range that the files of level `0` span together. -/
def keyRange : List FileMetadata → Bytes × Bytes
  | [] => ([], [])
  | f :: fs =>
    fs.foldl (fun range g =>
      (if compareKeys g.smallestKey range.1 = .lt then g.smallestKey else range.1,
        if compareKeys g.largestKey range.2 = .gt then g.largestKey else range.2))
      (f.smallestKey, f.largestKey)

/-- The first of the largest files. -/
def largestFile : List FileMetadata → Option FileMetadata
  | [] => none
  | f :: fs =>
    some (fs.foldl (fun largest g => if g.fileSize > largest.fileSize then g else largest) f)

/-- One round of the loop over the levels. -/
def betterLevel (v : Version) (best : Option ℕ × ℚ) (level : ℕ) : Option ℕ × ℚ :=
  let score := compactionScore level (v.levels level)
  if score > best.2 then (some level, score) else best

/-- The level with the best score, and the score; the levels below the last one are asked. -/
def bestLevel (v : Version) : Option ℕ × ℚ :=
  (List.range (maxLevels - 1)).foldl (betterLevel v) (none, -1)

/-- The compaction of a level. -/
def compactionAt (v : Version) : ℕ → Option Compaction
  | 0 =>
    let range := keyRange (v.levels 0)
    some ⟨0, (v.levels 0, getOverlappingFiles (v.levels 1) range.1 range.2), 1⟩
  | level + 1 =>
    (largestFile (v.levels (level + 1))).map fun f =>
      ⟨level + 1, ([f], getOverlappingFiles (v.levels (level + 2)) f.smallestKey f.largestKey),
        level + 2⟩

/-- `PickCompaction`. -/
def pickCompaction (v : Version) : Option Compaction :=
  if (bestLevel v).2 ≤ 1 then none else (bestLevel v).1.bind (compactionAt v)

/-- `maxOccupiedLevel` of `doCompaction`. -/
def maxOccupiedLevel (v : Version) : ℕ :=
  (List.range maxLevels).foldl (fun occupied level =>
    if v.levels level = [] then occupied else level) 0

/-! ### The merge and the rule for old versions -/

/-- The entries that `MergeIterator` passes over these inputs. -/
def merge (inputs : List (List Entry)) : List Entry := KWayMerge.merge compareKeys inputs

/-- `lastUserKey` and `seenOlderThanMinActive`. -/
structure GcState where
  lastUserKey : Bytes
  seenOlderThanMinActive : Bool
deriving DecidableEq, Repr

/-- One entry against the rule: the new state, and whether the entry is kept. A version older than
`minActive` is kept if it is the first such one of its user key, and if it is not a tombstone that
goes to the deepest occupied level. -/
def gcStep (outputLevel maxOccupied : ℕ) (minActive : UInt64) (st : GcState) (e : Entry) :
    GcState × Bool :=
  let (userKey, ts) := decodeKey e.1
  let st := if userKey = st.lastUserKey then st else ⟨userKey, false⟩
  if ts < minActive then
    if st.seenOlderThanMinActive then (st, false)
    else ({ st with seenOlderThanMinActive := true },
      !(decide (e.2 = none) && decide (maxOccupied ≤ outputLevel)))
  else (st, true)

/-! ### The local variables of `Execute` -/

/-- The loop of `Execute`: what the merge iterator still has to pass, the state of the rule for
old versions, the table being written with what was added to it, and the files finished. -/
structure Exec where
  rest : List Entry
  gc : GcState
  currentWriter : Option (List Entry)
  currentFileNum : ℕ
  currentSmallest : Bytes
  entriesWritten : ℕ
  currentSize : ℕ
  lastKey : Bytes
  addedFiles : List FileMetadata
deriving DecidableEq, Repr

namespace Exec

/-- Before the first round. -/
def start (stream : List Entry) : Exec where
  rest := stream
  gc := ⟨[], false⟩
  currentWriter := none
  currentFileNum := 0
  currentSmallest := []
  entriesWritten := 0
  currentSize := 0
  lastKey := []
  addedFiles := []

/-- A new table is begun under the number. -/
@[simps]
def create (x : Exec) (num : ℕ) (key : Bytes) : Exec :=
  { x with
    currentWriter := some []
    currentFileNum := num
    currentSmallest := key
    entriesWritten := 0
    currentSize := 0 }

/-- `currentWriter.Add`, and the bookkeeping after it. -/
@[simps]
def write (x : Exec) (es : List Entry) (e : Entry) : Exec :=
  { x with
    currentWriter := some (es ++ [e])
    entriesWritten := x.entriesWritten + 1
    currentSize := x.currentSize + (e.1.length + (e.2.getD []).length + 8)
    lastKey := e.1 }

/-- The metadata that `finishCurrentFile` records; the largest key is set by its caller. -/
def metadata (x : Exec) (outputLevel size : ℕ) : FileMetadata where
  level := outputLevel
  fileNum := x.currentFileNum
  fileSize := size
  smallestKey := x.currentSmallest
  largestKey := []
  numEntries := x.entriesWritten

/-- `finishCurrentFile`, for an open table of this size. -/
@[simps]
def finish (x : Exec) (outputLevel size : ℕ) : Exec :=
  { x with
    currentWriter := none
    addedFiles := x.addedFiles ++ [x.metadata outputLevel size] }

/-- Set the largest key of the last file that was added. -/
@[simps]
def setLargest (x : Exec) : Exec :=
  { x with addedFiles := x.addedFiles.dropLast ++
      (x.addedFiles.getLast?.map fun f => { f with largestKey := x.lastKey }).toList }

end Exec

/-- The edit of a compaction: the outputs are added, the inputs deleted, each at its level. -/
def compactionEdit (c : Compaction) (added : List FileMetadata) : VersionEdit where
  addedFiles := added
  deletedFiles := c.inputFiles.1.map (fun f => ⟨c.level, f.fileNum⟩)
    ++ c.inputFiles.2.map (fun f => ⟨c.level + 1, f.fileNum⟩)
  nextFileNum := 0

end Stratum.Lsm
