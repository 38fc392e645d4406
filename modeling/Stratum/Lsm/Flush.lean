import Stratum.Lsm.Tree
import Stratum.Sstable.Table

/-!
# A flush that nothing disturbs

`Tree.fresh` is the tree that a session on an empty directory starts with. `Tree.flushTable mt` are
the steps of a `Flush` of one table when no error occurs, and `Tree.Flushed` is what they lead to:
the table is on disk under the next file number, a reader on it is open, the manifest has it as its
newest file of level `0`, and the compaction loop is told.
-/

namespace Stratum.Lsm.Tree

open Memtable Sstable

variable {fmt : TableFormat} {trigger : ℕ} {t t' : Tree fmt} {mt : MemTable} {r : fmt.Reader}

/-- The empty tree: what `NewLSMTree` makes of an empty directory. -/
def fresh (fmt : TableFormat) : Tree fmt :=
  { closed (fun _ => none) (fun _ => []) [] with opened := true }

theorem openTree_closed_empty :
    (closed (fun _ => none) (fun _ => []) [] : Tree fmt).step trigger .openTree
      = some (fresh fmt) := by
  have hnums : Version.empty.fileNums = [] := rfl
  simp [step, openSession, closed, openManifest, replayEdits, hnums, fresh]

/-- A frozen table of one entry. -/
def single (e : Entry) : MemTable := ⟨SkipList.empty.put e.1 e.2 1, 1, true⟩

@[simp] theorem entries_single (e : Entry) : (single e).entries = [e] := rfl

/-- The steps of a flush. -/
def flushTable (mt : MemTable) : List TreeAct :=
  [.flushCall mt, .flushPass, .flushCreate, .flushRegister, .flushApply, .flushCheck, .flushSend]

/-- The metadata that a flush records. -/
def flushedFile (t : Tree fmt) (mt : MemTable) : FileMetadata :=
  tableFile fmt 0 t.manifest.nextFileNum mt.entries

/-- What a flush leads to; `r` is the reader on the new table. -/
structure Flushed (t : Tree fmt) (mt : MemTable) (r : fmt.Reader) (t' : Tree fmt) : Prop where
  files : t'.files = Function.update t.files t.manifest.nextFileNum (some (fmt.write mt.entries))
  contents : t'.contents = Function.update t.contents t.manifest.nextFileNum mt.entries
  readers : t'.readers = Function.update t.readers t.manifest.nextFileNum (some r)
  version : t'.version = t.version.edit (flushEdit (t.flushedFile mt))
  counter : t'.manifest.nextFileNum = t.manifest.nextFileNum + 1
  file : t'.manifest.file = t.manifest.file ++ (flushEdit (t.flushedFile mt)).frame
  opened : t'.opened = true
  flush : t'.flush = .idle
  compact : t'.compact = t.compact
  compactCh : t'.compactCh = true
  lookups : t'.lookups = t.lookups

/-- The edit of a flush is applied. -/
theorem apply_flushEdit (t : Tree fmt) (mt : MemTable) :
    t.manifest.draw.apply (flushEdit (t.flushedFile mt)) = some
      ⟨t.manifest.file ++ (flushEdit (t.flushedFile mt)).frame,
        t.version.edit (flushEdit (t.flushedFile mt)), t.manifest.nextFileNum + 1⟩ :=
  Manifest.apply_flushEdit _ rfl

/-- **A flush that nothing disturbs** puts its table into the tree. -/
theorem run_flushTable (ho : t.opened = true) (hf : t.flush = .idle) (hs : t.stalled = false)
    (hr : fmt.openReader (fmt.write mt.entries) = .ok r) :
    ∃ t', Machine.run (step trigger) t (flushTable mt) = some t' ∧ t.Flushed mt r t' := by
  refine ⟨_, Machine.run_cons_eq_some.mpr ⟨_, FlushStep.step_eq (.call hf) ho,
    Machine.run_cons_eq_some.mpr ⟨_, FlushStep.step_eq (.pass rfl hs) ho,
    Machine.run_cons_eq_some.mpr ⟨_, FlushStep.step_eq (.create rfl) ho,
    Machine.run_cons_eq_some.mpr ⟨_, FlushStep.step_eq (.register rfl hr) ho,
    Machine.run_cons_eq_some.mpr ⟨_, FlushStep.step_eq (.apply rfl (apply_flushEdit t mt)) ho,
    Machine.run_cons_eq_some.mpr ⟨_, FlushStep.step_eq (.check rfl) ho,
    Machine.run_cons_eq_some.mpr ⟨_, FlushStep.step_eq (.send rfl) ho, rfl⟩⟩⟩⟩⟩⟩⟩, ?_⟩
  exact
    { files := Function.update_idem _ _ _
      contents := rfl
      readers := rfl
      version := rfl
      counter := rfl
      file := rfl
      opened := ho
      flush := rfl
      compact := rfl
      compactCh := rfl
      lookups := rfl }

/-- Five flushes, and a compaction of their tables up to its edit. -/
def compactFive : List TreeAct :=
  ([1, 2, 3, 4, 5].flatMap fun k => flushTable (single ([k], some [1]))) ++
    [.compactRecv, .compactPick, .compactOpen fun _ => none] ++
    List.replicate 5 (.compactNext 0) ++ [.compactFinish, .compactApply]

/-- And a sixth flush up to its own edit. -/
def flushAndCompact : List TreeAct := compactFive ++ (flushTable (single ([6], some [1]))).take 4

/-- The five tables are one table of level `1` then, and still to be removed. -/
theorem exists_flushAndCompact : ∃ t,
    Machine.run (step 8) (fresh Config.noFilter.format) flushAndCompact = some t ∧
      (t.version.levels 1).length = 1 ∧ t.flush = .registered 7 [([6], some [1])] ∧
      t.compact matches .removing _ (_ :: _) := by
  have hrun : (Machine.run (step 8) (fresh Config.noFilter.format) flushAndCompact).any fun t =>
      decide ((t.version.levels 1).length = 1 ∧ t.flush = .registered 7 [([6], some [1])] ∧
        t.compact matches .removing _ (_ :: _)) := by
    decide +kernel
  obtain ⟨t, ht, h⟩ := (Option.any_eq_true _ _).1 hrun
  exact ⟨t, ht, of_decide_eq_true h⟩

end Stratum.Lsm.Tree
