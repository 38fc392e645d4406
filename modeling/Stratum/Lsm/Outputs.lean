import Stratum.Lsm.Picker
import Stratum.Lsm.Pruning
import Stratum.Sstable.RoundTrip

/-!
# One run of `Execute`

`Tree.execute` is `Execute` from its inputs to the edit that it applies: it opens the inputs, takes
the merged stream entry by entry and cuts what it keeps at the target size, which may be **any**
number, `0` included. `minActiveSnapshot` is asked again for every entry.

* `Tree.Tables.executeLoop` is the run lemma: whatever the answers are, the tables hold, one after
  the other, what the rule for old versions keeps. `Tree.run_executeLoop` is the same loop as steps
  of the compaction thread.
* `Tree.execute_bookkeeping` is the metadata of the tables, where they were cut, and what the edit
  deletes.
* `Tree.executeLoop_prunes`: the answers may only grow, and a snapshot from the last one on gets the
  same version **from the tables as from the stream**, or none where that version is a tombstone
  for the deepest level.
-/

namespace Stratum.Lsm

open Mvcc Memtable Sstable
open scoped Versions

/-- The entries of a stream, each with what `minActiveSnapshot` answers for it. -/
def answered (answers : ℕ → UInt64) (stream : List Entry) : List (Entry × UInt64) :=
  stream.zipIdx.map fun p => (p.1, answers p.2)

namespace Tree

variable {fmt : TableFormat}

/-- The loop of `Execute` over what is left of the stream, and the end of the last table. -/
def executeLoop (target : ℕ) (c : Compaction) (maxOccupied : ℕ) :
    Tree fmt → Exec → List (Entry × UInt64) → Tree fmt × Exec
  | t, x, [] => t.finishLoop c x
  | t, x, (e, minActive) :: stream =>
    let (t, x) := t.nextEntryTo target c maxOccupied x e (stream.map Prod.fst) minActive
    executeLoop target c maxOccupied t x stream

/-- `Execute`, up to the edit that it applies; `none` when there is nothing to compact or an input
cannot be opened. -/
def execute (t : Tree fmt) (target : ℕ) (c : Compaction) (maxOccupied : ℕ)
    (answers : ℕ → UInt64) : Option (Tree fmt × VersionEdit) :=
  if c.inputFiles.1 = [] then none
  else
    (t.openInputs c.inputs).map fun rs =>
      let stream := merge (streams rs fun _ => none)
      let (t, x) := t.executeLoop target c maxOccupied (.start stream) (answered answers stream)
      (t, compactionEdit c x.addedFiles)

/-- What was written, table after table. -/
def written (t : Tree fmt) (added : List FileMetadata) : List Entry :=
  added.flatMap fun f => t.contents f.fileNum

/-! ### Where a table is cut -/

/-- The size is below the target from the first entry on. -/
structure Below (target : ℕ) (es : List Entry) : Prop where
  ne_nil : es ≠ []
  lt : ∀ es', es' <+: es → es' ≠ [] → entriesSize es' < target

/-- The size reaches the target at the last entry, and not before. -/
structure ReachesAtLast (target : ℕ) (es : List Entry) : Prop where
  ne_nil : es ≠ []
  le : target ≤ entriesSize es
  lt : ∀ es', es' <+: es → es' ≠ [] → es' ≠ es → entriesSize es' < target

/-- The loop cuts at the first entry that reaches the target. -/
theorem cut_below (target : ℕ) : Cut target (Below target) (ReachesAtLast target) := by
  have hbefore : ∀ {es es' : List Entry}, es = [] ∨ Below target es → es' <+: es → es' ≠ [] →
      entriesSize es' < target := by
    intro es es' hes hpre hne
    rcases hes with rfl | hbelow
    · exact absurd (List.prefix_nil.mp hpre) hne
    · exact hbelow.lt es' hpre hne
  refine ⟨fun h => h.ne_nil, fun h => h.ne_nil, ?_, ?_⟩
  · intro es e hes hlt
    refine ⟨by simp, fun es' hpre hne => ?_⟩
    rcases List.prefix_concat_iff.mp hpre with rfl | hpre
    · exact hlt
    · exact hbefore hes hpre hne
  · intro es e hes hle
    refine ⟨by simp, hle, fun es' hpre hne hlast => ?_⟩
    rcases List.prefix_concat_iff.mp hpre with rfl | hpre
    · exact absurd rfl hlast
    · exact hbefore hes hpre hne

/-! ### The run of the loop -/

variable {t t' : Tree fmt} {target : ℕ} {c : Compaction} {occ : ℕ} {x x' : Exec}
  {kept : List Entry} {cur fin : List Entry → Prop}

/-- **Run lemma**: the tables hold what the rule keeps, in the order of the stream. -/
theorem Tables.executeLoop (hcut : Cut target cur fin) {stream : List (Entry × UInt64)}
    (h : t.Tables cur fin c.outputLevel x kept)
    (hrun : t.executeLoop target c occ x stream = (t', x')) :
    t'.Tables cur (· ≠ []) c.outputLevel x'
        (kept ++ (gcRun c.outputLevel occ x.gc stream).2) ∧
      x'.currentWriter = none ∧ ∀ f ∈ x'.addedFiles.dropLast, fin (t'.contents f.fileNum) := by
  induction stream generalizing t x kept with
  | nil =>
    obtain ⟨htables, -, hclosed, hcuts⟩ := h.finishLoop (fun _ hne => hne)
      (fun _ hfin => hcut.fin_ne_nil hfin) (fun _ hcur => hcut.cur_ne_nil hcur) hrun
    rw [gcRun, List.append_nil]
    exact ⟨htables, hclosed, hcuts⟩
  | cons p stream ih =>
    obtain ⟨e, m⟩ := p
    rcases hnext : t.nextEntryTo target c occ x e (stream.map Prod.fst) m with ⟨u, y⟩
    rw [Tree.executeLoop, hnext] at hrun
    obtain ⟨htables, -, -, hgc⟩ := h.nextEntryTo hcut hnext
    have hrest := ih htables hrun
    rw [hgc, List.append_assoc] at hrest
    rw [gcRun]
    dsimp only
    split at hrest <;> rename_i hkeep
    · rwa [if_pos hkeep]
    · rwa [if_neg hkeep]

/-- The whole loop: what was written is what the rule keeps. -/
theorem written_executeLoop {stream : List (Entry × UInt64)}
    (hrun : t.executeLoop target c occ (.start (stream.map Prod.fst)) stream = (t', x')) :
    t'.written x'.addedFiles = (gcRun c.outputLevel occ ⟨[], false⟩ stream).2 := by
  obtain ⟨htables, hclosed, -⟩ := (t.tables_start _ _ c.outputLevel _).executeLoop
    (cut_below target) hrun
  have hkept := htables.kept_eq
  rw [hclosed, Option.getD_none, List.append_nil, List.nil_append] at hkept
  exact hkept.symm

/-! ### The loop as steps of the tree -/

private theorem addEntry_compact (t : Tree fmt) (pc : CompactPc) (es : List Entry) (e : Entry)
    (out : ℕ) :
    { t with compact := pc }.addEntry x es e out target =
      ({ (t.addEntry x es e out target).1 with compact := pc },
        (t.addEntry x es e out target).2) := by
  by_cases hfull : target ≤ (x.write es e).currentSize
  · simp only [addEntry, if_pos hfull]
    rfl
  · simp only [addEntry, if_neg hfull]

private theorem nextEntryTo_compact (t : Tree fmt) (pc : CompactPc) (e : Entry)
    (rest : List Entry) (m : UInt64) :
    { t with compact := pc }.nextEntryTo target c occ x e rest m =
      ({ (t.nextEntryTo target c occ x e rest m).1 with compact := pc },
        (t.nextEntryTo target c occ x e rest m).2) := by
  simp only [nextEntryTo, keepEntry]
  split
  · rcases hcw : x.currentWriter with _ | es
    · exact addEntry_compact t.createTable pc _ _ _
    · exact addEntry_compact t pc _ _ _
  · rfl

private theorem finishLoop_compact (t : Tree fmt) (pc : CompactPc) :
    { t with compact := pc }.finishLoop c x =
      ({ (t.finishLoop c x).1 with compact := pc }, (t.finishLoop c x).2) := by
  simp only [finishLoop]
  rcases x.currentWriter with _ | es <;> rfl

/-- **The steps of the compaction thread** compute the loop, with the target size of the program,
when no other thread comes between. -/
theorem run_executeLoop {trigger : ℕ} (ho : t.opened = true) {stream : List (Entry × UInt64)}
    (hx : x.rest = stream.map Prod.fst)
    (hrun : t.executeLoop (targetSize 1) c occ x stream = (t', x')) :
    Machine.run (step trigger) { t with compact := .executing c occ x }
        (stream.map (fun p => .compactNext p.2) ++ [.compactFinish]) =
      some { t' with compact := .finished c x'.addedFiles } := by
  induction stream generalizing t x with
  | nil =>
    have hfinish := @finishLoop_compact fmt c x t (.executing c occ x)
    rw [show t.finishLoop c x = (t', x') from hrun] at hfinish
    have hs : CompactStep trigger { t with compact := .executing c occ x } .compactFinish _ :=
      .finish rfl hx hfinish
    exact Machine.run_cons_eq_some.mpr ⟨_, hs.step_eq ho, rfl⟩
  | cons p stream ih =>
    obtain ⟨e, m⟩ := p
    rcases hnext : t.nextEntryTo (targetSize 1) c occ x e (stream.map Prod.fst) m with ⟨u, y⟩
    have hentry := @nextEntryTo_compact fmt (targetSize 1) c occ x t (.executing c occ x) e
      (stream.map Prod.fst) m
    rw [hnext] at hentry
    have hs : CompactStep trigger { t with compact := .executing c occ x } (.compactNext m) _ :=
      .next rfl hx hentry
    rw [executeLoop, hnext] at hrun
    have hopened : u.opened = true := by
      rw [nextEntry_frame hnext]
      exact ho
    have hrest := ih hopened (nextEntryTo_rest hnext).1 hrun
    exact Machine.run_cons_eq_some.mpr ⟨_, hs.step_eq ho, hrest⟩

/-! ### Metadata -/

/-- What the metadata of a table says about its entries and about its file. -/
structure Describes (cfg : Config) (f : FileMetadata) (es : List Entry) (file : Bytes) : Prop where
  ne_nil : es ≠ []
  smallestKey : es.head?.map Prod.fst = some f.smallestKey
  largestKey : es.getLast?.map Prod.fst = some f.largestKey
  numEntries : f.numEntries = es.length
  fileSize : f.fileSize = ((es.foldl (Writer.add cfg) (Writer.new cfg)).closed cfg).size
  length : f.fileSize = file.length

theorem describes_tableFile {cfg : Config} {es : List Entry} (level num : ℕ) (hne : es ≠ []) :
    Describes cfg (tableFile cfg.format level num es) es (cfg.write es) where
  ne_nil := hne
  smallestKey := by
    rw [List.head?_eq_some_head hne]
    simp [tableFile, firstKey, List.head?_eq_some_head hne]
  largestKey := by
    rw [List.getLast?_eq_some_getLast hne]
    simp [tableFile, lastKeyOf, List.getLast?_eq_some_getLast hne]
  numEntries := rfl
  fileSize := (cfg.size_closed es).symm
  length := rfl

/-- **The books of a compaction**: for inputs that can be read, whatever the target size is and
whatever is kept, the tables are not empty and hold what is kept; their metadata is right; every one
but the last was cut where it reached the target; and the inputs are deleted where they are. -/
theorem execute_bookkeeping {cfg : Config} (t : Tree cfg.format) (target : ℕ) (c : Compaction)
    (occ : ℕ) (answers : ℕ → UInt64) {rs : List cfg.format.Reader} (hne : c.inputFiles.1 ≠ [])
    (hrs : t.openInputs c.inputs = some rs) :
    ∃ t' edit, t.execute target c occ answers = some (t', edit) ∧
      t'.written edit.addedFiles = (gcRun c.outputLevel occ ⟨[], false⟩
        (answered answers (merge (streams rs fun _ => none)))).2 ∧
      (∀ f ∈ edit.addedFiles, f.level = c.outputLevel ∧ ∃ file, t'.files f.fileNum = some file ∧
        Describes cfg f (t'.contents f.fileNum) file) ∧
      (∀ f ∈ edit.addedFiles.dropLast, ReachesAtLast target (t'.contents f.fileNum)) ∧
      edit.deletedFiles = c.inputFiles.1.map (fun f => ⟨c.level, f.fileNum⟩)
        ++ c.inputFiles.2.map (fun f => ⟨c.level + 1, f.fileNum⟩) ∧
      ∀ v, pickCompaction v = some c → (∀ f ∈ c.inputFiles.1, f ∈ v.levels c.level) ∧
        ∀ f ∈ c.inputFiles.2, f ∈ v.levels (c.level + 1) := by
  rcases hrun : t.executeLoop target c occ (.start (merge (streams rs fun _ => none)))
    (answered answers (merge (streams rs fun _ => none))) with ⟨t', x⟩
  have hstream : (answered answers (merge (streams rs fun _ => none))).map Prod.fst =
      merge (streams rs fun _ => none) := by
    rw [answered, List.map_map]
    exact List.zipIdx_map_fst 0 _
  obtain ⟨htables, -, hcuts⟩ := (t.tables_start _ _ c.outputLevel _).executeLoop
    (cut_below target) hrun
  refine ⟨t', compactionEdit c x.addedFiles, ?_, ?_, ?_, hcuts, rfl, ?_⟩
  · simp only [execute, if_neg hne, hrs, hrun, Option.map_some]
  · exact written_executeLoop (by rw [hstream]; exact hrun)
  · intro f hf
    obtain ⟨hmeta, hfile⟩ := htables.onDisk f hf
    have hdesc := @describes_tableFile cfg _ c.outputLevel f.fileNum (htables.finished f hf)
    rw [← hmeta] at hdesc
    exact ⟨by rw [hmeta]; rfl, _, hfile, hdesc⟩
  · intro v hpick
    have hpicked := picked_of_pickCompaction hpick
    refine ⟨hpicked.source_mem, fun f hf => ?_⟩
    exact hpicked.target_mem hf

/-- Three versions of two user keys, in one table. -/
def threeVersions : List Entry :=
  [(encodeKey [107] 10, none), (encodeKey [107] 5, some [1]), (encodeKey [109] 3, some [2])]

/-- The compaction of that table. -/
def threeCompaction : Compaction :=
  ⟨0, ([⟨0, 1, 100, encodeKey [107] 10, encodeKey [109] 3, 3⟩], []), 1⟩

def threeTree : Tree Config.plain.format :=
  ofTables Config.plain (.ofFiles threeCompaction.inputs) 2 fun _ => threeVersions

theorem execute_bookkeeping_threeTree :
    ∃ t' edit, threeTree.execute 20 threeCompaction 0 (fun _ => 7) = some (t', edit) ∧
      t'.written edit.addedFiles = threeVersions ∧
      (∀ f ∈ edit.addedFiles.dropLast, ReachesAtLast 20 (t'.contents f.fileNum)) ∧
      edit.deletedFiles = [⟨0, 1⟩] := by
  have hsmall : Config.plain.SmallEntries threeVersions := by
    simp [Config.SmallEntries, threeVersions, Config.plain, encodedLen, defaultBlockSize]
  have hsorted : EntriesSorted threeVersions := by
    rw [EntriesSorted]
    decide +kernel
  obtain ⟨r, hread⟩ : ∃ r, Config.plain.format.Readable threeVersions r :=
    ⟨_, hsmall.readable hsorted (by decide +kernel)⟩
  have hfile : threeTree.files 1 = some (Config.plain.format.write threeVersions) := by
    have hlive : 1 ∈ (Version.ofFiles threeCompaction.inputs).fileNums := by decide +kernel
    exact @if_pos _ _ hlive _ _ none
  have hopens : threeTree.openTable 1 = some r := by
    rw [openTable, hfile, Option.bind_some, hread.opens]
    rfl
  obtain ⟨t', edit, hex, hwritten, -, hcuts, hdeleted, -⟩ :=
    execute_bookkeeping threeTree 20 threeCompaction 0 (fun _ => 7) (by decide)
      (openInputs_eq_some_iff.mpr (.cons hopens .nil))
  refine ⟨t', edit, hex, hwritten.trans ?_, hcuts, hdeleted⟩
  rw [streams, List.zipIdx_singleton, List.map_singleton, passed, hread.iterate_eq]
  decide +kernel

/-! ### What snapshots get -/

section Prune

variable {out : ℕ} {stream : List (Entry × UInt64)} {u : Bytes} {s ts ts' m m' : UInt64}
  {v v' : Option Bytes}

/-- The versions of a user key among these entries. -/
def VersionsIn (es : List Entry) (u : Bytes) (ts : UInt64) (v : Option Bytes) : Prop :=
  (encodeKey u ts, v) ∈ es

/-- Of two places of the stream one comes first, in the order of the keys and of the answers. -/
private theorem places (hsorted : EntriesSorted (stream.map Prod.fst))
    (hanswers : (stream.map Prod.snd).Pairwise (· ≤ ·)) {p q : Entry × UInt64} (hp : p ∈ stream)
    (hq : q ∈ stream) : p = q ∨ (compareKeys p.1.1 q.1.1 = .lt ∧ p.2 ≤ q.2) ∨
      (compareKeys q.1.1 p.1.1 = .lt ∧ q.2 ≤ p.2) := by
  have hboth : stream.Pairwise fun p q => compareKeys p.1.1 q.1.1 = .lt ∧ p.2 ≤ q.2 :=
    (List.pairwise_map.mp hsorted).and (List.pairwise_map.mp hanswers)
  obtain ⟨i, hi, rfl⟩ := List.mem_iff_getElem.mp hp
  obtain ⟨j, hj, rfl⟩ := List.mem_iff_getElem.mp hq
  rcases lt_trichotomy i j with hij | rfl | hij
  · exact .inr (.inl (List.pairwise_iff_getElem.mp hboth i j hi hj hij))
  · exact .inl rfl
  · exact .inr (.inr (List.pairwise_iff_getElem.mp hboth j i hj hi hij))

/-- Below an old version of its user key, an old version is dropped. -/
private theorem not_mem_gcRun_of_lt (hsorted : EntriesSorted (stream.map Prod.fst))
    (hp : ((encodeKey u ts, v), m) ∈ stream) (hold : ts < m) (hlt : ts' < ts)
    (hold' : ∀ m', ((encodeKey u ts', v'), m') ∈ stream → ts' < m') :
    (encodeKey u ts', v') ∉ (gcRun out occ ⟨[], false⟩ stream).2 := by
  intro hmem
  obtain ⟨m', hq, hkeep⟩ := (mem_gcRun_iff hsorted).mp hmem
  have hqold : IsOld ((encodeKey u ts', v'), m') := by
    simpa [IsOld] using hold' m' hq
  refine (hkeep hqold).1 ⟨_, hp, compareKeys_encodeKey_lt.mpr hlt, by simp, ?_⟩
  simpa [IsOld] using hold

/-- What a snapshot gets from the stream was kept, or it is a tombstone for the deepest level and
nothing as old was kept. -/
private theorem mem_gcRun_of_shows (hsorted : EntriesSorted (stream.map Prod.fst))
    (hencoded : ∀ p ∈ stream, ∃ u ts, p.1.1 = encodeKey u ts)
    (hanswers : (stream.map Prod.snd).Pairwise (· ≤ ·)) (hs : ∀ p ∈ stream, p.2 ≤ s)
    (hshows : Versions.Shows (VersionsIn (stream.map Prod.fst) u) s ts v) :
    VersionsIn (gcRun out occ ⟨[], false⟩ stream).2 u ts v ∨ (v = none ∧ occ ≤ out ∧
      ∀ ts' v', VersionsIn (gcRun out occ ⟨[], false⟩ stream).2 u ts' v' → ts < ts') := by
  obtain ⟨hmem, hle, hmax⟩ := hshows
  obtain ⟨⟨e, m⟩, hp, rfl⟩ := List.mem_map.mp hmem
  by_cases hkept : VersionsIn (gcRun out occ ⟨[], false⟩ stream).2 u ts v
  · exact .inl hkept
  refine .inr ?_
  -- no old version of the user key stands before it: the snapshot would get that one
  have hfirst : ¬ SeenBefore stream (encodeKey u ts, v) := by
    rintro ⟨q, hq, hlt, hkey, hold⟩
    obtain ⟨u', ts', hq'⟩ := hencoded q hq
    rw [hq', decodeKey_encodeKey, decodeKey_encodeKey] at hkey
    obtain rfl : u' = u := hkey
    rw [hq', compareKeys_encodeKey_lt] at hlt
    rw [IsOld, hq', decodeKey_encodeKey] at hold
    have hin : VersionsIn (stream.map Prod.fst) u' ts' q.1.2 :=
      List.mem_map.mpr ⟨q, hq, by rw [← hq']⟩
    exact absurd (hmax ts' q.1.2 hin (hold.le.trans (hs q hq))) (not_le.mpr hlt)
  have hdropped : ts < m ∧ v = none ∧ occ ≤ out := by
    by_contra hno
    refine hkept ((mem_gcRun_iff hsorted).mpr ⟨m, hp, fun hold => ⟨hfirst, fun hdeep => ?_⟩⟩)
    rw [IsOld, decodeKey_encodeKey] at hold
    exact hno ⟨hold, hdeep⟩
  obtain ⟨hold, rfl, hdeep⟩ := hdropped
  refine ⟨rfl, hdeep, fun ts' v' hmem' => ?_⟩
  by_contra hge
  rcases (not_lt.mp hge).lt_or_eq with hlt | rfl
  · refine not_mem_gcRun_of_lt hsorted hp hold hlt (fun m' hq => ?_) hmem'
    have hkeys := compareKeys_encodeKey_lt (u := u) |>.mpr hlt
    rcases places hsorted hanswers hp hq with heq | ⟨-, hle'⟩ | ⟨hgt, -⟩
    · rw [Prod.mk.injEq, Prod.mk.injEq, encodeKey_inj] at heq
      exact absurd heq.1.1.2.symm hlt.ne
    · exact hlt.trans (hold.trans_le hle')
    · exact absurd rfl (compareKeys_ne_of_lt (compareKeys_lt_trans hkeys hgt))
  · -- a key has one place in the stream
    obtain ⟨m', hq, -⟩ := (mem_gcRun_iff hsorted).mp hmem'
    rcases places hsorted hanswers hp hq with heq | ⟨hlt, -⟩ | ⟨hlt, -⟩
    · rw [Prod.mk.injEq, Prod.mk.injEq] at heq
      rw [← heq.1.2] at hmem'
      exact hkept hmem'
    · exact absurd rfl (compareKeys_ne_of_lt hlt)
    · exact absurd rfl (compareKeys_ne_of_lt hlt)

end Prune

/-- **Pruning a stream**: what is written is part of the stream, in its order. A snapshot from the
last answer on gets from it what it gets from the stream, and nothing only where the stream has a
tombstone for the deepest level; then nothing older was written. With one answer throughout, at most
one version below it is written for each user key. -/
theorem executeLoop_prunes (t : Tree fmt) (target : ℕ) (c : Compaction) (occ : ℕ)
    (stream : List (Entry × UInt64)) (hsorted : EntriesSorted (stream.map Prod.fst))
    (hencoded : ∀ p ∈ stream, ∃ u ts, p.1.1 = encodeKey u ts)
    (hanswers : (stream.map Prod.snd).Pairwise (· ≤ ·)) {t' : Tree fmt} {x' : Exec}
    (hrun : t.executeLoop target c occ (.start (stream.map Prod.fst)) stream = (t', x')) :
    (t'.written x'.addedFiles).Sublist (stream.map Prod.fst) ∧
      (∀ u s, (∀ last, (stream.map Prod.snd).getLast? = some last → last ≤ s) → ∀ ts v,
        (Versions.Shows (VersionsIn (t'.written x'.addedFiles) u) s ts v →
          Versions.Shows (VersionsIn (stream.map Prod.fst) u) s ts v) ∧
        (Versions.Shows (VersionsIn (stream.map Prod.fst) u) s ts v →
          Versions.Shows (VersionsIn (t'.written x'.addedFiles) u) s ts v ∨
            (v = none ∧ occ ≤ c.outputLevel ∧
              ∀ ts' v', VersionsIn (t'.written x'.addedFiles) u ts' v' → ts < ts'))) ∧
      ∀ m, (∀ p ∈ stream, p.2 = m) → ∀ u ts v ts' v',
        VersionsIn (t'.written x'.addedFiles) u ts v → ts < m →
        VersionsIn (t'.written x'.addedFiles) u ts' v' → ts' < m → ts = ts' := by
  rw [written_executeLoop hrun]
  have hsub := @gcRun_sublist c.outputLevel occ ⟨[], false⟩ stream
  refine ⟨hsub, fun u s hs ts v => ?_, fun m hm u ts v ts' v' hmem hlt hmem' hlt' => ?_⟩
  · have hs : ∀ p ∈ stream, p.2 ≤ s := by
      intro p hp
      obtain ⟨init, last, hlast⟩ := (List.eq_nil_or_concat' (stream.map Prod.snd)).resolve_left
        (List.ne_nil_of_mem (List.mem_map_of_mem hp))
      have hle := hs last (by rw [hlast, List.getLast?_concat])
      have hp' : p.2 ∈ stream.map Prod.snd := List.mem_map_of_mem hp
      rw [hlast, List.pairwise_append] at hanswers
      rw [hlast, List.mem_append, List.mem_singleton] at hp'
      rcases hp' with hp' | hp'
      · exact (hanswers.2.2 _ hp' last (by simp)).trans hle
      · exact hp' ▸ hle
    have hpart := fun ts v => @mem_gcRun_of_shows occ c.outputLevel stream u s ts v hsorted hencoded
      hanswers hs
    refine ⟨Versions.shows_of_part (fun ts v h => hsub.subset h) fun ts v h =>
      (hpart ts v h).imp_right fun hgone => hgone.2.2, fun h => ?_⟩
    exact (hpart ts v h).imp_left fun hkept =>
      ⟨hkept, h.2.1, fun ts' v' h' => h.2.2 ts' v' (hsub.subset h')⟩
  · have hnot : ∀ {a b : UInt64} {w w' : Option Bytes},
        VersionsIn (gcRun c.outputLevel occ ⟨[], false⟩ stream).2 u a w → a < m →
        VersionsIn (gcRun c.outputLevel occ ⟨[], false⟩ stream).2 u b w' → b < m → ¬ b < a := by
      intro a b w w' ha halt hb hblt hba
      obtain ⟨m', hp, -⟩ := (mem_gcRun_iff hsorted).mp ha
      obtain rfl : m' = m := hm _ hp
      refine not_mem_gcRun_of_lt hsorted hp halt hba (fun m'' hq => ?_) hb
      obtain rfl : m'' = m' := hm _ hq
      exact hblt
    exact le_antisymm (not_lt.mp (hnot hmem hlt hmem' hlt'))
      (not_lt.mp (hnot hmem' hlt' hmem hlt))

/-- `minActiveSnapshot` answers `7`, and `9` from the third entry on. -/
def answersOfThree (i : ℕ) : UInt64 := if i < 2 then 7 else 9

theorem executeLoop_prunes_threeVersions :
    ∃ t' x', threeTree.executeLoop 20 threeCompaction 1 (.start threeVersions)
        (answered answersOfThree threeVersions) = (t', x') ∧
      (t'.written x'.addedFiles).Sublist threeVersions ∧
      Versions.Shows (VersionsIn (t'.written x'.addedFiles) [107]) 9 5 (some [1]) := by
  rcases hrun : threeTree.executeLoop 20 threeCompaction 1 (.start threeVersions)
    (answered answersOfThree threeVersions) with ⟨t', x'⟩
  have hkeys : ∀ p ∈ answered answersOfThree threeVersions, ∃ u ts, p.1.1 = encodeKey u ts := by
    intro p hp
    simp only [answered, threeVersions, List.zipIdx_cons, List.zipIdx_nil, List.map_cons,
      List.map_nil, List.mem_cons, List.not_mem_nil, or_false] at hp
    rcases hp with rfl | rfl | rfl <;> exact ⟨_, _, rfl⟩
  obtain ⟨hsub, hshows, -⟩ := executeLoop_prunes threeTree 20 threeCompaction 1
    (answered answersOfThree threeVersions) (by rw [EntriesSorted]; decide +kernel) hkeys
    (by decide +kernel) hrun
  -- the snapshot `9` gets the version of time `5`, since the other one is of time `10`
  have hstream : Versions.Shows (VersionsIn threeVersions [107]) 9 5 (some [1]) := by
    refine ⟨by rw [VersionsIn]; decide +kernel, by decide, fun ts v hv hle => ?_⟩
    simp only [VersionsIn, threeVersions, List.mem_cons, List.not_mem_nil, or_false,
      Prod.mk.injEq, encodeKey_inj] at hv
    rcases hv with ⟨⟨-, rfl⟩, -⟩ | ⟨⟨-, rfl⟩, -⟩ | ⟨⟨h, -⟩, -⟩
    · exact absurd hle (by decide)
    · exact le_rfl
    · exact absurd h (by decide)
  have hlast : ((answered answersOfThree threeVersions).map Prod.snd).getLast? = some 9 := by
    decide +kernel
  refine ⟨t', x', rfl, hsub, ?_⟩
  rcases (hshows [107] 9 (fun last h => (Option.some.inj (hlast.symm.trans h)).ge) 5
    (some [1])).2 hstream with hget | ⟨hnone, -⟩
  · exact hget
  · exact absurd hnone (by simp)

end Tree

end Stratum.Lsm
