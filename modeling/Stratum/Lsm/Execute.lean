import Stratum.Lsm.Tree

/-!
# What `Execute` writes

The loop of `Execute` takes the merged entries one by one, keeps or drops each, and cuts what it
keeps into tables of about the target size. `Tree.Tables` is the invariant of the loop: the
finished tables and the open one hold, one after the other, **exactly what was kept**, and the
metadata of a finished table is that of its contents. `Tree.Within` says what a round leaves alone.

* `Tree.Looping.nextEntry` and `Tree.Looping.finishLoop` are the rounds and the end of the loop.
* `gcRun` is the rule for old versions over a list of entries; each entry comes with what
  `minActiveSnapshot` answered for it.
-/

namespace Stratum.Lsm

open Mvcc Memtable Sstable

/-! ### The rule for old versions, over a list of entries -/

/-- The rule over a list of entries: its state at the end, and what it keeps. -/
def gcRun (outputLevel maxOccupied : ℕ) : GcState → List (Entry × UInt64) → GcState × List Entry
  | st, [] => (st, [])
  | st, (e, minActive) :: es =>
    let step := gcStep outputLevel maxOccupied minActive st e
    let rest := gcRun outputLevel maxOccupied step.1 es
    (rest.1, if step.2 then e :: rest.2 else rest.2)

section Gc

variable {out occ : ℕ} {st : GcState}

theorem gcRun_concat (es : List (Entry × UInt64)) (e : Entry) (m : UInt64) :
    gcRun out occ st (es ++ [(e, m)]) =
      ((gcStep out occ m (gcRun out occ st es).1 e).1,
        (gcRun out occ st es).2 ++
          if (gcStep out occ m (gcRun out occ st es).1 e).2 then [e] else []) := by
  induction es generalizing st with
  | nil => rfl
  | cons p es ih =>
    rw [List.cons_append, gcRun, ih, gcRun]
    dsimp only
    split <;> simp

/-- The rule keeps entries in their order. -/
theorem gcRun_sublist (es : List (Entry × UInt64)) :
    (gcRun out occ st es).2.Sublist (es.map Prod.fst) := by
  induction es generalizing st with
  | nil => simp [gcRun]
  | cons p es ih =>
    rw [gcRun]
    dsimp only
    split
    · exact ih.cons_cons _
    · exact ih.cons _

/-- Without a registered snapshot the rule keeps everything. -/
theorem gcRun_zero {es : List (Entry × UInt64)} (h : ∀ p ∈ es, p.2 = 0) :
    (gcRun out occ st es).2 = es.map Prod.fst := by
  induction es generalizing st with
  | nil => rfl
  | cons p es ih =>
    have hkeep : ∀ st e, (gcStep out occ 0 st e).2 = true := by
      intro st e
      simp [gcStep]
    have hp : p.2 = 0 := h p (by simp)
    rw [gcRun]
    dsimp only
    rw [hp, hkeep, ih fun q hq => h q (by simp [hq])]
    rfl

end Gc

/-! ### Tables -/

theorem lastKeyOf_concat (es : List Entry) (e : Entry) : lastKeyOf (es ++ [e]) = e.1 := by
  simp [lastKeyOf]

theorem firstKey_append {es : List Entry} (h : es ≠ []) (es' : List Entry) :
    firstKey (es ++ es') = firstKey es := by
  cases es with
  | nil => exact absurd rfl h
  | cons e es => rfl

/-- The size that the loop counts. -/
def entriesSize (es : List Entry) : ℕ :=
  (es.map fun e => e.1.length + (e.2.getD []).length + 8).sum

theorem entriesSize_concat (es : List Entry) (e : Entry) :
    entriesSize (es ++ [e]) = entriesSize es + (e.1.length + (e.2.getD []).length + 8) := by
  simp [entriesSize]

namespace Exec

/-- The numbers that the loop has drawn: those of the finished tables and of the open one. -/
def nums (x : Exec) : List ℕ :=
  x.addedFiles.map FileMetadata.fileNum ++ (x.currentWriter.map fun _ => x.currentFileNum).toList

/-- A table is finished, and its largest key set. -/
theorem addedFiles_finish (x : Exec) (out size : ℕ) :
    (x.finish out size).setLargest.addedFiles =
      x.addedFiles ++ [{ x.metadata out size with largestKey := x.lastKey }] := by
  simp

end Exec

namespace Tree

variable {fmt : TableFormat}

/-- The next file number. -/
abbrev counter (t : Tree fmt) : ℕ := t.manifest.nextFileNum

/-- The table of this number is complete on disk, and this is its metadata. -/
structure OnDisk (t : Tree fmt) (level : ℕ) (f : FileMetadata) : Prop where
  metadata : f = tableFile fmt level f.fileNum (t.contents f.fileNum)
  file : t.files f.fileNum = some (fmt.write (t.contents f.fileNum))

/-- An output is not empty, and its last entry made it reach the target size at most. -/
structure IsOutput (es : List Entry) : Prop where
  ne_nil : es ≠ []
  size_lt : entriesSize es.dropLast < targetSize 1

/-- An open table that is below the target size of the program. -/
abbrev IsOpen (es : List Entry) : Prop := IsOutput es ∧ entriesSize es < targetSize 1

/-- How the loop cuts at a target size: `cur` holds of the tables that it leaves open between two
rounds, `fin` of those that it finishes. -/
structure Cut (target : ℕ) (cur fin : List Entry → Prop) : Prop where
  cur_ne_nil : ∀ {es}, cur es → es ≠ []
  fin_ne_nil : ∀ {es}, fin es → es ≠ []
  stay : ∀ {es} (e : Entry), es = [] ∨ cur es → entriesSize (es ++ [e]) < target → cur (es ++ [e])
  close : ∀ {es} (e : Entry), es = [] ∨ cur es → target ≤ entriesSize (es ++ [e]) → fin (es ++ [e])

/-- **Invariant of the loop**, for any way of cutting: `kept` is what was kept so far. -/
structure Tables (t : Tree fmt) (cur fin : List Entry → Prop) (out : ℕ) (x : Exec)
    (kept : List Entry) : Prop where
  onDisk : ∀ f ∈ x.addedFiles, t.OnDisk out f
  finished : ∀ f ∈ x.addedFiles, fin (t.contents f.fileNum)
  current : ∀ es, x.currentWriter = some es → cur es ∧ x.currentSmallest = firstKey es ∧
    x.entriesWritten = es.length ∧ x.currentSize = entriesSize es
  kept_eq : kept = x.addedFiles.flatMap (fun f => t.contents f.fileNum) ++ x.currentWriter.getD []
  lastKey_eq : kept ≠ [] → x.lastKey = lastKeyOf kept
  nodup : x.nums.Nodup
  lt_counter : ∀ n ∈ x.nums, n < t.counter

/-- The invariant between two rounds, with the target size of the program. -/
abbrev Looping (t : Tree fmt) (out : ℕ) (x : Exec) (kept : List Entry) : Prop :=
  t.Tables IsOpen IsOutput out x kept

/-- What a part of `Execute` leaves alone: it draws numbers, and touches the tables of the numbers
it has drawn. -/
structure Within (t t' : Tree fmt) (nums nums' : List ℕ) : Prop where
  frame : t' = { t with
    files := t'.files
    contents := t'.contents
    manifest := { t.manifest with nextFileNum := t'.manifest.nextFileNum } }
  counter_le : t.counter ≤ t'.counter
  nums_eq : nums' = nums ++ List.range' t.counter (t'.counter - t.counter)
  same : ∀ n, n ∉ nums' → t'.files n = t.files n ∧ t'.contents n = t.contents n

variable {t t' u : Tree fmt} {out : ℕ} {x x' : Exec} {kept es : List Entry} {e : Entry}
  {target : ℕ} {cur cur' fin : List Entry → Prop}

/-- The target size of the program is not `0`, so that a table with one entry may be open. -/
theorem cut_isOutput : Cut (targetSize 1) IsOpen IsOutput where
  cur_ne_nil h := h.1.ne_nil
  fin_ne_nil h := h.ne_nil
  stay {es} e h hlt := by
    refine ⟨⟨by simp, ?_⟩, hlt⟩
    rw [List.dropLast_concat]
    rcases h with rfl | h
    · decide
    · exact h.2
  close {es} e h _ := by
    refine ⟨by simp, ?_⟩
    rw [List.dropLast_concat]
    rcases h with rfl | h
    · decide
    · exact h.2

theorem tables_start (t : Tree fmt) (cur fin : List Entry → Prop) (out : ℕ) (stream : List Entry) :
    t.Tables cur fin out (.start stream) [] where
  onDisk := by simp [Exec.start]
  finished := by simp [Exec.start]
  current := by simp [Exec.start]
  kept_eq := by simp [Exec.start]
  lastKey_eq h := absurd rfl h
  nodup := by simp [Exec.nums, Exec.start]
  lt_counter := by simp [Exec.nums, Exec.start]

/-- What is said of an open table may be weakened. -/
theorem Tables.imp (h : t.Tables cur fin out x kept)
    (himp : ∀ es, x.currentWriter = some es → cur es → cur' es) :
    t.Tables cur' fin out x kept :=
  { h with
    current := fun es hes => ⟨himp es hes (h.current es hes).1, (h.current es hes).2⟩ }

variable {nums nums' : List ℕ} {c : Compaction} {occ : ℕ} {rest : List Entry} {m : UInt64}

theorem Within.subset (h : Within t t' nums nums') {n : ℕ} (hn : n ∈ nums) :
    n ∈ nums' := by
  rw [h.nums_eq]
  exact List.mem_append_left _ hn

theorem Within.drawn (h : Within t t' nums nums') {n : ℕ} (hn : n ∈ nums') :
    n ∈ nums ∨ (t.counter ≤ n ∧ n < t'.counter) := by
  have hle := h.counter_le
  rw [h.nums_eq, List.mem_append, List.mem_range'_1] at hn
  exact hn.imp_right fun hn => by omega

theorem Within.refl (t : Tree fmt) (nums : List ℕ) : Within t t nums nums :=
  ⟨rfl, le_rfl, by simp, fun _ _ => ⟨rfl, rfl⟩⟩

theorem range'_append_range' {a b c : ℕ} (h : a ≤ b) (h' : b ≤ c) :
    List.range' a (b - a) ++ List.range' b (c - b) = List.range' a (c - a) := by
  have hjoin := @List.range'_append_1 a (b - a) (c - b)
  rwa [show a + (b - a) = b by omega, show b - a + (c - b) = c - a by omega] at hjoin

theorem Within.trans {nums₁ nums₂ nums₃ : List ℕ} (h : Within t t' nums₁ nums₂)
    (h' : Within t' u nums₂ nums₃) : Within t u nums₁ nums₃ where
  frame := by
    rw [h'.frame, h.frame]
  counter_le := h.counter_le.trans h'.counter_le
  nums_eq := by
    rw [h'.nums_eq, h.nums_eq, List.append_assoc, range'_append_range' h.counter_le h'.counter_le]
  same n hn := by
    have hn' : n ∉ nums₂ := fun hmem => hn (h'.subset hmem)
    obtain ⟨hf', hc'⟩ := h'.same n hn
    obtain ⟨hf, hc⟩ := h.same n hn'
    exact ⟨hf'.trans hf, hc'.trans hc⟩

theorem Within.version_eq (h : Within t t' nums nums') :
    t'.version = t.version := by
  rw [h.frame]

/-- What is not live stays so: numbers are drawn above those of the live files. -/
theorem Within.not_live (h : Within t t' nums nums') (hlt : ∀ n, t.version.Live n → n < t.counter)
    (hnums : ∀ n ∈ nums, ¬ t.version.Live n) : ∀ n ∈ nums', ¬ t.version.Live n := by
  intro n hn hlive
  rcases h.drawn hn with hn | ⟨hge, -⟩
  · exact hnums n hn hlive
  · exact absurd (hlt n hlive) (Nat.not_lt_of_le hge)

/-- The invariant only looks at the tables of the numbers that the loop has drawn. -/
theorem Tables.congr (h : t.Tables cur fin out x kept) (hcounter : t.counter ≤ u.counter)
    (hsame : ∀ n ∈ x.nums, u.files n = t.files n ∧ u.contents n = t.contents n) :
    u.Tables cur fin out x kept := by
  have hmem : ∀ f ∈ x.addedFiles, f.fileNum ∈ x.nums := fun f hf =>
    List.mem_append_left _ (List.mem_map_of_mem hf)
  exact
    { onDisk := fun f hf => by
        obtain ⟨hfile, hcontents⟩ := hsame _ (hmem f hf)
        obtain ⟨h₁, h₂⟩ := h.onDisk f hf
        exact ⟨by rwa [hcontents], by rwa [hfile, hcontents]⟩
      finished := fun f hf => by
        rw [(hsame _ (hmem f hf)).2]
        exact h.finished f hf
      current := h.current
      kept_eq := by
        rw [h.kept_eq]
        congr 1
        exact List.flatMap_congr fun f hf => (hsame _ (hmem f hf)).2.symm
      lastKey_eq := h.lastKey_eq
      nodup := h.nodup
      lt_counter := fun n hn => (h.lt_counter n hn).trans_le hcounter }

/-! ### The rounds of the loop -/

/-- The loop with its table open, before an entry is added; the table may be new and empty. -/
private structure Ready (t : Tree fmt) (cur fin : List Entry → Prop) (out : ℕ) (x : Exec)
    (kept es : List Entry) (e : Entry) : Prop where
  onDisk : ∀ f ∈ x.addedFiles, t.OnDisk out f
  finished : ∀ f ∈ x.addedFiles, fin (t.contents f.fileNum)
  currentWriter : x.currentWriter = some es
  smallest : x.currentSmallest = firstKey (es ++ [e])
  entriesWritten : x.entriesWritten = es.length
  currentSize : x.currentSize = entriesSize es
  before : es = [] ∨ cur es
  kept_eq : kept = x.addedFiles.flatMap (fun f => t.contents f.fileNum) ++ es
  nodup : x.nums.Nodup
  lt_counter : ∀ n ∈ x.nums, n < t.counter

private theorem Ready.write (h : t.Ready cur fin out x kept es e) :
    t.Tables (· ≠ []) fin out (x.write es e) (kept ++ [e]) where
  onDisk := h.onDisk
  finished := h.finished
  current es' hes' := by
    cases hes'
    refine ⟨by simp, h.smallest, ?_, ?_⟩
    · simp [h.entriesWritten]
    · rw [Exec.write_currentSize, h.currentSize, entriesSize_concat]
  kept_eq := by simp [h.kept_eq]
  lastKey_eq _ := (lastKeyOf_concat kept e).symm
  nodup := by simpa [Exec.nums, h.currentWriter] using h.nodup
  lt_counter := by simpa [Exec.nums, h.currentWriter] using h.lt_counter

private theorem Exec.nums_of_some {x : Exec} {es : List Entry} (h : x.currentWriter = some es) :
    x.nums = x.addedFiles.map FileMetadata.fileNum ++ [x.currentFileNum] := by
  simp [Exec.nums, h]

private theorem Exec.nums_finish {x : Exec} {es : List Entry} (h : x.currentWriter = some es)
    (out size : ℕ) : (x.finish out size).setLargest.nums = x.nums := by
  simp [Exec.nums, h, Exec.metadata]

/-- The finished tables have other numbers than the open one. -/
private theorem Tables.fileNum_ne (h : t.Tables cur fin out x kept)
    (hes : x.currentWriter = some es) : ∀ f ∈ x.addedFiles, f.fileNum ≠ x.currentFileNum := by
  have hnodup := h.nodup
  rw [Exec.nums_of_some hes, List.nodup_append] at hnodup
  exact fun f hf => hnodup.2.2 _ (List.mem_map_of_mem hf) _ (by simp)

/-- What is recorded of the open table, when it is closed, is the metadata of its contents. -/
private theorem Tables.addedFiles_close (h : t.Tables cur fin out x kept)
    (hes : x.currentWriter = some es) (hne : es ≠ []) :
    (x.finish out (fmt.size (fmt.write es))).setLargest.addedFiles =
      x.addedFiles ++ [tableFile fmt out x.currentFileNum es] := by
  obtain ⟨-, hsmall, hcount, -⟩ := h.current es hes
  have hkept : kept = x.addedFiles.flatMap (fun f => t.contents f.fileNum) ++ es := by
    rw [h.kept_eq, hes]
    rfl
  have hlast : x.lastKey = lastKeyOf es := by
    rw [h.lastKey_eq (by simp [hkept, hne]), hkept]
    simp [lastKeyOf, List.getLast?_append_of_ne_nil _ hne]
  rw [Exec.addedFiles_finish, hlast, Exec.metadata, tableFile, hsmall, hcount]

private theorem Tables.close (h : t.Tables cur fin out x kept) (hes : x.currentWriter = some es)
    (hne : es ≠ []) (hfin : fin es) :
    (t.closeTable x.currentFileNum es).Tables cur' fin out
      (x.finish out (fmt.size (fmt.write es))).setLargest kept := by
  have hother := h.fileNum_ne hes
  have hadded := h.addedFiles_close hes hne
  have hself : (t.closeTable x.currentFileNum es).contents x.currentFileNum = es := by simp
  refine
    { onDisk := fun f hf => ?_
      finished := fun f hf => ?_
      current := by simp
      kept_eq := ?_
      lastKey_eq := h.lastKey_eq
      nodup := by rw [Exec.nums_finish hes]; exact h.nodup
      lt_counter := by rw [Exec.nums_finish hes]; exact h.lt_counter }
  · rw [hadded, List.mem_append, List.mem_singleton] at hf
    rcases hf with hf | rfl
    · obtain ⟨h₁, h₂⟩ := h.onDisk f hf
      constructor <;> simpa [hother f hf]
    · exact ⟨by simp [tableFile], by simp [tableFile]⟩
  · rw [hadded, List.mem_append, List.mem_singleton] at hf
    rcases hf with hf | rfl
    · simpa [hother f hf] using h.finished f hf
    · simpa [tableFile] using hfin
  · have hold :
        x.addedFiles.flatMap (fun f => (t.closeTable x.currentFileNum es).contents f.fileNum)
          = x.addedFiles.flatMap fun f => t.contents f.fileNum :=
      List.flatMap_congr fun f hf => by simp [hother f hf]
    rw [hadded, List.flatMap_append, hold, List.flatMap_singleton, h.kept_eq, hes]
    simp [tableFile]

private theorem within_close (hes : x.currentWriter = some es) :
    Within t (t.closeTable x.currentFileNum es) x.nums
      (x.finish out (fmt.size (fmt.write es))).setLargest.nums := by
  rw [Exec.nums_finish hes]
  refine ⟨rfl, le_rfl, by simp [counter], fun n hn => ?_⟩
  rw [Exec.nums_of_some hes] at hn
  have hn' : n ≠ x.currentFileNum := fun heq => hn (by simp [heq])
  simp [hn']

private theorem Ready.addEntry (hcut : Cut target cur fin) (h : t.Ready cur fin out x kept es e)
    (hadd : t.addEntry x es e out target = (t', x')) :
    t'.Tables cur fin out x' (kept ++ [e]) ∧ Within t t' x.nums x'.nums := by
  have hopen : (x.write es e).currentWriter = some (es ++ [e]) := rfl
  have hsize : (x.write es e).currentSize = entriesSize (es ++ [e]) :=
    (h.write.current _ hopen).2.2.2
  have hnums : x.nums = (x.write es e).nums := by simp [Exec.nums, h.currentWriter]
  simp only [Tree.addEntry] at hadd
  rw [hnums]
  split at hadd <;> cases hadd
  · rename_i hge
    have hfin := hcut.close e h.before (hsize ▸ hge)
    exact ⟨h.write.close hopen (by simp) hfin, within_close hopen⟩
  · rename_i hlt
    have hcur := hcut.stay e h.before (hsize ▸ Nat.lt_of_not_le hlt)
    refine ⟨h.write.imp fun es' hes' _ => ?_, Within.refl _ _⟩
    cases hes'
    exact hcur

private theorem Tables.keepEntry (hcut : Cut target cur fin) (h : t.Tables cur fin out x kept)
    (hkeep : t.keepEntry x e out target = (t', x')) :
    t'.Tables cur fin out x' (kept ++ [e]) ∧ Within t t' x.nums x'.nums := by
  cases hcw : x.currentWriter with
  | some es =>
    obtain ⟨hcur, hsmall, hcount, hsize⟩ := h.current es hcw
    simp only [Tree.keepEntry, currentTable, hcw] at hkeep
    have hready : t.Ready cur fin out x kept es e :=
      { onDisk := h.onDisk
        finished := h.finished
        currentWriter := hcw
        smallest := by rw [hsmall, firstKey_append (hcut.cur_ne_nil hcur)]
        entriesWritten := hcount
        currentSize := hsize
        before := .inr hcur
        kept_eq := by rw [h.kept_eq, hcw]; rfl
        nodup := h.nodup
        lt_counter := h.lt_counter }
    exact hready.addEntry hcut hkeep
  | none =>
    simp only [Tree.keepEntry, currentTable, hcw] at hkeep
    have hnums : (x.create t.counter e.1).nums = x.nums ++ [t.counter] := by
      simp [Exec.nums, hcw]
    have hne : ∀ f ∈ x.addedFiles, f.fileNum ≠ t.counter := fun f hf =>
      (h.lt_counter _ (List.mem_append_left _ (List.mem_map_of_mem hf))).ne
    -- the new table does not touch the finished ones
    have hready : t.createTable.Ready cur fin out (x.create t.counter e.1) kept [] e :=
      { onDisk := fun f hf => ⟨(h.onDisk f hf).metadata, by
          simpa [hne f hf] using (h.onDisk f hf).file⟩
        finished := h.finished
        currentWriter := rfl
        smallest := rfl
        entriesWritten := rfl
        currentSize := rfl
        before := .inl rfl
        kept_eq := by simp [h.kept_eq, hcw]
        nodup := by
          rw [hnums, List.nodup_append]
          refine ⟨h.nodup, List.nodup_singleton _, fun n hn m hm => ?_⟩
          obtain rfl := List.mem_singleton.mp hm
          exact (h.lt_counter n hn).ne
        lt_counter := fun n hn => by
          rw [hnums, List.mem_append, List.mem_singleton] at hn
          rcases hn with hn | rfl
          · exact Nat.lt_succ_of_lt (h.lt_counter n hn)
          · exact Nat.lt_succ_self _ }
    have hcreate : Within t t.createTable x.nums (x.create t.counter e.1).nums := by
      rw [hnums]
      refine ⟨rfl, Nat.le_succ _, by simp [counter], fun n hn => ?_⟩
      have hn' : n ≠ t.counter := fun heq => hn (by simp [heq])
      simp [hn']
    obtain ⟨hloop, hwithin⟩ := hready.addEntry hcut hkeep
    exact ⟨hloop, hcreate.trans hwithin⟩

/-- The loop variables that say what is still to come play no part. -/
private theorem Tables.setRest (h : t.Tables cur fin out x kept) (rest : List Entry)
    (gc : GcState) : t.Tables cur fin out { x with rest := rest, gc := gc } kept :=
  ⟨h.onDisk, h.finished, h.current, h.kept_eq, h.lastKey_eq, h.nodup, h.lt_counter⟩

private theorem rest_keepEntry {target : ℕ} (hkeep : t.keepEntry x e out target = (t', x')) :
    x'.rest = x.rest ∧ x'.gc = x.gc := by
  cases hcw : x.currentWriter with
  | none | some es =>
    simp only [Tree.keepEntry, currentTable, hcw, Tree.addEntry] at hkeep
    split at hkeep <;> cases hkeep <;> exact ⟨rfl, rfl⟩

/-- `nextEntry` with any target size. -/
def nextEntryTo (t : Tree fmt) (target : ℕ) (c : Compaction) (maxOccupied : ℕ) (x : Exec)
    (e : Entry) (rest : List Entry) (minActive : UInt64) : Tree fmt × Exec :=
  let (gc, keep) := gcStep c.outputLevel maxOccupied minActive x.gc e
  let x := { x with rest := rest, gc := gc }
  if keep then t.keepEntry x e c.outputLevel target else (t, x)

/-- Whatever its local variables are, the loop changes nothing of the tree but tables and the number
of the next one. -/
theorem nextEntry_frame (hn : t.nextEntry c occ x e rest m = (t', x')) :
    t' = { t with
      files := t'.files
      contents := t'.contents
      manifest := { t.manifest with nextFileNum := t'.manifest.nextFileNum } } := by
  simp only [Tree.nextEntry] at hn
  split at hn
  · cases hcw : x.currentWriter with
    | none | some es =>
      simp only [Tree.keepEntry, currentTable, hcw, Tree.addEntry] at hn
      split at hn <;> cases hn <;> rfl
  · cases hn
    rfl

theorem finishLoop_frame (hn : t.finishLoop c x = (t', x')) :
    t' = { t with
      files := t'.files
      contents := t'.contents
      manifest := { t.manifest with nextFileNum := t'.manifest.nextFileNum } } := by
  simp only [Tree.finishLoop] at hn
  split at hn <;> cases hn <;> rfl

/-- What a round leaves of the loop variables that say what is still to come. -/
theorem nextEntryTo_rest (hn : t.nextEntryTo target c occ x e rest m = (t', x')) :
    x'.rest = rest ∧ x'.gc = (gcStep c.outputLevel occ m x.gc e).1 := by
  simp only [Tree.nextEntryTo] at hn
  split at hn
  · exact rest_keepEntry hn
  · cases hn
    exact ⟨rfl, rfl⟩

/-- **One round of the loop**: the entry is kept or dropped as the rule says. -/
theorem Tables.nextEntryTo (hcut : Cut target cur fin) (h : t.Tables cur fin c.outputLevel x kept)
    (hn : t.nextEntryTo target c occ x e rest m = (t', x')) :
    t'.Tables cur fin c.outputLevel x'
        (kept ++ if (gcStep c.outputLevel occ m x.gc e).2 then [e] else []) ∧
      Within t t' x.nums x'.nums ∧ x'.rest = rest ∧
      x'.gc = (gcStep c.outputLevel occ m x.gc e).1 := by
  have hset := h.setRest rest (gcStep c.outputLevel occ m x.gc e).1
  have hvars := nextEntryTo_rest hn
  simp only [Tree.nextEntryTo] at hn
  split at hn
  · rename_i hkeep
    obtain ⟨hloop, hwithin⟩ := hset.keepEntry hcut hn
    rw [if_pos hkeep]
    exact ⟨hloop, hwithin, hvars⟩
  · rename_i hkeep
    cases hn
    rw [if_neg hkeep, List.append_nil]
    exact ⟨hset, Within.refl _ _, hvars⟩

theorem Looping.nextEntry (h : t.Looping c.outputLevel x kept)
    (hn : t.nextEntry c occ x e rest m = (t', x')) :
    t'.Looping c.outputLevel x'
        (kept ++ if (gcStep c.outputLevel occ m x.gc e).2 then [e] else []) ∧
      Within t t' x.nums x'.nums ∧ x'.rest = rest ∧
      x'.gc = (gcStep c.outputLevel occ m x.gc e).1 :=
  h.nextEntryTo cut_isOutput hn

/-- The largest key of the last file is what `setLargest` sets it to. -/
private theorem Tables.setLargest_eq (hfin : ∀ es, fin es → es ≠ [])
    (h : t.Tables cur fin out x kept) (hcw : x.currentWriter = none) : x.setLargest = x := by
  have hadded : x.setLargest.addedFiles = x.addedFiles := by
    rcases List.eq_nil_or_concat' x.addedFiles with hnil | ⟨fs, f, hfs⟩
    · simp [hnil]
    · have hf : f ∈ x.addedFiles := by simp [hfs]
      have hne := hfin _ (h.finished f hf)
      have hkept : kept = fs.flatMap (fun f => t.contents f.fileNum) ++ t.contents f.fileNum := by
        rw [h.kept_eq, hcw, hfs]
        simp
      have hlast : x.lastKey = f.largestKey := by
        rw [h.lastKey_eq (by simp [hkept, hne]), (h.onDisk f hf).metadata, hkept]
        simp [lastKeyOf, tableFile, List.getLast?_append_of_ne_nil _ hne]
      simp [hfs, hlast]
  calc x.setLargest = { x with addedFiles := x.setLargest.addedFiles } := rfl
    _ = x := by rw [hadded]

/-- A weaker statement about the finished tables. -/
theorem Tables.imp_finished {fin' : List Entry → Prop} (h : t.Tables cur fin out x kept)
    (himp : ∀ es, fin es → fin' es) : t.Tables cur fin' out x kept :=
  { h with finished := fun f hf => himp _ (h.finished f hf) }

/-- **The end of the loop**: the last table is closed, and all that was kept is on disk. The tables
before the last one were finished within the loop. -/
theorem Tables.finishLoop {fin' : List Entry → Prop} (hne : ∀ es, fin' es → es ≠ [])
    (hfin : ∀ es, fin es → fin' es) (hcur : ∀ es, cur es → fin' es)
    (h : t.Tables cur fin c.outputLevel x kept) (hn : t.finishLoop c x = (t', x')) :
    t'.Tables cur fin' c.outputLevel x' kept ∧ Within t t' x.nums x'.nums ∧
      x'.currentWriter = none ∧ ∀ f ∈ x'.addedFiles.dropLast, fin (t'.contents f.fileNum) := by
  simp only [Tree.finishLoop] at hn
  split at hn <;> cases hn
  · rename_i hcw
    rw [h.setLargest_eq (fun es hes => hne es (hfin es hes)) hcw]
    exact ⟨h.imp_finished hfin, Within.refl _ _, hcw, fun f hf =>
      h.finished f ((List.dropLast_sublist _).subset hf)⟩
  · rename_i es hcw
    obtain ⟨hopen, -⟩ := h.current es hcw
    have hes := hne es (hcur es hopen)
    refine ⟨(h.imp_finished hfin).close hcw hes (hcur es hopen), within_close hcw, rfl, ?_⟩
    intro f hf
    rw [h.addedFiles_close hcw hes, List.dropLast_concat] at hf
    simpa [h.fileNum_ne hcw f hf] using h.finished f hf

theorem Looping.finishLoop (h : t.Looping c.outputLevel x kept)
    (hn : t.finishLoop c x = (t', x')) :
    t'.Looping c.outputLevel x' kept ∧
      Within t t' x.nums (x'.addedFiles.map FileMetadata.fileNum) ∧ x'.currentWriter = none := by
  obtain ⟨htables, hwithin, hcw, -⟩ := Tables.finishLoop (fun _ => IsOutput.ne_nil)
    (fun _ hes => hes) (fun _ hes => hes.1) h hn
  refine ⟨htables, ?_, hcw⟩
  simpa [Exec.nums, hcw] using hwithin

end Tree

end Stratum.Lsm
