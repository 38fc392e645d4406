import Stratum.Lsm.Flush
import Stratum.Lsm.Picker
import Stratum.Lsm.Session
import Stratum.Sstable.RoundTrip

/-!
# The level invariant

From an empty tree on, whatever is flushed and compacted in one session: the levels from `1` on are
sorted, and what a file holds lies in the range of its metadata. Flushes may come at any point of a
compaction, `minActiveSnapshot` may answer anything, and an input may stop early with a read error.

* `Reading` is what the loop of `Execute` keeps: its entries are sorted, and each lies in the range
  of an input. Tables cut out of them make a sorted level (`Tree.Finished.levelSorted`), which
  fits between the files that stay by the convexity of what was picked.
* `Tree.LevelInv` is the invariant of the whole tree, over an arbitrary table format; the tables
  have to consist of entries that the format can encode.
* The format of the repository can encode keys and values whose lengths fit 32-bit fields
  (`Config.passes`). A value of `0xFFFFFFFF` bytes is read as a tombstone with other entries behind
  it, and the invariant fails (`Tree.wellLevelled_fails_on_huge_value`).
-/

namespace Stratum.Lsm

open ByteCodec Mvcc Memtable Sstable

/-! ### Tables and their ranges -/

theorem firstKey_mem {es : List Entry} (h : es ≠ []) : ∃ e ∈ es, firstKey es = e.1 := by
  cases es with
  | nil => exact absurd rfl h
  | cons e es => exact ⟨e, by simp, rfl⟩

theorem lastKeyOf_mem {es : List Entry} (h : es ≠ []) : ∃ e ∈ es, lastKeyOf es = e.1 := by
  rcases List.eq_nil_or_concat' es with rfl | ⟨es, e, rfl⟩
  · exact absurd rfl h
  · exact ⟨e, by simp, lastKeyOf_concat es e⟩

/-- No key of a sorted table is below its first or above its last one. -/
theorem covers_tableFile {fmt : TableFormat} {es : List Entry} (h : EntriesSorted es) {e : Entry}
    (he : e ∈ es) (level num : ℕ) : (tableFile fmt level num es).covers e.1 = true := by
  rw [FileMetadata.covers_iff]
  constructor
  · cases es with
    | nil => simp at he
    | cons e' es =>
      show compareKeys e.1 e'.1 ≠ .lt
      rcases List.mem_cons.mp he with rfl | he
      · simp
      · intro hlt
        have := compareKeys_lt_trans hlt (List.rel_of_pairwise_cons h he)
        simp at this
  · rcases List.eq_nil_or_concat' es with rfl | ⟨es, e', rfl⟩
    · simp at he
    · show compareKeys (lastKeyOf (es ++ [e'])) e.1 ≠ .lt
      rw [lastKeyOf_concat]
      rcases List.mem_append.mp he with he | he
      · intro hlt
        have := compareKeys_lt_trans hlt ((List.pairwise_append.mp h).2.2 e he e' (by simp))
        simp at this
      · obtain rfl := List.mem_singleton.mp he
        simp

theorem isRange_tableFile {fmt : TableFormat} {es : List Entry} (h : EntriesSorted es)
    (level num : ℕ) : (tableFile fmt level num es).IsRange := by
  rcases List.eq_nil_or_concat' es with rfl | ⟨es', e, rfl⟩
  · simp [FileMetadata.IsRange, tableFile, firstKey, lastKeyOf]
  · have hcov : (tableFile fmt level num (es' ++ [e])).covers e.1 = true :=
      covers_tableFile h (by simp) level num
    have hlast : (tableFile fmt level num (es' ++ [e])).largestKey = e.1 := lastKeyOf_concat es' e
    rw [FileMetadata.IsRange, hlast]
    exact (FileMetadata.covers_iff.mp hcov).1

/-! ### What the loop keeps -/

/-- What is kept and what is still to come is sorted, and consists of entries of the inputs. -/
def Reading (P : Entry → Prop) : LoopProp := fun c _ _ kept rest =>
  EntriesSorted (kept ++ rest) ∧ ∀ e ∈ kept ++ rest, c.Reads e.1 ∧ P e

theorem survives_reading (P : Entry → Prop) (m : UInt64) : Tree.Survives (Reading P) m := by
  intro c occ gc kept e rest ⟨hsorted, hmem⟩
  have hsub : ((kept ++ if (gcStep c.outputLevel occ m gc e).2 then [e] else []) ++ rest).Sublist
      (kept ++ e :: rest) := by
    rw [List.append_assoc]
    refine List.Sublist.append_left ?_ kept
    split
    · exact List.Sublist.refl _
    · exact List.sublist_cons_self e rest
  exact ⟨hsorted.sublist hsub, fun e' he' => hmem e' (hsub.mem he')⟩

namespace Tree

variable {fmt : TableFormat} {P : Entry → Prop} {trigger : ℕ} {t t' : Tree fmt} {a : TreeAct}

variable {out : ℕ} {added : List FileMetadata} {kept : List Entry} {f : FileMetadata}
  {c : Compaction}

theorem Finished.kept_eq (h : t.Finished out added kept) :
    kept = added.flatMap fun f => t.contents f.fileNum := by
  obtain ⟨x, hx, hcw, rfl⟩ := h
  rw [hx.kept_eq, hcw]
  simp

/-- Tables cut out of sorted entries make a sorted level. -/
theorem Finished.levelSorted (h : t.Finished out added kept) (hsorted : EntriesSorted kept) :
    LevelSorted added := by
  rw [h.kept_eq] at hsorted
  obtain ⟨x, hx, hcw, rfl⟩ := h
  obtain ⟨htables, hbetween⟩ := List.pairwise_flatMap.mp hsorted
  refine ⟨fun f hf => ?_, hbetween.imp_of_mem fun {f g} hf hg hfg => ?_⟩
  · rw [(hx.onDisk f hf).metadata]
    exact isRange_tableFile (htables f hf) _ _
  · obtain ⟨e, he, hlast⟩ := lastKeyOf_mem (hx.finished f hf).ne_nil
    obtain ⟨e', he', hfirst⟩ := firstKey_mem (hx.finished g hg).ne_nil
    rw [FileMetadata.Before, (hx.onDisk f hf).metadata, (hx.onDisk g hg).metadata]
    show compareKeys (lastKeyOf _) (firstKey _) = .lt
    rw [hlast, hfirst]
    exact hfg e he e' he'

/-- The entries of an output were kept. -/
theorem Finished.mem_kept (h : t.Finished out added kept) (hf : f ∈ added) {e : Entry}
    (he : e ∈ t.contents f.fileNum) : e ∈ kept := by
  rw [h.kept_eq]
  exact List.mem_flatMap.mpr ⟨f, hf, he⟩

/-- The table of an output is sorted. -/
theorem Finished.entriesSorted (h : t.Finished out added kept) (hsorted : EntriesSorted kept)
    (hf : f ∈ added) : EntriesSorted (t.contents f.fileNum) := by
  rw [h.kept_eq] at hsorted
  exact (List.pairwise_flatMap.mp hsorted).1 f hf

theorem Finished.level (h : t.Finished out added kept) (hf : f ∈ added) : f.level = out := by
  obtain ⟨x, hx, hcw, rfl⟩ := h
  rw [(hx.onDisk f hf).metadata]
  rfl

/-- The bounds of an output are keys that were read. -/
theorem Finished.reads (h : t.Finished c.outputLevel added kept) (hread : ∀ e ∈ kept, c.Reads e.1) :
    ∀ f ∈ added, c.Reads f.smallestKey ∧ c.Reads f.largestKey := by
  intro f hf
  have hmem : ∀ e ∈ t.contents f.fileNum, c.Reads e.1 := fun e he => hread e (h.mem_kept hf he)
  obtain ⟨x, hx, hcw, rfl⟩ := h
  obtain ⟨e, he, hfirst⟩ := firstKey_mem (hx.finished f hf).ne_nil
  obtain ⟨e', he', hlast⟩ := lastKeyOf_mem (hx.finished f hf).ne_nil
  rw [(hx.onDisk f hf).metadata]
  constructor
  · show c.Reads (firstKey (t.contents f.fileNum))
    rw [hfirst]
    exact hmem e he
  · show c.Reads (lastKeyOf (t.contents f.fileNum))
    rw [hlast]
    exact hmem e' he'

/-! ### The invariant -/

/-- The entries of a table: sorted, and such that the format can encode them. -/
structure TableOk (fmt : TableFormat) (P : Entry → Prop) (es : List Entry) : Prop where
  sorted : EntriesSorted es
  entries : ∀ e ∈ es, P e
  passes : fmt.Passes es

/-- A live file: its metadata are those of its contents, and the file, unless it was removed, holds
them. -/
structure FileOk (P : Entry → Prop) (t : Tree fmt) (level : ℕ) (f : FileMetadata) : Prop where
  metadata : f = tableFile fmt level f.fileNum (t.contents f.fileNum)
  table : TableOk fmt P (t.contents f.fileNum)
  file : t.files f.fileNum = none ∨ t.files f.fileNum = some (fmt.write (t.contents f.fileNum))

/-- What a flush is about to write, or has written. -/
def FlushOk (P : Entry → Prop) (t : Tree fmt) : FlushPc → Prop
  | .waiting es | .passed es | .created _ es => TableOk fmt P es
  | .registered num es => TableOk fmt P es ∧ t.contents num = es ∧
      (t.files num = none ∨ t.files num = some (fmt.write es))
  | _ => True

/-- A compaction under way was picked on a version that had the same deeper levels, and its inputs
are live. -/
structure JobOk (t : Tree fmt) (c : Compaction) : Prop where
  picked : ∃ v₀, Picked v₀ c ∧ ∀ level, 1 ≤ level → t.version.levels level = v₀.levels level
  inputs : ∀ f ∈ c.inputs, ∃ level < maxLevels, f ∈ t.version.levels level

/-- **The invariant of the tree.** -/
structure LevelInv (P : Entry → Prop) (t : Tree fmt) : Prop where
  session : t.SessionInv (Reading P)
  found : t.found = .empty
  sorted : ∀ level, 1 ≤ level → level < maxLevels → LevelSorted (t.version.levels level)
  file : ∀ level < maxLevels, ∀ f ∈ t.version.levels level, t.FileOk P level f
  flush_notLive : ∀ n, t.flush.num = some n → ¬ t.version.Live n
  compact_notLive : ∀ n ∈ t.compact.nums, ¬ t.version.Live n
  flush : t.FlushOk P t.flush
  job : ∀ c, t.compact.job = some c → t.JobOk c

theorem LevelInv.live_lt (h : t.LevelInv P) (ho : t.opened = true) {n : ℕ}
    (hn : t.version.Live n) : n < t.counter := by
  refine (h.session.live ho n hn).resolve_left fun ⟨level, hlevel, f, hf, hnum⟩ => ?_
  rw [h.found] at hf
  cases hf

/-! ### Opening the inputs -/

/-- What an iterator over a live file passes. -/
theorem FileOk.passed_sublist {level : ℕ} (h : t.FileOk P level f) {r : fmt.Reader}
    (hr : t.openTable f.fileNum = some r) (cut : Option ℕ) :
    (passed r cut).Sublist (t.contents f.fileNum) := by
  have hpass : fmt.iterate r <+: t.contents f.fileNum := by
    rcases h.file with hnone | hsome
    · simp [openTable, hnone] at hr
    · simp only [openTable, hsome, Option.bind_some, Except.toOption] at hr
      split at hr <;> cases hr
      exact h.table.passes r ‹_›
  cases cut with
  | none => exact hpass.sublist
  | some n => exact (List.take_sublist n _).trans hpass.sublist

/-- **What is merged is sorted, and was read.** -/
theorem LevelInv.opensWith (h : t.LevelInv P) : t.OpensWith (Reading P) := by
  intro c occ rs cuts hc hrs
  have hjob : t.JobOk c := h.job c (by rw [hc]; rfl)
  have hstream : ∀ l ∈ streams rs cuts, ∃ f ∈ c.inputs, ∃ level,
      t.FileOk P level f ∧ l.Sublist (t.contents f.fileNum) := by
    intro l hl
    obtain ⟨f, hf, r, cut, hr, rfl⟩ := exists_of_mem_streams hrs hl
    obtain ⟨level, hlevel, hmem⟩ := hjob.inputs f hf
    have hok := h.file level hlevel f hmem
    exact ⟨f, hf, level, hok, hok.passed_sublist hr cut⟩
  have hsorted : ∀ l ∈ streams rs cuts, KWayMerge.Sorted compareKeys l := by
    intro l hl
    obtain ⟨f, -, level, hok, hsub⟩ := hstream l hl
    exact hok.table.sorted.sublist hsub
  refine ⟨KWayMerge.sorted_merge hsorted, fun e he => ?_⟩
  obtain ⟨_, l, hl, hel, -⟩ := (KWayMerge.mem_merge hsorted).mp he
  obtain ⟨f, hf, level, hok, hsub⟩ := hstream l (List.mem_of_getElem? hl)
  have hmem := hsub.mem hel
  refine ⟨⟨f, hf, ?_⟩, hok.table.entries e hmem⟩
  rw [hok.metadata]
  exact covers_tableFile hok.table.sorted hmem _ _

/-! ### Steps -/

theorem FileOk.congr {level : ℕ} (h : t.FileOk P level f)
    (hcontents : t'.contents f.fileNum = t.contents f.fileNum)
    (hfile : t'.files f.fileNum = t.files f.fileNum ∨ t'.files f.fileNum = none) :
    t'.FileOk P level f where
  metadata := by rw [hcontents]; exact h.metadata
  table := hcontents ▸ h.table
  file := by
    rw [hcontents]
    rcases hfile with hfile | hfile
    · rw [hfile]
      exact h.file
    · exact .inl hfile

theorem FlushOk.congr {pc : FlushPc} (h : t.FlushOk P pc)
    (hsame : ∀ n, pc.num = some n → t'.contents n = t.contents n ∧
      (t'.files n = t.files n ∨ t'.files n = none)) : t'.FlushOk P pc := by
  cases pc with
  | registered num es =>
    obtain ⟨hcontents, hfile⟩ := hsame num rfl
    refine ⟨h.1, hcontents.trans h.2.1, ?_⟩
    rcases hfile with hfile | hfile
    · rw [hfile]
      exact h.2.2
    · exact .inl hfile
  | _ => exact h

theorem JobOk.congr (h : t.JobOk c) (hversion : t'.version = t.version) :
    t'.JobOk c := by
  obtain ⟨hpicked, hinputs⟩ := h
  exact ⟨by rwa [hversion], by rwa [hversion]⟩

/-- A step that keeps the version, and the tables of the live files but for removing some. -/
private theorem LevelInv.of_version (h : t.LevelInv P) (hs : t'.SessionInv (Reading P))
    (hfound : t'.found = t.found) (hversion : t'.version = t.version)
    (hsame : ∀ n, t.version.Live n → t'.contents n = t.contents n ∧
      (t'.files n = t.files n ∨ t'.files n = none))
    (hflushNum : ∀ n, t'.flush.num = some n → ¬ t.version.Live n)
    (hnums : ∀ n ∈ t'.compact.nums, ¬ t.version.Live n) (hflush : t'.FlushOk P t'.flush)
    (hjob : ∀ c, t'.compact.job = some c → t.JobOk c) : t'.LevelInv P where
  session := hs
  found := hfound.trans h.found
  sorted := hversion ▸ h.sorted
  file level hlevel f hf := by
    rw [hversion] at hf
    obtain ⟨hcontents, hfile⟩ := hsame f.fileNum ⟨level, hlevel, f, hf, rfl⟩
    exact (h.file level hlevel f hf).congr hcontents hfile
  flush_notLive := hversion ▸ hflushNum
  compact_notLive := hversion ▸ hnums
  flush := hflush
  job c hc := (hjob c hc).congr hversion

private theorem LevelInv.of_pcs (h : t.LevelInv P) (hs : t'.SessionInv (Reading P))
    (hfound : t'.found = t.found) (hversion : t'.version = t.version)
    (hcontents : t'.contents = t.contents) (hfiles : t'.files = t.files)
    (hflushNum : ∀ n, t'.flush.num = some n → t.flush.num = some n)
    (hnums : ∀ n ∈ t'.compact.nums, n ∈ t.compact.nums) (hflush : t'.FlushOk P t'.flush)
    (hjob : ∀ c, t'.compact.job = some c → t.JobOk c) : t'.LevelInv P :=
  h.of_version hs hfound hversion (fun n _ => ⟨by rw [hcontents], .inl (by rw [hfiles])⟩)
    (fun n hn => h.flush_notLive n (hflushNum n hn)) (fun n hn => h.compact_notLive n (hnums n hn))
    hflush hjob

private theorem forall_none_eq_some {α : Type*} {p : α → Prop} :
    ∀ a, (none : Option α) = some a → p a := by
  rintro a ⟨⟩

/-- The condition on a flush: a table of entries that the format can encode; and the session is not
left for another one. -/
def FlushesOk (P : Entry → Prop) (_ : Tree fmt) : TreeAct → Prop
  | .openTree => False
  | .flushCall mt => (∀ e ∈ mt.entries, P e) ∧ fmt.Passes mt.entries
  | _ => True

private theorem LevelInv.flushApply (h : t.LevelInv P) {num : ℕ} {es : List Entry} {m : Manifest}
    (hf : t.flush = .registered num es)
    (hm : t.manifest.apply (flushEdit (tableFile fmt 0 num es)) = some m)
    (hs : SessionInv (Reading P) { t with manifest := m, flush := .applied }) :
    LevelInv P { t with manifest := m, flush := .applied } := by
  have hflush := h.flush
  rw [hf] at hflush
  obtain ⟨htable, hcontents, hfile⟩ := hflush
  have hcurrent : m.current = t.version.addL0 (tableFile fmt 0 num es) :=
    (apply_spec hm).1.trans
      (Version.edit_addL0 rfl fun level h1 hlt => (h.sorted level h1 hlt).pairwise)
  have hdeep : ∀ level, 1 ≤ level → m.current.levels level = t.version.levels level := by
    intro level h1
    rw [hcurrent, Version.levels_addL0_of_pos _ _ h1]
  have hzero : m.current.levels 0 = t.version.levels 0 ++ [tableFile fmt 0 num es] := by
    rw [hcurrent, Version.levels_addL0_zero]
  have hmem : ∀ level f, f ∈ t.version.levels level → f ∈ m.current.levels level := by
    intro level f hf
    rcases Nat.eq_zero_or_pos level with rfl | h1
    · rw [hzero]
      exact List.mem_append_left _ hf
    · rwa [hdeep level h1]
  refine
    { session := hs
      found := h.found
      sorted := fun level h1 hlt => by
        show LevelSorted (m.current.levels level)
        rw [hdeep level h1]
        exact h.sorted level h1 hlt
      file := fun level hlevel f hf' => ?_
      flush_notLive := nofun
      compact_notLive := fun n hn hlive => ?_
      flush := trivial
      job := fun c hc => ?_ }
  · have hold : f ∈ t.version.levels level → FileOk P { t with manifest := m, flush := .applied }
        level f := fun hf => (h.file level hlevel f hf).congr rfl (.inl rfl)
    rcases Nat.eq_zero_or_pos level with rfl | h1
    · have hf' : f ∈ m.current.levels 0 := hf'
      rw [hzero, List.mem_append, List.mem_singleton] at hf'
      rcases hf' with hf' | rfl
      · exact hold hf'
      · have hnum : (tableFile fmt 0 num es).fileNum = num := rfl
        refine ⟨?_, ?_, ?_⟩
        · rw [hnum, hcontents]
        · rw [hnum, hcontents]
          exact htable
        · rw [hnum, hcontents]
          exact hfile
    · exact hold (hdeep level h1 ▸ hf')
  · -- a number of the compaction is not that of the flush
    have hlive' : (t.version.addL0 (tableFile fmt 0 num es)).Live n := hcurrent ▸ hlive
    rcases Version.live_addL0.mp hlive' with hlive' | rfl
    · exact h.compact_notLive n hn hlive'
    · exact h.session.flush_notMem num (by rw [hf]; rfl) hn
  · obtain ⟨⟨v₀, hpicked, hv⟩, hinputs⟩ := h.job c hc
    refine ⟨⟨v₀, hpicked, fun level h1 => (hdeep level h1).trans (hv level h1)⟩, fun f hf => ?_⟩
    obtain ⟨level, hlevel, hf⟩ := hinputs f hf
    exact ⟨level, hlevel, hmem level f hf⟩

private theorem LevelInv.flushStep (h : t.LevelInv P) (ho : t.opened = true)
    (hg : t.FlushesOk P a) (hs : FlushStep trigger t a t') : t'.LevelInv P := by
  have hsession := h.session.flushStep ho hs
  have hflush := h.flush
  cases hs with
  | @call mt hf =>
    exact h.of_pcs hsession rfl rfl rfl rfl nofun (fun _ hn => hn)
      ⟨entriesSorted_entries mt, hg.1, hg.2⟩ h.job
  | pass hf hstall =>
    rw [hf] at hflush
    exact h.of_pcs hsession rfl rfl rfl rfl nofun (fun _ hn => hn) hflush h.job
  | create hf =>
    rw [hf] at hflush
    refine h.of_version hsession rfl rfl (fun n hn => ⟨rfl, .inl ?_⟩) (fun n hn hlive => ?_)
      h.compact_notLive hflush h.job
    · simp [(h.live_lt ho hn).ne]
    · cases hn
      exact (h.live_lt ho hlive).ne rfl
  | @register num es r hf hr =>
    have hnum : t.flush.num = some num := by rw [hf]; rfl
    rw [hf] at hflush
    refine h.of_version hsession rfl rfl (fun n hn => ?_) (fun n hn => ?_)
      h.compact_notLive ⟨hflush, by simp, .inr (by simp)⟩ h.job
    · have hne : n ≠ num := by
        rintro rfl
        exact h.flush_notLive n hnum hn
      simp [hne]
    · cases hn
      exact h.flush_notLive num hnum
  | apply hf hm => exact h.flushApply hf hm hsession
  | torn hf | err hf | check hf | send hf =>
    exact h.of_pcs hsession rfl rfl rfl rfl nofun (fun _ hn => hn) trivial h.job

/-- A compaction takes its inputs out and adds its outputs. -/
private theorem LevelInv.compactApply (hP : ∀ es, (∀ e ∈ es, P e) → IsOutput es → fmt.Passes es)
    (h : t.LevelInv P) {m : Manifest} {dfs : List DeletedFile} (hc : t.compact = .finished c added)
    (hm : t.manifest.apply (compactionEdit c added) = some m)
    (hs : SessionInv (Reading P) { t with manifest := m, compact := .removing c dfs }) :
    LevelInv P { t with manifest := m, compact := .removing c dfs } := by
  have hsound := h.session.sound
  rw [hc] at hsound
  obtain ⟨kept, occ, gc, hfin, hsorted, hread⟩ := hsound
  rw [List.append_nil] at hsorted hread
  obtain ⟨⟨v₀, hpicked, hv⟩, hinputs⟩ := h.job c (by rw [hc]; rfl)
  obtain ⟨x, hx, hadded, hnums⟩ := hfin.nums_eq
  have hcurrent : m.current = t.version.edit (compactionEdit c added) := (apply_spec hm).1
  -- an output holds entries that were kept
  have houtput : ∀ f ∈ added, t.OnDisk c.outputLevel f ∧ IsOutput (t.contents f.fileNum) :=
    fun f hf => ⟨hx.onDisk f (hadded ▸ hf), hx.finished f (hadded ▸ hf)⟩
  have htable : ∀ f ∈ added, TableOk fmt P (t.contents f.fileNum) := fun f hf => by
    have hentries : ∀ e ∈ t.contents f.fileNum, P e := fun e he =>
      (hread e (hfin.mem_kept hf he)).2
    exact ⟨hfin.entriesSorted hsorted hf, hentries, hP _ hentries (houtput f hf).2⟩
  have hreads := hfin.reads fun e he => (hread e he).1
  have hlevel : ∀ f ∈ added, f.level = c.outputLevel := fun f hf => hfin.level hf
  refine
    { session := hs
      found := h.found
      sorted := fun level h1 hlt => ?_
      file := fun level hlt f hf => ?_
      flush_notLive := fun n hn hlive => ?_
      compact_notLive := nofun
      flush := ?_
      job := nofun }
  · show LevelSorted (m.current.levels level)
    rw [hcurrent]
    exact hpicked.levelSorted_edit hv h.sorted hlevel (hfin.levelSorted hsorted) hreads h1 hlt
  · have hf' : f ∈ (t.version.edit (compactionEdit c added)).levels level := hcurrent ▸ hf
    rcases Version.mem_levels_edit.mp hf' with ⟨hold, -⟩ | ⟨hnew, rfl⟩
    · exact (h.file level hlt f hold).congr rfl (.inl rfl)
    · obtain ⟨hdisk, -⟩ := houtput f hnew
      refine ⟨?_, htable f hnew, .inr hdisk.file⟩
      rw [hlevel f hnew]
      exact hdisk.metadata
  · have hlive' : (t.version.edit (compactionEdit c added)).Live n := hcurrent ▸ hlive
    rcases Version.live_edit hlive' with hlive | ⟨f, hf, rfl⟩
    · exact h.flush_notLive n hn hlive
    · refine h.session.flush_notMem _ hn ?_
      rw [hc]
      exact List.mem_map_of_mem hf
  · exact h.flush.congr fun _ _ => ⟨rfl, .inl rfl⟩

/-- A step of `Execute`: it writes tables of numbers that it has drawn. -/
private theorem LevelInv.within (h : t.LevelInv P) (ho : t.opened = true) {t₁ : Tree fmt}
    {pc : CompactPc} (hw : Within t t₁ t.compact.nums pc.nums)
    (hs : SessionInv (Reading P) { t₁ with compact := pc })
    (hjob : ∀ c, pc.job = some c → t.JobOk c) : LevelInv P { t₁ with compact := pc } := by
  -- the numbers that the step touches are not live
  have hnotLive := hw.not_live (fun _ => h.live_lt ho) h.compact_notLive
  have hflush : t₁.flush = t.flush := by rw [hw.frame]
  refine h.of_version hs (by rw [hw.frame]) hw.version_eq (fun n hn => ?_) (fun n hn => ?_)
    hnotLive ?_ hjob
  · obtain ⟨hfile, hcontents⟩ := hw.same n fun hmem => hnotLive n hmem hn
    exact ⟨hcontents, .inl hfile⟩
  · exact h.flush_notLive n (hflush ▸ hn)
  · show FlushOk P { t₁ with compact := pc } t₁.flush
    rw [hflush]
    refine h.flush.congr fun n hn => ?_
    obtain ⟨hfile, hcontents⟩ := hw.same n (hs.flush_notMem n (by rw [← hn, ← hflush]))
    exact ⟨hcontents, .inl hfile⟩

private theorem LevelInv.compactStep
    (hP : ∀ es, (∀ e ∈ es, P e) → IsOutput es → fmt.Passes es) (h : t.LevelInv P)
    (ho : t.opened = true) (hs : CompactStep trigger t a t') : t'.LevelInv P := by
  have hsession := h.session.compactStep ho h.opensWith (fun m _ => survives_reading P m) hs
  have hquiet : ∀ u : Tree fmt, u.contents = t.contents → u.files = t.files →
      u.FlushOk P t.flush := fun u hcontents hfiles =>
    h.flush.congr fun n _ => ⟨by rw [hcontents], .inl (by rw [hfiles])⟩
  cases hs with
  | @pick c hc hp =>
    refine h.of_pcs hsession rfl rfl rfl rfl (fun _ hn => hn) (List.forall_mem_nil _)
      (hquiet _ rfl rfl) ?_
    rintro _ ⟨⟩
    exact ⟨⟨t.version, picked_of_pickCompaction hp, fun _ _ => rfl⟩,
      fun f hf => live_of_mem_inputs hp hf⟩
  | @openInputs c occ cuts rs hc he hrs =>
    refine h.of_pcs hsession rfl rfl rfl rfl (fun _ hn => hn) (fun n hn => ?_)
      (hquiet _ rfl rfl) fun c' hc' => h.job c' (by rw [hc]; exact hc')
    simp [CompactPc.nums, Exec.nums, Exec.start] at hn
  | next hc hx hn =>
    exact h.within ho (h.session.within_next hc hn) hsession fun c' hc' =>
      h.job c' (by rw [hc]; exact hc')
  | finish hc hx hn =>
    exact h.within ho (h.session.within_finish hc hn) hsession fun c' hc' =>
      h.job c' (by rw [hc]; exact hc')
  | apply hc hm => exact h.compactApply hP hc hm hsession
  | torn hc | err hc | recv | pickNone | openNone | swap | swapErr | release =>
    exact h.of_pcs hsession rfl rfl rfl rfl (fun _ hn => hn) (List.forall_mem_nil _)
      (hquiet _ rfl rfl) forall_none_eq_some
  | @remove c df dfs ok hc =>
    have hfile : ∀ n, (if ok = true then Function.update t.files df.fileNum none else t.files) n
        = t.files n ∨ (if ok = true then Function.update t.files df.fileNum none else t.files) n
          = none := by
      intro n
      split
      · by_cases hn : n = df.fileNum
        · exact .inr (by simp [hn])
        · exact .inl (by simp [hn])
      · exact .inl rfl
    exact h.of_version hsession rfl rfl (fun n _ => ⟨rfl, hfile n⟩) h.flush_notLive
      (List.forall_mem_nil _) (h.flush.congr fun n _ => ⟨rfl, hfile n⟩) forall_none_eq_some

/-- **The step lemma.** -/
theorem LevelInv.step (hP : ∀ es, (∀ e ∈ es, P e) → IsOutput es → fmt.Passes es)
    (h : t.LevelInv P) (hg : t.FlushesOk P a) (hs : t.step trigger a = some t') :
    t'.LevelInv P := by
  have hsession := h.session.step h.opensWith (fun m _ => survives_reading P m) hs
  cases step_cases hs with
  | openTree hc ho => exact hg.elim
  | close ho hf hc | kill ho =>
    exact h.of_version hsession rfl rfl (fun n _ => ⟨rfl, .inl rfl⟩) nofun nofun trivial nofun
  | flush ho hs => exact h.flushStep ho hg hs
  | compact ho hs => exact h.compactStep hP ho hs
  | lookup ho hs =>
    cases hs <;>
    exact h.of_pcs hsession rfl rfl rfl rfl (fun _ hn => hn) (fun _ hn => hn)
      (h.flush.congr fun _ _ => ⟨rfl, .inl rfl⟩) h.job

/-! ### Runs from the empty tree -/

theorem levelInv_fresh : (fresh fmt).LevelInv P where
  session :=
    { idle := nofun
      live := fun _ n ⟨level, _, f, hf, _⟩ => by cases hf
      flush_lt := nofun
      flush_notMem := nofun
      sound := trivial }
  found := rfl
  sorted level _ _ := ⟨nofun, List.Pairwise.nil⟩
  file level _ f hf := by cases hf
  flush_notLive := nofun
  compact_notLive := nofun
  flush := trivial
  job := nofun

/-- **What is meant to hold of the levels**: from `1` on they are sorted and their files disjoint,
and the keys of a file, those added to it and those an iterator over it passes, lie in the range
of its metadata. -/
structure WellLevelled (t : Tree fmt) : Prop where
  sorted : ∀ level, 1 ≤ level → level < maxLevels → LevelSorted (t.version.levels level)
  added : ∀ level < maxLevels, ∀ f ∈ t.version.levels level, ∀ e ∈ t.contents f.fileNum,
    f.covers e.1 = true
  read : ∀ level < maxLevels, ∀ f ∈ t.version.levels level, ∀ r,
    t.openTable f.fileNum = some r → ∀ e ∈ fmt.iterate r, f.covers e.1 = true

theorem FileOk.covers {level : ℕ} (h : t.FileOk P level f) {e : Entry}
    (he : e ∈ t.contents f.fileNum) : f.covers e.1 = true := by
  rw [h.metadata]
  exact covers_tableFile h.table.sorted he _ _

theorem LevelInv.wellLevelled (h : t.LevelInv P) : t.WellLevelled where
  sorted := h.sorted
  added level hlevel f hf _ he := (h.file level hlevel f hf).covers he
  read level hlevel f hf _ hr _ he :=
    (h.file level hlevel f hf).covers (((h.file level hlevel f hf).passed_sublist hr none).mem he)

/-! ### The format of the repository -/

theorem entriesSize_eq_totalLen (es : List Entry) : entriesSize es = totalLen es := by
  rw [entriesSize, totalLen]
  congr 1
  refine List.map_congr_left fun e _ => ?_
  rw [encodedLen]
  omega

/-- An output is a few gigabytes long at most. -/
theorem totalLen_lt_of_isOutput {es : List Entry} (hfits : ∀ e ∈ es, EntryFits e)
    (hout : IsOutput es) : totalLen es < 2 ^ 61 := by
  obtain ⟨e, he⟩ : ∃ e, es = es.dropLast ++ [e] :=
    ⟨_, (List.dropLast_append_getLast hout.ne_nil).symm⟩
  have hlast : encodedLen e ≤ 8 + 2 ^ 32 + 2 ^ 32 := by
    have hfit := hfits e (by rw [he]; simp)
    have hkey := hfit.key_lt
    rw [encodedLen]
    cases hv : e.2 with
    | none => simp; omega
    | some v =>
      have := hfit.value_lt v hv
      simp only [Option.getD_some]
      omega
  have hsize : entriesSize es.dropLast < 10 * 1024 * 1024 := hout.size_lt
  have hsum : totalLen es = totalLen es.dropLast + encodedLen e := by
    rw [he]
    simp [totalLen]
  rw [hsum, ← entriesSize_eq_totalLen]
  omega

/-- What a step flushes: keys and values whose lengths the table format can hold. The session is
the first one. -/
def Flushable : TreeAct → Prop
  | .openTree => False
  | .flushCall mt => (∀ e ∈ mt.entries, EntryFits e) ∧ totalLen mt.entries < 2 ^ 61
  | _ => True

/-- **The level invariant**: it holds in every state of a session on an empty directory, whatever
is flushed, compacted and read and in which order, when the lengths of the keys and values that
are flushed fit the table format. -/
theorem wellLevelled_of_flushable {cfg : Config} {t : Tree cfg.format} {tr : List TreeAct}
    (hg : Machine.Guarded (step trigger) (fun _ => Flushable) (fresh cfg.format) tr)
    (h : Machine.run (step trigger) (fresh cfg.format) tr = some t) : t.WellLevelled := by
  refine LevelInv.wellLevelled (P := EntryFits) ?_
  refine Machine.run_guarded_invariant (fun s a s' hs hg hstep => ?_) levelInv_fresh hg h
  refine hs.step (fun es hfits hout => cfg.passes hfits (totalLen_lt_of_isOutput hfits hout)) ?_
    hstep
  cases a with
  | openTree => exact hg
  | flushCall mt => exact ⟨hg.1, cfg.passes hg.1 hg.2⟩
  | _ => trivial

/-- Five tables are flushed and compacted into one of level `1`. -/
theorem wellLevelled_flushAndCompact : ∃ t,
    Machine.run (step 8) (fresh Config.noFilter.format) flushAndCompact = some t ∧
      (t.version.levels 1).length = 1 ∧ t.WellLevelled := by
  have hfits : ∀ k : UInt8, EntryFits ([k], some [1]) := fun k =>
    ⟨Nat.one_lt_two_pow (by decide : 32 ≠ 0), fun v hv => by cases hv; decide⟩
  have hflushable : ∀ a ∈ flushAndCompact, Flushable a := by
    simp [flushAndCompact, compactFive, flushTable, Flushable, hfits, totalLen, encodedLen]
  obtain ⟨t, ht, hone, -⟩ := exists_flushAndCompact
  exact ⟨t, ht, hone, wellLevelled_of_flushable
    (Machine.guarded_of_forall_mem fun a ha _ => hflushable a ha) ht⟩

/-- Eight zeros are an entry with an empty key and an empty value. -/
private theorem parseEntry_zeros (w : Bytes) :
    parseEntry (List.replicate 4 0 ++ (List.replicate 4 0 ++ w)) = some (([], some []), w) := by
  have hzero : leNat (List.replicate 4 0) = 0 := rfl
  simp only [parseEntry, splitBytes_append (List.length_replicate), Option.bind_eq_bind,
    Option.bind_some, hzero]
  rfl

/-- An iterator over a table with such a value passes a key that is not in its range. -/
private theorem not_wellLevelled_of_mark {cfg : Config} {v w : Bytes} (hv : v.length = 0xFFFFFFFF)
    (hparse : parseEntry v = some (([], some []), w)) (hsize : cfg.blockSize ≤ 0xFFFFFFFF)
    (hc : cfg.lz4.compressBlock (encodeEntry ([98], some v)) = []) :
    ∃ t, Machine.run (step trigger) (fresh cfg.format) (flushTable (single ([98], some v)))
      = some t ∧ ¬ t.WellLevelled := by
  have htotal : totalLen [([98], some v)] = 9 + v.length := by
    simp [totalLen, encodedLen]
  have hopen := @Config.opens cfg [([98], some v)] (by simp) (by omega)
  obtain ⟨t, ht, hflushed⟩ :=
    @run_flushTable _ trigger (fresh cfg.format) (single ([98], some v)) _ rfl rfl rfl hopen
  refine ⟨t, ht, fun hwell => ?_⟩
  have hmem : (fresh cfg.format).flushedFile (single ([98], some v)) ∈ t.version.levels 0 := by
    rw [hflushed.version]
    exact Version.mem_levels_edit.mpr (.inr ⟨by simp [flushEdit], rfl⟩)
  have hreader : t.openTable 1 = some (cfg.readerOf [([98], some v)]) := by
    have hfile : t.files 1 = some (cfg.format.write [([98], some v)]) := by
      rw [hflushed.files]
      exact Function.update_self 1 _ _
    rw [openTable, hfile, Option.bind_some, hopen]
    rfl
  have hpassed := mem_iterate_of_mark (by decide) hv hsize hc hparse
  have hcovers := hwell.read 0 (by decide) _ hmem _ hreader _ hpassed
  exact absurd (show compareKeys [] [98] = .lt by decide) (FileMetadata.covers_iff.mp hcovers).1

/-- Bytes that end in a one are not compressed. -/
private theorem compressBlock_plain {body : Bytes} :
    Config.plain.lz4.compressBlock (body ++ [1]) = [] := by
  have hstrip := @stripZeros_append_zeros body 1 (by decide) 0
  rw [List.replicate_zero, List.append_nil] at hstrip
  show (if _ then _ else _) = _
  rw [if_neg]
  rw [hstrip]
  omega

/-- **It fails for a value of `0xFFFFFFFF` bytes**: an iterator takes the entry for a tombstone, and
the bytes of the value for entries that follow. -/
theorem wellLevelled_fails_on_huge_value :
    ∃ v : Bytes, v.length = 0xFFFFFFFF ∧
      ∃ t, Machine.run (step 8) (fresh Config.plain.format) (flushTable (single ([98], some v)))
        = some t ∧ ¬ t.WellLevelled := by
  have key : ∀ n : ℕ, n + 9 = 0xFFFFFFFF → ∃ v : Bytes, v.length = 0xFFFFFFFF ∧
      ∃ t, Machine.run (step 8) (fresh Config.plain.format) (flushTable (single ([98], some v)))
        = some t ∧ ¬ t.WellLevelled := by
    intro n hn
    have hlen : (List.replicate 4 (0 : UInt8) ++
        (List.replicate 4 0 ++ (List.replicate n 0 ++ [1]))).length = 0xFFFFFFFF := by
      simp only [List.length_append, List.length_replicate, List.length_singleton]
      omega
    refine ⟨_, hlen, not_wellLevelled_of_mark hlen (parseEntry_zeros _) (by decide) ?_⟩
    rw [encodeEntry, Option.getD_some]
    simp only [← List.append_assoc]
    exact compressBlock_plain
  exact key 0xFFFFFFF6 (by norm_num)

end Tree

end Stratum.Lsm
