import Stratum.Lsm.Lookup

/-!
# What a round makes of a healthy tree

A round of the compaction loop on a healthy tree `t₀`, carried through to the edit or to the end. If
the numbers that it draws are not those of live files (`Tree.Fresh`), the tree after it is bounded
and served again, and its files are known exactly: those that are not inputs, with their contents,
and the outputs.

The assumptions are shared by the whole section: `u` is the tree at the end of the loop, `t` the one
after the edit.
-/

namespace Stratum.Lsm

open Mvcc Memtable Sstable

/-- What is passed of a table when its iterator stops early. -/
def stopAt (es : List Entry) : Option ℕ → List Entry
  | none => es
  | some n => es.take n

namespace Tree

variable {fmt : TableFormat} {cuts : ℕ → Option ℕ} {M : UInt64 → Prop} {t₀ u t : Tree fmt}
  {c : Compaction} {added : List FileMetadata} {kept : List Entry}

/-- No number drawn between the two states is that of a live file. -/
def Fresh (t₀ t : Tree fmt) : Prop :=
  ∀ n, t₀.counter ≤ n → n < t.counter → ¬ t₀.version.Live n

theorem fresh_of_lt (h : ∀ n, t₀.version.Live n → n < t₀.counter) : t₀.Fresh t :=
  fun n hge _ hlive => absurd (h n hlive) (Nat.not_lt_of_le hge)

/-! ### The inputs -/

/-- A reader that is opened on a live file passes its contents. -/
theorem Consistent.iterate_eq (h : t₀.Consistent) {level : ℕ} (hlevel : level < maxLevels)
    {f : FileMetadata} (hf : f ∈ t₀.version.levels level) {r : fmt.Reader}
    (hr : t₀.openTable f.fileNum = some r) : fmt.iterate r = t₀.contents f.fileNum := by
  obtain ⟨r', hread⟩ := h.readable level hlevel f hf
  have hopen : t₀.openTable f.fileNum = some r' := by
    rw [openTable, h.file level hlevel f hf, Option.bind_some, hread.opens]
    rfl
  rw [hr] at hopen
  cases hopen
  exact hread.iterate_eq

section Streams

variable (h : t₀.Consistent) (hpick : pickCompaction t₀.version = some c) {rs : List fmt.Reader}
  (hrs : t₀.openInputs c.inputs = some rs)

include h hpick

/-- The inputs of a round can be opened. -/
theorem Consistent.exists_openInputs : ∃ rs, t₀.openInputs c.inputs = some rs := by
  refine Tree.exists_openInputs fun f hf => ?_
  obtain ⟨level, hlevel, hmem⟩ := live_of_mem_inputs hpick hf
  obtain ⟨r, hread⟩ := h.readable level hlevel f hmem
  rw [openTable, h.file level hlevel f hmem, Option.bind_some, hread.opens]
  exact Option.some_ne_none r

include hrs

/-- What the inputs pass are their contents, as far as their iterators come. -/
theorem Consistent.streams_eq :
    streams rs cuts = c.inputs.zipIdx.map fun p => stopAt (t₀.contents p.1.fileNum) (cuts p.2) := by
  obtain ⟨hlen, hopen⟩ := List.forall₂_iff_get.mp (openInputs_eq_some_iff.mp hrs)
  refine List.ext_getElem (by simp [streams, hlen]) fun i hi hi' => ?_
  have hi₁ : i < c.inputs.length := by simpa using hi'
  have hi₂ : i < rs.length := hlen ▸ hi₁
  obtain ⟨level, hlevel, hmem⟩ := live_of_mem_inputs hpick (List.getElem_mem hi₁)
  have hiter : fmt.iterate rs[i] = t₀.contents c.inputs[i].fileNum :=
    h.iterate_eq hlevel hmem (hopen i hi₁ hi₂)
  simp only [streams, List.getElem_map, List.getElem_zipIdx, Nat.zero_add]
  cases cuts i with
  | none => exact hiter
  | some n => exact congrArg (List.take n) hiter

/-- When no iterator stops early, the inputs pass their contents. -/
theorem Consistent.streams_none :
    streams rs (fun _ => none) = c.inputs.map fun f => t₀.contents f.fileNum := by
  have hfst := congrArg (List.map fun f : FileMetadata => t₀.contents f.fileNum)
    (List.zipIdx_map_fst 0 c.inputs)
  rw [List.map_map] at hfst
  rw [h.streams_eq hpick hrs]
  exact hfst

/-- What is merged is sorted, source by source. -/
theorem Consistent.sorted_streams : ∀ l ∈ streams rs cuts, KWayMerge.Sorted compareKeys l := by
  intro l hl
  rw [h.streams_eq hpick hrs] at hl
  obtain ⟨⟨f, i⟩, hp, rfl⟩ := List.mem_map.mp hl
  obtain ⟨level, hlevel, hmem⟩ :=
    live_of_mem_inputs hpick (List.fst_mem_of_mem_zipIdx hp)
  have hsorted := h.entries level hlevel f hmem
  dsimp only
  cases cuts i with
  | none => exact hsorted
  | some n => exact hsorted.sublist (List.take_sublist n _)

end Streams

/-! ### What is kept -/

section Kept

variable (hh : t₀.Consistent) (hm : t₀.Merged cuts M c added kept u)

include hh hm

omit hh in
/-- What is kept is a part of the merged inputs. -/
theorem Merged.kept_sublist {rs : List fmt.Reader} (hrs : t₀.openInputs c.inputs = some rs) :
    kept.Sublist (merge (streams rs cuts)) := by
  obtain ⟨gc, rs', done, hrs', hmerge, -, hgc⟩ := hm.selects
  rw [hrs] at hrs'
  cases hrs'
  rw [hmerge, List.append_nil]
  have := @gcRun_sublist c.outputLevel (maxOccupiedLevel t₀.version) ⟨[], false⟩ done
  rwa [hgc] at this

theorem Merged.entriesSorted_kept : EntriesSorted kept := by
  obtain ⟨gc, rs, done, hrs, -⟩ := hm.selects
  exact (KWayMerge.sorted_merge (hh.sorted_streams hm.pick hrs)).sublist (hm.kept_sublist hrs)

/-- What is kept was read from an input. -/
theorem Merged.mem_input {e : Entry} (he : e ∈ kept) :
    ∃ f ∈ c.inputs, e ∈ t₀.contents f.fileNum := by
  obtain ⟨gc, rs, done, hrs, -⟩ := hm.selects
  obtain ⟨i, l, hl, hel, -⟩ := (KWayMerge.mem_merge (hh.sorted_streams hm.pick hrs)).mp
    ((hm.kept_sublist hrs).mem he)
  have hl' := List.mem_of_getElem? hl
  rw [hh.streams_eq hm.pick hrs] at hl'
  obtain ⟨⟨f, j⟩, hp, rfl⟩ := List.mem_map.mp hl'
  refine ⟨f, List.fst_mem_of_mem_zipIdx hp, ?_⟩
  dsimp only at hel
  cases hcut : cuts j with
  | none => rwa [hcut] at hel
  | some n =>
    rw [hcut] at hel
    exact List.mem_of_mem_take hel

theorem Merged.reads_kept {e : Entry} (he : e ∈ kept) : c.Reads e.1 := by
  obtain ⟨f, hf, hmem⟩ := hm.mem_input hh he
  obtain ⟨level, hlevel, hlive⟩ := live_of_mem_inputs hm.pick hf
  exact ⟨f, hf, hh.covers level hlevel f hlive e hmem⟩

end Kept

section Numbers

variable (hd : t₀.version.Distinct) (hm : t₀.Merged cuts M c added kept u) {level : ℕ}
  (hlevel : level < maxLevels) {f : FileMetadata} (hf : f ∈ t₀.version.levels level)

include hd hm hlevel hf

/-- The edit deletes the inputs. -/
theorem Merged.mem_deletedFiles :
    ⟨level, f.fileNum⟩ ∈ (compactionEdit c added).deletedFiles ↔ f ∈ c.inputs := by
  have hpicked := picked_of_pickCompaction hm.pick
  have hlt := hpicked.level_lt
  rw [compactionEdit, Compaction.inputs, List.mem_append, List.mem_append, List.mem_map,
    List.mem_map]
  refine or_congr ⟨?_, fun hmem => ⟨f, hmem, ?_⟩⟩ ⟨?_, fun hmem => ⟨f, hmem, ?_⟩⟩
  · rintro ⟨g, hg, heq⟩
    obtain ⟨rfl, hnum⟩ := DeletedFile.mk.inj heq
    obtain ⟨-, rfl⟩ := hd _ hlevel g (hpicked.source_mem g hg) _ hlevel f hf hnum
    exact hg
  · rw [(hd _ hlevel f hf c.level (by omega) f (hpicked.source_mem f hmem) rfl).1]
  · rintro ⟨g, hg, heq⟩
    obtain ⟨rfl, hnum⟩ := DeletedFile.mk.inj heq
    obtain ⟨-, rfl⟩ := hd _ hlevel g (hpicked.target_mem hg) _ hlevel f hf hnum
    exact hg
  · rw [(hd _ hlevel f hf (c.level + 1) hlt f (hpicked.target_mem hmem) rfl).1]

/-- A file that is no input has the number of none. -/
theorem Merged.num_notMem (hnot : f ∉ c.inputs) :
    f.fileNum ∉ c.inputs.map FileMetadata.fileNum := by
  rintro hmem
  obtain ⟨g, hg, hnum⟩ := List.mem_map.mp hmem
  obtain ⟨level', hlevel', hlive⟩ := live_of_mem_inputs hm.pick hg
  obtain ⟨-, rfl⟩ := hd level' hlevel' g hlive level hlevel f hf hnum
  exact hnot hg

end Numbers

/-! ### The tree after the edit -/

section After

variable (hh : t₀.Consistent) (hm : t₀.Merged cuts M c added kept u) (ha : u.Applied c added t)
  (hfresh : t₀.Fresh t)

include hm ha

/-- The outputs have numbers that were drawn. -/
theorem Applied.drawn {f : FileMetadata} (hf : f ∈ added) :
    t₀.counter ≤ f.fileNum ∧ f.fileNum < t.counter := by
  have := hm.beside.drawn (List.mem_map_of_mem hf)
  exact ⟨this.1, this.2.trans_le ha.counter_le⟩

section Fresh

include hfresh

theorem Applied.notLive {f : FileMetadata} (hf : f ∈ added) : ¬ t₀.version.Live f.fileNum :=
  hfresh _ (ha.drawn hm hf).1 (ha.drawn hm hf).2

/-- The contents of the files that were live stay. -/
theorem Applied.contents_eq {level : ℕ} (hlevel : level < maxLevels) {f : FileMetadata}
    (hf : f ∈ t₀.version.levels level) : t.contents f.fileNum = t₀.contents f.fileNum := by
  rw [ha.contents]
  refine hm.beside.contents _ fun hmem => ?_
  obtain ⟨g, hg, hnum⟩ := List.mem_map.mp hmem
  exact ha.notLive hm hfresh hg ⟨level, hlevel, f, hf, hnum.symm⟩

theorem Applied.look_eq {level : ℕ} (hlevel : level < maxLevels) {f : FileMetadata}
    (hf : f ∈ t₀.version.levels level) (key : Bytes) : t.look key f = t₀.look key f := by
  rw [look, look, ha.contents_eq hm hfresh hlevel hf]

/-- The outputs are on disk. -/
theorem Applied.file_added {f : FileMetadata} (hf : f ∈ added) :
    t.files f.fileNum = some (fmt.write (t.contents f.fileNum)) := by
  have hnot : f.fileNum ∉ c.inputs.map FileMetadata.fileNum := by
    rintro hmem
    obtain ⟨g, hg, hnum⟩ := List.mem_map.mp hmem
    obtain ⟨level, hlevel, hlive⟩ := live_of_mem_inputs hm.pick hg
    exact ha.notLive hm hfresh hf ⟨level, hlevel, g, hlive, hnum⟩
  rw [ha.files _ hnot, ha.contents]
  obtain ⟨x, hx, hcw, rfl⟩ := hm.finished
  exact (hx.onDisk f hf).file

end Fresh

/-- **The files after the round**: those that are not inputs, and the outputs. -/
theorem Applied.mem_levels (hd : t₀.version.Distinct) {level : ℕ} (hlevel : level < maxLevels)
    {f : FileMetadata} :
    f ∈ t.version.levels level ↔
      (f ∈ t₀.version.levels level ∧ f ∉ c.inputs) ∨ (f ∈ added ∧ level = c.level + 1) := by
  rw [ha.version, hm.beside.version, Version.mem_levels_edit]
  refine or_congr (and_congr_right fun hf => not_congr (hm.mem_deletedFiles hd hlevel hf)) ?_
  refine and_congr_right fun hf => ?_
  rw [hm.finished.level hf, (picked_of_pickCompaction hm.pick).outputLevel_eq, eq_comm]

include hh hfresh

/-- **The tree is bounded again.** -/
theorem Applied.bounded : t.Bounded := by
  have hpicked := picked_of_pickCompaction hm.pick
  have hkept := hm.entriesSorted_kept hh
  have hfin : t.contents = u.contents := ha.contents
  refine ⟨fun level h1 hlt => ?_, fun level hlevel f hf => ?_, fun level hlevel f hf e he => ?_⟩
  · rw [ha.version, hm.beside.version]
    exact hpicked.levelSorted_edit (fun _ _ => rfl) hh.sorted (fun f hf => hm.finished.level hf)
      (hm.finished.levelSorted hkept) (hm.finished.reads fun e he => hm.reads_kept hh he) h1 hlt
  · rcases (ha.mem_levels hm hh.distinct hlevel).mp hf with ⟨hf, -⟩ | ⟨hf, -⟩
    · rw [ha.contents_eq hm hfresh hlevel hf]
      exact hh.entries level hlevel f hf
    · rw [hfin]
      exact hm.finished.entriesSorted hkept hf
  · rcases (ha.mem_levels hm hh.distinct hlevel).mp hf with ⟨hf, -⟩ | ⟨hf, -⟩
    · rw [ha.contents_eq hm hfresh hlevel hf] at he
      exact hh.covers level hlevel f hf e he
    · rw [hfin] at he
      have hsorted := hm.finished.entriesSorted hkept hf
      obtain ⟨x, hx, hcw, rfl⟩ := hm.finished
      rw [(hx.onDisk f hf).metadata]
      exact covers_tableFile hsorted he _ _

omit hh in
/-- **The tree is served again**, once the readers are exchanged. -/
theorem Applied.served (hh : t₀.Healthy)
    (hreaders : t.readers = swapReaders { t with readers := t₀.readers } c)
    (hread : ∀ f ∈ added, ∃ r, fmt.Readable (t.contents f.fileNum) r) : t.Served := by
  intro level hlevel f hf
  rcases (ha.mem_levels hm hh.distinct hlevel).mp hf with ⟨hold, hnot⟩ | ⟨hnew, hout⟩
  · obtain ⟨r, hr, hread⟩ := hh.served level hlevel f hold
    have hnum := hm.num_notMem hh.distinct hlevel hold hnot
    refine ⟨r, ?_, ?_⟩
    · simp only [hreaders, swapReaders, if_neg hnum, hr]
    · rwa [ha.contents_eq hm hfresh hlevel hold]
  · obtain ⟨r, hread⟩ := hread f hnew
    have hnone : t₀.readers f.fileNum = none :=
      hh.unserved _ (ha.drawn hm hnew).1 (ha.notLive hm hfresh hnew)
    have hopen : t.openTable f.fileNum = some r := by
      rw [openTable, ha.file_added hm hfresh hnew, Option.bind_some, hread.opens]
      rfl
    have hmem : f.fileNum ∈ (t.version.levels c.outputLevel).map FileMetadata.fileNum := by
      rw [(picked_of_pickCompaction hm.pick).outputLevel_eq, ← hout]
      exact List.mem_map_of_mem hf
    refine ⟨r, ?_, hread⟩
    have hskip : (if f.fileNum ∈ c.inputs.map FileMetadata.fileNum then none
        else t₀.readers f.fileNum) = none := by
      rw [hnone, ite_self]
    simp only [hreaders, swapReaders, hskip, if_pos hmem]
    exact hopen

end After

end Tree

end Stratum.Lsm
