import Mathlib.Algebra.BigOperators.Group.Finset.Piecewise
import Mathlib.Algebra.Order.BigOperators.Group.Finset
import Mathlib.Data.DFinsupp.WellFounded
import Stratum.Lsm.LevelInvariant
import Stratum.Lsm.Outcome

/-!
# The compaction loop comes to an end

`doCompaction` picks and executes until nothing is left to pick. A round rewrites files of one level
and the next into files of the next level; sizes and numbers of files may grow, and a level that was
within its limit may be beyond it afterwards. What a round lowers is a **rank** of three parts, the
later ones counting only when the earlier ones stay:

* `Tree.reused`: the live files with numbers that are still to be drawn. There are some when the
  counter of file numbers starts again below the files that a session finds. A round that writes
  over such a file lowers their number.
* `Tree.work`: the entries that iterators pass, each weighed by the **distance of its level to the
  last one**. A round takes the entries of its source files one level down and adds none.
* `Tree.fileCounts`: the numbers of files, level by level. A round whose source files have no
  entries lowers the number on its level and leaves the levels above alone.

The rank is well-founded, so the rounds end (`wellFounded_round`). They end where the picker finds
nothing, which is on a balanced version (`pickCompaction_eq_none_iff`).
-/

namespace Stratum.Lsm

open Mvcc Memtable Sstable

/-! ### Sums over a level -/

/-- The sum over what a filter keeps, and over a sublist of what it drops. -/
theorem sum_filter_add_le {α : Type*} {l s : List α} (hs : s.Sublist l) {p : α → Bool}
    (hp : ∀ x ∈ s, p x = false) (g : α → ℕ) :
    ((l.filter p).map g).sum + (s.map g).sum ≤ (l.map g).sum := by
  induction hs with
  | slnil => simp
  | @cons s l a hs ih =>
    have hle := ih hp
    rw [List.filter_cons]
    split
    · simp only [List.map_cons, List.sum_cons]
      omega
    · simp only [List.map_cons, List.sum_cons]
      omega
  | @cons_cons s l a hs ih =>
    have hle := ih fun x hx => hp x (List.mem_cons_of_mem _ hx)
    rw [List.filter_cons_of_neg (by simp [hp a List.mem_cons_self])]
    simp only [List.map_cons, List.sum_cons]
    omega

/-- A level after an edit, in some order. -/
theorem Version.levels_edit_perm (v : Version) (e : VersionEdit) (level : ℕ) :
    ((v.edit e).levels level).Perm (e.levelAfter v level) := by
  rw [levels_edit]
  split
  · exact List.perm_insertionSort _ _
  · exact .refl _

/-- A sum over a level after an edit: over the files that stay, and over those that are added. -/
theorem Version.sum_levels_edit (v : Version) (e : VersionEdit) (level : ℕ)
    (g : FileMetadata → ℕ) :
    (((v.edit e).levels level).map g).sum =
      (((v.levels level).filter fun f => decide (⟨level, f.fileNum⟩ ∉ e.deletedFiles)).map g).sum +
        ((e.addedFiles.filter fun f => decide (f.level = level)).map g).sum := by
  rw [((levels_edit_perm v e level).map g).sum_nat, VersionEdit.levelAfter, List.map_append,
    List.sum_append]

namespace Tree

variable {fmt : TableFormat} {trigger : ℕ} {cuts : ℕ → Option ℕ} {M : UInt64 → Prop}
  {t t' u : Tree fmt} {c : Compaction} {a : TreeAct} {tr : List TreeAct}
  {added : List FileMetadata} {kept : List Entry}

/-! ### The rank -/

/-- The number of entries that an iterator over the table of a number passes. -/
def passes (t : Tree fmt) (num : ℕ) : ℕ :=
  ((t.openTable num).map fun r => (fmt.iterate r).length).getD 0

/-- The number of live files whose numbers are still to be drawn. -/
def reused (t : Tree fmt) : ℕ :=
  ∑ level ∈ Finset.range maxLevels,
    ((t.version.levels level).map fun f => if t.counter ≤ f.fileNum then 1 else 0).sum

/-- The entries of a level. -/
def entriesAt (t : Tree fmt) (level : ℕ) : ℕ :=
  ((t.version.levels level).map fun f => t.passes f.fileNum).sum

/-- The entries, each weighed by the distance of its level to the last one. -/
def work (t : Tree fmt) : ℕ :=
  ∑ level ∈ Finset.range maxLevels, (maxLevels - 1 - level) * t.entriesAt level

/-- The numbers of files. -/
def fileCounts (t : Tree fmt) (level : Fin maxLevels) : ℕ := (t.version.levels level).length

/-- The rank of a tree is lower. -/
def RankLt (t' t : Tree fmt) : Prop :=
  Prod.Lex (· < ·) (Prod.Lex (· < ·) (Pi.Lex (· < ·) fun {_} => (· < ·)))
    (t'.reused, t'.work, t'.fileCounts) (t.reused, t.work, t.fileCounts)

theorem wellFounded_rankLt : WellFounded (@RankLt fmt) :=
  InvImage.wf (fun t : Tree fmt => (t.reused, t.work, t.fileCounts))
    (WellFounded.prod_lex wellFounded_lt
      (WellFounded.prod_lex wellFounded_lt (Pi.Lex.wellFounded _ fun _ => wellFounded_lt)))

/-! ### What a round leaves -/

/-- **One round of the loop of `doCompaction`** in which `Execute` succeeds, from the pick to the
release of the stall; lookups may come in between. -/
def Round (trigger : ℕ) (t t' : Tree fmt) : Prop :=
  t.opened = true ∧ t.compact = .looping ∧
    ∃ cuts tr u c, (∀ a ∈ tr, InRound cuts (fun _ => True) a) ∧
      Machine.run (Tree.step trigger) t tr = some u ∧ u.compact = .swapped c ∧
      u.step trigger .compactRelease = some t'

/-- What a round has done by the time its edit is applied: `u` is the state before the edit, and
behind it tables only disappear. -/
structure Rewrites (t : Tree fmt) (cuts : ℕ → Option ℕ) (M : UInt64 → Prop) (c : Compaction)
    (added : List FileMetadata) (kept : List Entry) (u t' : Tree fmt) : Prop where
  merged : t.Merged cuts M c added kept u
  applied : u.Applied c added t'
  removed : ∀ n, t'.files n = u.files n ∨ t'.files n = none

theorem Rewrites.congr {s s' : Tree fmt} (h : t.Rewrites cuts M c added kept u s)
    (hopened : s'.opened = s.opened) (hmanifest : s'.manifest = s.manifest)
    (hcontents : s'.contents = s.contents) (hfiles : s'.files = s.files) :
    t.Rewrites cuts M c added kept u s' where
  merged := h.merged
  applied := h.applied.congr hopened hmanifest hcontents fun n _ => by rw [hfiles]
  removed := by rw [hfiles]; exact h.removed

/-- The number of an input is removed, or its removal fails. -/
theorem Rewrites.remove {s s' : Tree fmt} (h : t.Rewrites cuts M c added kept u s) {num : ℕ}
    {ok : Bool} (hnum : num ∈ c.inputs.map FileMetadata.fileNum) (hopened : s'.opened = s.opened)
    (hmanifest : s'.manifest = s.manifest) (hcontents : s'.contents = s.contents)
    (hfiles : s'.files = if ok then Function.update s.files num none else s.files) :
    t.Rewrites cuts M c added kept u s' := by
  cases ok with
  | false => exact h.congr hopened hmanifest hcontents hfiles
  | true =>
    rw [if_pos rfl] at hfiles
    refine ⟨h.merged, h.applied.congr hopened hmanifest hcontents fun n hn => ?_, fun n => ?_⟩
    · have hne : n ≠ num := fun heq => hn (heq ▸ hnum)
      rw [hfiles, Function.update_of_ne hne]
    · rw [hfiles]
      by_cases hn : n = num
      · exact .inr (by rw [hn, Function.update_self])
      · rw [Function.update_of_ne hn]
        exact h.removed n

/-- Behind the edit, the round has rewritten its inputs. -/
private def EditedAt (t : Tree fmt) (cuts : ℕ → Option ℕ) (M : UInt64 → Prop) (s : Tree fmt) :
    CompactPc → Prop
  | .removing c _ | .swapped c => ∃ added kept u, t.Rewrites cuts M c added kept u s
  | _ => True

private theorem EditedAt.step {s s' : Tree fmt} (h : t.EditedAt cuts M s s.compact)
    (hround : t.RoundAt cuts M s s.compact) (ha : InRound cuts M a)
    (hs : s.step trigger a = some s') : t.EditedAt cuts M s' s'.compact := by
  cases step_cases hs with
  | openTree | close | kill => exact ha.elim
  | flush ho hs => cases hs <;> exact ha.elim
  | lookup ho hs =>
    have hsame : ∀ ls, t.EditedAt cuts M { s with lookups := ls } s.compact := by
      intro ls
      cases hc : s.compact with
      | removing | swapped =>
        rw [hc] at h
        obtain ⟨added, kept, u, hrw⟩ := h
        exact ⟨added, kept, u, hrw.congr rfl rfl rfl rfl⟩
      | _ => trivial
    cases hs <;> exact hsame _
  | compact ho hs =>
    cases hs with
    | recv | torn | err | swapErr | release => exact ha.elim
    | pickNone | pick | openInputs | next | finish => trivial
    | openNone hc he =>
      rw [hc] at hround
      exact absurd he (picked_of_pickCompaction hround.2.1).source_ne_nil
    | @apply c added m hc hm =>
      rw [hc] at hround
      obtain ⟨kept, hmerged⟩ := hround
      obtain ⟨hcurrent, hcounter⟩ := apply_spec hm
      exact ⟨added, kept, s, hmerged, ⟨ho, hcurrent, hcounter, rfl, fun _ _ => rfl⟩,
        fun _ => .inl rfl⟩
    | @remove c df dfs ok hc =>
      -- what is removed is an input, and all other files stay
      have hdf : df.fileNum ∈ c.inputs.map FileMetadata.fileNum := by
        rw [hc] at hround
        obtain ⟨added, -, -, -, -, -, hdfs⟩ := hround
        exact fileNum_mem_inputs (hdfs df List.mem_cons_self)
      rw [hc] at h
      obtain ⟨added, kept, u, hrw⟩ := h
      exact ⟨added, kept, u, hrw.remove hdf rfl rfl rfl rfl⟩
    | swap hc =>
      rw [hc] at h
      obtain ⟨added, kept, u, hrw⟩ := h
      exact ⟨added, kept, u, hrw.congr rfl rfl rfl rfl⟩

/-- **What a round leaves.** -/
theorem Round.rewrites (h : Round trigger t t') :
    ∃ cuts c added kept u, t.Rewrites cuts (fun _ => True) c added kept u t' := by
  obtain ⟨ho, hc, cuts, tr, s, c, htr, hr, hswapped, hrelease⟩ := h
  have hinv : t.RoundAt cuts (fun _ => True) s s.compact ∧
      t.EditedAt cuts (fun _ => True) s s.compact := by
    refine Machine.run_guarded_invariant
      (I := fun s => t.RoundAt cuts (fun _ => True) s s.compact ∧
        t.EditedAt cuts (fun _ => True) s s.compact)
      (fun _ _ _ hi ha hs => ⟨hi.1.step ha hs, hi.2.step hi.1 ha hs⟩) ⟨roundAt_start ho hc, ?_⟩
      (Machine.guarded_of_forall_mem fun a ha _ => htr a ha) hr
    rw [hc]
    trivial
  rw [hswapped] at hinv
  obtain ⟨added, kept, u, hrw⟩ := hinv.2
  refine ⟨cuts, c, added, kept, u, ?_⟩
  cases step_cases hrelease with
  | flush ho hs => cases hs
  | lookup ho hs => cases hs
  | compact ho hs =>
    cases hs with
    | release hc' => exact hrw.congr rfl rfl rfl rfl

/-! ### The parts of the rank -/

/-- An output carries its level and a number that was drawn in the round. -/
theorem Merged.added_spec (h : t.Merged cuts M c added kept u) {f : FileMetadata}
    (hf : f ∈ added) : f.level = c.level + 1 ∧ t.counter ≤ f.fileNum ∧ f.fileNum < u.counter := by
  refine ⟨?_, h.beside.drawn (List.mem_map_of_mem hf)⟩
  obtain ⟨x, hx, -, rfl⟩ := h.finished
  rw [(hx.onDisk f hf).metadata, ← (picked_of_pickCompaction h.pick).outputLevel_eq]
  rfl

/-- The files that a round adds to a level. -/
theorem Merged.addedAt (h : t.Merged cuts M c added kept u) (level : ℕ) :
    added.filter (fun f => decide (f.level = level)) =
      if level = c.level + 1 then added else [] := by
  split
  · rename_i hlevel
    refine List.filter_eq_self.mpr fun f hf => ?_
    simpa [hlevel] using (h.added_spec hf).1
  · rename_i hlevel
    refine List.filter_eq_nil_iff.mpr fun f hf => ?_
    rw [(h.added_spec hf).1, decide_eq_true_iff]
    exact Ne.symm hlevel

/-- A sum over a level after the round. -/
theorem Rewrites.sum_level (h : t.Rewrites cuts M c added kept u t') (level : ℕ)
    (g : FileMetadata → ℕ) :
    ((t'.version.levels level).map g).sum =
      (((t.version.levels level).filter fun f =>
          decide (⟨level, f.fileNum⟩ ∉ (compactionEdit c added).deletedFiles)).map g).sum +
        ((if level = c.level + 1 then added else []).map g).sum := by
  rw [h.applied.version, h.merged.beside.version, Version.sum_levels_edit, ← h.merged.addedAt]
  rfl

/-- **The first part of the rank** does not grow, and it falls when the round draws the number of a
live file. -/
theorem Rewrites.reused_le (h : t.Rewrites cuts M c added kept u t') :
    t'.reused ≤ t.reused ∧
      ((∃ n, t.version.Live n ∧ t.counter ≤ n ∧ n < u.counter) → t'.reused < t.reused) := by
  have hcounter := h.merged.beside.counter_le
  have hcounter' := h.applied.counter_le
  -- a file counts afterwards only if it did before
  have hweight : ∀ f : FileMetadata, (if t'.counter ≤ f.fileNum then 1 else 0) ≤
      if t.counter ≤ f.fileNum then 1 else 0 := by
    intro f
    split_ifs <;> omega
  have hadded : ∀ level, ((if level = c.level + 1 then added else []).map fun f =>
      if t'.counter ≤ f.fileNum then 1 else 0).sum = 0 := by
    intro level
    refine List.sum_eq_zero fun n hn => ?_
    obtain ⟨f, hf, rfl⟩ := List.mem_map.mp hn
    split at hf
    · have hlt := (h.merged.added_spec hf).2.2
      rw [if_neg (by omega)]
    · cases hf
  have hlevel : ∀ level, ((t'.version.levels level).map fun f =>
      if t'.counter ≤ f.fileNum then 1 else 0).sum ≤ ((t.version.levels level).map fun f =>
        if t'.counter ≤ f.fileNum then 1 else 0).sum := by
    intro level
    rw [h.sum_level, hadded, Nat.add_zero]
    exact (Nat.le_add_right _ _).trans (sum_filter_add_le (List.nil_sublist _) (by simp) _)
  refine ⟨Finset.sum_le_sum fun level _ =>
    (hlevel level).trans (List.sum_le_sum fun f _ => hweight f), ?_⟩
  rintro ⟨n, ⟨level, hlt, f, hf, rfl⟩, hle, hgt⟩
  refine Finset.sum_lt_sum
    (fun level _ => (hlevel level).trans (List.sum_le_sum fun f _ => hweight f))
    ⟨level, Finset.mem_range.mpr hlt, (hlevel level).trans_lt ?_⟩
  refine List.sum_lt_sum _ _ (fun f _ => hweight f) ⟨f, hf, ?_⟩
  rw [if_neg (by omega), if_pos hle]
  exact Nat.zero_lt_one

/-- The entries that the round has read, file by file. -/
theorem length_streams_le {inputs : List FileMetadata} {rs : List fmt.Reader}
    (hrs : t.openInputs inputs = some rs) :
    ((streams rs cuts).map List.length).sum ≤ (inputs.map fun f => t.passes f.fileNum).sum := by
  have hread : (inputs.map fun f => t.passes f.fileNum) =
      rs.map fun r => (fmt.iterate r).length := by
    have hopen := openInputs_eq_some_iff.mp hrs
    clear hrs
    induction hopen with
    | nil => rfl
    | cons hr _ ih =>
      rw [List.map_cons, List.map_cons, ih, passes, hr]
      rfl
  have hzip : (rs.map fun r => (fmt.iterate r).length) =
      rs.zipIdx.map fun p => (fmt.iterate p.1).length := by
    conv_lhs => rw [← List.zipIdx_map_fst 0 rs, List.map_map]
    rfl
  rw [hread, hzip, streams, List.map_map]
  refine List.sum_le_sum fun p hp => ?_
  -- an iterator that stops early passes less
  change (passed p.1 (cuts p.2)).length ≤ _
  cases cuts p.2 with
  | none => exact le_rfl
  | some n => exact List.length_take_le' n _

/-- The source files are deleted on their level, the target files on theirs. -/
private theorem mem_deletedFiles {f : FileMetadata} :
    (f ∈ c.inputFiles.1 → ⟨c.level, f.fileNum⟩ ∈ (compactionEdit c added).deletedFiles) ∧
      (f ∈ c.inputFiles.2 → ⟨c.level + 1, f.fileNum⟩ ∈ (compactionEdit c added).deletedFiles) :=
  ⟨fun hf => List.mem_append_left _ (List.mem_map_of_mem hf),
    fun hf => List.mem_append_right _ (List.mem_map_of_mem hf)⟩

/-- A live file whose number the round has not drawn does not get more entries. -/
theorem Rewrites.passes_le (h : t.Rewrites cuts M c added kept u t') {n : ℕ}
    (hn : ¬ (t.counter ≤ n ∧ n < u.counter)) : t'.passes n ≤ t.passes n := by
  have hfile : u.files n = t.files n := h.merged.beside.files n fun hmem =>
    hn (h.merged.beside.drawn hmem)
  rw [passes, passes, openTable, openTable, ← hfile]
  rcases h.removed n with hsame | hnone
  · rw [hsame]
  · rw [hnone]
    exact Nat.zero_le _

/-- The entries of the source files. -/
def sourceEntries (t : Tree fmt) (c : Compaction) : ℕ :=
  (c.inputFiles.1.map fun f => t.passes f.fileNum).sum

section Entries

variable {P : Entry → Prop} (hread : ∀ (r : fmt.Reader), ∀ e ∈ fmt.iterate r, P e)
  (hP : ∀ es, (∀ e ∈ es, P e) → IsOutput es → fmt.Passes es)

include hread

/-- What is kept was read. -/
theorem Merged.forall_kept (h : t.Merged cuts M c added kept u) : ∀ e ∈ kept, P e := by
  intro e he
  obtain ⟨gc, rs, done, hrs, -⟩ := h.selects
  obtain ⟨l, hl, hel⟩ := KWayMerge.exists_of_mem_merge ((h.kept_sublist hrs).mem he)
  obtain ⟨f, -, r, cut, -, rfl⟩ := exists_of_mem_streams hrs hl
  cases cut with
  | none => exact hread r e hel
  | some n => exact hread r e (List.mem_of_mem_take hel)

include hP

/-- The outputs have no more entries than were kept. -/
theorem Rewrites.sum_added_le (h : t.Rewrites cuts M c added kept u t') :
    (added.map fun f => t'.passes f.fileNum).sum ≤ kept.length := by
  have hkept := h.merged.forall_kept hread
  obtain ⟨x, hx, hcw, rfl⟩ := h.merged.finished
  have heq : kept = x.addedFiles.flatMap fun f => u.contents f.fileNum := by
    rw [hx.kept_eq, hcw, Option.getD_none, List.append_nil]
  rw [heq, List.length_flatMap]
  refine List.sum_le_sum fun f hf => ?_
  have hpasses : fmt.Passes (u.contents f.fileNum) := by
    refine hP _ (fun e he => hkept e ?_) (hx.finished f hf)
    rw [heq]
    exact List.mem_flatMap.mpr ⟨f, hf, he⟩
  rw [passes, openTable]
  rcases h.removed f.fileNum with hfile | hfile
  · rw [hfile, (hx.onDisk f hf).file, Option.bind_some]
    cases hr : fmt.openReader (fmt.write (u.contents f.fileNum)) with
    | error e => exact Nat.zero_le _
    | ok r => exact (hpasses r hr).length_le
  · rw [hfile]
    exact Nat.zero_le _

/-- **The entries of a level after a round** that draws no live number: the source level has lost
those of the source files, the next level has gained that many at most. -/
theorem Rewrites.entriesAt_le (h : t.Rewrites cuts M c added kept u t')
    (hnew : ∀ n, t.version.Live n → ¬ (t.counter ≤ n ∧ n < u.counter)) {level : ℕ}
    (hlevel : level < maxLevels) :
    t'.entriesAt level + (if level = c.level then t.sourceEntries c else 0) ≤
      t.entriesAt level + if level = c.level + 1 then t.sourceEntries c else 0 := by
  have hpicked := picked_of_pickCompaction h.merged.pick
  -- what the filter leaves, by the entries before the round
  have hstay : ∀ s : List FileMetadata, s.Sublist (t.version.levels level) →
      (∀ f ∈ s, ⟨level, f.fileNum⟩ ∈ (compactionEdit c added).deletedFiles) →
      (((t.version.levels level).filter fun f =>
          decide (⟨level, f.fileNum⟩ ∉ (compactionEdit c added).deletedFiles)).map fun f =>
            t'.passes f.fileNum).sum + (s.map fun f => t.passes f.fileNum).sum ≤
        t.entriesAt level := by
    intro s hs hdel
    refine le_trans (Nat.add_le_add_right (List.sum_le_sum fun f hf => ?_) _)
      (sum_filter_add_le hs (fun f hf => by simpa using hdel f hf) _)
    exact h.passes_le (hnew _ ⟨level, hlevel, f, List.mem_of_mem_filter hf, rfl⟩)
  rw [entriesAt, h.sum_level]
  by_cases hsource : level = c.level
  · subst hsource
    have hle := hstay _ hpicked.source_sublist fun f hf => mem_deletedFiles.1 hf
    rw [if_neg (by omega), if_pos rfl, if_neg (by omega), sourceEntries]
    simpa using hle
  · rw [if_neg hsource]
    by_cases htarget : level = c.level + 1
    · subst htarget
      have hle := hstay _ hpicked.target_sublist fun f hf => mem_deletedFiles.2 hf
      -- what was kept is at most what was read
      obtain ⟨gc, rs, done, hrs, -⟩ := h.merged.selects
      have hkept : kept.length ≤ (c.inputs.map fun f => t.passes f.fileNum).sum :=
        ((h.merged.kept_sublist hrs).length_le.trans (KWayMerge.length_merge_le _)).trans
          (length_streams_le hrs)
      have hadded := h.sum_added_le hread hP
      rw [Compaction.inputs, List.map_append, List.sum_append] at hkept
      rw [if_pos rfl, if_pos rfl, sourceEntries]
      omega
    · have hle := hstay [] (List.nil_sublist _) (by simp)
      rw [if_neg htarget, if_neg htarget]
      simpa using hle

/-- **The second part of the rank** falls by the entries of the source files. -/
theorem Rewrites.work_le (h : t.Rewrites cuts M c added kept u t')
    (hnew : ∀ n, t.version.Live n → ¬ (t.counter ≤ n ∧ n < u.counter)) :
    t'.work + t.sourceEntries c ≤ t.work := by
  have hlt := (picked_of_pickCompaction h.merged.pick).level_lt
  have hsum : ∑ level ∈ Finset.range maxLevels, (maxLevels - 1 - level) *
        (t'.entriesAt level + if level = c.level then t.sourceEntries c else 0) ≤
      ∑ level ∈ Finset.range maxLevels, (maxLevels - 1 - level) *
        (t.entriesAt level + if level = c.level + 1 then t.sourceEntries c else 0) :=
    Finset.sum_le_sum fun level hlevel => Nat.mul_le_mul_left _
      (h.entriesAt_le hread hP hnew (Finset.mem_range.mp hlevel))
  simp only [Nat.mul_add, Finset.sum_add_distrib, mul_ite, Nat.mul_zero,
    Finset.sum_ite_eq', Finset.mem_range] at hsum
  rw [if_pos (by omega), if_pos hlt] at hsum
  have hweight : maxLevels - 1 - c.level = maxLevels - 1 - (c.level + 1) + 1 := by omega
  rw [hweight, Nat.add_mul, Nat.one_mul] at hsum
  rw [work, work]
  omega

end Entries

/-- **The third part of the rank** falls on the source level, and no level before it changes. -/
theorem Rewrites.fileCounts_lt (h : t.Rewrites cuts M c added kept u t') :
    Pi.Lex (· < ·) (fun {_} => (· < ·)) t'.fileCounts t.fileCounts := by
  have hpicked := picked_of_pickCompaction h.merged.pick
  have hlen : ∀ level, (t'.version.levels level).length =
      ((t.version.levels level).filter fun f =>
        decide (⟨level, f.fileNum⟩ ∉ (compactionEdit c added).deletedFiles)).length +
      (if level = c.level + 1 then added else []).length := by
    intro level
    simpa using h.sum_level level fun _ => 1
  refine ⟨⟨c.level, (Nat.lt_succ_self _).trans hpicked.level_lt⟩, fun level hlevel => ?_, ?_⟩
  · -- nothing is deleted before the source level
    have hlt : (level : ℕ) < c.level := hlevel
    rw [fileCounts, fileCounts, hlen, if_neg (by omega), List.filter_eq_self.mpr]
    · rfl
    · intro f _
      simp only [compactionEdit, decide_eq_true_eq, List.mem_append, List.mem_map, not_or,
        not_exists, not_and, DeletedFile.mk.injEq]
      exact ⟨fun _ _ _ => by omega, fun _ _ _ => by omega⟩
  · obtain ⟨f, hf⟩ := List.exists_mem_of_ne_nil _ hpicked.source_ne_nil
    rw [fileCounts, fileCounts, hlen, if_neg (by simp), List.length_nil, Nat.add_zero]
    refine List.length_filter_lt_length_iff_exists.mpr ⟨f, hpicked.source_mem f hf, ?_⟩
    simpa using mem_deletedFiles.1 hf

/-! ### The loop -/

section Loop

variable {P : Entry → Prop} (hread : ∀ (r : fmt.Reader), ∀ e ∈ fmt.iterate r, P e)
  (hP : ∀ es, (∀ e ∈ es, P e) → IsOutput es → fmt.Passes es)

include hread hP

/-- **A round lowers the rank.** -/
theorem Round.rankLt (h : Round trigger t t') : RankLt t' t := by
  obtain ⟨cuts, c, added, kept, u, hrw⟩ := h.rewrites
  obtain ⟨hle, hlt⟩ := hrw.reused_le
  rw [RankLt, Prod.lex_def, Prod.lex_def]
  by_cases hdrawn : ∃ n, t.version.Live n ∧ t.counter ≤ n ∧ n < u.counter
  · exact .inl (hlt hdrawn)
  · rcases hle.lt_or_eq with hlt | heq
    · exact .inl hlt
    · have hwork := hrw.work_le hread hP fun n hlive hn => hdrawn ⟨n, hlive, hn⟩
      rcases (Nat.le_of_add_right_le hwork).lt_or_eq with hlt | heq'
      · exact .inr ⟨heq, .inl hlt⟩
      · exact .inr ⟨heq, .inr ⟨heq', hrw.fileCounts_lt⟩⟩

/-- **The rounds come to an end**, on any tree. -/
theorem wellFounded_round : WellFounded fun t' t : Tree fmt => Round trigger t t' :=
  Subrelation.wf (fun h => Round.rankLt hread hP h) wellFounded_rankLt

end Loop

/-- Some rounds, one after the other. -/
abbrev Rounds (trigger : ℕ) : Tree fmt → Tree fmt → Prop :=
  Relation.ReflTransGen (Round trigger)

/-- Behind a round the loop is at its beginning. -/
theorem Round.looping (h : Round trigger t t') : t'.opened = true ∧ t'.compact = .looping := by
  obtain ⟨-, -, cuts, tr, s, c, -, -, -, hrelease⟩ := h
  cases step_cases hrelease with
  | flush ho hs => cases hs
  | lookup ho hs => cases hs
  | compact ho hs =>
    cases hs with
    | release hc => exact ⟨ho, rfl⟩

theorem Rounds.looping (h : Rounds trigger t t') (ho : t.opened = true)
    (hc : t.compact = .looping) : t'.opened = true ∧ t'.compact = .looping := by
  induction h with
  | refl => exact ⟨ho, hc⟩
  | tail _ hround _ => exact hround.looping

/-- When there is something to pick, and its files can be opened, there is another round. -/
theorem exists_round_of_pick (ho : t.opened = true) (hc : t.compact = .looping)
    (hpick : pickCompaction t.version = some c) (hopen : t.openInputs c.inputs ≠ none) :
    ∃ t', Round trigger t t' := by
  obtain ⟨rs, hrs⟩ := Option.ne_none_iff_exists'.mp hopen
  obtain ⟨s, ⟨tr, htr, hr⟩, hswapped⟩ := @exists_round fmt trigger (fun _ => none)
    (fun _ => True) t c ho hc hpick rs hrs 0 trivial
  have hs : s.opened = true := (roundAt_of_run ho hc (fun a ha => (htr a ha).1) hr).opened
  exact ⟨_, ho, hc, fun _ => none, tr, s, c, fun a ha => (htr a ha).1, hr, hswapped,
    (CompactStep.release hswapped).step_eq hs⟩

/-! ### A tree whose files are there -/

/-- Every live file can be opened, under a number of its own that is not drawn again. -/
structure Stocked (t : Tree fmt) : Prop where
  lt_counter : ∀ n, t.version.Live n → n < t.counter
  opens : ∀ n, t.version.Live n → t.openTable n ≠ none
  distinct : t.version.Distinct

/-- On such a tree the inputs of a round can be opened. -/
theorem Stocked.openInputs_ne_none (h : t.Stocked) (hpick : pickCompaction t.version = some c) :
    t.openInputs c.inputs ≠ none := by
  refine Option.ne_none_iff_exists'.mpr (exists_openInputs fun f hf => ?_)
  obtain ⟨level, hlevel, hlive⟩ := live_of_mem_inputs hpick hf
  exact h.opens _ ⟨level, hlevel, f, hlive, rfl⟩

section Stocked

variable {P : Entry → Prop} (hread : ∀ (r : fmt.Reader), ∀ e ∈ fmt.iterate r, P e)
  (hopens : ∀ es, (∀ e ∈ es, P e) → IsOutput es → ∃ r, fmt.openReader (fmt.write es) = .ok r)

include hread hopens

/-- The outputs of a round can be opened. -/
theorem Rewrites.opens_added (h : t.Rewrites cuts M c added kept u t')
    (hlt : ∀ n, t.version.Live n → n < t.counter) {f : FileMetadata} (hf : f ∈ added) :
    t'.openTable f.fileNum ≠ none := by
  have hkept := h.merged.forall_kept hread
  have hfile := h.applied.file_added h.merged (fresh_of_lt hlt) hf
  obtain ⟨x, hx, hcw, rfl⟩ := h.merged.finished
  obtain ⟨r, hr⟩ := hopens (u.contents f.fileNum) (fun e he => hkept e (by
    rw [hx.kept_eq]
    exact List.mem_append_left _ (List.mem_flatMap.mpr ⟨f, hf, he⟩))) (hx.finished f hf)
  rw [openTable, hfile, h.applied.contents, Option.bind_some, hr]
  exact Option.some_ne_none _

/-- **A round keeps the files there.** -/
theorem Stocked.round (h : t.Stocked) (hr : Round trigger t t') : t'.Stocked := by
  obtain ⟨cuts, c, added, kept, u, hrw⟩ := hr.rewrites
  have hcounter := hrw.merged.beside.counter_le
  have hcounter' := hrw.applied.counter_le
  have hcases : ∀ {level}, level < maxLevels → ∀ {f}, f ∈ t'.version.levels level →
      (f ∈ t.version.levels level ∧ f ∉ c.inputs) ∨ (f ∈ added ∧ level = c.level + 1) :=
    fun hlevel _ => (hrw.applied.mem_levels hrw.merged h.distinct hlevel).mp
  refine ⟨?_, ?_, ?_⟩
  · rintro n ⟨level, hlevel, f, hf, rfl⟩
    rcases hcases hlevel hf with ⟨hold, -⟩ | ⟨hnew, -⟩
    · exact (h.lt_counter _ ⟨level, hlevel, f, hold, rfl⟩).trans_le (hcounter.trans hcounter')
    · exact (hrw.merged.added_spec hnew).2.2.trans_le hcounter'
  · rintro n ⟨level, hlevel, f, hf, rfl⟩
    rcases hcases hlevel hf with ⟨hold, hnot⟩ | ⟨hnew, -⟩
    · have hlt := h.lt_counter _ ⟨level, hlevel, f, hold, rfl⟩
      have hinput := hrw.merged.num_notMem h.distinct hlevel hold hnot
      have hfile : t'.files f.fileNum = t.files f.fileNum :=
        (hrw.applied.files _ hinput).trans (hrw.merged.beside.files _ fun hmem => by
          have := (hrw.merged.beside.drawn hmem).1
          omega)
      rw [openTable, hfile]
      exact h.opens _ ⟨level, hlevel, f, hold, rfl⟩
    · exact hrw.opens_added hread hopens h.lt_counter hnew
  · intro level hlevel f hf level' hlevel' f' hf' hnum
    have hold_lt : ∀ {level g}, level < maxLevels → g ∈ t.version.levels level →
        g.fileNum < t.counter := fun hl hg => h.lt_counter _ ⟨_, hl, _, hg, rfl⟩
    rcases hcases hlevel hf with ⟨hold, -⟩ | ⟨hnew, hout⟩
    · rcases hcases hlevel' hf' with ⟨hold', -⟩ | ⟨hnew', -⟩
      · exact h.distinct level hlevel f hold level' hlevel' f' hold' hnum
      · have := hold_lt hlevel hold
        have := (hrw.merged.added_spec hnew').2.1
        omega
    · rcases hcases hlevel' hf' with ⟨hold', -⟩ | ⟨hnew', hout'⟩
      · have := hold_lt hlevel' hold'
        have := (hrw.merged.added_spec hnew).2.1
        omega
      · have hnodup : (added.map FileMetadata.fileNum).Nodup := by
          rw [hrw.merged.beside.nums_eq]
          exact List.nodup_range'
        exact ⟨hout.trans hout'.symm, List.inj_on_of_nodup_map hnodup hnew hnew' hnum⟩

end Stocked

/-! ### The format of the repository -/

theorem passes_output {cfg : Config} (es : List Entry) (hfits : ∀ e ∈ es, EntryFits e)
    (hout : IsOutput es) : cfg.format.Passes es :=
  cfg.passes hfits (totalLen_lt_of_isOutput hfits hout)

/-- **The compaction loop ends in balance.** On any tree at the beginning of the loop, when the
inputs of each round that comes can be opened: there is no endless sequence of rounds; some sequence
of rounds ends where nothing is left to pick; and wherever there is no further round, level `0` has
at most `L0CompactionTrigger` files, the levels `1` to `5` are within their sizes, and the loop
stops there. -/
theorem compaction_loop_ends_balanced {cfg : Config} {t₀ : Tree cfg.format}
    (ho : t₀.opened = true) (hc : t₀.compact = .looping)
    (hexec : ∀ t c, Rounds trigger t₀ t → pickCompaction t.version = some c →
      t.openInputs c.inputs ≠ none) :
    (∀ f : ℕ → Tree cfg.format, f 0 = t₀ → ¬ ∀ n, Round trigger (f n) (f (n + 1))) ∧
      (∃ t, Rounds trigger t₀ t ∧ pickCompaction t.version = none) ∧
      ∀ t, Rounds trigger t₀ t → (¬ ∃ t', Round trigger t t') →
        t.version.Balanced ∧ t.step trigger .compactPick = some { t with compact := .idle } := by
  have hwf : WellFounded fun t' t : Tree cfg.format => Round trigger t t' :=
    wellFounded_round (fun _ _ he => entryFits_of_mem_iterate he) passes_output
  -- where there is no further round, nothing is picked
  have hstop : ∀ t, Rounds trigger t₀ t → (¬ ∃ t', Round trigger t t') →
      pickCompaction t.version = none := by
    intro t ht hno
    by_contra hpick
    obtain ⟨c, hpick⟩ := Option.ne_none_iff_exists'.mp hpick
    obtain ⟨ho', hc'⟩ := ht.looping ho hc
    exact hno (exists_round_of_pick ho' hc' hpick (hexec t c ht hpick))
  refine ⟨fun f _ hf => ?_, ?_, fun t ht hno => ?_⟩
  · obtain ⟨_, ⟨n, rfl⟩, hmin⟩ := hwf.has_min (Set.range f) (Set.range_nonempty f)
    exact hmin (f (n + 1)) (Set.mem_range_self _) (hf n)
  · -- a lowest tree among those that are reached
    obtain ⟨t, ht, hmin⟩ := hwf.has_min {t | Rounds trigger t₀ t} ⟨t₀, .refl⟩
    refine ⟨t, ht, hstop t ht ?_⟩
    rintro ⟨t', hround⟩
    exact hmin t' (ht.tail hround) hround
  · have hpick := hstop t ht hno
    obtain ⟨ho', hc'⟩ := ht.looping ho hc
    exact ⟨pickCompaction_eq_none_iff.mp hpick, (CompactStep.pickNone hc' hpick).step_eq ho'⟩

/-- Five empty tables on level `0`, and a compaction loop that was told. -/
def crowded (cfg : Config) : Tree cfg.format :=
  { fresh cfg.format with
    files := fun n => if n < 6 then some (cfg.write []) else none
    manifest := ⟨[], ⟨fun level =>
      if level = 0 then (List.range 5).map fun i => tableFile cfg.format 0 (i + 1) [] else []⟩, 6⟩
    compact := .looping }

theorem stocked_crowded : (crowded Config.plain).Stocked := by
  have hlive : ∀ n ∈ (crowded Config.plain).version.fileNums,
      n < 6 ∧ ((crowded Config.plain).openTable n).isSome := by decide +kernel
  refine ⟨fun n hn => (hlive n (Version.mem_fileNums.mpr hn)).1, fun n hn => ?_, ?_⟩
  · exact Option.isSome_iff_ne_none.mp (hlive n (Version.mem_fileNums.mpr hn)).2
  · decide +kernel

/-- From the five empty tables, the loop leads to a balanced version. -/
theorem compaction_loop_ends_crowded :
    ¬ (crowded Config.plain).version.Balanced ∧
      ∃ t, Rounds 8 (crowded Config.plain) t ∧ pickCompaction t.version = none := by
  refine ⟨fun h => absurd h.level0 (by decide), ?_⟩
  refine (compaction_loop_ends_balanced rfl rfl fun t c ht hpick => ?_).2.1
  refine Stocked.openInputs_ne_none ?_ hpick
  clear hpick
  induction ht with
  | refl => exact stocked_crowded
  | tail _ hround ih =>
    refine ih.round (P := EntryFits) (fun _ _ he => entryFits_of_mem_iterate he)
      (fun es hfits hout => ?_) hround
    exact ⟨_, Config.opens (fun e he => (hfits e he).key_lt) (totalLen_lt_of_isOutput hfits hout)⟩

end Tree

end Stratum.Lsm
