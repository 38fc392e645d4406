import Stratum.Lsm.Crash

/-!
# Readers, files and a restart

A session keeps two things in step with its version: the readers, which answer the lookups, and the
files of its directory. Flushes and compactions change all three, at different times.

* `Tree.ReadersInv`: a reader of a live table is what `OpenReader` makes of its file. A live table
  may have none: the outputs of a compaction at first, from its edit until it swaps the readers,
  and for the rest of the session if `OpenReader` fails there.
* So, while every live table has a reader, a **restart does not show**: what `NewLSMTree` opens has
  the same version and gives every lookup the same answer, error or not
  (`Tree.restart_unnoticed`).
* `Tree.Tidy`: a file of the directory is live or in somebody's hands, if nothing fails. A
  flush or a compaction that fails leaves its tables behind, and nothing ever removes them.
-/

namespace Stratum.Lsm.Tree

open Memtable Sstable

variable {fmt : TableFormat} {trigger n : ℕ} {t t' : Tree fmt} {a : TreeAct} {c : Compaction}
  {r : fmt.Reader}

/-- The number is in the version, or the edit of a flush is about to add it. -/
def Shown (t : Tree fmt) (n : ℕ) : Prop := t.version.Live n ∨ ∃ es, t.flush = .registered n es

/-- **The readers are those of the files**, and no table that a compaction writes has one. -/
structure ReadersInv (t : Tree fmt) : Prop where
  shown : ∀ n r, t.Shown n → t.readers n = some r → t.openTable n = some r
  unused : ∀ n, t.counter ≤ n ∨ n ∈ t.compact.nums → t.readers n = none
  level_lt : ∀ c dfs, t.compact = .removing c dfs → c.outputLevel < maxLevels

theorem openTable_congr (h : t'.files n = t.files n) : t'.openTable n = t.openTable n := by
  rw [openTable, openTable, h]

theorem Dropped.not_shown (h : t.Dropped n) : ¬ t.Shown n := by
  rintro (hlive | ⟨es, hes⟩)
  · exact h.notLive hlive
  · exact h.flush_ne (by rw [hes]; rfl)

/-- A table of the compaction is not in the version, nor in the hands of the flush. -/
theorem CrashInv.not_mem_nums (h : t.CrashInv) (hn : t.Shown n) : n ∉ t.compact.nums := by
  rcases hn with hlive | ⟨es, hes⟩
  · exact fun hmem => h.compact_notLive n hmem hlive
  · exact h.session.flush_notMem n (by rw [hes]; rfl)

theorem CrashInv.shown_lt (h : t.CrashInv) (hn : t.Shown n) : n < t.counter := by
  rcases hn with hlive | ⟨es, hes⟩
  · exact h.live_lt n hlive
  · exact h.session.flush_lt n (by rw [hes]; rfl)

/-- A step that shows no new table without opening it, and touches the files of none that is shown.
A reader may go, and a table that is shown may get one that is opened now. -/
private theorem ReadersInv.of_step (h : t.ReadersInv) (hcounter : t.counter ≤ t'.counter)
    (hshown : ∀ n, t'.Shown n → t.Shown n ∧ t'.files n = t.files n ∨
      t'.readers n = none ∨ t'.readers n = t'.openTable n)
    (hreaders : ∀ n r, t'.readers n = some r → t.readers n = some r ∨
      t'.openTable n = some r ∧ n < t'.counter ∧ n ∉ t'.compact.nums)
    (hnums : ∀ n ∈ t'.compact.nums, n ∈ t.compact.nums ∨ t.counter ≤ n)
    (hlevel : ∀ c dfs, t'.compact = .removing c dfs → c.outputLevel < maxLevels) :
    t'.ReadersInv where
  shown n r hn hr := by
    rcases hshown n hn with ⟨hold, hfile⟩ | hnone | hopen
    · rcases hreaders n r hr with hr | ⟨hopen, -⟩
      · rw [openTable_congr hfile]
        exact h.shown n r hold hr
      · exact hopen
    · rw [hr] at hnone
      cases hnone
    · exact hopen ▸ hr
  unused n hn := by
    refine Option.eq_none_iff_forall_ne_some.mpr fun r hr => ?_
    rcases hreaders n r hr with hr | ⟨-, hlt, hnot⟩
    · have hnone := h.unused n <| hn.elim (fun hle => .inl (hcounter.trans hle)) fun hmem =>
        (hnums n hmem).symm
      rw [hr] at hnone
      cases hnone
    · exact hn.elim (Nat.not_le_of_lt hlt) hnot
  level_lt := hlevel

private theorem ReadersInv.of_same (h : t.ReadersInv) (hcounter : t.counter ≤ t'.counter)
    (hfiles : t'.files = t.files) (hreaders : t'.readers = t.readers)
    (hshown : ∀ n, t'.Shown n → t.Shown n) (hnums : t'.compact.nums ⊆ t.compact.nums)
    (hlevel : ∀ c dfs, t'.compact = .removing c dfs → c.outputLevel < maxLevels) :
    t'.ReadersInv :=
  h.of_step hcounter (fun n hn => .inl ⟨hshown n hn, congrFun hfiles n⟩)
    (fun _ _ hr => .inl (hreaders ▸ hr)) (fun _ hn => .inl (hnums hn)) hlevel

/-! ### Steps of the flush -/

/-- What is shown is in the version when the flush has registered nothing. -/
private theorem Shown.of_num (hn : t'.Shown n) (hversion : t'.version = t.version)
    (hflush : t'.flush.num = none) : t.Shown n := by
  rcases hn with hlive | ⟨es, hes⟩
  · exact .inl (hversion ▸ hlive)
  · rw [hes] at hflush
    cases hflush

private theorem ReadersInv.flushStep (h : t.ReadersInv) (hi : t.CrashInv) (hg : t.EditsEncodable a)
    (hs : FlushStep trigger t a t') : t'.ReadersInv := by
  cases hs with
  | call | pass | err | check | send =>
    exact h.of_same le_rfl rfl rfl (fun n hn => hn.of_num rfl rfl) (List.Subset.refl _) h.level_lt
  | create hf =>
    refine h.of_step (Nat.le_succ _) (fun n hn => .inl ?_) (fun _ _ => .inl) (fun _ => .inl)
      h.level_lt
    have hold : t.Shown n := hn.imp_right nofun
    exact ⟨hold, Function.update_of_ne (hi.shown_lt hold).ne _ _⟩
  | @register num es r hf hr =>
    have hnum : t.flush.num = some num := by rw [hf]; rfl
    have hopen : fmt.openReader (fmt.write es) = .ok r := hr
    have hself : (some r : Option fmt.Reader) = ((some (fmt.write es)).bind fun file =>
        (fmt.openReader file).toOption) := by simp [hopen, Except.toOption]
    refine h.of_step le_rfl (fun n hn => ?_) (fun n r' hr' => ?_) (fun _ => .inl) h.level_lt
    · by_cases hne : n = num
      · subst hne
        exact .inr (.inr (by simpa [openTable] using hself))
      · refine .inl ⟨hn.imp_right ?_, Function.update_of_ne hne _ _⟩
        rintro ⟨es', hes'⟩
        cases hes'
        exact absurd rfl hne
    · by_cases hne : n = num
      · subst hne
        refine .inr ⟨?_, hi.session.flush_lt n hnum, hi.session.flush_notMem n hnum⟩
        rw [← hr']
        simpa [openTable] using hself.symm
      · exact .inl ((Function.update_of_ne hne _ _).symm.trans hr')
  | @apply num es m hf hm =>
    obtain ⟨hcurrent, hcounter⟩ := apply_spec hm
    refine h.of_same hcounter rfl rfl (fun n hn => ?_) (List.Subset.refl _) h.level_lt
    rcases hn with hn | ⟨es', hes'⟩
    · rw [version, hcurrent] at hn
      refine (Version.live_edit hn).imp_right ?_
      rintro ⟨f, hadded, rfl⟩
      obtain rfl := List.mem_singleton.mp hadded
      exact ⟨es, hf⟩
    · cases hes'
  | torn hf => exact hg.elim

/-! ### Steps of the compaction -/

/-- The tables that a part of the loop draws have no readers. -/
private theorem ReadersInv.within (h : t.ReadersInv) {t₁ : Tree fmt} {pc : CompactPc}
    (hw : Within t t₁ t.compact.nums pc.nums) (hpc : ∀ c dfs, pc ≠ .removing c dfs)
    (hi' : CrashInv { t₁ with compact := pc }) : ReadersInv { t₁ with compact := pc } := by
  have hreaders : t₁.readers = t.readers := by rw [hw.frame]
  refine h.of_step hw.counter_le (fun n hn => .inl ⟨?_, (hw.same n (hi'.not_mem_nums hn)).1⟩)
    (fun n r hr => .inl (hreaders ▸ hr)) (fun n hn => (hw.drawn hn).imp_right And.left)
    fun c dfs hc => absurd hc (hpc c dfs)
  refine hn.imp (fun hlive => hw.version_eq ▸ hlive) fun ⟨es, hes⟩ => ⟨es, ?_⟩
  rw [← hes, hw.frame]

/-- A compaction opens tables of its output level only, and closes others. -/
theorem swapReaders_eq_some (h : t.swapReaders c n = some r) :
    t.readers n = some r ∨ t.openTable n = some r ∧
      n ∈ (t.version.levels c.outputLevel).map FileMetadata.fileNum := by
  rw [swapReaders] at h
  split at h
  · rename_i r' heq
    split at heq
    · cases heq
    · exact .inl (heq.trans h)
  · split at h
    · exact .inr ⟨h, ‹_›⟩
    · cases h

theorem swapReadersErr_eq_some {failed : List ℕ} (h : t.swapReadersErr c failed n = some r) :
    t.readers n = some r ∨ t.swapReaders c n = some r := by
  rw [swapReadersErr] at h
  split at h
  · split at h
    · cases h
    · exact .inl h
  · exact .inr h

/-- The readers are swapped, whichever of the new ones cannot be opened. -/
private theorem ReadersInv.swap (h : t.ReadersInv) (hi : t.CrashInv)
    (hc : t.compact = .removing c []) {readers : ℕ → Option fmt.Reader}
    (hreaders : ∀ n r, readers n = some r → t.readers n = some r ∨ t.swapReaders c n = some r) :
    ReadersInv { t with readers := readers, compact := .swapped c } := by
  refine h.of_step le_rfl (fun n hn => .inl ⟨hn, rfl⟩) (fun n r hr => ?_) nofun nofun
  rcases (hreaders n r hr).imp_right swapReaders_eq_some with hold | hold | ⟨hopen, hmem⟩
  · exact .inl hold
  · exact .inl hold
  · obtain ⟨f, hf, rfl⟩ := List.mem_map.mp hmem
    exact .inr ⟨hopen, hi.live_lt _ ⟨c.outputLevel, h.level_lt c [] hc, f, hf, rfl⟩,
      List.not_mem_nil⟩

private theorem ReadersInv.compactStep (h : t.ReadersInv) (hi : t.CrashInv) (hi' : t'.CrashInv)
    (hg : t.EditsEncodable a) (hs : CompactStep trigger t a t') : t'.ReadersInv := by
  cases hs with
  | recv | pickNone | pick | openInputs | err | release =>
    exact h.of_same le_rfl rfl rfl (fun _ hn => hn) (List.nil_subset _) (by rintro _ _ ⟨⟩)
  | openNone hc he =>
    refine h.of_same le_rfl rfl rfl (fun _ hn => hn) (List.nil_subset _) ?_
    rintro _ _ ⟨⟩
    have hinputs := hi.inputs _ (by rw [hc]; rfl)
    exact hinputs.outputLevel_eq ▸ hinputs.level_lt
  | next hc hx hn => exact h.within (hi.session.within_next hc hn) (by rintro _ _ ⟨⟩) hi'
  | finish hc hx hn => exact h.within (hi.session.within_finish hc hn) (by rintro _ _ ⟨⟩) hi'
  | @apply c added m hc hm =>
    obtain ⟨hcurrent, hcounter⟩ := apply_spec hm
    have hinputs := hi.inputs c (by rw [hc]; rfl)
    refine h.of_step hcounter (fun n hn => ?_) (fun _ _ => .inl) (List.forall_mem_nil _) ?_
    · rcases hn with hn | hreg
      · rw [version, hcurrent] at hn
        rcases Version.live_edit hn with hlive | ⟨f, hf, rfl⟩
        · exact .inl ⟨.inl hlive, rfl⟩
        · -- an output is live now and has no reader
          refine .inr (.inl (h.unused _ (.inr ?_)))
          rw [hc]
          exact List.mem_map_of_mem hf
      · exact .inl ⟨.inr hreg, rfl⟩
    · rintro _ _ ⟨⟩
      exact hinputs.outputLevel_eq ▸ hinputs.level_lt
  | torn hc => exact hg.elim
  | @remove c df dfs ok hc =>
    have hdropped : t.Dropped df.fileNum := hi.removals df (by rw [hc]; exact List.mem_cons_self)
    refine h.of_step le_rfl (fun n hn => .inl ⟨hn, ?_⟩) (fun _ _ => .inl) (List.forall_mem_nil _) ?_
    · have hne : n ≠ df.fileNum := by
        rintro rfl
        exact hdropped.not_shown hn
      dsimp only
      split
      · exact Function.update_of_ne hne _ _
      · rfl
    · rintro _ _ ⟨⟩
      exact h.level_lt c _ hc
  | swap hc => exact h.swap hi hc fun _ _ => .inr
  | swapErr hc => exact h.swap hi hc fun _ _ => swapReadersErr_eq_some

/-- **The step lemma**, for as long as the session lasts. -/
theorem ReadersInv.step (h : t.opened = true → t.ReadersInv) (hi : t.CrashInv)
    (hg : t.EditsEncodable a) (hs : t.step trigger a = some t') :
    t'.opened = true → t'.ReadersInv := by
  have hi' := hi.step hg hs
  cases step_cases hs with
  | openTree hc ho => exact hg.elim
  | close | kill => exact nofun
  | flush ho hs => exact fun _ => (h ho).flushStep hi hg hs
  | compact ho hs => exact fun _ => (h ho).compactStep hi hi' hg hs
  | lookup ho hs =>
    cases hs <;>
    exact fun _ => (h ho).of_same le_rfl rfl rfl (fun _ hn => hn) (List.Subset.refl _)
      (h ho).level_lt

theorem readersInv_fresh : (fresh fmt).ReadersInv where
  shown _ _ _ := nofun
  unused _ _ := rfl
  level_lt := nofun

/-! ### A restart -/

/-- **A restart does not show.** End a session on an empty directory, whatever it has flushed and
compacted, at any time when each of its tables has a reader. Then each of them can be opened, and
the tree that `NewLSMTree` makes of the directory has the same version and answers every lookup as
the session did. -/
theorem restart_unnoticed {tr : List TreeAct}
    (hg : Machine.Guarded (Tree.step trigger) EditsEncodable (fresh fmt) tr)
    (h : Machine.run (Tree.step trigger) (fresh fmt) tr = some t) (ho : t.opened = true)
    (hreader : ∀ n, t.version.Live n → t.readers n ≠ none) :
    ∃ t', t.endSession.openSession = some t' ∧ t'.version = t.version ∧
      ∀ key, t'.get key = t.get key := by
  obtain ⟨hi, hreaders⟩ := Machine.run_guarded_invariant
    (I := fun t : Tree fmt => t.CrashInv ∧ (t.opened = true → t.ReadersInv))
    (fun _ _ _ ⟨hi, hreaders⟩ hg hs => ⟨hi.step hg hs, .step hreaders hi hg hs⟩)
    ⟨crashInv_fresh, fun _ => readersInv_fresh⟩ hg h
  obtain ⟨m, hm, hcurrent, -⟩ := hi.crashSafe none _ t.files .between fun _ _ _ => rfl
  have hcurrent : m.current = t.version := hcurrent.resolve_right (by simp)
  have hlive : ∀ n, t.version.Live n → t.openTable n = t.readers n := by
    intro n hn
    obtain ⟨r, hr⟩ := Option.ne_none_iff_exists'.mp (hreader n hn)
    rw [hr]
    exact (hreaders ho).shown n r (.inl hn) hr
  have hall : ∀ n ∈ t.version.fileNums, t.endSession.openTable n ≠ none := by
    intro n hn
    have hn := Version.mem_fileNums.mp hn
    exact (hlive n hn).trans_ne (hreader n hn)
  rw [openSession, endSession_manifest, hm]
  dsimp only
  rw [hcurrent, if_pos hall]
  refine ⟨_, rfl, hcurrent, fun key => ?_⟩
  show m.current.get _ fmt.get key = t.version.get t.readers fmt.get key
  rw [hcurrent]
  refine Version.get_congr (fun n hn => ?_) key
  rw [← hlive n hn]
  exact if_pos (Version.mem_fileNums.mpr hn)

/-- Five tables are flushed, and compacted into one. -/
def wholeRound : List TreeAct :=
  compactFive ++ List.replicate 5 (.compactRemove true) ++ [.compactSwap]

private theorem guarded_wholeRound :
    Machine.Guarded (Tree.step 8) EditsEncodable (fresh Config.noFilter.format) wholeRound := by
  decide +kernel

private theorem run_wholeRound : ∃ t,
    Machine.run (Tree.step 8) (fresh Config.noFilter.format) wholeRound = some t ∧
      t.opened = true ∧ t.flush = .idle ∧ t.compact matches .swapped _ ∧
      ∀ n ∈ t.version.fileNums, (t.readers n).isSome := by
  have hrun : (Machine.run (Tree.step 8) (fresh Config.noFilter.format) wholeRound).any fun t =>
      decide (t.opened = true ∧ t.flush = .idle ∧ t.compact matches .swapped _ ∧
        ∀ n ∈ t.version.fileNums, (t.readers n).isSome) := by
    decide +kernel
  obtain ⟨t, ht, h⟩ := (Option.any_eq_true _ _).1 hrun
  exact ⟨t, ht, of_decide_eq_true h⟩

theorem restart_unnoticed_wholeRound :
    ∃ t t', Machine.run (Tree.step 8) (fresh Config.noFilter.format) wholeRound = some t ∧
      t.endSession.openSession = some t' ∧ t'.version = t.version ∧
      ∀ key, t'.get key = t.get key := by
  obtain ⟨t, ht, ho, -, -, hreader⟩ := run_wholeRound
  obtain ⟨t', ht'⟩ := restart_unnoticed guarded_wholeRound ht ho fun n hn =>
    Option.isSome_iff_ne_none.mp (hreader n (Version.mem_fileNums.mpr hn))
  exact ⟨t, t', ht, ht'⟩

/-! ### The files of the directory -/

/-- The table is being written, or its file is about to be removed. -/
def Held (t : Tree fmt) (n : ℕ) : Prop :=
  t.flush.num = some n ∨ n ∈ t.compact.nums ∨ ∃ df ∈ t.compact.removals, df.fileNum = n

/-- **No file is forgotten.** -/
def Tidy (t : Tree fmt) : Prop := ∀ n, t.files n ≠ none → t.version.Live n ∨ t.Held n

/-- The steps that give up on a file: an error in `Flush` or `Execute`, a file that `os.Remove`
does not remove, the end of the process. -/
def Abandons : TreeAct → Prop
  | .flushErr | .compactErr | .compactRemove false | .kill => True
  | _ => False

private theorem Tidy.of_held (h : t.Tidy) (hversion : t'.version = t.version)
    (hfiles : ∀ n, t'.Held n ∨ t'.files n = t.files n) (hheld : ∀ n, t.Held n → t'.Held n) :
    t'.Tidy := by
  intro n hn
  rw [hversion]
  rcases hfiles n with hnew | hfile
  · exact .inr hnew
  · rw [hfile] at hn
    exact (h n hn).imp_right (hheld n)

private theorem Tidy.flushStep (h : t.Tidy) (hno : ¬ Abandons a)
    (hg : t.EditsEncodable a) (hs : FlushStep trigger t a t') : t'.Tidy := by
  cases hs with
  | call hf | pass hf | check hf | send hf =>
    exact h.of_held rfl (fun _ => .inr rfl) (by simp [Held, hf, FlushPc.num])
  | create hf =>
    refine h.of_held rfl (fun n => ?_) fun n hn =>
      .inr (hn.resolve_left (by simp [hf, FlushPc.num]))
    by_cases hc : n = t.counter
    · exact .inl (.inl (congrArg some hc.symm))
    · exact .inr (Function.update_of_ne hc _ _)
  | @register num es r hf hr =>
    refine h.of_held rfl (fun n => ?_) fun n => Or.imp_left fun hflush => ?_
    · by_cases hc : n = num
      · exact .inl (.inl (congrArg some hc.symm))
      · exact .inr (Function.update_of_ne hc _ _)
    · rw [hf] at hflush
      exact hflush
  | @apply num es m hf hm =>
    intro n hn
    obtain ⟨hcurrent, -⟩ := apply_spec hm
    rw [version, hcurrent]
    rcases h n hn with ⟨level, hlevel, f, hmem, hnum⟩ | hflush | hheld
    · exact .inl ⟨level, hlevel, f,
        Version.mem_levels_edit.mpr (.inl ⟨hmem, List.not_mem_nil⟩), hnum⟩
    · rw [hf] at hflush
      cases hflush
      exact .inl ⟨0, by decide, tableFile fmt 0 num es,
        Version.mem_levels_edit.mpr (.inr ⟨List.mem_singleton_self _, rfl⟩), rfl⟩
    · exact .inr (.inr hheld)
  | torn hf => exact hg.elim
  | err hf => exact absurd trivial hno

private theorem Tidy.within (h : t.Tidy) {t₁ : Tree fmt} {pc : CompactPc}
    (hw : Within t t₁ t.compact.nums pc.nums) (hremovals : t.compact.removals = []) :
    Tidy { t₁ with compact := pc } := by
  refine h.of_held hw.version_eq (fun n => ?_) ?_
  · by_cases hmem : n ∈ pc.nums
    · exact .inl (.inr (.inl hmem))
    · exact .inr (hw.same n hmem).1
  · rintro n (hflush | hold | ⟨df, hdf, -⟩)
    · refine .inl ?_
      rw [← hflush, hw.frame]
    · exact .inr (.inl (hw.subset hold))
    · rw [hremovals] at hdf
      cases hdf

/-- The inputs are about to be removed, and the outputs live. -/
private theorem Tidy.compactApply (h : t.Tidy) (hi : t.CrashInv)
    {added : List FileMetadata} {m : Manifest} (hc : t.compact = .finished c added)
    (hm : t.manifest.apply (compactionEdit c added) = some m) :
    Tidy { t with
      manifest := m
      compact := .removing c (compactionEdit c added).deletedFiles } := by
  intro n hn
  obtain ⟨hcurrent, -⟩ := apply_spec hm
  have hinputs := hi.inputs c (by rw [hc]; rfl)
  rw [version, hcurrent]
  rcases h n hn with ⟨level, hlevel, f, hmem, hnum⟩ | hflush | hmem | ⟨df, hdf, -⟩
  · by_cases hdel : ⟨level, f.fileNum⟩ ∈ (compactionEdit c added).deletedFiles
    · exact .inr (.inr (.inr ⟨_, hdel, hnum⟩))
    · exact .inl ⟨level, hlevel, f, Version.mem_levels_edit.mpr (.inl ⟨hmem, hdel⟩), hnum⟩
  · exact .inr (.inl hflush)
  · rw [hc] at hmem
    obtain ⟨f, hf, rfl⟩ := List.mem_map.mp hmem
    have hlevel := (hi.finished hc f hf).1
    refine .inl ⟨f.level, ?_, f, Version.mem_levels_edit.mpr (.inr ⟨hf, rfl⟩), rfl⟩
    rw [hlevel, hinputs.outputLevel_eq]
    exact hinputs.level_lt
  · rw [hc] at hdf
    cases hdf

private theorem Tidy.compactStep (h : t.Tidy) (hi : t.CrashInv) (hno : ¬ Abandons a)
    (hg : t.EditsEncodable a) (hs : CompactStep trigger t a t') : t'.Tidy := by
  cases hs with
  | recv hc | pickNone hc | pick hc | openNone hc | openInputs hc | swap hc | swapErr hc
  | release hc =>
    exact h.of_held rfl (fun _ => .inr rfl)
      (by simp [Held, hc, CompactPc.nums, CompactPc.removals, Exec.nums, Exec.start])
  | next hc hx hn => exact h.within (hi.session.within_next hc hn) (by rw [hc]; rfl)
  | finish hc hx hn => exact h.within (hi.session.within_finish hc hn) (by rw [hc]; rfl)
  | apply hc hm => exact h.compactApply hi hc hm
  | torn hc => exact hg.elim
  | err hc => exact absurd trivial hno
  | @remove c df dfs ok hc =>
    cases ok with
    | false => exact absurd trivial hno
    | true =>
      intro n hn
      have hne : n ≠ df.fileNum := by
        rintro rfl
        exact hn (Function.update_self _ _ _)
      rw [show Tree.files _ n = t.files n from Function.update_of_ne hne _ _] at hn
      rcases h n hn with hlive | hflush | hmem | ⟨df', hdf', hnum⟩
      · exact .inl hlive
      · exact .inr (.inl hflush)
      · rw [hc] at hmem
        cases hmem
      · rw [hc] at hdf'
        rcases List.mem_cons.mp hdf' with rfl | hdf'
        · exact absurd hnum.symm hne
        · exact .inr (.inr (.inr ⟨df', hdf', hnum⟩))

theorem Tidy.step (h : t.Tidy) (hi : t.CrashInv) (hg : t.EditsEncodable a)
    (hno : ¬ Abandons a) (hs : t.step trigger a = some t') : t'.Tidy := by
  cases step_cases hs with
  | openTree hc ho => exact hg.elim
  | close ho hf hc =>
    exact h.of_held rfl (fun _ => .inr rfl)
      (by simp [Held, hf, hc, FlushPc.num, CompactPc.nums, CompactPc.removals])
  | kill ho => exact absurd trivial hno
  | flush ho hs => exact h.flushStep hno hg hs
  | compact ho hs => exact h.compactStep hi hno hg hs
  | lookup ho hs => cases hs <;> exact h.of_held rfl (fun _ => .inr rfl) fun _ hn => hn

/-- **No table is forgotten or lost.** In every state of a session on an empty directory in which
no step has given up on a file, a file of the directory is one of the version, is being written, or
is about to be removed; and every file of the version is there, with all that was added to it. So
between flushes and compactions the directory holds the tables of the version, and no others. -/
theorem files_accounted {tr : List TreeAct}
    (hg : Machine.Guarded (Tree.step trigger) EditsEncodable (fresh fmt) tr)
    (hno : ∀ a ∈ tr, ¬ Abandons a)
    (h : Machine.run (Tree.step trigger) (fresh fmt) tr = some t) (n : ℕ) :
    (t.files n ≠ none → t.version.Live n ∨ t.Held n) ∧ (t.version.Live n → t.Stored n) := by
  obtain ⟨hi, haccounted⟩ := Machine.run_guarded_invariant
    (I := fun t : Tree fmt => t.CrashInv ∧ t.Tidy)
    (fun _ _ _ ⟨hi, ha⟩ ⟨hg, hno⟩ hs => ⟨hi.step hg hs, ha.step hi hg hno hs⟩)
    ⟨crashInv_fresh, fun n hn => absurd rfl hn⟩
    (hg.and (Machine.guarded_of_forall_mem fun a ha _ => hno a ha)) h
  exact ⟨haccounted n, hi.stored n⟩

/-- After the round, the directory holds its output alone. -/
theorem files_accounted_wholeRound :
    ∃ t, Machine.run (Tree.step 8) (fresh Config.noFilter.format) wholeRound = some t ∧
      ∀ n, t.files n ≠ none ↔ t.version.Live n := by
  obtain ⟨t, ht, -, hflush, hcompact, -⟩ := run_wholeRound
  have hno : ∀ a ∈ wholeRound, ¬ Abandons a := by
    simp [wholeRound, compactFive, flushTable, Abandons]
  refine ⟨t, ht, fun n => ⟨fun hn => ?_, fun hn => ?_⟩⟩
  · refine ((files_accounted guarded_wholeRound hno ht n).1 hn).resolve_right ?_
    cases hc : t.compact with
    | swapped c => simp [Held, hflush, hc, FlushPc.num, CompactPc.nums, CompactPc.removals]
    | _ => simp [hc] at hcompact
  · rw [(files_accounted guarded_wholeRound hno ht n).2 hn]
    exact Option.some_ne_none _

end Stratum.Lsm.Tree
