import Stratum.Lsm.Flush
import Stratum.Lsm.Picker
import Stratum.Lsm.Reopen
import Stratum.Lsm.Session
import Stratum.Sstable.RoundTrip

/-!
# A crash during a flush or a compaction

A session on an empty directory flushes and compacts, and its process is **killed** at some point:
between two file operations, within the writing of a table, or within the writing of a record of
the manifest. `Tree.KilledAt` is what that leaves of the manifest, `Tree.Leaves` what it leaves of
the tables.

A table is complete before the edit that lists it is applied, and an input is removed after the
edit that drops it. So the manifest is replayed to the version before or after the interrupted
edit, and every table of it is on disk with all that was added to it (`Tree.CrashSafe`).

* `Tree.CrashInv` is the invariant of the session: the manifest holds the edits of the version, one
  after the other; the tables of the version are complete; and neither the tables being written nor
  the ones being removed belong to it.
* It needs edits that are encoded in less than `2^32` bytes, as the length in front of an edit has
  32 bits. The smallest and the largest key of a table are in its edit, so that a key of `2^31`
  bytes is enough to make `OpenManifest` fail (`Tree.crashSafe_fails_on_huge_key`).
-/

namespace Stratum.Lsm

open ByteCodec Memtable Sstable

/-! ### Edits that can be encoded -/

/-- The encoding is short enough for the length in front of it, and the numbers are 64-bit ones. -/
structure VersionEdit.Encodable (e : VersionEdit) : Prop where
  length : e.encode.length < 2 ^ 32
  addedFiles : ∀ f ∈ e.addedFiles, f.fileNum < 2 ^ 64 ∧ f.fileSize < 2 ^ 64 ∧ f.numEntries < 2 ^ 64
  deletedFiles : ∀ df ∈ e.deletedFiles, df.fileNum < 2 ^ 64

variable {e : VersionEdit} {v : Version} {c : Compaction}

/-- The keys of an added file are a part of the encoding. -/
theorem VersionEdit.length_keys_le {f : FileMetadata} (hf : f ∈ e.addedFiles) :
    f.smallestKey.length + f.largestKey.length ≤ e.encode.length := by
  obtain ⟨before, after, hsplit⟩ := List.append_of_mem hf
  simp only [encode, hsplit, List.flatMap_append, List.flatMap_cons, List.length_append,
    FileMetadata.encode]
  omega

theorem VersionEdit.Encodable.fits (h : e.Encodable) (hrange : e.InRange)
    (hnext : e.nextFileNum = 0) : e.Fits where
  nextFileNum := by
    rw [hnext]
    decide
  deletedFiles df hdf := ⟨hrange.1 df hdf, h.deletedFiles df hdf⟩
  addedFiles f hf := by
    obtain ⟨hnum, hsize, hentries⟩ := h.addedFiles f hf
    have hkeys := length_keys_le hf
    have hlen := h.length
    exact ⟨hrange.2 f hf, hnum, hsize, hentries, by omega, by omega⟩
  length := h.length

/-! ### File numbers in a version -/

/-- The files of one number are on one level. -/
def Version.OneLevel (v : Version) : Prop :=
  ∀ level < maxLevels, ∀ level' < maxLevels, ∀ f ∈ v.levels level, ∀ f' ∈ v.levels level',
    f.fileNum = f'.fileNum → level = level'

/-- An edit adds files of new numbers, all to one level. -/
structure VersionEdit.AddsNew (e : VersionEdit) (v : Version) : Prop where
  notLive : ∀ f ∈ e.addedFiles, ¬ v.Live f.fileNum
  level : ∀ f ∈ e.addedFiles, ∀ f' ∈ e.addedFiles, f.level = f'.level

theorem Version.OneLevel.edit (h : v.OneLevel) (hnew : e.AddsNew v) : (v.edit e).OneLevel := by
  intro level hlevel level' hlevel' f hf f' hf' hnum
  rcases mem_levels_edit.mp hf with ⟨hold, -⟩ | ⟨hadded, rfl⟩
  · rcases mem_levels_edit.mp hf' with ⟨hold', -⟩ | ⟨hadded', -⟩
    · exact h level hlevel level' hlevel' f hold f' hold' hnum
    · exact absurd ⟨level, hlevel, f, hold, hnum⟩ (hnew.notLive f' hadded')
  · rcases mem_levels_edit.mp hf' with ⟨hold', -⟩ | ⟨hadded', rfl⟩
    · exact absurd ⟨level', hlevel', f', hold', hnum.symm⟩ (hnew.notLive f hadded)
    · exact hnew.level f hadded f' hadded'

/-- A deletion names a file of the version. -/
def DeletedFile.Names (df : DeletedFile) (v : Version) : Prop :=
  df.level < maxLevels ∧ ∃ f ∈ v.levels df.level, f.fileNum = df.fileNum

/-- **A deleted number is no longer live.** -/
theorem Version.OneLevel.not_live_edit (h : v.OneLevel) (hnew : e.AddsNew v) {df : DeletedFile}
    (hdf : df ∈ e.deletedFiles) (hnames : df.Names v) :
    ¬ (v.edit e).Live df.fileNum := by
  obtain ⟨hlevel, f, hf, hfnum⟩ := hnames
  rintro ⟨level, hl, g, hg, hgnum⟩
  rcases mem_levels_edit.mp hg with ⟨hg, hkept⟩ | ⟨hg, -⟩
  · obtain rfl := h df.level hlevel level hl f hf g hg (hfnum.trans hgnum.symm)
    rw [hgnum] at hkept
    exact hkept hdf
  · exact hnew.notLive g hg ⟨df.level, hlevel, f, hf, hfnum.trans hgnum.symm⟩

/-- The inputs of the compaction are in the version, each at its level. -/
structure Compaction.TakesFrom (c : Compaction) (v : Version) : Prop where
  level_lt : c.level + 1 < maxLevels
  outputLevel_eq : c.outputLevel = c.level + 1
  source : ∀ f ∈ c.inputFiles.1, f ∈ v.levels c.level
  target : ∀ f ∈ c.inputFiles.2, f ∈ v.levels (c.level + 1)

theorem Compaction.TakesFrom.mono {v' : Version} (h : c.TakesFrom v)
    (hle : ∀ level, ∀ f ∈ v.levels level, f ∈ v'.levels level) : c.TakesFrom v' where
  level_lt := h.level_lt
  outputLevel_eq := h.outputLevel_eq
  source f hf := hle _ f (h.source f hf)
  target f hf := hle _ f (h.target f hf)

theorem Compaction.TakesFrom.names (h : c.TakesFrom v) {added : List FileMetadata}
    {df : DeletedFile} (hdf : df ∈ (compactionEdit c added).deletedFiles) : df.Names v := by
  have hlt := h.level_lt
  rcases List.mem_append.mp hdf with hdf | hdf
  · obtain ⟨f, hf, rfl⟩ := List.mem_map.mp hdf
    exact ⟨Nat.lt_of_succ_lt hlt, f, h.source f hf, rfl⟩
  · obtain ⟨f, hf, rfl⟩ := List.mem_map.mp hdf
    exact ⟨hlt, f, h.target f hf, rfl⟩

theorem Picked.takesFrom (h : Picked v c) : c.TakesFrom v where
  level_lt := h.level_lt
  outputLevel_eq := h.outputLevel_eq
  source := h.source_mem
  target _ hf := h.target_mem hf

/-! ### What a kill leaves -/

/-- The edit that a flush sets out to apply. -/
def FlushPc.edit (fmt : TableFormat) : FlushPc → Option VersionEdit
  | .registered num es => some (flushEdit (tableFile fmt 0 num es))
  | _ => none

/-- The edit that a compaction sets out to apply. -/
def CompactPc.edit : CompactPc → Option VersionEdit
  | .finished c added => some (compactionEdit c added)
  | _ => none

/-- The files that a compaction is about to remove. -/
def CompactPc.removals : CompactPc → List DeletedFile
  | .removing _ dfs => dfs
  | _ => []

theorem FlushPc.edit_eq_none {fmt : TableFormat} {pc : FlushPc} (h : pc.num = none) :
    pc.edit fmt = none := by
  cases pc with
  | registered num es => cases h
  | _ => rfl

namespace Tree

variable {fmt : TableFormat} {trigger : ℕ} {t t' : Tree fmt} {a : TreeAct}

/-- The edit is about to be written to the manifest. `Apply` holds a lock: there may be two such
edits, but only one of them is being written. -/
def Applying (t : Tree fmt) (e : VersionEdit) : Prop :=
  t.flush.edit fmt = some e ∨ t.compact.edit = some e

/-- The table of this number has been created and not been closed. -/
def Writing (t : Tree fmt) (n : ℕ) : Prop :=
  (∃ es, t.flush = .created n es) ∨
    ∃ c occ x es, t.compact = .executing c occ x ∧ x.currentWriter = some es ∧ x.currentFileNum = n

/-- **What a kill leaves of the manifest**, and the edit it interrupts, if any: the process dies
outside of `Apply`, or in it when `k` bytes of the record have reached the file. -/
inductive KilledAt (t : Tree fmt) : Option VersionEdit → Bytes → Prop
  | between : KilledAt t none t.manifest.file
  | within {e : VersionEdit} (h : t.Applying e) (k : ℕ) :
      KilledAt t (some e) (t.manifest.file ++ e.frame.take k)

/-- **What a kill leaves of the tables.** Whatever is being written, or is just being created, may
be there in part, as a whole or not at all. -/
def Leaves (t : Tree fmt) (files : ℕ → Option fmt.File) : Prop :=
  ∀ n < t.counter, ¬ t.Writing n → files n = t.files n

/-- **Crash consistency**: wherever the process is killed, `OpenManifest` yields the version before
or after the interrupted edit, and each of its tables is what the writer wrote through `Close`. -/
def CrashSafe (t : Tree fmt) : Prop :=
  ∀ interrupted manifest files, t.KilledAt interrupted manifest → t.Leaves files →
    ∃ m, openManifest manifest = .ok m ∧
      (m.current = t.version ∨ ∃ e, interrupted = some e ∧ m.current = t.version.edit e) ∧
      ∀ n, m.current.Live n → files n = some (fmt.write (t.contents n))

/-! ### The invariant -/

/-- The manifest holds the edits of the version, and nothing else. -/
def Logged (t : Tree fmt) : Prop :=
  ∃ es : List VersionEdit, (∀ e ∈ es, e.Fits) ∧ t.manifest.file = es.flatMap VersionEdit.frame ∧
    t.version = .ofEdits es

/-- The table is complete on disk. -/
def Stored (t : Tree fmt) (n : ℕ) : Prop := t.files n = some (fmt.write (t.contents n))

/-- The number was drawn, and nobody uses it any more. -/
structure Dropped (t : Tree fmt) (n : ℕ) : Prop where
  notLive : ¬ t.version.Live n
  lt_counter : n < t.counter
  flush_ne : t.flush.num ≠ some n

/-- What the loop of a compaction reads and keeps plays no part. -/
def anyLoop : LoopProp := fun _ _ _ _ _ => True

/-- **The invariant of a session** on a directory that was empty. -/
structure CrashInv (t : Tree fmt) : Prop where
  session : t.SessionInv anyLoop
  logged : t.Logged
  live_lt : ∀ n, t.version.Live n → n < t.counter
  stored : ∀ n, t.version.Live n → t.Stored n
  oneLevel : t.version.OneLevel
  flush_notLive : ∀ n, t.flush.num = some n → ¬ t.version.Live n
  compact_notLive : ∀ n ∈ t.compact.nums, ¬ t.version.Live n
  fits : ∀ e, t.Applying e → e.Fits
  registered : ∀ num es, t.flush = .registered num es → t.contents num = es ∧ t.Stored num
  inputs : ∀ c, t.compact.job = some c → c.TakesFrom t.version
  removals : ∀ df ∈ t.compact.removals, t.Dropped df.fileNum

variable {c : Compaction} {n : ℕ} {m : Manifest} {es : List Entry}

/-- The outputs of a compaction that has closed its last table. -/
theorem CrashInv.finished (h : t.CrashInv) {added : List FileMetadata}
    (hc : t.compact = .finished c added) : ∀ f ∈ added, f.level = c.outputLevel ∧
      t.Stored f.fileNum := by
  obtain ⟨kept, -, -, ⟨x, hx, -, rfl⟩, -⟩ : t.CompactSound anyLoop (.finished c added) :=
    hc ▸ h.session.sound
  intro f hf
  have hdisk := hx.onDisk f hf
  refine ⟨?_, hdisk.file⟩
  rw [hdisk.metadata]
  rfl

/-- The tables that an edit adds are complete, and in nobody's hands. -/
theorem CrashInv.added (h : t.CrashInv) {e : VersionEdit} (he : t.Applying e) :
    e.AddsNew t.version ∧ ∀ f ∈ e.addedFiles,
      f.fileNum < t.counter ∧ ¬ t.Writing f.fileNum ∧ t.Stored f.fileNum := by
  rcases he with he | he
  · cases hf : t.flush with
    | registered num es =>
      rw [hf] at he
      cases he
      have hnum : t.flush.num = some num := by rw [hf]; rfl
      refine ⟨⟨List.forall_mem_singleton.2 (h.flush_notLive num hnum), ?_⟩,
        List.forall_mem_singleton.2 ⟨h.session.flush_lt num hnum, ?_, (h.registered num es hf).2⟩⟩
      · exact List.forall_mem_singleton.2 (List.forall_mem_singleton.2 rfl)
      · rintro (⟨es', hes'⟩ | ⟨c, occ, x, es', hc, hx, hn⟩)
        · rw [hf] at hes'
          cases hes'
        · refine h.session.flush_notMem num hnum ?_
          rw [hc]
          simpa [CompactPc.nums, Exec.nums, hx] using .inr hn.symm
    | _ =>
      rw [hf] at he
      cases he
  · cases hc : t.compact with
    | finished c added =>
      rw [hc] at he
      cases he
      have hmem : ∀ f ∈ added, f.fileNum ∈ t.compact.nums := by
        intro f hf
        rw [hc]
        exact List.mem_map_of_mem hf
      refine ⟨⟨fun f hf => h.compact_notLive _ (hmem f hf), fun f hf f' hf' => ?_⟩, fun f hf =>
        ⟨h.session.sound.lt_counter _ (hmem f hf), ?_, (h.finished hc f hf).2⟩⟩
      · rw [(h.finished hc f hf).1, (h.finished hc f' hf').1]
      · rintro (⟨es, hes⟩ | ⟨c', occ, x, es, hc', -⟩)
        · exact h.session.flush_notMem f.fileNum (by rw [hes]; rfl) (hmem f hf)
        · rw [hc] at hc'
          cases hc'
    | _ =>
      rw [hc] at he
      cases he

/-- A live table is not being written. -/
theorem CrashInv.not_writing (h : t.CrashInv) (hn : t.version.Live n) : ¬ t.Writing n := by
  rintro (⟨es, hes⟩ | ⟨c, occ, x, es, hc, hx, rfl⟩)
  · exact h.flush_notLive n (by rw [hes]; rfl) hn
  · refine h.compact_notLive _ ?_ hn
    rw [hc]
    simp [CompactPc.nums, Exec.nums, hx]

theorem ofEdits_concat (es : List VersionEdit) (e : VersionEdit) :
    Version.ofEdits (es ++ [e]) = (Version.ofEdits es).edit e := by
  simp [Version.ofEdits]

/-- **The invariant is enough**: what a kill leaves can be opened, and is complete. -/
theorem CrashInv.crashSafe (h : t.CrashInv) : t.CrashSafe := by
  obtain ⟨es, hfits, hfile, hversion⟩ := h.logged
  rintro _ _ files hkilled hleaves
  have hlive : ∀ n, t.version.Live n → files n = some (fmt.write (t.contents n)) := by
    intro n hn
    rw [hleaves n (h.live_lt n hn) (h.not_writing hn)]
    exact h.stored n hn
  cases hkilled with
  | between =>
    obtain ⟨m, hm, hcurrent, -⟩ := openManifest_frames hfits isTorn_nil
    rw [List.append_nil, ← hfile] at hm
    rw [← hversion] at hcurrent
    exact ⟨m, hm, .inl hcurrent, hcurrent ▸ hlive⟩
  | @within e he k =>
    rw [hfile]
    by_cases hk : k < e.frame.length
    · -- the record is torn
      obtain ⟨m, hm, hcurrent, -⟩ := openManifest_frames hfits ⟨e, h.fits e he, k, hk, rfl⟩
      rw [← hversion] at hcurrent
      exact ⟨m, hm, .inl hcurrent, hcurrent ▸ hlive⟩
    · -- all of the record is there, and the tables it adds were complete before
      have hfits' : ∀ e' ∈ es ++ [e], e'.Fits :=
        List.forall_mem_append.2 ⟨hfits, List.forall_mem_singleton.2 (h.fits e he)⟩
      obtain ⟨m, hm, hcurrent, -⟩ := openManifest_frames hfits' isTorn_nil
      rw [List.append_nil, List.flatMap_append, List.flatMap_singleton] at hm
      rw [ofEdits_concat, ← hversion] at hcurrent
      rw [List.take_of_length_le (Nat.le_of_not_lt hk)]
      refine ⟨m, hm, .inr ⟨e, rfl, hcurrent⟩, fun n hn => ?_⟩
      rw [hcurrent] at hn
      rcases Version.live_edit hn with hn | ⟨f, hf, rfl⟩
      · exact hlive n hn
      · obtain ⟨hlt, hwriting, hstored⟩ := (h.added he).2 f hf
        rw [hleaves _ hlt hwriting]
        exact hstored

/-! ### Steps -/

/-- The condition on a step: an edit that is about to be applied can be encoded. No `Apply` fails,
and the session is the only one. -/
def EditsEncodable (t : Tree fmt) : TreeAct → Prop
  | .openTree | .flushTorn _ | .compactTorn _ => False
  | .flushRegister => ∀ num es, t.flush = .created num es →
      (flushEdit (tableFile fmt 0 num es)).Encodable
  | .compactFinish => ∀ c occ x, t.compact = .executing c occ x →
      (compactionEdit c (t.finishLoop c x).2.addedFiles).Encodable
  | _ => True

/-- A step that leaves the manifest alone, but for drawing numbers. -/
private theorem CrashInv.of_version (h : t.CrashInv) (hs : t'.SessionInv anyLoop)
    (hfile : t'.manifest.file = t.manifest.file) (hversion : t'.version = t.version)
    (hcounter : t.counter ≤ t'.counter) (hstored : ∀ n, t.version.Live n → t'.Stored n)
    (hflush : ∀ n, t'.flush.num = some n → ¬ t.version.Live n)
    (hnums : ∀ n ∈ t'.compact.nums, ¬ t.version.Live n) (hfits : ∀ e, t'.Applying e → e.Fits)
    (hregistered : ∀ num es, t'.flush = .registered num es →
      t'.contents num = es ∧ t'.Stored num)
    (hinputs : ∀ c, t'.compact.job = some c → c.TakesFrom t.version)
    (hremovals : ∀ df ∈ t'.compact.removals, t'.Dropped df.fileNum) : t'.CrashInv where
  session := hs
  logged := by
    rw [Logged, hfile, hversion]
    exact h.logged
  live_lt n hn := (h.live_lt n (hversion ▸ hn)).trans_le hcounter
  stored n hn := hstored n (hversion ▸ hn)
  oneLevel := hversion ▸ h.oneLevel
  flush_notLive := hversion ▸ hflush
  compact_notLive := hversion ▸ hnums
  fits := hfits
  registered := hregistered
  inputs := hversion ▸ hinputs
  removals := hremovals

/-- What a step leaves alone when it only moves on with the flush, or only with the compaction. -/
private structure Quiet (t t' : Tree fmt) : Prop where
  files : t'.files = t.files
  contents : t'.contents = t.contents
  manifest : t'.manifest = t.manifest

private theorem Quiet.stored (hq : Quiet t t') (h : t.Stored n) : t'.Stored n := by
  rw [Stored, hq.files, hq.contents]
  exact h

private theorem Quiet.dropped (hq : Quiet t t')
    (hflush : ∀ n, t'.flush.num = some n → t.flush.num = some n) (h : t.Dropped n) :
    t'.Dropped n := by
  obtain ⟨hlive, hlt, hne⟩ := h
  refine ⟨?_, ?_, fun hn => hne (hflush n hn)⟩
  · rwa [version, hq.manifest]
  · rwa [counter, hq.manifest]

/-- The flush moves on, and has no table in its hands. -/
private theorem CrashInv.of_flush (h : t.CrashInv) (hs : t'.SessionInv anyLoop) (hq : Quiet t t')
    (hcompact : t'.compact = t.compact) (hnum : t'.flush.num = none) : t'.CrashInv := by
  have hflush : ∀ n, t'.flush.num ≠ some n := by
    intro n hn
    rw [hnum] at hn
    cases hn
  refine h.of_version hs (by rw [hq.manifest]) (by rw [version, hq.manifest])
    (by rw [counter, counter, hq.manifest]) (fun n hn => hq.stored (h.stored n hn))
    (fun n hn => absurd hn (hflush n)) (hcompact ▸ h.compact_notLive) ?_ ?_ (hcompact ▸ h.inputs)
    (fun df hdf => hq.dropped (fun n hn => absurd hn (hflush n)) (h.removals df (hcompact ▸ hdf)))
  · rintro e (he | he)
    · rw [FlushPc.edit_eq_none hnum] at he
      cases he
    · exact h.fits e (.inr (hcompact ▸ he))
  · intro num es hreg
    rw [hreg] at hnum
    cases hnum

/-- The compaction moves on, and has no table in its hands. -/
private theorem CrashInv.of_compact (h : t.CrashInv) (hs : t'.SessionInv anyLoop) (hq : Quiet t t')
    (hflush : t'.flush = t.flush) (hnums : t'.compact.nums = []) (hedit : t'.compact.edit = none)
    (hinputs : ∀ c, t'.compact.job = some c → c.TakesFrom t.version)
    (hremovals : t'.compact.removals ⊆ t.compact.removals) : t'.CrashInv := by
  refine h.of_version hs (by rw [hq.manifest]) (by rw [version, hq.manifest])
    (by rw [counter, counter, hq.manifest]) (fun n hn => hq.stored (h.stored n hn))
    (hflush ▸ h.flush_notLive) (fun n hn => ?_) ?_ ?_ hinputs
    (fun df hdf => hq.dropped (fun n hn => hflush ▸ hn) (h.removals df (hremovals hdf)))
  · rw [hnums] at hn
    cases hn
  · rintro e (he | he)
    · exact h.fits e (.inl (hflush ▸ he))
    · rw [hedit] at he
      cases he
  · intro num es hreg
    rw [hflush] at hreg
    obtain ⟨hcontents, hstored⟩ := h.registered num es hreg
    exact ⟨hq.contents ▸ hcontents, hq.stored hstored⟩

/-- An edit is applied: the manifest grows by its record, and the version by its tables. -/
private theorem CrashInv.of_apply (h : t.CrashInv) {e : VersionEdit} (he : t.Applying e)
    (hm : t.manifest.apply e = some m) (hs : t'.SessionInv anyLoop) (hmanifest : t'.manifest = m)
    (hfiles : t'.files = t.files) (hcontents : t'.contents = t.contents)
    (hflush : ∀ n, t'.flush.num = some n → ¬ (t.version.edit e).Live n)
    (hnums : ∀ n ∈ t'.compact.nums, ¬ (t.version.edit e).Live n)
    (hfits : ∀ e, t'.Applying e → t.Applying e)
    (hregistered : ∀ num es, t'.flush = .registered num es → t.flush = .registered num es)
    (hinputs : ∀ c, t'.compact.job = some c → c.TakesFrom (t.version.edit e))
    (hremovals : ∀ df ∈ t'.compact.removals, t'.Dropped df.fileNum) : t'.CrashInv := by
  obtain ⟨hnew, hadded⟩ := h.added he
  obtain ⟨hcurrent, hcounter⟩ := apply_spec hm
  have hversion : t'.version = t.version.edit e := by rw [version, hmanifest, hcurrent]
  have hstored : ∀ n, t.Stored n → t'.Stored n := by
    intro n hn
    rw [Stored, hfiles, hcontents]
    exact hn
  refine
    { session := hs
      logged := ?_
      live_lt := fun n hn => ?_
      stored := fun n hn => ?_
      oneLevel := hversion ▸ h.oneLevel.edit hnew
      flush_notLive := hversion ▸ hflush
      compact_notLive := hversion ▸ hnums
      fits := fun e he => h.fits e (hfits e he)
      registered := fun num es hreg => ?_
      inputs := hversion ▸ hinputs
      removals := hremovals }
  · obtain ⟨es, hes, hfile, hlogged⟩ := h.logged
    refine ⟨es ++ [e], ?_, ?_, ?_⟩
    · exact List.forall_mem_append.2 ⟨hes, List.forall_mem_singleton.2 (h.fits e he)⟩
    · have hrun : t.manifest.applyAll [e] = some m := by simp [Manifest.applyAll, hm]
      rw [hmanifest, (Manifest.applyAll_eq hrun).1, hfile, List.flatMap_append]
    · rw [hversion, ofEdits_concat, hlogged]
  · rw [hversion] at hn
    rw [counter, hmanifest]
    refine lt_of_lt_of_le ?_ hcounter
    rcases Version.live_edit hn with hn | ⟨f, hf, rfl⟩
    · exact h.live_lt n hn
    · exact (hadded f hf).1
  · rw [hversion] at hn
    rcases Version.live_edit hn with hn | ⟨f, hf, rfl⟩
    · exact hstored n (h.stored n hn)
    · exact hstored _ (hadded f hf).2.2
  · obtain ⟨hes, hdisk⟩ := h.registered num es (hregistered num es hreg)
    exact ⟨hcontents ▸ hes, hstored num hdisk⟩

private theorem CrashInv.flushApply (h : t.CrashInv) {num : ℕ} (hf : t.flush = .registered num es)
    (hm : t.manifest.apply (flushEdit (tableFile fmt 0 num es)) = some m)
    (hs : SessionInv anyLoop { t with manifest := m, flush := .applied }) :
    CrashInv { t with manifest := m, flush := .applied } := by
  have hnum : t.flush.num = some num := by rw [hf]; rfl
  have he : t.Applying (flushEdit (tableFile fmt 0 num es)) := .inl (by rw [hf]; rfl)
  obtain ⟨hcurrent, hcounter⟩ := apply_spec hm
  have hlive : ∀ n, (t.version.edit (flushEdit (tableFile fmt 0 num es))).Live n →
      t.version.Live n ∨ n = num := by
    intro n hn
    refine (Version.live_edit hn).imp_right ?_
    rintro ⟨f, hf, rfl⟩
    rw [List.mem_singleton.mp hf]
    rfl
  refine h.of_apply he hm hs rfl rfl rfl nofun (fun n hn hedit => ?_) ?_ nofun
    (fun c hc => (h.inputs c hc).mono fun level f hf => ?_) fun df hdf => ?_
  · rcases hlive n hedit with hold | rfl
    · exact h.compact_notLive n hn hold
    · exact h.session.flush_notMem n hnum hn
  · rintro e (⟨⟨⟩⟩ | he)
    exact .inr he
  · exact Version.mem_levels_edit.mpr (.inl ⟨hf, List.not_mem_nil⟩)
  · obtain ⟨hnot, hlt, hne⟩ := h.removals df hdf
    refine ⟨fun hn => ?_, hlt.trans_le hcounter, nofun⟩
    rw [version, hcurrent] at hn
    rcases hlive _ hn with hold | rfl
    · exact hnot hold
    · exact hne hnum

/-- A compaction takes its inputs out and adds its outputs. -/
private theorem CrashInv.compactApply (h : t.CrashInv) {added : List FileMetadata}
    (hc : t.compact = .finished c added) (hm : t.manifest.apply (compactionEdit c added) = some m)
    (hs : SessionInv anyLoop
      { t with manifest := m, compact := .removing c (compactionEdit c added).deletedFiles }) :
    CrashInv { t with
      manifest := m
      compact := .removing c (compactionEdit c added).deletedFiles } := by
  have he : t.Applying (compactionEdit c added) := .inr (by rw [hc]; rfl)
  obtain ⟨hcurrent, hcounter⟩ := apply_spec hm
  have hinputs := h.inputs c (by rw [hc]; rfl)
  refine h.of_apply he hm hs rfl rfl rfl (fun n hn hedit => ?_) nofun ?_ (fun _ _ hf => hf) nofun
    fun df hdf => ?_
  · rcases Version.live_edit hedit with hold | ⟨f, hf, rfl⟩
    · exact h.flush_notLive n hn hold
    · refine h.session.flush_notMem _ hn ?_
      rw [hc]
      exact List.mem_map_of_mem hf
  · rintro e (he | ⟨⟨⟩⟩)
    exact .inl he
  · -- an input was live, so it is no longer, and the flush writes another table
    obtain ⟨hlevel, f, hf, hnum⟩ := hinputs.names hdf
    have hlive : t.version.Live df.fileNum := ⟨df.level, hlevel, f, hf, hnum⟩
    refine ⟨?_, (h.live_lt _ hlive).trans_le hcounter, fun hn => h.flush_notLive _ hn hlive⟩
    rw [version, hcurrent]
    exact h.oneLevel.not_live_edit (h.added he).1 hdf (hinputs.names hdf)

private theorem CrashInv.flushCreate (h : t.CrashInv)
    (hs : SessionInv anyLoop { t.createTable with flush := .created t.counter es }) :
    CrashInv { t.createTable with flush := .created t.counter es } := by
  refine h.of_version hs rfl rfl (Nat.le_succ _) (fun n hn => ?_) (fun n hn hlive => ?_)
    h.compact_notLive ?_ nofun h.inputs fun df hdf => ?_
  · have hne : n ≠ t.counter := (h.live_lt n hn).ne
    simpa [Stored, hne] using h.stored n hn
  · cases hn
    exact (h.live_lt _ hlive).ne rfl
  · rintro e (⟨⟨⟩⟩ | he)
    exact h.fits e (.inr he)
  · obtain ⟨hnot, hlt, -⟩ := h.removals df hdf
    exact ⟨hnot, Nat.lt_succ_of_lt hlt, fun hn => hlt.ne (Option.some.inj hn).symm⟩

private theorem CrashInv.flushRegister (h : t.CrashInv) {num : ℕ} {r : fmt.Reader}
    (hf : t.flush = .created num es) (hg : (flushEdit (tableFile fmt 0 num es)).Encodable)
    (hs : SessionInv anyLoop { t.closeTable num es with
      readers := Function.update t.readers num (some r)
      flush := .registered num es }) :
    CrashInv { t.closeTable num es with
      readers := Function.update t.readers num (some r)
      flush := .registered num es } := by
  have hnum : t.flush.num = some num := by rw [hf]; rfl
  refine h.of_version hs rfl rfl le_rfl (fun n hn => ?_) (fun n hn => ?_) h.compact_notLive ?_
    (fun num' es' hreg => ?_) h.inputs fun df hdf => ?_
  · have hne : n ≠ num := by
      rintro rfl
      exact h.flush_notLive n hnum hn
    simpa [Stored, hne] using h.stored n hn
  · cases hn
    exact h.flush_notLive num hnum
  · rintro e (⟨⟨⟩⟩ | he)
    · refine hg.fits ⟨List.forall_mem_nil _, List.forall_mem_singleton.2 ?_⟩ rfl
      change 0 < maxLevels
      decide
    · exact h.fits e (.inr he)
  · cases hreg
    simp [Stored]
  · obtain ⟨hnot, hlt, hne⟩ := h.removals df hdf
    rw [hnum] at hne
    exact ⟨hnot, hlt, hne⟩

private theorem CrashInv.flushStep (h : t.CrashInv) (ho : t.opened = true)
    (hg : t.EditsEncodable a) (hs : FlushStep trigger t a t') : t'.CrashInv := by
  have hsession := h.session.flushStep ho hs
  cases hs with
  | call hf | pass hf hstall | err hf | check hf | send hf =>
    exact h.of_flush hsession ⟨rfl, rfl, rfl⟩ rfl rfl
  | create hf => exact h.flushCreate hsession
  | register hf hr => exact h.flushRegister hf (hg _ _ hf) hsession
  | apply hf hm => exact h.flushApply hf hm hsession
  | torn hf => exact hg.elim

/-- A part of the loop of `Execute`: it writes tables of numbers that it has drawn. -/
private theorem CrashInv.within (h : t.CrashInv) {t₁ : Tree fmt} {pc : CompactPc}
    (hw : Within t t₁ t.compact.nums pc.nums)
    (hs : SessionInv anyLoop { t₁ with compact := pc }) (hjob : pc.job = t.compact.job)
    (hfits : ∀ e, pc.edit = some e → e.Fits) (hremovals : pc.removals = []) :
    CrashInv { t₁ with compact := pc } := by
  -- the numbers that the step touches are not live
  have hnotLive := hw.not_live h.live_lt h.compact_notLive
  have hflush : t₁.flush = t.flush := by rw [hw.frame]
  have hstored : ∀ n, n ∉ pc.nums → t.Stored n → Stored { t₁ with compact := pc } n := by
    intro n hn hstored
    obtain ⟨hfile, hcontents⟩ := hw.same n hn
    show t₁.files n = some (fmt.write (t₁.contents n))
    rw [hfile, hcontents]
    exact hstored
  refine h.of_version hs (by rw [hw.frame]) hw.version_eq hw.counter_le
    (fun n hn => hstored n (fun hmem => hnotLive n hmem hn) (h.stored n hn))
    (fun n hn => h.flush_notLive n (hflush ▸ hn)) hnotLive ?_ (fun num es hreg => ?_)
    (fun c hc => h.inputs c (hjob ▸ hc)) fun df hdf => ?_
  · rintro e (he | he)
    · exact h.fits e (.inl (hflush ▸ he))
    · exact hfits e he
  · have hreg' : t.flush = .registered num es := hflush ▸ hreg
    have hnotMem : num ∉ pc.nums := hs.flush_notMem num (by rw [hreg]; rfl)
    obtain ⟨hes, hdisk⟩ := h.registered num es hreg'
    exact ⟨(hw.same num hnotMem).2.trans hes, hstored num hnotMem hdisk⟩
  · rw [hremovals] at hdf
    cases hdf

private theorem CrashInv.compactFinish (h : t.CrashInv) {occ : ℕ} {x x' : Exec} {t₁ : Tree fmt}
    (hc : t.compact = .executing c occ x) (hn : t.finishLoop c x = (t₁, x'))
    (hg : (compactionEdit c x'.addedFiles).Encodable)
    (hs : SessionInv anyLoop { t₁ with compact := .finished c x'.addedFiles }) :
    CrashInv { t₁ with compact := .finished c x'.addedFiles } := by
  obtain ⟨kept, hloop, -⟩ : t.CompactSound anyLoop (.executing c occ x) := hc ▸ h.session.sound
  obtain ⟨hout, -, -⟩ := hloop.finishLoop hn
  refine h.within (h.session.within_finish hc hn) hs (by rw [hc]; rfl) ?_ rfl
  rintro _ ⟨⟩
  have hinputs := h.inputs c (by rw [hc]; rfl)
  refine hg.fits ⟨fun df hdf => (hinputs.names hdf).1, fun f hf => ?_⟩ rfl
  rw [(hout.onDisk f hf).metadata]
  show c.outputLevel < maxLevels
  rw [hinputs.outputLevel_eq]
  exact hinputs.level_lt

/-- An input is removed, or is not. -/
private theorem CrashInv.compactRemove (h : t.CrashInv) {df : DeletedFile} {dfs : List DeletedFile}
    {ok : Bool} (hc : t.compact = .removing c (df :: dfs))
    (hs : SessionInv anyLoop { t with
      files := if ok then Function.update t.files df.fileNum none else t.files
      compact := .removing c dfs }) :
    CrashInv { t with
      files := if ok then Function.update t.files df.fileNum none else t.files
      compact := .removing c dfs } := by
  have hremovals := h.removals
  rw [hc] at hremovals
  obtain ⟨hnot, -, hne⟩ := hremovals df List.mem_cons_self
  have hstored : ∀ n, n ≠ df.fileNum → t.Stored n → Stored { t with
      files := if ok then Function.update t.files df.fileNum none else t.files
      compact := .removing c dfs } n := by
    intro n hn hstored
    cases ok with
    | false => exact hstored
    | true => simpa [Stored, hn] using hstored
  refine h.of_version hs rfl rfl le_rfl (fun n hn => hstored n ?_ (h.stored n hn))
    h.flush_notLive nofun ?_ (fun num es hreg => ?_) nofun fun df' hdf' => ?_
  · rintro rfl
    exact hnot hn
  · rintro e (he | ⟨⟨⟩⟩)
    exact h.fits e (.inl he)
  · obtain ⟨hes, hdisk⟩ := h.registered num es hreg
    refine ⟨hes, hstored num ?_ hdisk⟩
    rintro rfl
    refine hne ?_
    rw [show t.flush = .registered df.fileNum es from hreg]
    rfl
  · obtain ⟨hnot', hlt', hne'⟩ := hremovals df' (List.mem_cons_of_mem _ hdf')
    exact ⟨hnot', hlt', hne'⟩

private theorem opensWith_anyLoop (t : Tree fmt) : t.OpensWith anyLoop :=
  fun _ _ _ _ _ _ => trivial

private theorem survives_anyLoop (m : UInt64) : Survives anyLoop m :=
  fun _ _ _ _ _ _ _ => trivial

private theorem CrashInv.compactStep (h : t.CrashInv) (ho : t.opened = true)
    (hg : t.EditsEncodable a) (hs : CompactStep trigger t a t') : t'.CrashInv := by
  have hsession := h.session.compactStep ho (opensWith_anyLoop t) (fun m _ => survives_anyLoop m) hs
  cases hs with
  | pick hc hp =>
    refine h.of_compact hsession ⟨rfl, rfl, rfl⟩ rfl rfl rfl ?_ (List.nil_subset _)
    rintro _ ⟨⟩
    exact (picked_of_pickCompaction hp).takesFrom
  | openInputs hc he hrs =>
    refine h.of_compact hsession ⟨rfl, rfl, rfl⟩ rfl rfl rfl ?_ (List.nil_subset _)
    intro c' hc'
    exact h.inputs c' (by rw [hc]; exact hc')
  | next hc hx hn =>
    exact h.within (h.session.within_next hc hn) hsession (by rw [hc]; rfl) nofun rfl
  | @finish c occ x t₁ x' hc hx hn =>
    have henc := hg c occ x hc
    rw [hn] at henc
    exact h.compactFinish hc hn henc hsession
  | apply hc hm => exact h.compactApply hc hm hsession
  | torn hc => exact hg.elim
  | remove hc => exact h.compactRemove hc hsession
  | recv | pickNone | openNone | err | swap | swapErr | release =>
    exact h.of_compact hsession ⟨rfl, rfl, rfl⟩ rfl rfl rfl nofun (List.nil_subset _)

private theorem CrashInv.endSession (h : t.CrashInv) (hs : t.endSession.SessionInv anyLoop) :
    t.endSession.CrashInv := by
  refine h.of_version hs rfl rfl le_rfl h.stored nofun nofun ?_ nofun nofun nofun
  rintro e (⟨⟨⟩⟩ | ⟨⟨⟩⟩)

/-- **The step lemma.** -/
theorem CrashInv.step (h : t.CrashInv) (hg : t.EditsEncodable a)
    (hs : t.step trigger a = some t') : t'.CrashInv := by
  have hsession := h.session.step (opensWith_anyLoop t) (fun m _ => survives_anyLoop m) hs
  cases step_cases hs with
  | openTree hc ho => exact hg.elim
  | close ho hf hc | kill ho => exact h.endSession hsession
  | flush ho hs => exact h.flushStep ho hg hs
  | compact ho hs => exact h.compactStep ho hg hs
  | lookup ho hs =>
    cases hs <;>
    exact h.of_version hsession rfl rfl le_rfl h.stored h.flush_notLive h.compact_notLive h.fits
      h.registered h.inputs fun df hdf =>
        ⟨(h.removals df hdf).notLive, (h.removals df hdf).lt_counter, (h.removals df hdf).flush_ne⟩

/-! ### Runs -/

theorem crashInv_fresh : (fresh fmt).CrashInv where
  session :=
    { idle := nofun
      live := by
        rintro - n ⟨level, -, f, hf, -⟩
        cases hf
      flush_lt := nofun
      flush_notMem := nofun
      sound := trivial }
  logged := ⟨[], List.forall_mem_nil _, rfl, rfl⟩
  live_lt := by
    rintro n ⟨level, -, f, hf, -⟩
    cases hf
  stored := by
    rintro n ⟨level, -, f, hf, -⟩
    cases hf
  oneLevel := by
    rintro level - level' - f hf
    cases hf
  flush_notLive := nofun
  compact_notLive := nofun
  fits := by rintro e (⟨⟨⟩⟩ | ⟨⟨⟩⟩)
  registered := nofun
  inputs := nofun
  removals := nofun

/-- **Crash consistency of flush and compaction.** In every state of a session on an empty
directory, whatever was flushed and compacted before and in which order, a kill at any point leaves
a manifest of the version before or after the interrupted edit and all tables of that version
complete, when every edit that was applied or is about to be is encoded in less than `2^32`
bytes. -/
theorem crashSafe_of_encodable {tr : List TreeAct}
    (hg : Machine.Guarded (step trigger) EditsEncodable (fresh fmt) tr)
    (h : Machine.run (step trigger) (fresh fmt) tr = some t) : t.CrashSafe :=
  (Machine.run_guarded_invariant (I := CrashInv) (fun _ _ _ hs hg hstep => hs.step hg hstep)
    crashInv_fresh hg h).crashSafe

instance (e : VersionEdit) : Decidable e.Encodable :=
  decidable_of_iff (e.encode.length < 2 ^ 32 ∧
      (∀ f ∈ e.addedFiles, f.fileNum < 2 ^ 64 ∧ f.fileSize < 2 ^ 64 ∧ f.numEntries < 2 ^ 64) ∧
      ∀ df ∈ e.deletedFiles, df.fileNum < 2 ^ 64)
    ⟨fun h => ⟨h.1, h.2.1, h.2.2⟩, fun h => ⟨h.length, h.addedFiles, h.deletedFiles⟩⟩

/-- `EditsEncodable` as a test. -/
def editsEncodable (t : Tree fmt) : TreeAct → Bool
  | .openTree | .flushTorn _ | .compactTorn _ => false
  | .flushRegister =>
    match t.flush with
    | .created num es => decide (flushEdit (tableFile fmt 0 num es)).Encodable
    | _ => true
  | .compactFinish =>
    match t.compact with
    | .executing c _ x => decide (compactionEdit c (t.finishLoop c x).2.addedFiles).Encodable
    | _ => true
  | _ => true

theorem editsEncodable_iff : t.editsEncodable a = true ↔ t.EditsEncodable a := by
  cases a with
  | flushRegister => cases hf : t.flush <;> simp [editsEncodable, EditsEncodable, hf]
  | compactFinish => cases hc : t.compact <;> simp [editsEncodable, EditsEncodable, hc]
  | _ => simp [editsEncodable, EditsEncodable]

instance : Decidable (t.EditsEncodable a) := decidable_of_iff _ editsEncodable_iff

/-- The process dies in the edit of a flush, while the inputs of a compaction are removed. -/
theorem crashSafe_flushAndCompact : ∃ t,
    Machine.run (step 8) (fresh Config.noFilter.format) flushAndCompact = some t ∧
      t.flush = .registered 7 [([6], some [1])] ∧ (t.compact matches .removing _ (_ :: _)) ∧
      t.CrashSafe := by
  have hg : Machine.Guarded (step 8) EditsEncodable (fresh Config.noFilter.format)
      flushAndCompact := by decide +kernel
  obtain ⟨t, ht, -, hflush, hcompact⟩ := exists_flushAndCompact
  exact ⟨t, ht, hflush, hcompact, crashSafe_of_encodable hg ht⟩

/-! ### Keys that are too long for an edit -/

theorem length_encode_flushEdit (f : FileMetadata) :
    (flushEdit f).encode.length = 52 + f.smallestKey.length + f.largestKey.length := by
  simp only [flushEdit, VersionEdit.encode, List.flatMap_nil, List.flatMap_singleton,
    FileMetadata.encode, List.length_append, length_leBytes, List.length_nil]
  omega

theorem fileSize_lt {cfg : Config} (h : totalLen es < 2 ^ 61) (level num : ℕ) :
    (tableFile cfg.format level num es).fileSize < 2 ^ 64 :=
  (length_write_lt h).trans_le (by norm_num)

/-- A key that the table format can hold, and that is too long for the edit of its table. -/
private theorem not_crashSafe_of_long {cfg : Config} {e : Entry} (hkey : e.1.length < 2 ^ 32)
    (hlong : 2 ^ 32 ≤ 52 + e.1.length + e.1.length) (htotal : totalLen [e] < 2 ^ 61) :
    ∃ t, Machine.run (step trigger) (fresh cfg.format) (flushTable (single e)) = some t ∧
      ¬ t.CrashSafe := by
  have hopen := @Config.opens cfg [e] (by simpa using hkey) htotal
  obtain ⟨t, ht, hflushed⟩ :=
    @run_flushTable _ trigger (fresh cfg.format) (single e) _ rfl rfl rfl hopen
  refine ⟨t, ht, fun hsafe => ?_⟩
  have hfields : (flushEdit ((fresh cfg.format).flushedFile (single e))).InFields := by
    refine ⟨Nat.two_pow_pos _, Nat.two_pow_pos _, Nat.one_lt_two_pow (by decide),
      List.forall_mem_nil _, List.forall_mem_singleton.2 ?_⟩
    exact ⟨Nat.two_pow_pos _, Nat.one_lt_two_pow (by decide), fileSize_lt htotal 0 1,
      Nat.one_lt_two_pow (by decide), hkey, hkey⟩
  have herr := @openManifest_long [] (List.forall_mem_nil _) _ hfields
    (by rw [length_encode_flushEdit]; exact hlong) []
  rw [List.flatMap_nil, List.nil_append, List.append_nil] at herr
  have hfile : t.manifest.file = (flushEdit ((fresh cfg.format).flushedFile (single e))).frame :=
    hflushed.file
  obtain ⟨m, hm, -⟩ := hsafe none _ t.files .between fun _ _ _ => rfl
  rw [hfile, herr] at hm
  cases hm

/-- **It fails for a key of `2^31` bytes.** The key stands twice in the edit of its table, which is
encoded in more than `2^32` bytes; `Flush` returns without an error, and `OpenManifest` fails. -/
theorem crashSafe_fails_on_huge_key :
    ∃ t, Machine.run (step 8) (fresh Config.plain.format)
        (flushTable (single (List.replicate (2 ^ 31) 0, some []))) = some t ∧ ¬ t.CrashSafe := by
  have key : ∀ n : ℕ, n = 2 ^ 31 → ∃ t, Machine.run (step 8) (fresh Config.plain.format)
      (flushTable (single (List.replicate n 0, some []))) = some t ∧ ¬ t.CrashSafe := by
    intro n hn
    have hlen : (List.replicate n (0 : UInt8)).length = n := List.length_replicate
    refine not_crashSafe_of_long (by rw [hlen, hn]; decide) (by rw [hlen, hn]; decide) ?_
    simp only [totalLen, encodedLen, List.map_cons, List.map_nil, List.sum_cons, List.sum_nil,
      hlen, Option.getD_some, List.length_nil]
    omega
  exact key _ rfl

end Tree

end Stratum.Lsm
