import Stratum.Db.Lock
import Stratum.Lsm.Crash
import Stratum.Memtable.LogOrder
import Stratum.Wal.Recover

/-!
# What survives a crash

After a crash `Open` finds the bytes of the manifest, the SSTables, and the file `wal.log` with what
was written out of it. `recoveredGet` is what the replay of these answers, `liveGet` what `DB.Get`
answered before; `Survives` compares them for one key, and `Settled` says that no write of the key
is under way. A crash within `Apply` is one after an `Apply` that failed: a part of the edit is in
the file, and the memory is as it was.

The two agree in every state of a run that keeps to `Durably`, a condition on single steps. The
manifest on disk gives back the version in memory (`Replays`) as long as no edit is applied behind
a torn one. For the log, two phases carry the proof: while the log is the one that the manager
writes to (`Logging`), it holds every record, and the records of a key end with its current value;
when it is given up (`Rotated`), the tree has every table that is not empty, and no writer can get
past the log any more. The change from the one to the other is the renaming of `wal.log`, and it is
sound only when the **active** table is empty: `acknowledged_write_lost` is a run where it is not.
-/

namespace Stratum.Db

open Memtable Lsm Sstable Wal LastWrite

/-! ### The manager before the replay -/

private theorem filter_tags_lt {batches : List Batch} {n i : ℕ} (h : i < n) :
    (((batches.zipIdx n).flatMap fun b => tagEntries b.2 b.1).filter
      fun x => decide (x.1 = i)) = [] := by
  induction batches generalizing n with
  | nil => rfl
  | cons b batches ih =>
    rw [List.zipIdx_cons, List.flatMap_cons, List.filter_append, ih (by omega),
      Manager.filter_tagEntries_ne (show n ≠ i by omega), List.append_nil]

private theorem filter_tags {batches : List Batch} {n i : ℕ} {b : Batch}
    (h : batches[i]? = some b) :
    (((batches.zipIdx n).flatMap fun b => tagEntries b.2 b.1).filter
      fun x => decide (x.1 = n + i)) = tagEntries (n + i) b := by
  induction batches generalizing n i with
  | nil => simp at h
  | cons b' batches ih =>
    rw [List.zipIdx_cons, List.flatMap_cons, List.filter_append]
    cases i with
    | zero =>
      cases h
      rw [Nat.add_zero, Manager.filter_tagEntries_self, filter_tags_lt (Nat.lt_succ_self n),
        List.append_nil]
    | succ i =>
      have hrest := @ih (n + 1) i (by simpa using h)
      rw [Nat.add_right_comm] at hrest
      rw [Manager.filter_tagEntries_ne (show n ≠ n + (i + 1) by omega), List.nil_append]
      exact hrest

private theorem mem_tags {batches : List Batch} {n : ℕ} {x : Tagged}
    (h : x ∈ (batches.zipIdx n).flatMap fun b => tagEntries b.2 b.1) :
    ∃ i b, x.1 = n + i ∧ batches[i]? = some b := by
  obtain ⟨⟨b, i⟩, hmem, hx⟩ := List.mem_flatMap.mp h
  obtain ⟨e, -, rfl⟩ := List.mem_map.mp hx
  obtain ⟨hle, hb⟩ := List.mk_mem_zipIdx_iff_le_and_getElem?_sub.mp hmem
  exact ⟨i - n, b, (Nat.add_sub_of_le hle).symm, hb⟩

/-- The recovered records are still to be written, all of them. -/
theorem logInv_recovering (maxSize : ℤ) (batches : List Batch) :
    (recovering maxSize batches).LogInv := by
  have hlog : ∀ (i : ℕ) (b : Batch), batches[i]? = some b →
      (recovering maxSize batches).log[i]? = some (LogRecord.mk b 0 true) := by
    intro i b hb
    simp [recovering, hb]
  refine ⟨fun c x hx => ?_, fun x hx => by simp [recovering, Manager.new] at hx,
    fun i r hr hacked => ?_⟩
  · by_cases hc : c = 0
    · subst hc
      simp only [recovering, Function.update_self, WritePc.todo] at hx
      obtain ⟨i, b, hi, hb⟩ := mem_tags hx
      rw [Nat.zero_add] at hi
      exact ⟨_, hi ▸ hlog i b hb, rfl, rfl⟩
    · simp [recovering, Function.update_of_ne hc, WritePc.todo] at hx
  · obtain ⟨b, hb, rfl⟩ : ∃ b, batches[i]? = some b ∧ (⟨b, 0, true⟩ : LogRecord) = r := by
      simpa [recovering] using hr
    have htags := @filter_tags batches 0 i b hb
    rw [Nat.zero_add] at htags
    simp only [recovering, Manager.new, List.filter_nil, List.nil_append, Function.update_self,
      WritePc.todo]
    exact htags

/-! ### What a lookup answers -/

/-- The tables in memory and the published ones together have the current value. -/
private theorem get_or_published {fmt : TableFormat} {s : Store fmt}
    {base : Bytes → Except fmt.Err (Option (Option Bytes))} (h : s.StoreInv base) (k : Bytes) :
    (s.mgr.get k).or (Manager.newest s.mgr.tables s.published k) = s.mgr.current k := by
  rw [← h.tables.get_or_retired k, Manager.retired]
  cases himm : s.mgr.immutable with
  | none => simp only [Store.published, himm, Option.getD_none]
  | some i =>
    rw [Option.getD_some, Store.published, himm]
    dsimp only
    split
    · -- the immutable table is asked twice
      rw [Manager.newest, Manager.get, himm, Option.bind_some, Option.or_assoc, Option.or_assoc]
      congr 1
      cases (s.mgr.tables i).get k <;> rfl
    · rfl

/-! ### The manifest on disk -/

section Manifest

variable {fmt : TableFormat} {s s' : Store fmt} {a : StoreAct}

/-- The file of the manifest gives back the version in memory. -/
def Replays (s : Store fmt) : Prop :=
  ∃ m, openManifest s.manifest.file = .ok m ∧ m.current = s.version

/-- The file holds whole edits and nothing else. -/
def WholeEdits (file : Bytes) : Prop :=
  ∃ es : List VersionEdit, (∀ e ∈ es, e.Fits) ∧ file = es.flatMap VersionEdit.frame

/-- An edit is applied that fits its fields, to a file of whole edits; an `Apply` that fails leaves
less than the whole edit. -/
def AppliesWhole (s : Store fmt) : StoreAct → Prop
  | .apply => ∀ stop i num, s.mgr.flush = .flushing stop i → s.job = .registered num →
      (s.edit num i).Fits ∧ WholeEdits s.manifest.file
  | .applyErr n => ∀ stop i num, s.mgr.flush = .flushing stop i → s.job = .registered num →
      (s.edit num i).Fits ∧ WholeEdits s.manifest.file ∧ n < (s.edit num i).frame.length
  | _ => True

/-- The version that a file of whole edits, and a part of one more, gives back. -/
private theorem Replays.append (h : Replays s) {es : List VersionEdit} (hfits : ∀ e ∈ es, e.Fits)
    (hfile : s.manifest.file = es.flatMap VersionEdit.frame) (es' : List VersionEdit)
    (hfits' : ∀ e ∈ es', e.Fits) {tail : Bytes} (htail : IsTorn tail) :
    ∃ m, openManifest (s.manifest.file ++ (es'.flatMap VersionEdit.frame ++ tail)) = .ok m ∧
      m.current = es'.foldl Version.edit s.version := by
  obtain ⟨m₀, hm₀, hcurrent₀⟩ := h
  obtain ⟨m₁, hm₁, hcurrent₁, -⟩ := openManifest_frames hfits isTorn_nil
  rw [List.append_nil, ← hfile, hm₀] at hm₁
  cases hm₁
  have hall : ∀ e ∈ es ++ es', e.Fits := fun e he =>
    (List.mem_append.mp he).elim (hfits e) (hfits' e)
  obtain ⟨m, hm, hcurrent, -⟩ := openManifest_frames hall htail
  refine ⟨m, ?_, ?_⟩
  · rw [← hm, hfile, List.flatMap_append, List.append_assoc]
  · rw [hcurrent, Version.ofEdits, List.foldl_append, ← hcurrent₀, hcurrent₁, Version.ofEdits]

/-- **Step lemma**: only `Apply` writes to the file. -/
theorem Replays.step (h : Replays s) (hg : AppliesWhole s a) (hs : Store.Step s a s') :
    Replays s' := by
  cases hs with
  | @apply stop i num m hf hj hm =>
    obtain ⟨hfits, es, hes, hfile⟩ := hg stop i num hf hj
    obtain ⟨m', hm', hcurrent⟩ := h.append hes hfile [s.edit num i] (by simpa using hfits)
      isTorn_nil
    rw [Store.edit, Manifest.apply_flushEdit _ rfl] at hm
    cases hm
    exact ⟨m', by simpa [Store.edit] using hm', hcurrent⟩
  | @applyErr n stop i num hf hj =>
    obtain ⟨hfits, ⟨es, hes, hfile⟩, hn⟩ := hg stop i num hf hj
    exact h.append hes hfile [] (List.forall_mem_nil _) ⟨_, hfits, n, hn, rfl⟩
  | _ => exact h

end Manifest

namespace DB

variable {fmt : TableFormat} {base : Bytes → Except fmt.Err (Option (Option Bytes))}
  {s s' : DB fmt} {a : DBAct} {k : Bytes}

/-- The bindings that the replay of batches makes. -/
def batchWrites (batches : List Batch) : List Entry :=
  batches.flatMap fun b => b.entries.map fun e => (e.key, e.effect)

/-- The bytes of `wal.log` after a crash. -/
def diskLog (s : DB fmt) : Bytes :=
  match s.walLog with
  | none => []
  | some n => (s.wals n).file

/-- What the files answer for a key after a crash: the replayed log, or else the tree that
`NewLSMTree` makes of the manifest and the tables; none when it fails. -/
def recoveredGet (s : DB fmt) (key : Bytes) : Option (Except fmt.Err (Option (Option Bytes))) :=
  (Store.openTree s.store.files s.store.manifest.file).map fun p =>
    orTree (lastWrite key (batchWrites (recoverBatches s.diskLog)))
      (p.1.current.get p.2 fmt.get key)

/-- What the database answers for a key: the tables in memory, or else the tree. -/
def liveGet (s : DB fmt) (key : Bytes) : Except fmt.Err (Option (Option Bytes)) :=
  orTree (s.store.mgr.get key) (s.store.treeGet key)

/-- **A key survives a crash**: `NewLSMTree` succeeds, and the replay answers what `DB.Get`
answered. -/
def Survives (s : DB fmt) (key : Bytes) : Prop := s.recoveredGet key = some (s.liveGet key)

/-- The most recent write of the key has returned: the last record of the log that has the key is
acknowledged and inserted, and no call that has not reached the log has the key. -/
def Settled (s : DB fmt) (key : Bytes) : Prop :=
  s.store.mgr.SettledKey key ∧
    ∀ c b, s.store.mgr.pcs c = .called b → lastWrite key (recordWrites b) = none

/-- The tree before and after a crash. -/
private theorem reopened_tree (h : s.store.StoreInv base) (hm : Replays s.store) :
    ∃ p, Store.openTree s.store.files s.store.manifest.file = some p ∧
      ∀ key, p.1.current.get p.2 fmt.get key = s.store.treeGet key := by
  obtain ⟨m, hm, hcurrent⟩ := hm
  -- the readers after a crash are those before
  have hreader : ∀ n, m.current.Live n →
      Store.openTable s.store.files n = s.store.readers n ∧ s.store.readers n ≠ none := by
    intro n hn
    obtain ⟨f, r, hf, hopen, hr⟩ := h.disk n (hcurrent ▸ hn)
    simp [Store.openTable, hf, hopen, hr, Except.toOption]
  refine ⟨_, Store.openTree_eq hm fun n hn => (hreader n hn).1 ▸ (hreader n hn).2, fun key => ?_⟩
  rw [Store.treeGet, ← hcurrent]
  refine Version.get_congr (fun n hn => ?_) key
  exact (if_pos (Version.mem_fileNums.mpr hn)).trans (hreader n hn).1

/-- `DB.Get` answers with the write that took effect last. -/
theorem liveGet_eq (h : s.store.StoreInv base) (key : Bytes) :
    s.liveGet key = orTree (s.store.mgr.current key) (base key) := by
  rw [liveGet, h.lookup key, ← orTree_or, get_or_published h]

/-- What has to be shown of the log for a key to survive. -/
private theorem survives_of_lastWrite (h : s.store.StoreInv base) (hm : Replays s.store)
    (hlog : (lastWrite k (batchWrites (recoverBatches s.diskLog))).or
      (Manager.newest s.store.mgr.tables s.store.published k) = s.store.mgr.current k) :
    s.Survives k := by
  obtain ⟨p, hp, hget⟩ := reopened_tree h hm
  rw [Survives, recoveredGet, hp, Option.map_some, hget, h.lookup, ← orTree_or, hlog, liveGet_eq h]

/-! ### The two phases of the log -/

/-- The batch a writer waits to have logged. -/
def calledBatch : WritePc → Batch
  | .called b => b
  | _ => ⟨[]⟩

/-- The batches that were appended to the log of the manager's committer. -/
def walBatches (s : DB fmt) : List Batch :=
  s.store.mgr.log.map LogRecord.batch ++ s.group.map fun c => calledBatch (s.store.mgr.pcs c)

/-- **First phase**: `wal.log` is the file the manager's committer writes to. It holds all records
and the group in progress, aligned, and on disk at least the records. -/
structure Logging (s : DB fmt) : Prop where
  walLog : s.walLog = some 0
  rotate : s.rotate ≠ .renamed ∧ s.rotate ≠ .installed
  faults : (s.wals 0).faults = []
  aligned : Aligned 0 (s.wals 0).pieces
  holds : ∃ qss, List.Forall₂ (fun b qs => Fragments true b.encode qs) s.walBatches qss ∧
    (s.wals 0).pieces = qss.flatten ∧
    (s.wals 0).OnDisk (qss.take s.store.mgr.log.length).flatten
  block : s.synced = true ∨ s.group = [] → (s.wals 0).block = []
  opened : s.group ≠ [] → (s.wals 0).closed = false

/-- **Second phase**: the log of the manager's committer is gone, `wal.log` is empty. No writer is
between the log and the tables, and all tables that are not empty are in the tree. -/
structure Rotated (s : DB fmt) : Prop where
  stopped : s.running 0 = false
  log : ∀ n, s.walLog = some n → (s.wals n).file = [] ∧ (s.wals n).block = []
  group : s.group = []
  quiet : ∀ c, (s.store.mgr.pcs c).isQuiet = true
  published : s.store.published = s.store.mgr.active
  active : ∀ key, (s.store.mgr.tables s.store.mgr.active).get key = none

/-- **The condition**: values are not empty and lengths fit their fields; records are appended
inside the blocks of the log file; entries are inserted in log order; flushes draw fresh numbers,
write tables that can be read back, and apply their edits behind whole ones; and `wal.log` is
renamed only while the active table is empty. -/
def Durably (s : DB fmt) : DBAct → Prop
  | .call _ b => NonEmptyValues b ∧ b.Fits
  | .append c => ∀ b, s.store.mgr.pcs c = .called b →
      Aligned 0 ((s.wals s.mgrWal).append b.encode).1.pieces
  | .store b => s.store.FreshNumber b ∧ s.store.ReadableTable b ∧ AppliesWhole s.store b ∧
      ∀ b', b = .mgr b' → s.store.mgr.InLogOrder b'
  | .rotateRename true => ∀ key, (s.store.mgr.tables s.store.mgr.active).get key = none
  | _ => True

/-- What the directory has to be like: the log is aligned and holds the batches that are
recovered, and the tree is what `NewLSMTree` makes of the manifest and the tables. -/
structure Intact (o : Opening fmt) : Prop where
  bytes : o.log.bytes = o.log.pieces.flatMap Piece.bytes
  aligned : Aligned 0 o.log.pieces
  holds : ∃ qss, List.Forall₂ (fun b qs => Fragments true b.encode qs) o.batches qss ∧
    o.log.pieces = qss.flatten
  batches : ∀ b ∈ o.batches, NonEmptyValues b ∧ b.Fits
  tree : Store.openTree o.files o.manifest.file = some (o.manifest, o.readers)

/-- What holds in every state of a run that keeps to the condition. -/
structure DurInv (base : Bytes → Except fmt.Err (Option (Option Bytes))) (s : DB fmt) :
    Prop where
  store : s.store.StoreInv base
  manifest : Replays s.store
  log : s.store.mgr.LogInv
  ordered : s.store.mgr.Ordered
  batches : s.store.mgr.BatchInv fun b => NonEmptyValues b ∧ b.Fits
  lock : LockInv s
  gc : GcInv s
  phase : Logging s ∨ Rotated s

theorem durInv_opening {o : Opening fmt} (h : Intact o) (maxSize : ℤ) :
    DurInv (o.manifest.current.get o.readers fmt.get) (DB.opening o maxSize) where
  store :=
    have htree := Store.openTree_spec h.tree
    Store.storeInv_start (openManifest_spec htree.1).2 htree.2 o.batches maxSize
  manifest := ⟨o.manifest, (Store.openTree_spec h.tree).1, rfl⟩
  log := logInv_recovering maxSize o.batches
  ordered k := by simp [DB.opening, Store.start, recovering, Manager.new]
  batches := by
    refine ⟨fun c b hc => ?_, fun r hr => ?_⟩
    · change Function.update (fun _ => WritePc.idle) 0 _ c = _ at hc
      by_cases hc0 : c = 0
      · subst hc0
        rw [Function.update_self] at hc
        cases hc
      · rw [Function.update_of_ne hc0] at hc
        cases hc
    · obtain ⟨b, hb, rfl⟩ := List.mem_map.mp hr
      exact h.batches b hb
  lock := lockInv_opening o maxSize
  gc := gcInv_opening o maxSize
  phase := by
    obtain ⟨qss, hqss, hpieces⟩ := h.holds
    have hlen : (o.batches.map fun b => (⟨b, 0, true⟩ : LogRecord)).length = qss.length := by
      rw [List.length_map, hqss.length_eq]
    refine .inl ⟨rfl, ⟨?_, ?_⟩, rfl, h.aligned, ⟨qss, ?_, hpieces, ?_⟩, fun _ => rfl,
      fun _ => rfl⟩
    · rintro ⟨⟩
    · rintro ⟨⟩
    · simpa [walBatches, DB.opening, Store.start, recovering] using hqss
    · refine ⟨o.log.pieces, [], by simp [DB.opening, Wal.Writer.new], h.bytes, rfl, ?_⟩
      change (qss.take (o.batches.map fun b => (⟨b, 0, true⟩ : LogRecord)).length).flatten <+: _
      exact ⟨[], by rw [List.append_nil, hlen, List.take_length, hpieces]⟩

/-! ### Steps of the first phase -/

/-- Steps that leave the logs, the records and the group alone. -/
private theorem Logging.of_same (h : Logging s) (hwals : s'.wals = s.wals)
    (hwalLog : s'.walLog = s.walLog) (hgroup : s'.group = s.group) (hsynced : s'.synced = s.synced)
    (hlog : s'.store.mgr.log = s.store.mgr.log)
    (hpcs : ∀ c ∈ s.group, s'.store.mgr.pcs c = s.store.mgr.pcs c)
    (hrotate : s'.rotate ≠ .renamed ∧ s'.rotate ≠ .installed) : Logging s' := by
  have hbatches : s'.walBatches = s.walBatches := by
    rw [walBatches, walBatches, hlog, hgroup]
    congr 1
    exact List.map_congr_left fun c hc => by rw [hpcs c hc]
  refine ⟨hwalLog.trans h.walLog, hrotate, hwals ▸ h.faults, hwals ▸ h.aligned, ?_, fun hb => ?_,
    fun hg => hwals ▸ h.opened (hgroup ▸ hg)⟩
  · rw [hbatches, hwals, hlog]
    exact h.holds
  · rw [hwals]
    exact h.block (by rwa [hsynced, hgroup] at hb)

private theorem Logging.append (h : Logging s) (hgc : GcInv s) {c : ClientId} {b : Batch}
    (hpc : s.store.mgr.pcs c = .called b) (hrun : s.running s.mgrWal = true)
    (hsynced : s.synced = false)
    (haligned : Aligned 0 ((s.wals s.mgrWal).append b.encode).1.pieces) :
    Logging (s.append c b) := by
  rw [hgc.mgrWal] at hrun haligned
  obtain ⟨qss, hqss, hpieces, hdisk⟩ := h.holds
  have hclosed := (hgc.walLog hrun).2
  have happend : (s.wals 0).append b.encode = (s.wals 0).appendLoop b.encode true := by
    rw [Wal.Writer.append, if_neg (by simp [hclosed])]
  obtain ⟨hok, hfaults⟩ := Wal.Writer.appendLoop_noFaults h.faults b.encode true
  obtain ⟨ps, hps, hnew⟩ := @Wal.Writer.appendLoop_pieces (s.wals 0)
    ((s.wals 0).appendLoop b.encode true).1 b.encode true (Prod.ext rfl hok)
  have hw : (s.append c b).wals 0 = ((s.wals 0).appendLoop b.encode true).1 := by
    rw [append_wals, hgc.mgrWal, Function.update_self, happend]
  have hbatches : (s.append c b).walBatches = s.walBatches ++ [b] := by
    simp [walBatches, calledBatch, hpc]
  have hle : s.store.mgr.log.length ≤ qss.length := by
    rw [← hqss.length_eq, walBatches, List.length_append, List.length_map]
    omega
  rw [happend] at haligned
  refine ⟨h.walLog, h.rotate, by rw [hw, hfaults], by rw [hw]; exact haligned,
    ⟨qss ++ [ps], ?_, ?_, ?_⟩, fun hb => ?_, fun _ => ?_⟩
  · rw [hbatches]
    exact List.rel_append hqss (.cons hps .nil)
  · rw [hw, hnew, hpieces]
    simp
  · rw [hw, append_store, List.take_append_of_le_length hle]
    exact hdisk.appendLoop b.encode true
  · rcases hb with hb | hb
    · exact absurd (hb.symm.trans hsynced) (by decide)
    · exact absurd hb (by simp)
  · rw [hw, Wal.Writer.appendLoop_closed, hclosed]

private theorem Logging.sync (h : Logging s) (hgc : GcInv s) (hgroup : s.group ≠ []) :
    Logging s.sync := by
  have hclosed := h.opened hgroup
  obtain ⟨qss, hqss, hpieces, hdisk⟩ := h.holds
  have hw : s.sync.wals 0 = (s.wals 0).flushBlock.1 := by
    rw [sync_wals, hgc.mgrWal, Function.update_self, Wal.Writer.sync, if_neg (by simp [hclosed])]
  obtain ⟨hok, hfaults⟩ := Wal.Writer.flushBlock_noFaults h.faults
  obtain ⟨hblock, -, hsame, -⟩ :=
    @Wal.Writer.flushBlock_cases (s.wals 0) (s.wals 0).flushBlock.1 (Prod.ext rfl hok)
  refine ⟨h.walLog, h.rotate, by rw [hw, hfaults], by rw [hw, hsame]; exact h.aligned,
    ⟨qss, hqss, by rw [hw, hsame, hpieces], ?_⟩, fun _ => by rw [hw, hblock],
    fun _ => by rw [hw, Wal.Writer.flushBlock_closed, hclosed]⟩
  rw [hw]
  exact hdisk.flushBlock

/-- The first member of the group has its answer: its batch is a record now. -/
private theorem Logging.ack (h : Logging s) {c : ClientId} {rest : List ClientId} {st : Store fmt}
    (hnodup : s.group.Nodup) (hgroup : s.group = c :: rest) (hsynced : s.synced = true)
    (hm : Manager.Step s.store.mgr (.submit c) st.mgr) : Logging (s.ack st rest) := by
  obtain ⟨qss, hqss, hpieces, hdisk⟩ := h.holds
  have hblock := h.block (.inl hsynced)
  have hc : c ∉ rest := (List.nodup_cons.mp (hgroup ▸ hnodup)).1
  obtain ⟨b, hb, hlog, hpcs⟩ := hm.submit_eq
  have hbatches : (s.ack st rest).walBatches = s.walBatches := by
    rw [walBatches, walBatches, hgroup, ack_store, ack_group, hlog, List.map_append,
      List.map_cons, List.map_nil, List.map_cons, hb, List.append_assoc]
    congr 1
    simp only [calledBatch, List.cons_append, List.nil_append, List.cons.injEq, true_and]
    refine List.map_congr_left fun d hd => ?_
    rw [hpcs d fun hdc => hc (hdc ▸ hd)]
  refine ⟨h.walLog, h.rotate, h.faults, h.aligned, ⟨qss, hbatches ▸ hqss, hpieces, ?_⟩,
    fun _ => hblock, fun _ => h.opened (by rw [hgroup]; nofun)⟩
  obtain ⟨ps, qs, hsplit, hfile, hqs, hpre⟩ := hdisk.of_block_nil hblock
  refine ⟨ps, qs, hsplit, hfile, hqs, List.IsPrefix.trans ?_ hpre⟩
  refine ⟨(qss.drop (s.ack st rest).store.mgr.log.length).flatten, ?_⟩
  rw [← List.flatten_append, List.take_append_drop, hpieces]

private theorem Logging.closeWriter (h : Logging s) (hgroup : s.group = []) :
    Logging s.closeWriter := by
  have hblock := h.block (.inr hgroup)
  by_cases hwal : s.wal = 0
  · obtain ⟨qss, hqss, hpieces, hdisk⟩ := h.holds
    have hw : s.closeWriter.wals 0 = (s.wals 0).close.1 := by
      rw [closeWriter_wals, hwal, Function.update_self]
    obtain ⟨hfile, hblock', hfaults⟩ := Wal.Writer.close_of_block_nil hblock
    have hsame := (s.wals 0).close_pieces
    refine ⟨h.walLog, h.rotate, by rw [hw, hfaults, h.faults], by rw [hw, hsame]; exact h.aligned,
      ⟨qss, hqss, by rw [hw, hsame, hpieces], ?_⟩, fun _ => by rw [hw, hblock'],
      fun hg => absurd hgroup hg⟩
    obtain ⟨ps, qs, hsplit, hfile', hqs, hpre⟩ := hdisk
    rw [hw]
    exact ⟨ps, qs, hsame.trans hsplit, hfile.trans hfile', by rw [hblock', ← hqs, hblock], hpre⟩
  · have hw : s.closeWriter.wals 0 = s.wals 0 := by
      rw [closeWriter_wals, Function.update_of_ne (Ne.symm hwal)]
    refine ⟨h.walLog, h.rotate, by rw [hw]; exact h.faults, by rw [hw]; exact h.aligned, ?_,
      fun _ => by rw [hw, hblock], fun hg => absurd hgroup hg⟩
    rw [hw]
    exact h.holds

/-! ### Steps of the second phase, and the change to it -/

/-- `wal.log` is given up while the active table is empty. -/
private theorem Rotated.of_rename (hstore : s.store.StoreInv base) (hlock : LockInv s)
    (hgc : GcInv s) (hpc : s.rotate = .closed)
    (hempty : ∀ key, (s.store.mgr.tables s.store.mgr.active).get key = none) {rotated : List ℕ} :
    Rotated { s with walLog := none, rotated, rotate := .renamed } := by
  obtain ⟨hidle, hgroup⟩ := hlock.idle_of_rotate (by rw [hpc]; rfl)
  have hjob := hlock.rotating (by rw [hpc]; nofun)
  obtain ⟨stop, i, hf⟩ := hlock.job (by rw [hjob]; nofun)
  have himm := hstore.tables.flushing_eq stop i hf
  refine ⟨?_, nofun, hgroup, fun c => ?_, ?_, hempty⟩
  · rw [← Bool.not_eq_true]
    intro hrun
    have := hgc.rotate hrun
    rw [hpc] at this
    cases this
  · change (s.store.mgr.pcs c).isQuiet = true
    rw [hidle c]
    rfl
  · change s.store.published = s.store.mgr.active
    rw [Store.published, himm]
    simp only [Store.flushedImmutable, hjob, decide_true, Bool.or_true, if_true]
    exact hstore.tables.immutable_succ i himm

private theorem Rotated.of_store (h : Rotated s) (hstore : s.store.StoreInv base)
    (hstore' : s'.store.StoreInv base) {b : StoreAct} (hst : Store.Step s.store b s'.store)
    (hsubmit : ∀ c, b ≠ .mgr (.submit c)) (hrun : s'.running = s.running)
    (hwals : s'.wals = s.wals) (hwalLog : s'.walLog = s.walLog) (hgroup : s'.group = s.group) :
    Rotated s' := by
  have hquiet : (∀ c, (s'.store.mgr.pcs c).isQuiet = true) ∧
      s'.store.mgr.tables = s.store.mgr.tables ∧ s'.store.mgr.active = s.store.mgr.active := by
    rcases hst.mgr_cases with heq | ⟨b', rfl, hm⟩
    · rw [heq]
      exact ⟨h.quiet, rfl, rfl⟩
    · exact hm.quiet h.quiet fun c hb => hsubmit c (by rw [hb])
  obtain ⟨hpcs, htables, hactive⟩ := hquiet
  refine ⟨hrun ▸ h.stopped, ?_, hgroup.trans h.group, hpcs, ?_, ?_⟩
  · rw [hwalLog, hwals]
    exact h.log
  · -- what is published only grows, and there is nothing more to publish
    refine le_antisymm hstore'.published_le ?_
    rw [hactive, ← h.published]
    exact (hst.extends hstore []).published_le
  · rw [htables, hactive]
    exact h.active

private theorem Rotated.of_logs (h : Rotated s) (hstore : s'.store = s.store)
    (hgroup : s'.group = s.group) (hrun : s'.running 0 = false)
    (hlog : ∀ n, s'.walLog = some n → (s'.wals n).file = [] ∧ (s'.wals n).block = []) :
    Rotated s' := by
  refine ⟨hrun, hlog, hgroup.trans h.group, ?_, ?_, ?_⟩
  · rw [hstore]
    exact h.quiet
  · rw [hstore]
    exact h.published
  · rw [hstore]
    exact h.active

private theorem Rotated.closeWriter_log (h : Rotated s) (n : ℕ) (hn : s.walLog = some n) :
    (s.closeWriter.wals n).file = [] ∧ (s.closeWriter.wals n).block = [] := by
  obtain ⟨hfile, hblock⟩ := h.log n hn
  rw [closeWriter_wals]
  by_cases hwal : n = s.wal
  · rw [hwal, Function.update_self, ← hwal]
    obtain ⟨hfile', hblock', -⟩ := Wal.Writer.close_of_block_nil hblock
    exact ⟨hfile'.trans hfile, hblock'⟩
  · rw [Function.update_of_ne hwal]
    exact ⟨hfile, hblock⟩

/-! ### Whole runs -/

/-- But for the answers to a group, no step adds a record or answers a member of the group. -/
private theorem Lifts.same (hlock : LockInv s) {b : StoreAct} {st : Store fmt}
    (hl : Lifts s a b) (ha : a ≠ .ack) (hst : Store.Step s.store b st) :
    (∀ c, b ≠ .mgr (.submit c)) ∧ st.mgr.log = s.store.mgr.log ∧
      ∀ c ∈ s.group, st.mgr.pcs c = s.store.mgr.pcs c := by
  have hb : (∀ c, b ≠ .mgr (.submit c)) ∧ (∀ c, b ≠ .mgr (.submitErr c true)) ∧
      ∀ c ∈ s.group, b ≠ .mgr (.submitErr c false) := by
    cases a with
    | ack => exact absurd rfl ha
    | start | call | ret | flushed | closeStop =>
      cases hl
      exact ⟨nofun, nofun, fun _ _ => nofun⟩
    | reject c =>
      obtain ⟨rfl, hc⟩ := hl
      refine ⟨nofun, nofun, fun d hd heq => hc ?_⟩
      cases heq
      exact hd
    | store b' =>
      obtain ⟨rfl, hallows⟩ := hl
      refine ⟨?_, ?_, ?_⟩
      · rintro c rfl
        cases hallows
      · rintro c rfl
        cases hallows
      · rintro c - rfl
        cases hallows
    | _ => exact hl.elim
  refine ⟨hb.1, ?_⟩
  rcases hst.mgr_cases with heq | ⟨b', rfl, hm⟩
  · rw [heq]
    exact ⟨rfl, fun _ _ => rfl⟩
  · refine ⟨hm.log_eq (fun c hc => hb.1 c (by rw [hc])) fun c hc => hb.2.1 c (by rw [hc]),
      fun c hc => ?_⟩
    obtain ⟨batch, hbatch⟩ := hlock.group c hc
    rw [hbatch]
    refine hm.pcs_stay hbatch (.inr ⟨batch, rfl⟩) nofun fun _ =>
      ⟨fun h => hb.1 c (by rw [h]), fun p h => ?_⟩
    cases p with
    | true => exact hb.2.1 c (by rw [h])
    | false => exact hb.2.2 c hc (by rw [h])

/-- **Step lemma** of the first phase. -/
private theorem Logging.step (h : Logging s) (hstore : s.store.StoreInv base) (hlock : LockInv s)
    (hgc : GcInv s) (hg : Durably s a) (hs : Step s a s') : Logging s' ∨ Rotated s' := by
  have hlift : ∀ {b st}, Lifts s a b → a ≠ .ack → Store.Step s.store b st →
      st.mgr.log = s.store.mgr.log ∧ ∀ c ∈ s.group, st.mgr.pcs c = s.store.mgr.pcs c :=
    fun hl ha hst => (hl.same hlock ha hst).2
  cases hs with
  | append hpc hrun hsynced hc => exact .inl (h.append hgc hpc hrun hsynced (hg _ hpc))
  | sync hgroup hsynced => exact .inl (h.sync hgc hgroup)
  | ack hgroup hsynced hst => exact .inl (h.ack hlock.nodup hgroup hsynced hst.of_mgr)
  | start _ _ hst | call _ _ _ hst | ret _ hst | closeStop _ hst =>
    obtain ⟨hlog, hpcs⟩ := hlift rfl nofun hst
    exact .inl (h.of_same rfl rfl rfl rfl hlog hpcs h.rotate)
  | reject _ hallows hst | store hallows hst =>
    obtain ⟨hlog, hpcs⟩ := hlift ⟨rfl, hallows⟩ nofun hst
    exact .inl (h.of_same rfl rfl rfl rfl hlog hpcs h.rotate)
  | flushed _ hst =>
    obtain ⟨hlog, hpcs⟩ := hlift rfl nofun hst
    exact .inl (h.of_same rfl rfl rfl rfl hlog hpcs ⟨nofun, nofun⟩)
  | rotateEnter | rotateAnnounce | rotateLock | rotateStop | rotateUnlock | rotateRenameErr =>
    exact .inl (h.of_same rfl rfl rfl rfl rfl (fun _ _ => rfl) ⟨nofun, nofun⟩)
  | rotateClose hpc =>
    have hgroup := (hlock.idle_of_rotate (by rw [hpc]; rfl)).2
    exact .inl ((h.closeWriter hgroup).of_same rfl rfl rfl rfl rfl (fun _ _ => rfl)
      ⟨nofun, nofun⟩)
  | rotateRename hpc hn => exact .inr (Rotated.of_rename hstore hlock hgc hpc hg)
  | rotateCreate hpc | rotateCreateErr hpc => exact absurd hpc h.rotate.1
  | rotateRemove hpc => exact absurd hpc h.rotate.2
  | closeEnter | closeAnnounce | closeAgain | closeLock | closeWait | closeGc =>
    exact .inl (h.of_same rfl rfl rfl rfl rfl (fun _ _ => rfl) h.rotate)
  | closeWal hpc =>
    have hgroup := (hlock.idle_of_closer (by rw [hpc]; rfl)).2
    exact .inl ((h.closeWriter hgroup).of_same rfl rfl rfl rfl rfl (fun _ _ => rfl) h.rotate)

/-- **Step lemma** of the second phase. -/
private theorem Rotated.step (h : Rotated s) (hstore : s.store.StoreInv base)
    (hstore' : s'.store.StoreInv base) (hlock : LockInv s) (hgc : GcInv s) (hs : Step s a s') :
    Rotated s' := by
  have hlift : ∀ {b st}, Lifts s a b → a ≠ .ack → Store.Step s.store b st →
      ∀ c, b ≠ .mgr (.submit c) := fun hl ha hst => (hl.same hlock ha hst).1
  cases hs with
  | append hpc hrun hsynced hc =>
    rw [hgc.mgrWal, h.stopped] at hrun
    cases hrun
  | sync hgroup hsynced => exact absurd h.group hgroup
  | ack hgroup hsynced hst =>
    rw [h.group] at hgroup
    cases hgroup
  | start _ _ hst | call _ _ _ hst | ret _ hst | flushed _ hst | closeStop _ hst =>
    exact h.of_store hstore hstore' hst (hlift rfl nofun hst) rfl rfl rfl rfl
  | reject _ hallows hst | store hallows hst =>
    exact h.of_store hstore hstore' hst (hlift ⟨rfl, hallows⟩ nofun hst) rfl rfl rfl rfl
  | rotateStop | closeGc => exact h.of_logs rfl rfl hgc.running_stopGc h.log
  | rotateClose | closeWal => exact h.of_logs rfl rfl h.stopped h.closeWriter_log
  | rotateRename => exact h.of_logs rfl rfl h.stopped nofun
  | rotateCreate =>
    refine h.of_logs rfl rfl ?_ fun n hn => ?_
    · rw [install_running, Function.update_of_ne hgc.nextWal.ne, h.stopped]
    · cases hn
      rw [install_wals, Function.update_self]
      exact ⟨rfl, rfl⟩
  | _ => exact h.of_logs rfl rfl h.stopped h.log

/-- The conditions of a step, for the step of the store that it contains. -/
private theorem Durably.lift (hg : Durably s a) {b : StoreAct} (hl : Lifts s a b) :
    (s.store.FreshNumber b ∧ s.store.ReadableTable b ∧ AppliesWhole s.store b) ∧
      (∀ b', b = .mgr b' → s.store.mgr.InLogOrder b') ∧
      ∀ c batch, b = .mgr (.call c batch) → NonEmptyValues batch ∧ batch.Fits := by
  cases a with
  | call c batch =>
    cases hl
    refine ⟨⟨trivial, trivial, trivial⟩, ?_, ?_⟩
    · rintro b' heq
      cases heq
      trivial
    · rintro c' batch' heq
      cases heq
      exact hg
  | store b' =>
    obtain ⟨rfl, hallows⟩ := hl
    refine ⟨⟨hg.1, hg.2.1, hg.2.2.1⟩, hg.2.2.2, ?_⟩
    rintro c batch rfl
    cases hallows
  | ack =>
    obtain ⟨c, rest, -, -, rfl⟩ := hl
    refine ⟨⟨trivial, trivial, trivial⟩, ?_, nofun⟩
    rintro b' heq
    cases heq
    trivial
  | reject c =>
    obtain ⟨rfl, -⟩ := hl
    refine ⟨⟨trivial, trivial, trivial⟩, ?_, nofun⟩
    rintro b' heq
    cases heq
    trivial
  | start | ret | flushed | closeStop =>
    cases hl
    refine ⟨⟨trivial, trivial, trivial⟩, ?_, nofun⟩
    rintro b' heq
    cases heq
    trivial
  | _ => exact hl.elim

/-- **Step lemma.** -/
theorem DurInv.step (h : DurInv base s) (hg : Durably s a) (hs : Step s a s') :
    DurInv base s' := by
  have hphase : s'.store.StoreInv base → Logging s' ∨ Rotated s' := by
    intro hstore'
    rcases h.phase with hp | hp
    · exact hp.step h.store h.lock h.gc hg hs
    · exact .inr (hp.step h.store hstore' h.lock h.gc hs)
  have hlock := h.lock.step hs
  have hgc := h.gc.step hs
  rcases hs.lifts with ⟨heq, -⟩ | ⟨b, hl, hst⟩
  · exact ⟨heq ▸ h.store, heq ▸ h.manifest, heq ▸ h.log, heq ▸ h.ordered, heq ▸ h.batches, hlock,
      hgc, hphase (heq ▸ h.store)⟩
  · obtain ⟨⟨hfresh, hread, hwhole⟩, horder, hcall⟩ := hg.lift hl
    have hstore' : s'.store.StoreInv base := h.store.step hfresh hread hst
    have hmgr : s'.store.mgr.LogInv ∧ s'.store.mgr.Ordered ∧
        s'.store.mgr.BatchInv fun b => NonEmptyValues b ∧ b.Fits := by
      rcases hst.mgr_cases with heq | ⟨b', rfl, hm⟩
      · rw [heq]
        exact ⟨h.log, h.ordered, h.batches⟩
      · exact ⟨h.log.step hm, h.ordered.step (horder b' rfl) hm,
          h.batches.step (fun c batch hb => hcall c batch (by rw [hb])) hm⟩
    exact ⟨hstore', h.manifest.step hwhole hst, hmgr.1, hmgr.2.1, hmgr.2.2, hlock, hgc,
      hphase hstore'⟩

/-! ### What is replayed -/

private theorem batchWrites_recovered (batches : List Batch) :
    batchWrites (batches.map Batch.recovered) = batches.flatMap recordWrites := by
  rw [batchWrites, List.flatMap_map]
  rfl

/-- In the first phase: the log ends with the current value of a settled key. -/
private theorem DurInv.survives_of_logging (h : DurInv base s) (hl : Logging s)
    (hk : Settled s k) : Survives s k := by
  obtain ⟨qss, hqss, hpieces, hdisk⟩ := hl.holds
  have hgroup : ∀ b ∈ s.group.map fun c => calledBatch (s.store.mgr.pcs c),
      ∃ c, s.store.mgr.pcs c = .called b := by
    intro b hb
    obtain ⟨c, hc, rfl⟩ := List.mem_map.mp hb
    obtain ⟨b, hpc⟩ := h.lock.group c hc
    exact ⟨c, by rw [hpc]; rfl⟩
  have hfits : ∀ b ∈ s.walBatches, b.Fits := by
    intro b hb
    rcases List.mem_append.mp hb with hb | hb
    · obtain ⟨r, hr, rfl⟩ := List.mem_map.mp hb
      exact (h.batches.log r hr).2
    · obtain ⟨c, hpc⟩ := hgroup b hb
      exact (h.batches.called c b hpc).2
  obtain ⟨n, hn, hrec⟩ :=
    recoverBatches_of_onDisk hqss hpieces hfits hl.aligned hdisk (by simp [walBatches])
  refine survives_of_lastWrite h.store h.manifest ?_
  have hlast : lastWrite k (batchWrites (recoverBatches s.diskLog)) = s.store.mgr.current k := by
    rw [diskLog, hl.walLog]
    dsimp only
    rw [hrec, batchWrites_recovered, walBatches, List.take_append,
      List.take_of_length_le (by simpa), List.flatMap_append, lastWrite_append, List.flatMap_map]
    -- the records of the group in progress do not have the key
    have hrest : lastWrite k (((s.group.map fun c => calledBatch (s.store.mgr.pcs c)).take
        (n - (s.store.mgr.log.map LogRecord.batch).length)).flatMap recordWrites) = none := by
      refine lastWrite_eq_none_iff.mpr fun p hp => ?_
      obtain ⟨b, hb, hpb⟩ := List.mem_flatMap.mp hp
      obtain ⟨c, hpc⟩ := hgroup b (List.mem_of_mem_take hb)
      exact lastWrite_eq_none_iff.mp (hk.2 c b hpc) p hpb
    rw [hrest, Option.none_or]
    exact Manager.lastWrite_logWrites h.log h.ordered (fun r hr => (h.batches.log r hr).1) hk.1
  rw [hlast]
  cases hcur : s.store.mgr.current k with
  | some v => rfl
  | none =>
    rw [← get_or_published h.store, Option.or_eq_none_iff] at hcur
    exact hcur.2

/-- In the second phase the tree has everything. -/
private theorem DurInv.survives_of_rotated (h : DurInv base s) (hr : Rotated s) :
    Survives s k := by
  refine survives_of_lastWrite h.store h.manifest ?_
  have hdisk : s.diskLog = [] := by
    rw [diskLog]
    split
    · rfl
    · exact (hr.log _ ‹_›).1
  rw [hdisk, recoverBatches_nil, hr.published, ← h.store.tables.newest_eq k, Manager.newest,
    hr.active k]
  rfl

/-- **Acknowledged writes survive a crash**, at every instant of a run that keeps to the
condition and for every key whose most recent write was acknowledged. -/
theorem survives_of_durably {o : Opening fmt} {maxSize : ℤ} {tr : List DBAct} (ho : Intact o)
    (hr : Machine.run DB.step (DB.opening o maxSize) tr = some s)
    (hg : Machine.Guarded DB.step Durably (DB.opening o maxSize) tr) (hk : Settled s k) :
    Survives s k := by
  have h : DurInv _ s :=
    Machine.run_guarded_invariant (fun _ _ _ h hg hs => h.step hg (step_cases hs))
      (durInv_opening ho maxSize) hg hr
  rcases h.phase with hl | hl
  · exact h.survives_of_logging hl hk
  · exact h.survives_of_rotated hl

/-- All calls have returned and all records are acknowledged. -/
private theorem settled_of_idle (hpcs : ∀ c, s.store.mgr.pcs c = .idle)
    (hlog : ∀ r ∈ s.store.mgr.log, r.acked = true) : Settled s k := by
  refine ⟨fun i r hr _ _ => ⟨hlog r (List.mem_of_getElem? hr), ?_⟩, fun c b hc => ?_⟩
  · rw [hpcs]
    rfl
  · rw [hpcs] at hc
    cases hc

/-- The edit of the flush of one small table. -/
def smallEdit (fmt : TableFormat) : VersionEdit :=
  flushEdit (tableFile fmt 0 1 [([107], some [1])])

theorem intact_emptyDir : Intact (emptyDir fmt) where
  bytes := rfl
  aligned := trivial
  holds := ⟨[], .nil, rfl⟩
  batches := nofun
  tree := by
    have hlive : ∀ n, ¬ Version.empty.Live n := by
      rintro n ⟨level, -, f, hf, -⟩
      cases hf
    refine (Store.openTree_eq rfl fun n hn => absurd hn (hlive n)).trans ?_
    simp only [Version.mem_fileNums, hlive, if_false]
    rfl

/-- A put that fills its table, to its end. -/
def openAndPut : List DBAct := openEmpty ++ putUpToInsert 0 [107] [1] ++ sendAndReturn 0

private theorem durably_mgr {b : Act} (h : s.store.mgr.InLogOrder b) :
    Durably s (.store (.mgr b)) := by
  refine ⟨trivial, trivial, trivial, ?_⟩
  rintro _ ⟨⟩
  exact h

private theorem durably_openAndPut :
    Machine.Guarded DB.step Durably (DB.opening (emptyDir fmt) 1) openAndPut := by
  refine .cons rfl (durably_mgr trivial) (.cons rfl (durably_mgr trivial) (.cons rfl trivial
    (.cons rfl ⟨by decide, by simp [Batch.Fits, BatchEntry.Fits]⟩ (.cons rfl ?_
      (.cons rfl trivial (.cons rfl trivial (.cons rfl (durably_mgr trivial)
        (.cons rfl (durably_mgr fun x _ => nofun) (.cons rfl (durably_mgr trivial)
          (.cons rfl (durably_mgr trivial) (.cons rfl trivial trivial)))))))))))
  rintro b ⟨⟩
  change Aligned 0 (Wal.Writer.append (Wal.Writer.new (some ⟨[], []⟩)) _).1.pieces
  rw [Wal.Writer.append_fits rfl (by decide)]
  exact ⟨by decide, trivial⟩

/-- The flush of the table and the rotation of the log, with no write in between. -/
def flushAndRotate : List DBAct := flushBegin ++ (flushEnd ++ rotateOk)

private theorem durably_flushAndRotate {r : fmt.Reader}
    (hr : fmt.Readable [([107], some [1])] r) (hfits : (smallEdit fmt).Fits) :
    Machine.Guarded DB.step Durably (DB.opening (emptyDir fmt) 1)
      (openAndPut ++ flushAndRotate) := by
  refine Machine.Guarded.append durably_openAndPut fun t ht => ?_
  cases ht
  refine .cons rfl (durably_mgr trivial) (.cons rfl (durably_mgr trivial) (.cons rfl ?_
    (.cons (step_register hr.opens rfl rfl rfl rfl) ?_ (.cons rfl ?_ (.cons rfl trivial
      (.cons rfl trivial (.cons rfl trivial (.cons rfl trivial (.cons rfl trivial
        (.cons rfl (fun _ => rfl) (.cons rfl trivial (.cons rfl trivial
          (.cons rfl trivial trivial)))))))))))))
  · -- the first number is fresh
    refine ⟨?_, trivial, trivial, nofun⟩
    rintro ⟨level, -, f, hf, -⟩
    cases hf
  · refine ⟨trivial, ?_, trivial, nofun⟩
    rintro stop i ⟨⟩
    exact ⟨r, hr⟩
  · refine ⟨trivial, trivial, ?_, nofun⟩
    rintro stop i num ⟨⟩ ⟨⟩
    exact ⟨hfits, [], nofun, rfl⟩

/-- A small table can be opened, and its edit be written. -/
private theorem small_noFilter :
    (∃ r, Config.noFilter.format.Readable [([107], some [1])] r) ∧
      (smallEdit Config.noFilter.format).Fits := by
  have hsmall : Config.noFilter.SmallEntries [([107], some [1])] := by
    simp [Config.SmallEntries, Config.noFilter, Config.plain, encodedLen, defaultBlockSize]
  have henc : (smallEdit Config.noFilter.format).Encodable := by decide +kernel
  exact ⟨⟨_, hsmall.readable (List.pairwise_singleton _ _) (by decide)⟩,
    henc.fits ⟨List.forall_mem_nil _, List.forall_mem_singleton.2 (by decide)⟩ rfl⟩

private theorem idle_after {r : fmt.Reader}
    (hopen : fmt.openReader (fmt.write [([107], some [1])]) = .ok r) :
    (∃ s, Machine.run DB.step (DB.opening (emptyDir fmt) 1) (openAndPut ++ flushAndRotate) =
      some s ∧ ∀ c, s.store.mgr.pcs c = .idle) ∧
    ∃ s, Machine.run DB.step (DB.opening (emptyDir fmt) 1) putFlushRotate = some s ∧
      ∀ c, s.store.mgr.pcs c = .idle := by
  constructor
  · refine ⟨_, Machine.run_append.mpr ⟨_, rfl, Machine.run_append.mpr ⟨_, rfl,
      Machine.run_cons_eq_some.mpr ⟨_, step_register hopen rfl rfl rfl rfl, rfl⟩⟩⟩, fun c => ?_⟩
    cases c <;> rfl
  · refine ⟨_, Machine.run_append.mpr ⟨_, rfl, Machine.run_cons_eq_some.mpr
      ⟨_, step_register hopen rfl rfl rfl rfl, rfl⟩⟩, fun c => ?_⟩
    cases c <;> rfl

/-- The statement at work: a put is flushed and its log rotated; it survives in the tree. -/
theorem survives_flushAndRotate :
    ∃ s : DB Config.noFilter.format,
      Machine.run DB.step (DB.opening (emptyDir Config.noFilter.format) 1)
        (openAndPut ++ flushAndRotate) = some s ∧
      s.diskLog = [] ∧ s.liveGet [107] = .ok (some (some [1])) ∧ Survives s [107] := by
  obtain ⟨⟨r, hr⟩, hfits⟩ := small_noFilter
  obtain ⟨s, hs, hpcs⟩ := (idle_after hr.opens).1
  have hrun : (Machine.run DB.step (DB.opening (emptyDir Config.noFilter.format) 1)
      (openAndPut ++ flushAndRotate)).any fun s => decide (s.diskLog = [] ∧
        s.liveGet [107] = .ok (some (some [1])) ∧ ∀ r ∈ s.store.mgr.log, r.acked = true) := by
    decide +kernel
  rw [hs] at hrun
  obtain ⟨hdisk, hlive, hlog⟩ := of_decide_eq_true hrun
  exact ⟨s, hs, hdisk, hlive, survives_of_durably intact_emptyDir hs
    (durably_flushAndRotate hr hfits) (settled_of_idle hpcs hlog)⟩

/-! ### The rotation and the active table -/

/-- **The rotation loses an acknowledged write.** With a table size of `1`, a put of the key `107`
fills the first table; while it is flushed, a put of `108` goes to the next table and returns
without an error; then the log is rotated. `DB.Get` finds the value of `108`, but after a crash
there is neither a record nor a file with the key. -/
theorem acknowledged_write_lost :
    ∃ s : DB Config.noFilter.format,
      Machine.run DB.step (DB.opening (emptyDir Config.noFilter.format) 1) putFlushRotate = some s ∧
      Settled s [108] ∧ s.liveGet [108] = .ok (some (some [2])) ∧
      s.recoveredGet [108] = some (.ok none) := by
  obtain ⟨⟨r, hr⟩, -⟩ := small_noFilter
  obtain ⟨s, hs, hpcs⟩ := (idle_after hr.opens).2
  have hrun : (Machine.run DB.step (DB.opening (emptyDir Config.noFilter.format) 1)
      putFlushRotate).any fun s => decide ((∀ r ∈ s.store.mgr.log, r.acked = true) ∧
        s.liveGet [108] = .ok (some (some [2])) ∧ s.recoveredGet [108] = some (.ok none)) := by
    decide +kernel
  rw [hs] at hrun
  obtain ⟨hlog, hlost⟩ := of_decide_eq_true hrun
  exact ⟨s, hs, settled_of_idle hpcs hlog, hlost⟩

end DB

end Stratum.Db
