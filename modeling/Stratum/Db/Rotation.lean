import Mathlib.Data.List.Induction
import Stratum.Db.Machine
import Stratum.Db.Linearizable

/-!
# The committer that the manager writes to

`NewManager` is given the committer of the log that `Open` creates, and nothing ever gives the
manager another one. So writes reach the log only until `rotateWAL` stops that committer for the
first time: in an open database the manager's log is live exactly when `db.gc.Stop` was not
reached yet (`liveLog_iff_not_rotated`), whatever the rotations return.
-/

namespace Stratum.Db.DB

open Memtable Lsm Sstable Wal


variable {fmt : TableFormat} {s s' : DB fmt} {a : DBAct}

/-- **Writes reach the log**: the committer of the manager is running, its writer is open and
attached to the file `wal.log`, and it is the committer `db.gc`. -/
def LiveLog (s : DB fmt) : Prop :=
  s.running s.mgrWal = true ∧ (s.wals s.mgrWal).closed = false ∧ s.walLog = some s.mgrWal ∧
    s.mgrWal = s.gc

/-- What ties the first committer to the log, until it is stopped. -/
structure GcInv (s : DB fmt) : Prop where
  mgrWal : s.mgrWal = 0
  nextWal : 0 < s.nextWal
  /-- while the first committer runs, nothing was rotated -/
  gc : s.running 0 = true → s.gc = 0 ∧ s.wal = 0
  walLog : s.running 0 = true → s.walLog = some 0 ∧ (s.wals 0).closed = false
  rotate : s.running 0 = true → RotatePc.pastStop s.rotate = false
  closer : ∀ c, (s.closers c).isGcStopped = true → s.running 0 = false
  /-- a `Close` that holds `db.mu` has set `db.closed` -/
  closed : ∀ c, (s.closers c).holds = true → s.closed = true

theorem gcInv_opening (o : Opening fmt) (maxSize : ℤ) : GcInv (opening o maxSize) where
  mgrWal := rfl
  nextWal := Nat.one_pos
  gc _ := ⟨rfl, rfl⟩
  walLog _ := ⟨rfl, rfl⟩
  rotate _ := rfl
  closer c h := by cases h
  closed c h := by cases h

/-- Stopping `db.gc` stops the first committer, if that was still running. -/
theorem GcInv.running_stopGc (h : GcInv s) : s.stopGc.running 0 = false := by
  by_cases hrun : s.running 0 = true
  · rw [stopGc_running, (h.gc hrun).1, Function.update_self]
  · rw [stopGc_running]
    by_cases hgc : 0 = s.gc
    · rw [hgc, Function.update_self]
    · rw [Function.update_of_ne hgc]
      simpa using hrun

/-- The writers after an append, a sync, or the closing of another one. -/
private theorem GcInv.update_wals (h : GcInv s) {n : ℕ} {w : Wal.Writer}
    (hw : w.closed = (s.wals n).closed) (hrun : s.running 0 = true) :
    s.walLog = some 0 ∧ (Function.update s.wals n w 0).closed = false := by
  refine ⟨(h.walLog hrun).1, ?_⟩
  by_cases hn : 0 = n
  · subst hn
    rw [Function.update_self, hw]
    exact (h.walLog hrun).2
  · rw [Function.update_of_ne hn]
    exact (h.walLog hrun).2

/-- What is known of every call of `Close`, after one of them moved. -/
theorem closers_update {closers : ClientId → ClosePc} {q : ClosePc → Bool} {c : ClientId}
    {pc : ClosePc} {P : Prop} (h : ∀ d, q (closers d) = true → P) (hpc : q pc = true → P)
    (d : ClientId) (hd : q (Function.update closers c pc d) = true) : P := by
  by_cases hdc : d = c
  · subst hdc
    rw [Function.update_self] at hd
    exact hpc hd
  · rw [Function.update_of_ne hdc] at hd
    exact h d hd

/-- **Step lemma.** -/
theorem GcInv.step (h : GcInv s) (hs : Step s a s') : GcInv s' := by
  -- past `db.gc.Stop` the first committer is not running
  have hstopped : RotatePc.pastStop s.rotate = true → s.running 0 = false := fun hpast => by
    rw [← Bool.not_eq_true]
    intro hrun
    rw [h.rotate hrun] at hpast
    cases hpast
  -- once it is not running, the rest says nothing
  have hoff : ∀ {t : DB fmt}, t.running 0 = false → t.mgrWal = 0 → 0 < t.nextWal →
      (∀ c, (t.closers c).holds = true → t.closed = true) → GcInv t :=
    fun hrun hmgr hnext hclosed =>
      ⟨hmgr, hnext, fun hr => absurd (hr.symm.trans hrun) (by decide),
        fun hr => absurd (hr.symm.trans hrun) (by decide),
        fun hr => absurd (hr.symm.trans hrun) (by decide), fun _ _ => hrun, hclosed⟩
  cases hs with
  | append hpc hrun hsynced hc | sync hgroup hsynced =>
    exact ⟨h.mgrWal, h.nextWal, h.gc, h.update_wals (by simp), h.rotate, h.closer, h.closed⟩
  | rotateEnter | rotateAnnounce | rotateLock | rotateRenameErr | rotateCreateErr | rotateRemove
  | rotateUnlock | flushed =>
    exact ⟨h.mgrWal, h.nextWal, h.gc, h.walLog, fun _ => rfl, h.closer, h.closed⟩
  | rotateStop hpc hrun => exact hoff h.running_stopGc h.mgrWal h.nextWal h.closed
  | rotateClose hpc | rotateRename hpc hn =>
    exact hoff (hstopped (by rw [hpc]; rfl)) h.mgrWal h.nextWal h.closed
  | rotateCreate hpc =>
    refine hoff ?_ h.mgrWal (Nat.succ_pos _) h.closed
    rw [install_running, Function.update_of_ne h.nextWal.ne]
    exact hstopped (by rw [hpc]; rfl)
  | closeEnter hstarted hpc | closeAnnounce hpc hw | closeAgain hpc hr hc =>
    exact ⟨h.mgrWal, h.nextWal, h.gc, h.walLog, h.rotate,
      closers_update h.closer (by simp [ClosePc.isGcStopped]),
      closers_update h.closed (by simp [ClosePc.holds])⟩
  | closeLock hpc hr hc =>
    exact ⟨h.mgrWal, h.nextWal, h.gc, h.walLog, h.rotate,
      closers_update h.closer (by simp [ClosePc.isGcStopped]),
      fun _ _ => rfl⟩
  | closeStop hpc hst | closeWait hpc hf =>
    exact ⟨h.mgrWal, h.nextWal, h.gc, h.walLog, h.rotate,
      closers_update h.closer (by simp [ClosePc.isGcStopped]),
      closers_update h.closed fun _ => h.closed _ (by rw [hpc]; rfl)⟩
  | closeGc hpc hrun =>
    exact hoff h.running_stopGc h.mgrWal h.nextWal
      (closers_update h.closed fun _ => h.closed _ (by rw [hpc]; rfl))
  | closeWal hpc =>
    exact hoff (h.closer _ (by rw [hpc]; rfl)) h.mgrWal h.nextWal
      (closers_update h.closed (by simp [ClosePc.holds]))
  | _ => exact ⟨h.mgrWal, h.nextWal, h.gc, h.walLog, h.rotate, h.closer, h.closed⟩

/-- A closed database stays closed. -/
theorem Step.closed_mono (hs : Step s a s') (h : s.closed = true) : s'.closed = true := by
  cases hs with
  | closeLock => rfl
  | _ => exact h

/-- What stops the first committer: `rotateWAL`, or `Close`. -/
private theorem GcInv.running_step (h : GcInv s) (hs : Step s a s') :
    (s'.running 0 = s.running 0 ∧ a ≠ .rotateStop) ∨
      (s'.running 0 = false ∧ (a = .rotateStop ∨ s.closed = true)) := by
  cases hs with
  | rotateStop => exact .inr ⟨h.running_stopGc, .inl rfl⟩
  | closeGc hpc => exact .inr ⟨h.running_stopGc, .inr (h.closed _ (by rw [hpc]; rfl))⟩
  | rotateCreate hpc =>
    refine .inl ⟨?_, nofun⟩
    rw [install_running, Function.update_of_ne h.nextWal.ne]
  | _ => exact .inl ⟨rfl, nofun⟩

/-- **Run lemma**: the first committer runs until `rotateWAL` or `Close` stops it. -/
private theorem running_of_run {o : Opening fmt} {maxSize : ℤ} {tr : List DBAct}
    (hr : Machine.run DB.step (opening o maxSize) tr = some s) :
    GcInv s ∧ (.rotateStop ∈ tr → s.running 0 = false) ∧
      (s.running 0 = false → .rotateStop ∈ tr ∨ s.closed = true) := by
  induction tr using List.reverseRecOn generalizing s with
  | nil =>
    cases hr
    exact ⟨gcInv_opening o maxSize, nofun, nofun⟩
  | append_singleton tr a ih =>
    obtain ⟨t, ht, hta⟩ := Machine.run_concat.mp hr
    obtain ⟨hinv, hstop, hwhy⟩ := ih ht
    have hs := step_cases hta
    refine ⟨hinv.step hs, fun hmem => ?_, fun hrun => ?_⟩
    · rcases hinv.running_step hs with ⟨heq, hne⟩ | ⟨hfalse, -⟩
      · rw [heq]
        refine hstop ((List.mem_append.mp hmem).resolve_right fun ha => hne ?_)
        exact (List.mem_singleton.mp ha).symm
      · exact hfalse
    · rcases hinv.running_step hs with ⟨heq, -⟩ | ⟨-, ha | hclosed⟩
      · rw [heq] at hrun
        exact (hwhy hrun).imp (List.mem_append_left _) hs.closed_mono
      · exact .inl (by simp [ha])
      · exact .inr (hs.closed_mono hclosed)

/-- **Writes reach the live log until the first rotation.** In every state of an open database,
whatever writes, flushes and rotations led there and however the rotations ended, the manager's
committer is the running one on `wal.log` exactly when `rotateWAL` has not stopped a committer
yet. -/
theorem liveLog_iff_not_rotated {o : Opening fmt} {maxSize : ℤ} {tr : List DBAct}
    (hr : Machine.run DB.step (opening o maxSize) tr = some s) (hopen : s.closed = false) :
    LiveLog s ↔ .rotateStop ∉ tr := by
  obtain ⟨hinv, hstop, hwhy⟩ := running_of_run hr
  constructor
  · rintro ⟨hrun, -⟩ hmem
    rw [hinv.mgrWal, hstop hmem] at hrun
    cases hrun
  · intro hmem
    have hrun : s.running 0 = true := by
      rw [← Bool.not_eq_false]
      intro hfalse
      rcases hwhy hfalse with h | h
      · exact hmem h
      · rw [hopen] at h
        cases h
    rw [LiveLog, hinv.mgrWal]
    exact ⟨hrun, (hinv.walLog hrun).2, (hinv.walLog hrun).1, (hinv.gc hrun).1.symm⟩

/-! ### A flush and its rotation -/

/-- A directory with nothing in it. -/
def emptyDir (fmt : TableFormat) : Opening fmt where
  log := ⟨[], []⟩
  batches := []
  manifest := ⟨[], .empty, 1⟩
  files := fun _ => none
  readers := fun _ => none

/-- `Open` with nothing to replay. -/
def openEmpty : List DBAct := [.store (.mgr (.lock 0)), .store (.mgr (.finish 0)), .start]

/-- A put of one key, up to the insertion. -/
def putUpToInsert (c : ClientId) (k v : Bytes) : List DBAct :=
  [.call c ⟨[⟨opPut, k, some v⟩]⟩, .append c, .sync, .ack, .store (.mgr (.lock c)),
    .store (.mgr (.insert c 1))]

/-- The end of a put that has filled its table, and of one that has not. -/
def sendAndReturn (c : ClientId) : List DBAct :=
  [.store (.mgr (.send c)), .store (.mgr (.finish c)), .ret c]

def putReturn (c : ClientId) : List DBAct := [.store (.mgr (.finish c)), .ret c]

/-- The flush loop takes the table and creates the file. -/
def flushBegin : List DBAct :=
  [.store (.mgr .recv), .store (.mgr .readImmutable), .store .create]

/-- The rest of `LSMTree.Flush`, and the call of `rotateWAL`. -/
def flushEnd : List DBAct := [.store .register, .store .apply, .rotateEnter]

/-- A rotation without errors. -/
def rotateOk : List DBAct :=
  [.rotateAnnounce, .rotateLock, .rotateStop, .rotateClose, .rotateRename true,
    .rotateCreate true, .rotateRemove true, .rotateUnlock]

/-- With a table size of `1`: a put fills the first table; while it is flushed a second put is
acknowledged; then the log is rotated. -/
def putFlushRotate : List DBAct :=
  openEmpty ++ putUpToInsert 0 [107] [1] ++ sendAndReturn 0 ++ flushBegin
    ++ putUpToInsert 0 [108] [2] ++ putReturn 0 ++ (flushEnd ++ rotateOk)

/-- The registration of the reader, in a run in which the file can be opened. -/
theorem step_register {r : fmt.Reader} {es : List Entry} {i num : ℕ}
    (hopen : fmt.openReader (fmt.write es) = .ok r) (hallows : s.allows .register = true)
    (hf : s.store.mgr.flush = .flushing false i) (hj : s.store.job = .created num)
    (he : (s.store.mgr.tables i).entries = es) :
    s.step (.store .register) = some { s with store := s.store.register num es r } := by
  simp only [step, hallows, Store.step, hf, hj, he, hopen, if_true, Option.map_some]

/-- After the rotation the flush loop goes on, and another put is called. -/
def putRejected : List DBAct :=
  [.flushed, .store (.mgr .clear), .call 0 ⟨[⟨opPut, [109], some [3]⟩]⟩, .reject 0]

/-- **The log is lost after the first rotation.** A put fills the first table, the table is flushed
and the log rotated without any error: the database is open, but the manager's committer is
stopped, and the next put is rejected with `ErrClosed`. -/
theorem liveLog_fails_after_rotation :
    ∃ s s' : DB Config.noFilter.format,
      Machine.run DB.step (opening (emptyDir Config.noFilter.format) 1) putFlushRotate = some s ∧
      s.closed = false ∧ ¬ LiveLog s ∧
      Machine.run DB.step s putRejected = some s' ∧ s'.store.mgr.pcs 0 = .returned false := by
  have hrun : (Machine.run DB.step (opening (emptyDir Config.noFilter.format) 1)
      putFlushRotate).any fun s =>
        decide (s.closed = false ∧ s.running s.mgrWal = false) &&
          (Machine.run DB.step s putRejected).any fun s' =>
            decide (s'.store.mgr.pcs 0 = .returned false) := by
    decide +kernel
  obtain ⟨s, hs, h⟩ := (Option.any_eq_true _ _).mp hrun
  obtain ⟨h, hnext⟩ := Bool.and_eq_true_iff.mp h
  obtain ⟨s', hs', hret⟩ := (Option.any_eq_true _ _).mp hnext
  obtain ⟨hopen, hstopped⟩ := of_decide_eq_true h
  refine ⟨s, s', hs, hopen, fun hlive => ?_, hs', of_decide_eq_true hret⟩
  exact absurd hlive.1 (by simp [hstopped])

/-- Before any rotation: a put has filled its table, and the flush of the table has begun. -/
theorem liveLog_before_rotation :
    ∃ s : DB Config.plain.format,
      Machine.run DB.step (opening (emptyDir Config.plain.format) 1)
        (openEmpty ++ putUpToInsert 0 [107] [1] ++ sendAndReturn 0 ++ flushBegin) = some s ∧
      s.closed = false ∧ LiveLog s := by
  obtain ⟨s, hs, hopen⟩ : ∃ s : DB Config.plain.format,
      Machine.run DB.step (opening (emptyDir Config.plain.format) 1)
        (openEmpty ++ putUpToInsert 0 [107] [1] ++ sendAndReturn 0 ++ flushBegin) = some s ∧
      s.closed = false := ⟨_, rfl, rfl⟩
  exact ⟨s, hs, hopen, (liveLog_iff_not_rotated hs hopen).mpr (by decide)⟩

end Stratum.Db.DB
