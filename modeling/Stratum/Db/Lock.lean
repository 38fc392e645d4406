import Stratum.Db.Rotation

/-!
# The lock of the database and the flush loop

The flush loop takes `db.mu` exclusively, inside `rotateWAL`, before it clears the immutable
table. A writer that finds both tables full waits for that, and holds `db.mu` shared meanwhile;
`Close` waits for the whole loop, and holds `db.mu` exclusively. `LockCycle` is a state where they
wait for each other.

`LockInv` says who can be inside when `db.mu` is held. With it, `no_lockCycle` shows that there is
no such state in a run where nobody starts to wait before the flush loop is past its rotation
(`WaitsPastRotation`); `lockCycle_reached` is a run of three puts that ends in one.
-/

namespace Stratum.Db

open Memtable Lsm Sstable Wal


/-- `rotateWAL` has announced itself to `db.mu`, or holds it. -/
def RotatePc.claims (pc : RotatePc) : Bool := pc.holds || decide (pc = .announced)

/-- `Close` has announced itself to `db.mu`, or holds it. -/
def ClosePc.claims (pc : ClosePc) : Bool := pc.holds || decide (pc = .announced)

namespace DB

variable {fmt : TableFormat} {s s' : DB fmt} {a : DBAct}

/-- Seen from the manager, a step is one of its own or none; what its writers do under `m.mu` and
what the flush loop does are steps of the store. -/
theorem Step.mgr_cases (hs : Step s a s') :
    (s'.store.mgr = s.store.mgr ∧ a ≠ .store (.mgr .clear)) ∨
      ∃ b, Manager.Step s.store.mgr b s'.store.mgr ∧
        (∀ c level, b = .insert c level → a = .store (.mgr b)) ∧
        (a = .store (.mgr .clear) → b = .clear) := by
  rcases hs.lifts with ⟨heq, hne⟩ | ⟨b, hl, hst⟩
  · exact .inl ⟨by rw [heq], hne _⟩
  · by_cases hclear : a = .store (.mgr .clear)
    · subst hclear
      obtain ⟨rfl, -⟩ := hl
      exact .inr ⟨_, hst.of_mgr, nofun, fun _ => rfl⟩
    · rcases hst.mgr_cases with heq | ⟨b', rfl, hm⟩
      · exact .inl ⟨heq, hclear⟩
      · exact .inr ⟨b', hm, fun c level hb => hl.eq_store (.inl ⟨c, level, hb⟩),
          fun h => absurd h hclear⟩

/-! ### Who holds the lock -/

/-- What holds of `db.mu` in every state of every run. -/
structure LockInv (s : DB fmt) : Prop where
  /-- who is inside a write holds `db.mu` shared -/
  idle : s.started = true → ∀ c, c ∉ s.readers → s.store.mgr.pcs c = .idle
  opening : s.started = false → s.readers = [] ∧ ∀ c, c ≠ 0 → s.store.mgr.pcs c = .idle
  closer_started : ∀ c, s.closers c ≠ .outside → s.started = true
  /-- `db.mu` has one exclusive owner, or one that waits for the readers -/
  rotate_writer : s.rotate.claims = true → s.writer = some .rotation
  closer_writer : ∀ c, (s.closers c).claims = true → s.writer = some (.closer c)
  /-- and no readers when it is held -/
  rotate_readers : s.rotate.holds = true → s.readers = []
  closer_readers : ∀ c, (s.closers c).holds = true → s.readers = []
  /-- the members of a group wait for their answer -/
  group : ∀ c ∈ s.group, ∃ b, s.store.mgr.pcs c = .called b
  nodup : s.group.Nodup
  /-- `flushFn` is at work on the immutable table -/
  job : s.store.job ≠ .none → ∃ stop i, s.store.mgr.flush = .flushing stop i
  rotating : s.rotate ≠ .outside → s.store.job = .applied
  /-- the flush loop is started by `Open` -/
  flush_started : s.store.mgr.flush ≠ .idle → s.started = true

theorem lockInv_opening (o : Opening fmt) (maxSize : ℤ) : LockInv (DB.opening o maxSize) where
  idle h := by cases h
  opening _ := by
    refine ⟨rfl, fun c hc => ?_⟩
    change Function.update (fun _ => WritePc.idle) 0 _ c = _
    rw [Function.update_of_ne hc]
  closer_started c h := absurd rfl h
  rotate_writer h := by cases h
  closer_writer c h := by cases h
  rotate_readers h := by cases h
  closer_readers c h := by cases h
  group c h := by cases h
  nodup := List.nodup_nil
  job h := absurd rfl h
  rotating h := absurd rfl h
  flush_started h := absurd rfl h

variable {st : Store fmt} {c : ClientId}

variable {b : StoreAct} {wals : ℕ → Wal.Writer} {running : ℕ → Bool} {wal gc nextWal : ℕ}
  {walLog : Option ℕ} {rotated : List ℕ} {pc : RotatePc} {w : Option Owner}

/-- A step of the store that calls nobody and answers nobody. -/
private theorem LockInv.of_store (h : LockInv s) (hs : Store.Step s.store b st)
    (hcall : ∀ c b', b ≠ .mgr (.call c b'))
    (hsubmit : ∀ c ∈ s.group, b ≠ .mgr (.submit c) ∧ ∀ p, b ≠ .mgr (.submitErr c p))
    (hjob : s.rotate ≠ .outside → st.job = s.store.job)
    (hloop : s.started = true ∨ ∀ b', b = .mgr b' → b'.isLoop = false) :
    LockInv { s with store := st } := by
  have hidle : ∀ c, s.store.mgr.pcs c = .idle → st.mgr.pcs c = .idle := by
    intro c hc
    rcases hs.mgr_cases with heq | ⟨b', rfl, hm⟩
    · rw [heq, hc]
    · exact hm.pcs_stay hc (.inl rfl) (fun _ b'' hb => hcall c b'' (by rw [hb])) (absurd rfl)
  refine ⟨fun hst c hc => hidle c (h.idle hst c hc), fun hst => ?_, h.closer_started,
    h.rotate_writer, h.closer_writer, h.rotate_readers, h.closer_readers, fun c hc => ?_, h.nodup,
    hs.flushing_of_job h.job, fun hr => (hjob hr).trans (h.rotating hr),
    fun hf => hloop.elim id fun hb => h.flush_started ?_⟩
  · exact ⟨(h.opening hst).1, fun c hc => hidle c ((h.opening hst).2 c hc)⟩
  · obtain ⟨b', hb'⟩ := h.group c hc
    refine ⟨b', ?_⟩
    rcases hs.mgr_cases with heq | ⟨b'', rfl, hm⟩
    · rw [heq]
      exact hb'
    · exact hm.pcs_stay hb' (.inr ⟨b', rfl⟩) nofun fun _ =>
        ⟨fun hb => (hsubmit c hc).1 (by rw [hb]), fun p hb => (hsubmit c hc).2 p (by rw [hb])⟩
  · rcases hs.mgr_cases with heq | ⟨b', rfl, hm⟩
    · exact heq ▸ hf
    · exact hm.flush_eq (hb b' rfl) ▸ hf

private theorem LockInv.of_mgr (h : LockInv s) {b : Act} (hs : Store.Step s.store (.mgr b) st)
    (hcall : ∀ c b', b ≠ .call c b')
    (hsubmit : ∀ c ∈ s.group, b ≠ .submit c ∧ ∀ p, b ≠ .submitErr c p) (hloop : b.isLoop = false) :
    LockInv { s with store := st } := by
  refine h.of_store hs (fun c b' hb => hcall c b' (StoreAct.mgr.inj hb))
    (fun c hc => ⟨fun hb => (hsubmit c hc).1 (StoreAct.mgr.inj hb),
      fun p hb => (hsubmit c hc).2 p (StoreAct.mgr.inj hb)⟩) (fun _ => ?_)
    (.inr fun b' hb => StoreAct.mgr.inj hb ▸ hloop)
  cases hs with
  | mgr _ _ => rfl
  | flushOk _ _ => cases hloop

/-- Inside `rotateWAL` the flush is done. -/
private theorem job_eq_of_allows (hallows : s.allows b = true) (hs : Store.Step s.store b st)
    (hr : s.rotate ≠ .outside) : st.job = s.store.job := by
  cases hs with
  | flushOk => cases hallows
  | create | register | apply | applyErr | flushErr =>
    exact absurd (of_decide_eq_true hallows) hr
  | _ => rfl

private theorem LockInv.step_call (h : LockInv s) {b : Batch} (hstarted : s.started = true)
    (hw : s.writer = none) (hs : Store.Step s.store (.mgr (.call c b)) st) :
    LockInv { s with store := st, readers := c :: s.readers } := by
  have hrot : s.rotate.claims = false := by
    rw [← Bool.not_eq_true]
    intro hc
    rw [h.rotate_writer hc] at hw
    cases hw
  have hclose : ∀ d, (s.closers d).claims = false := by
    intro d
    rw [← Bool.not_eq_true]
    intro hc
    rw [h.closer_writer d hc] at hw
    cases hw
  have hholds : ∀ {p q : Bool}, (p || q) = false → ¬ p = true := by decide
  have hm := hs.of_mgr
  refine ⟨fun _ d hd => ?_, fun hst => absurd (hst.symm.trans hstarted) (by decide),
    h.closer_started, h.rotate_writer, h.closer_writer, fun hr => absurd hr (hholds hrot),
    fun d hd => absurd hd (hholds (hclose d)), fun d hd => ?_, h.nodup,
    hs.flushing_of_job h.job, fun hr => ?_, fun _ => hstarted⟩
  · have hold := h.idle hstarted d fun hmem => hd (List.mem_cons_of_mem c hmem)
    refine hm.pcs_stay hold (.inl rfl) (fun _ b' hb => hd ?_) (absurd rfl)
    cases hb
    exact List.mem_cons_self ..
  · obtain ⟨b', hb'⟩ := h.group d hd
    exact ⟨b', hm.pcs_stay hb' (.inr ⟨b', rfl⟩) nofun fun _ => ⟨nofun, nofun⟩⟩
  · cases hs with
    | mgr _ _ => exact h.rotating hr

private theorem LockInv.step_ack (h : LockInv s) {rest : List ClientId}
    (hgroup : s.group = c :: rest) (hs : Store.Step s.store (.mgr (.submit c)) st) :
    LockInv (s.ack st rest) := by
  obtain ⟨hc, hrest⟩ : c ∉ rest ∧ rest.Nodup := List.nodup_cons.mp (hgroup ▸ h.nodup)
  have hrest' : LockInv ({ s with group := rest, synced := !rest.isEmpty } : DB fmt) :=
    ⟨h.idle, h.opening, h.closer_started, h.rotate_writer, h.closer_writer, h.rotate_readers,
      h.closer_readers, fun d hd => h.group d (by rw [hgroup]; exact List.mem_cons_of_mem c hd),
      hrest, h.job, h.rotating, h.flush_started⟩
  refine hrest'.of_mgr hs nofun (fun d hd => ⟨fun heq => ?_, nofun⟩) rfl
  cases heq
  exact hc hd

/-- The return of a call: the caller releases `db.mu`. -/
private theorem LockInv.step_ret (h : LockInv s) (hstarted : s.started = true)
    (hs : Store.Step s.store (.mgr (.ret c)) st) :
    LockInv { s with store := st, readers := s.readers.filter fun d => decide (d ≠ c) } := by
  have hst : LockInv ({ s with store := st } : DB fmt) :=
    h.of_mgr hs nofun (fun d _ => ⟨nofun, nofun⟩) rfl
  refine ⟨fun _ d hd => ?_, fun hf => absurd (hf.symm.trans hstarted) (by decide),
    hst.closer_started, hst.rotate_writer, hst.closer_writer, fun hr => ?_, fun d hd => ?_,
    hst.group, hst.nodup, hst.job, hst.rotating, fun _ => hstarted⟩
  · by_cases hdc : d = c
    · rw [hdc]
      exact hs.of_mgr.pcs_ret
    · exact hst.idle hstarted d fun hmem => hd (List.mem_filter.mpr ⟨hmem, by simpa using hdc⟩)
  · rw [h.rotate_readers hr]
    rfl
  · rw [h.closer_readers d hd]
    rfl

private theorem LockInv.step_start (h : LockInv s) (hstarted : s.started = false)
    (hs : Store.Step s.store (.mgr (.ret 0)) st) :
    LockInv { s with store := st, started := true } := by
  have hst : LockInv ({ s with store := st } : DB fmt) :=
    h.of_mgr hs nofun (fun d _ => ⟨nofun, nofun⟩) rfl
  refine ⟨fun _ c _ => ?_, nofun, fun _ _ => rfl, hst.rotate_writer, hst.closer_writer,
    hst.rotate_readers, hst.closer_readers, hst.group, hst.nodup, hst.job, hst.rotating,
    fun _ => rfl⟩
  by_cases hc : c = 0
  · rw [hc]
    exact hs.of_mgr.pcs_ret
  · exact (hst.opening hstarted).2 c hc

/-- The logs are behind the lock. -/
private theorem LockInv.with_logs (h : LockInv s) {synced : Bool} :
    LockInv
      { s with wals, running, wal, gc, nextWal, walLog, rotated, synced } :=
  ⟨h.idle, h.opening, h.closer_started, h.rotate_writer, h.closer_writer, h.rotate_readers,
    h.closer_readers, h.group, h.nodup, h.job, h.rotating, h.flush_started⟩

/-- A step of `rotateWAL`, to `pc`: all that counts is what it holds. -/
private theorem LockInv.step_rotate (h : LockInv s) (hjob : s.store.job = .applied)
    (hw : pc.claims = true → w = some .rotation) (hr : pc.holds = true → s.readers = [])
    (hclose : ∀ c, (s.closers c).claims = true → w = some (.closer c)) :
    LockInv { s with rotate := pc, writer := w } :=
  ⟨h.idle, h.opening, h.closer_started, hw, hclose, hr, h.closer_readers, h.group, h.nodup, h.job,
    fun _ => hjob, h.flush_started⟩

/-- A step of `rotateWAL` while it holds `db.mu`, whatever it does to the logs. -/
private theorem LockInv.step_held (h : LockInv s) {pc' : RotatePc} (hpc : s.rotate = pc)
    (hold : pc.holds = true) :
    LockInv { s with rotate := pc', wals, running, wal, gc, nextWal, walLog, rotated } := by
  subst hpc
  have hclaims : s.rotate.claims = true := by rw [RotatePc.claims, hold]; rfl
  have hjob := h.rotating fun hout => by
    rw [hout] at hold
    cases hold
  exact ⟨h.idle, h.opening, h.closer_started, fun _ => h.rotate_writer hclaims, h.closer_writer,
    fun _ => h.rotate_readers hold, h.closer_readers, h.group, h.nodup, h.job, fun _ => hjob,
    h.flush_started⟩

private theorem LockInv.not_closer (h : LockInv s) (hr : s.rotate.claims = true) (c : ClientId) :
    (s.closers c).claims = false := by
  rw [← Bool.not_eq_true]
  intro hc
  have := h.closer_writer c hc
  rw [h.rotate_writer hr] at this
  cases this

/-- A step of `Close`, to `pc`. -/
private theorem LockInv.step_closer (h : LockInv s) {pc : ClosePc} {closed : Bool}
    (hstarted : s.started = true) (hw : pc.claims = true → w = some (.closer c))
    (hr : pc.holds = true → s.readers = []) (hrot : s.rotate.claims = true → w = some .rotation)
    (hclose : ∀ d, d ≠ c → (s.closers d).claims = true → w = some (.closer d)) :
    LockInv ({ s with writer := w, closed := closed }.setCloser c pc) := by
  refine ⟨h.idle, h.opening, fun _ _ => hstarted, hrot, fun d hd => ?_, h.rotate_readers,
    fun d hd => ?_, h.group, h.nodup, h.job, h.rotating, h.flush_started⟩
  · by_cases hdc : d = c
    · subst hdc
      exact hw (by simpa using hd)
    · exact hclose d hdc (by simpa [Function.update_of_ne hdc] using hd)
  · by_cases hdc : d = c
    · subst hdc
      exact hr (by simpa using hd)
    · exact h.closer_readers d (by simpa [Function.update_of_ne hdc] using hd)

private theorem LockInv.step_closer_held (h : LockInv s) {pc pc' : ClosePc} (hpc : s.closers c = pc)
    (hold : pc.holds = true) : LockInv (s.setCloser c pc') := by
  subst hpc
  have hclaims : (s.closers c).claims = true := by rw [ClosePc.claims, hold]; rfl
  refine h.step_closer (h.closer_started c fun hout => ?_) (fun _ => h.closer_writer c hclaims)
    (fun _ => h.closer_readers c hold) h.rotate_writer fun d _ => h.closer_writer d
  rw [hout] at hold
  cases hold

/-- While one `Close` claims `db.mu` neither `rotateWAL` nor another `Close` does. -/
private theorem LockInv.only_closer (h : LockInv s) (hc : (s.closers c).claims = true) :
    s.rotate.claims = false ∧ ∀ d, d ≠ c → (s.closers d).claims = false := by
  have hw := h.closer_writer c hc
  refine ⟨?_, fun d hd => ?_⟩
  · rw [← Bool.not_eq_true]
    intro hr
    rw [h.rotate_writer hr] at hw
    cases hw
  · rw [← Bool.not_eq_true]
    intro hd'
    rw [h.closer_writer d hd'] at hw
    cases hw
    exact hd rfl

/-- **Step lemma**: the lock is kept by all. -/
theorem LockInv.step (h : LockInv s) (hs : Step s a s') : LockInv s' := by
  have hfalse : ∀ {p : Prop} {b : Bool}, b = false → b = true → p := by
    intro p b h₁ h₂
    rw [h₁] at h₂
    cases h₂
  cases hs with
  | start hstarted hpc hst => exact h.step_start hstarted hst
  | call hstarted hclosed hw hst => exact h.step_call hstarted hw hst
  | @append c b hpc hrun hsynced hc =>
    refine ⟨h.idle, h.opening, h.closer_started, h.rotate_writer, h.closer_writer,
      h.rotate_readers, h.closer_readers, fun d hd => ?_, ?_, h.job, h.rotating,
      h.flush_started⟩
    · rcases List.mem_append.mp hd with hd | hd
      · exact h.group d hd
      · obtain rfl := List.mem_singleton.mp hd
        exact ⟨b, hpc⟩
    · exact List.nodup_append.mpr ⟨h.nodup, by simp,
        fun d hd e he hde => hc (by rwa [← List.mem_singleton.mp he, ← hde])⟩
  | sync hgroup hsynced => exact h.with_logs
  | ack hgroup hsynced hst => exact h.step_ack hgroup hst
  | reject hrun hc hst =>
    refine h.of_mgr hst nofun (fun d hd => ⟨nofun, fun p hp => ?_⟩) rfl
    cases hp
    exact hc hd
  | ret hstarted hst => exact h.step_ret hstarted hst
  | @store b st hallows hst =>
    refine h.of_store hst (fun c b' hb => ?_) (fun c _ => ⟨fun hb => ?_, fun p hb => ?_⟩)
      (job_eq_of_allows hallows hst) (or_iff_not_imp_left.mpr fun hst' b' hb => ?_)
    · subst hb
      cases hallows
    · subst hb
      cases hallows
    · subst hb
      cases hallows
    · -- the flush loop does not run before `Start`
      subst hb
      cases b' <;> first | rfl | exact absurd hallows hst' | cases hallows
  | rotateEnter hjob hpc => exact h.step_rotate hjob nofun nofun h.closer_writer
  | rotateAnnounce hpc hw =>
    refine h.step_rotate (h.rotating (by rw [hpc]; nofun)) (fun _ => rfl) nofun fun c hc => ?_
    rw [h.closer_writer c hc] at hw
    cases hw
  | rotateLock hpc hr =>
    have hclaims : s.rotate.claims = true := by rw [hpc]; rfl
    exact h.step_rotate (h.rotating (by rw [hpc]; nofun)) (fun _ => h.rotate_writer hclaims)
      (fun _ => hr) h.closer_writer
  | rotateStop hpc hrun | rotateClose hpc | rotateRename hpc hn | rotateRenameErr hpc
  | rotateCreate hpc | rotateCreateErr hpc | rotateRemove hpc => exact h.step_held hpc rfl
  | rotateUnlock hpc =>
    have hclaims : s.rotate.claims = true := by rw [hpc]; rfl
    exact h.step_rotate (h.rotating (by rw [hpc]; nofun)) nofun nofun
      fun c hc => hfalse (h.not_closer hclaims c) hc
  | @flushed st hpc hst =>
    have hout : LockInv ({ s with rotate := .outside } : DB fmt) :=
      ⟨h.idle, h.opening, h.closer_started, nofun, h.closer_writer, nofun, h.closer_readers,
        h.group, h.nodup, h.job, fun hr => absurd rfl hr, h.flush_started⟩
    refine hout.of_store hst nofun (fun c _ => ⟨nofun, nofun⟩) (fun hr => absurd rfl hr)
      (.inl (h.flush_started ?_))
    obtain ⟨stop, i, hf⟩ := h.job (by rw [h.rotating (by rw [hpc]; nofun)]; nofun)
    rw [hf]
    nofun
  | closeEnter hstarted hpc =>
    exact h.step_closer hstarted nofun nofun h.rotate_writer fun d _ => h.closer_writer d
  | closeAnnounce hpc hw =>
    refine h.step_closer (h.closer_started _ (by rw [hpc]; nofun)) (fun _ => rfl) nofun
      (fun hr => ?_) fun d _ hd => ?_
    · rw [h.rotate_writer hr] at hw
      cases hw
    · rw [h.closer_writer d hd] at hw
      cases hw
  | closeAgain hpc hr hc =>
    obtain ⟨hrot, hother⟩ := h.only_closer (by rw [hpc]; rfl)
    exact h.step_closer (h.closer_started _ (by rw [hpc]; nofun)) nofun nofun (hfalse hrot)
      fun d hd => hfalse (hother d hd)
  | closeLock hpc hr hc =>
    exact h.step_closer (h.closer_started _ (by rw [hpc]; nofun))
      (fun _ => h.closer_writer _ (by rw [hpc]; rfl)) (fun _ => hr) h.rotate_writer
      fun d _ => h.closer_writer d
  | @closeStop c st hpc hst =>
    have hst' : LockInv ({ s with store := st } : DB fmt) :=
      h.of_mgr hst nofun (fun d _ => ⟨nofun, nofun⟩) rfl
    exact hst'.step_closer_held hpc rfl
  | closeWait hpc hf => exact h.step_closer_held hpc rfl
  | closeGc hpc hrun => exact (h.step_closer_held hpc rfl).with_logs
  | @closeWal c hpc =>
    obtain ⟨hrot, hother⟩ := h.only_closer (by rw [hpc]; rfl)
    have hout : LockInv ({ s with writer := none }.setCloser c .outside) :=
      h.step_closer (h.closer_started _ (by rw [hpc]; nofun)) nofun nofun (hfalse hrot)
        fun d hd => hfalse (hother d hd)
    exact hout.with_logs

/-- Nobody is inside a write when `db.mu` is held. -/
theorem LockInv.idle_of_readers (h : LockInv s) (hstarted : s.started = true)
    (hr : s.readers = []) : (∀ c, s.store.mgr.pcs c = .idle) ∧ s.group = [] := by
  have hidle : ∀ c, s.store.mgr.pcs c = .idle := fun c => h.idle hstarted c (by rw [hr]; nofun)
  refine ⟨hidle, List.eq_nil_iff_forall_not_mem.mpr fun c hc => ?_⟩
  obtain ⟨b, hb⟩ := h.group c hc
  rw [hidle c] at hb
  cases hb

theorem LockInv.idle_of_rotate (h : LockInv s) (hr : s.rotate.holds = true) :
    (∀ c, s.store.mgr.pcs c = .idle) ∧ s.group = [] := by
  refine h.idle_of_readers (h.flush_started ?_) (h.rotate_readers hr)
  obtain ⟨stop, i, hf⟩ := h.job (by
    rw [h.rotating fun hout => by rw [hout] at hr; cases hr]
    nofun)
  rw [hf]
  nofun

theorem LockInv.idle_of_closer (h : LockInv s) (hc : (s.closers c).holds = true) :
    (∀ c, s.store.mgr.pcs c = .idle) ∧ s.group = [] := by
  refine h.idle_of_readers (h.closer_started c fun hout => ?_) (h.closer_readers c hc)
  rw [hout] at hc
  cases hc

/-! ### Waiting for each other -/

/-- **A lock cycle**: the flush loop waits for `db.mu` inside `rotateWAL`, and somebody who holds
`db.mu` waits for the flush loop, in `cond.Wait` or in `Manager.Stop`. -/
def LockCycle (s : DB fmt) : Prop :=
  (s.rotate = .locking ∨ s.rotate = .announced) ∧
    ((∃ c ∈ s.readers, ∃ todo, s.store.mgr.pcs c = .waiting todo) ∨
      ∃ c, s.closers c = .stopping)

/-- The flush loop is past the rotation that belongs to the table it flushes. -/
def pastRotation (s : DB fmt) : Bool :=
  decide (s.rotate = .done) || s.store.mgr.flush.isFlushed

/-- Nobody starts to wait for the flush loop before it is past its rotation: no writer goes to
`cond.Wait`, and no `Close` gets `db.mu` while there is an immutable table. -/
def WaitsPastRotation (s : DB fmt) : DBAct → Prop
  | .store (.mgr (.insert _ _)) => (s.store.mgr.tables s.store.mgr.active).isFull = true →
      s.store.mgr.immutable ≠ none → s.pastRotation = true
  | .closeLock _ => s.closed = false → s.store.mgr.immutable = none ∨ s.pastRotation = true
  | _ => True

private theorem LockInv.rotate_of_pastRotation (h : LockInv s) (hp : s.pastRotation = true) :
    s.rotate = .outside ∨ s.rotate = .done := by
  by_contra hne
  obtain ⟨hout, hdone⟩ := not_or.mp hne
  obtain ⟨stop, i, hf⟩ := h.job (by rw [h.rotating hout]; nofun)
  simp [pastRotation, hdone, hf, FlushPc.isFlushed] at hp

/-- The loop stays past the rotation until it clears the immutable table. -/
private theorem LockInv.pastRotation_step (h : LockInv s) (hs : Step s a s')
    (hp : s.pastRotation = true) (hclear : a ≠ .store (.mgr .clear)) :
    s'.pastRotation = true := by
  -- a step of the store leaves the rotation and moves the loop on
  have hstore : ∀ {b st}, Store.Step s.store b st → b ≠ .mgr .clear →
      (decide (s.rotate = .done) || st.mgr.flush.isFlushed) = true := by
    intro b st hst hb
    rcases Bool.or_eq_true_iff.mp hp with hdone | hf
    · rw [hdone, Bool.true_or]
    · rcases hst.mgr_cases with heq | ⟨b', rfl, hm⟩
      · rw [heq, hf, Bool.or_true]
      · rw [hm.isFlushed (fun hb' => hb (by rw [hb'])) hf, Bool.or_true]
  have hrot := h.rotate_of_pastRotation hp
  cases hs with
  | start _ _ hst | call _ _ _ hst | ack _ _ hst | reject _ _ hst | ret _ hst | closeStop _ hst =>
    exact hstore hst nofun
  | store hallows hst => exact hstore hst fun hb => hclear (by rw [hb])
  | flushed hpc hst =>
    cases hst with
    | mgr ha _ => exact absurd rfl ha
    | flushOk hj hm =>
      cases hm with
      | flushOk hf => exact Bool.or_true _
  | rotateEnter hjob hpc =>
    obtain ⟨stop, i, hf⟩ := h.job (by rw [hjob]; nofun)
    simp [pastRotation, hpc, hf, FlushPc.isFlushed] at hp
  | rotateAnnounce hpc | rotateLock hpc | rotateStop hpc | rotateClose hpc | rotateRename hpc
  | rotateRenameErr hpc | rotateCreate hpc | rotateCreateErr hpc | rotateRemove hpc
  | rotateUnlock hpc =>
    rw [hpc] at hrot
    rcases hrot with hrot | hrot <;> cases hrot
  | _ => exact hp

/-- What holds in runs where nobody waits too early. -/
structure CycleInv (s : DB fmt) : Prop where
  lock : LockInv s
  tables : s.store.mgr.TablesInv
  waiting : ∀ c todo, s.store.mgr.pcs c = .waiting todo → s.pastRotation = true
  closing : ∀ c, (s.closers c).holds = true →
    s.store.mgr.immutable = none ∨ s.pastRotation = true

theorem cycleInv_opening (o : Opening fmt) (maxSize : ℤ) : CycleInv (DB.opening o maxSize) where
  lock := lockInv_opening o maxSize
  tables := tablesInv_recovering maxSize o.batches
  waiting c todo h := by
    change Function.update (fun _ => WritePc.idle) 0 _ c = _ at h
    by_cases hc : c = 0
    · subst hc
      rw [Function.update_self] at h
      cases h
    · rw [Function.update_of_ne hc] at h
      cases h
  closing c h := by cases h

/-- Who holds `db.mu` in `Close` has held it before, or gets it in this step. -/
private theorem Step.closer_holds (hs : Step s a s') (hc : (s'.closers c).holds = true) :
    (s.closers c).holds = true ∨ (a = .closeLock c ∧ s.closed = false) := by
  have hother : ∀ {d : ClientId} {pc : ClosePc},
      (Function.update s.closers d pc c).holds = true → pc.holds = false ∨ s.closers d = pc ∨
        (s.closers d).holds = true → (s.closers c).holds = true := by
    intro d pc hd hpc
    by_cases hcd : c = d
    · subst hcd
      rw [Function.update_self] at hd
      rcases hpc with hpc | hpc | hpc
      · rw [hpc] at hd
        cases hd
      · rwa [hpc]
      · exact hpc
    · rwa [Function.update_of_ne hcd] at hd
  cases hs with
  | closeEnter | closeAnnounce | closeAgain | closeWal => exact .inl (hother hc (.inl rfl))
  | closeStop hpc | closeWait hpc | closeGc hpc =>
    exact .inl (hother hc (.inr (.inr (by rw [hpc]; rfl))))
  | @closeLock d hpc hr hclosed =>
    by_cases hcd : c = d
    · subst hcd
      exact .inr ⟨rfl, hclosed⟩
    · rw [setCloser_closers, Function.update_of_ne hcd] at hc
      exact .inl hc
  | _ => exact .inl hc

/-- While `Close` holds `db.mu`, nothing swaps the tables. -/
private theorem CycleInv.immutable_none (h : CycleInv s) (hs : Step s a s')
    (hc : (s.closers c).holds = true) (himm : s.store.mgr.immutable = none) :
    s'.store.mgr.immutable = none := by
  rcases hs.mgr_cases with ⟨heq, -⟩ | ⟨b, hm, -⟩
  · rw [heq, himm]
  · refine hm.immutable_none himm fun d todo hd => ?_
    rw [(h.lock.idle_of_closer hc).1 d] at hd
    cases hd

/-- **Step lemma.** -/
theorem CycleInv.step (h : CycleInv s) (hg : WaitsPastRotation s a) (hs : Step s a s') :
    CycleInv s' := by
  refine ⟨h.lock.step hs, ?_, fun c todo hw => ?_, fun c hc => ?_⟩
  · rcases hs.mgr_cases with ⟨heq, -⟩ | ⟨b, hm, -⟩
    · rw [heq]
      exact h.tables
    · exact h.tables.step hm
  · -- who waits has been waiting, or starts to wait past the rotation
    rcases hs.mgr_cases with ⟨heq, hclear⟩ | ⟨b, hm, hins, hclear⟩
    · rw [heq] at hw
      exact h.lock.pastRotation_step hs (h.waiting c todo hw) hclear
    · rcases hm.pcs_waiting hw with ⟨hold, hb⟩ | ⟨hfull, himm, level, hb⟩
      · exact h.lock.pastRotation_step hs (h.waiting c todo hold) fun ha => hb (hclear ha)
      · obtain rfl := hins c level hb
        subst hb
        exact h.lock.pastRotation_step hs (hg hfull himm) nofun
  · rcases hs.closer_holds hc with hold | ⟨rfl, hclosed⟩
    · rcases h.closing c hold with himm | hp
      · exact .inl (h.immutable_none hs hold himm)
      · by_cases hclear : a = .store (.mgr .clear)
        · -- the loop clears the table
          subst hclear
          rcases hs.mgr_cases with ⟨-, hne⟩ | ⟨b, hm, -, hb⟩
          · exact absurd rfl hne
          · obtain rfl := hb rfl
            exact .inl hm.immutable_clear
        · exact .inr (h.lock.pastRotation_step hs hp hclear)
    · -- `Close` gets the lock when there is nothing to wait for
      cases hs with
      | closeLock => exact hg hclosed
      | closeAgain hpc hr hc' => exact absurd (hc'.symm.trans hclosed) (by decide)

/-- **No lock cycle when nobody waits too early.** In every state of every run in which a writer
goes to `cond.Wait`, and a `Close` gets `db.mu`, only when there is no immutable table or the flush
loop is past the rotation that belongs to it, the flush loop is not blocked on `db.mu` by somebody
who waits for it. -/
theorem no_lockCycle {o : Opening fmt} {maxSize : ℤ} {tr : List DBAct}
    (hr : Machine.run DB.step (DB.opening o maxSize) tr = some s)
    (hg : Machine.Guarded DB.step WaitsPastRotation (DB.opening o maxSize) tr) :
    ¬ LockCycle s := by
  have h : CycleInv s := Machine.run_guarded_invariant
    (fun _ _ _ hinv hg hs => hinv.step hg (step_cases hs)) (cycleInv_opening o maxSize) hg hr
  rintro ⟨hrot, hwait⟩
  have hout : s.rotate ≠ .outside := by
    rcases hrot with hrot | hrot <;> rw [hrot] <;> nofun
  have hnot : s.pastRotation = false := by
    rw [← Bool.not_eq_true]
    intro hp
    rcases h.lock.rotate_of_pastRotation hp with hp | hp
    · exact hout hp
    · rcases hrot with hrot | hrot <;> rw [hrot] at hp <;> cases hp
  rcases hwait with ⟨c, -, todo, hw⟩ | ⟨c, hc⟩
  · rw [h.waiting c todo hw] at hnot
    cases hnot
  · rcases h.closing c (by rw [hc]; rfl) with himm | hp
    · obtain ⟨stop, i, hf⟩ := h.lock.job (by rw [h.lock.rotating hout]; nofun)
      rw [h.tables.flushing_eq stop i hf] at himm
      cases himm
    · rw [hp] at hnot
      cases hnot

/-! ### Two lock cycles -/

/-- With a table size of `1`: the first put fills a table, and the flush loop begins to flush it. -/
def putAndFlushBegin : List DBAct :=
  openEmpty ++ putUpToInsert 0 [107] [1] ++ sendAndReturn 0 ++ flushBegin

/-- A second put fills the active table, and a third one, by another goroutine, has to wait. -/
def putAndWait : List DBAct :=
  putUpToInsert 0 [108] [2] ++ putReturn 0 ++ putUpToInsert 1 [109] [3]

/-- `Close`, until it waits for the flush loop. -/
def closeUpToStop (c : ClientId) : List DBAct :=
  [.closeEnter c, .closeAnnounce c, .closeLock c, .closeStop c]

/-- **Two lock cycles.** While a table is flushed the active one fills up, and the next put waits
inside `cond.Wait` with `db.mu` held shared: the flush loop then waits for `db.mu` in `rotateWAL`.
And when `Close` comes while a table is flushed, it waits for the flush loop with `db.mu` held
exclusively. -/
theorem lockCycle_reached :
    (∃ s : DB Config.noFilter.format,
      Machine.run DB.step (DB.opening (emptyDir Config.noFilter.format) 1)
        (putAndFlushBegin ++ putAndWait ++ flushEnd) = some s ∧ LockCycle s) ∧
      ∃ s : DB Config.noFilter.format,
        Machine.run DB.step (DB.opening (emptyDir Config.noFilter.format) 1)
          (putAndFlushBegin ++ closeUpToStop 1 ++ flushEnd) = some s ∧ LockCycle s := by
  have hput : (Machine.run DB.step (DB.opening (emptyDir Config.noFilter.format) 1)
      (putAndFlushBegin ++ putAndWait ++ flushEnd)).any fun s => decide (s.rotate = .locking ∧
        1 ∈ s.readers ∧ s.store.mgr.pcs 1 = .waiting [(2, ⟨opPut, [109], some [3]⟩)]) := by
    decide +kernel
  have hclose : (Machine.run DB.step (DB.opening (emptyDir Config.noFilter.format) 1)
      (putAndFlushBegin ++ closeUpToStop 1 ++ flushEnd)).any fun s => decide
        (s.rotate = .locking ∧ s.closers 1 = .stopping) := by decide +kernel
  obtain ⟨s, hs, h⟩ := (Option.any_eq_true _ _).mp hput
  obtain ⟨s', hs', h'⟩ := (Option.any_eq_true _ _).mp hclose
  obtain ⟨hrot, hreads, hwait⟩ := of_decide_eq_true h
  obtain ⟨hrot', hstop⟩ := of_decide_eq_true h'
  exact ⟨⟨s, hs, .inl hrot, .inl ⟨1, hreads, _, hwait⟩⟩, s', hs', .inl hrot', .inr ⟨1, hstop⟩⟩

/-- The put is flushed and the log rotated, and then comes `Close`. -/
def rotateAndClose : List DBAct :=
  flushEnd ++ rotateOk ++
    [.flushed, .store (.mgr .clear), .closeEnter 1, .closeAnnounce 1, .closeLock 1, .closeStop 1]

instance (s : DB fmt) : DecidablePred (WaitsPastRotation s) := fun a => by
  unfold WaitsPastRotation
  split <;> infer_instance

/-- A put, its flush and its rotation, and then `Close`: the condition holds, and there is no
cycle. -/
theorem no_lockCycle_close :
    ∃ s : DB Config.noFilter.format,
      Machine.run DB.step (DB.opening (emptyDir Config.noFilter.format) 1)
        (putAndFlushBegin ++ rotateAndClose) = some s ∧
      s.closers 1 = .stopping ∧ ¬ LockCycle s := by
  have hrun : (Machine.run DB.step (DB.opening (emptyDir Config.noFilter.format) 1)
      (putAndFlushBegin ++ rotateAndClose)).any fun s => decide (s.closers 1 = .stopping) := by
    decide +kernel
  obtain ⟨s, hs, hstop⟩ := (Option.any_eq_true _ _).mp hrun
  exact ⟨s, hs, of_decide_eq_true hstop, no_lockCycle hs (by decide +kernel)⟩

end DB

end Stratum.Db
