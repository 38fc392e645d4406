import Stratum.Memtable.LogOrder
import Stratum.Memtable.Replay

/-!
# A batch as a reader sees it

`WriteBatch` holds `m.mu` while it writes the entries of its batch, and `Manager.Get` takes its two
tables under the same lock. `Watched` is the manager with one reader beside it that calls `Get`
again and again; an `Answer` records what a call returned, with the history when it took its tables
and when it returned.

A call that returns a value of the batch may have taken its tables before the batch began. The
**next** call takes them later, and by then the batch is complete, because its writer still holds
the lock or has released it at the end (`WholeInv.holder`). So the answers never mix
(`answers_whole`), with two exceptions, both in reach of a batch that fills the active table while
the other one is being flushed:

* the writer **waits** on the condition variable in the middle of its batch, which releases the
  lock (`answers_torn`);
* the flush loop **drops** the table that holds one key of the batch and not the other, and
  `Manager.Get` by itself no longer finds the key.
-/

namespace Stratum.Memtable

open Wal LastWrite

/-- Where the reader stands in `Manager.Get`; `start` is the history when it took its tables. -/
inductive GetPc
  | idle
  /-- has the two tables -/
  | snapped (key : Bytes) (active : ℕ) (immutable : Option ℕ) (start : List Tagged)
  /-- did not find the key in the active one -/
  | missed (key : Bytes) (immutable : ℕ) (start : List Tagged)
deriving DecidableEq

/-- What a call of `Manager.Get` returned, with the history when it took its tables and when it
returned. -/
structure Answer where
  key : Bytes
  value : Option (Option Bytes)
  start : List Tagged
  finish : List Tagged
deriving DecidableEq

/-- The manager and its reader. -/
structure Watched where
  mgr : Manager
  pc : GetPc
  answers : List Answer

/-- The steps of the manager and those of the reader. -/
inductive WatchAct
  | mgr (a : Act)
  | snap (key : Bytes)
  | readActive
  | readImmutable
deriving DecidableEq

namespace Watched

/-- `NewManager`, and a reader that has not called yet. -/
def new (maxSize : ℤ) : Watched := ⟨.new maxSize, .idle, []⟩

/-- `Get` returns. -/
def answer (s : Watched) (key : Bytes) (value : Option (Option Bytes)) (start : List Tagged) :
    Watched :=
  { s with pc := .idle, answers := s.answers ++ [⟨key, value, start, s.mgr.history⟩] }

/-- What a step does. -/
def step (s : Watched) : WatchAct → Option Watched
  | .mgr a => (s.mgr.step a).map fun m => { s with mgr := m }
  | .snap key =>
    -- `m.mu.RLock` waits for the writer that holds the lock
    if s.pc = .idle ∧ s.mgr.mu = none then
      some { s with pc := .snapped key s.mgr.active s.mgr.immutable s.mgr.history }
    else none
  | .readActive =>
    match s.pc with
    | .snapped key active immutable start =>
      match (s.mgr.tables active).get key, immutable with
      | some v, _ => some (s.answer key (some v) start)
      | none, some i => some { s with pc := .missed key i start }
      | none, none => some (s.answer key none start)
    | _ => none
  | .readImmutable =>
    match s.pc with
    | .missed key i start => some (s.answer key ((s.mgr.tables i).get key) start)
    | _ => none

end Watched

/-! ### What the answers should be -/

/-- The batch of record `i` has begun to take effect. -/
def Begun (i : ℕ) (history : List Tagged) : Prop := ∃ x ∈ history, x.1 = i

/-- Since the batch of record `i` began to take effect, no other record has written the key. -/
def NotOverwritten (i : ℕ) (k : Bytes) (history : List Tagged) : Prop :=
  history.Pairwise fun y x => y.1 = i → x.2.key = k → x.1 = i

/-- The answer is a value of batch `b`, which is record `i`: it is the value that the batch gives
to the key, and was returned when the batch had written the key. -/
def Answer.IsFrom (i : ℕ) (b : Batch) (g : Answer) : Prop :=
  g.value = lastWrite g.key (batchWrites b) ∧ ∃ x ∈ g.finish, x.1 = i ∧ x.2.key = g.key

/-- **The batch is seen whole**: after an answer that is from the batch, the answers for keys of the
batch that were not overwritten are from it too. -/
def SeenWhole (i : ℕ) (b : Batch) (answers : List Answer) : Prop :=
  answers.Pairwise fun g g' => g.IsFrom i b → (∃ e ∈ b.entries, e.key = g'.key) →
    NotOverwritten i g'.key g'.finish → g'.value = lastWrite g'.key (batchWrites b)

/-- The step does not make the writer of record `i` wait in the middle of its batch, and it does not
drop a table while a key that the batch has written is not in the active one. -/
def KeepsWhole (i : ℕ) (s : Watched) : WatchAct → Prop
  | .mgr (.insert c _) => (s.mgr.tables s.mgr.active).isFull = true → s.mgr.immutable ≠ none →
      (∃ x ∈ (s.mgr.pcs c).todo, x.1 = i) → ∀ y ∈ s.mgr.history, y.1 ≠ i
  | .mgr .clear => ∀ x ∈ s.mgr.history, x.1 = i → (s.mgr.tables s.mgr.active).get x.2.key ≠ none
  | _ => True

instance (i : ℕ) (s : Watched) : (a : WatchAct) → Decidable (KeepsWhole i s a)
  | .mgr (.insert c _) => inferInstanceAs (Decidable (_ = true → s.mgr.immutable ≠ none →
      (∃ x ∈ (s.mgr.pcs c).todo, x.1 = i) → ∀ y ∈ s.mgr.history, y.1 ≠ i))
  | .mgr .clear => inferInstanceAs (Decidable (∀ x ∈ s.mgr.history, x.1 = i →
      (s.mgr.tables s.mgr.active).get x.2.key ≠ none))
  | .mgr (.call ..) | .mgr (.submit _) | .mgr (.submitErr ..) | .mgr (.lock _) | .mgr (.send _)
  | .mgr (.finish _) | .mgr (.ret _) | .mgr .recv | .mgr .recvStop | .mgr .readImmutable
  | .mgr .flushOk | .mgr .stop | .snap _ | .readActive | .readImmutable =>
    inferInstanceAs (Decidable True)

variable {i : ℕ} {l start : List Tagged} {s : Watched} {c : ClientId}

theorem NotOverwritten.of_prefix {k : Bytes} {l' : List Tagged} (h : NotOverwritten i k l')
    (hle : l <+: l') : NotOverwritten i k l :=
  List.Pairwise.sublist hle.sublist h

/-- The last write of a key that the batch wrote and nobody overwrote is the batch's. -/
theorem lastWrite_of_notOverwritten {k : Bytes} (h : NotOverwritten i k l)
    (hk : ∃ x ∈ l, x.1 = i ∧ x.2.key = k) :
    lastWrite k (l.map fun x => (x.2.key, x.2.effect)) =
      lastWrite k ((l.filter fun x => decide (x.1 = i)).map fun x => (x.2.key, x.2.effect)) := by
  induction l using List.reverseRecOn with
  | nil => rfl
  | append_singleton l x ih =>
    obtain ⟨hl, -, hx⟩ := List.pairwise_append.1 h
    rw [List.map_append, List.map_singleton, lastWrite_concat, List.filter_append]
    by_cases hxk : x.2.key = k
    · -- the last write of all is the batch's
      have hxi : x.1 = i := by
        obtain ⟨y, hy, hyi, hyk⟩ := hk
        rcases List.mem_append.1 hy with hy | hy
        · exact hx y hy x List.mem_cons_self hyi hxk
        · rwa [← List.mem_singleton.1 hy]
      rw [if_pos hxk, List.filter_cons_of_pos (by simpa using hxi), List.filter_nil,
        List.map_append, List.map_singleton, lastWrite_concat, if_pos hxk]
    · have hold : ∃ y ∈ l, y.1 = i ∧ y.2.key = k := by
        obtain ⟨y, hy, hyi, hyk⟩ := hk
        rcases List.mem_append.1 hy with hy | hy
        · exact ⟨y, hy, hyi, hyk⟩
        · rw [List.mem_singleton.1 hy] at hyk
          exact absurd hyk hxk
      rw [if_neg hxk, ih hl hold]
      by_cases hxi : x.1 = i
      · rw [List.filter_cons_of_pos (by simpa using hxi), List.filter_nil, List.map_append,
          List.map_singleton, lastWrite_concat, if_neg hxk]
      · rw [List.filter_cons_of_neg (by simpa using hxi), List.filter_nil, List.append_nil]

/-! ### What a step of the manager does to a table -/

namespace Manager

variable {m m' : Manager} {a : Act} {k : Bytes}

/-- The history grows by the entry that an insert writes. -/
theorem Step.history_cases (hs : Step m a m') :
    m'.history = m.history ∨ ∃ c level x todo, a = .insert c level ∧
      m.pcs c = .inserting (x :: todo) ∧ m'.history = m.history ++ [x] := by
  cases hs with
  | write hpc | writeSwap hpc => exact .inr ⟨_, _, _, _, rfl, hpc, rfl⟩
  | _ => exact .inl rfl

theorem Step.history_prefix (hs : Step m a m') : m.history <+: m'.history := by
  rcases hs.history_cases with h | ⟨_, _, x, _, -, -, h⟩
  · exact h ▸ List.prefix_rfl
  · exact h ▸ List.prefix_append _ _

theorem Step.log_prefix (hs : Step m a m') : m.log <+: m'.log := by
  cases hs with
  | submit | persisted => exact List.prefix_append _ _
  | _ => exact List.prefix_rfl

/-- A step that does not write a key leaves it alone in every table. -/
theorem Step.get_of_not_written (hs : Step m a m')
    (hk : ∀ x, m'.history = m.history ++ [x] → x.2.key ≠ k) {j : ℕ} (hj : j ≤ m.active) :
    (m'.tables j).get k = (m.tables j).get k := by
  rcases Nat.lt_or_eq_of_le hj with hlt | rfl
  · exact hs.get_of_lt hlt k
  · cases hs with
    | @write c level x todo t hpc ht | @writeSwap c level x todo t hpc ht himm =>
      simp [MemTable.get_put ht, hk x rfl]
    | swap => simp
    | _ => rfl

/-- Only clearing the immutable table can make `Get` miss a key it had. -/
theorem Step.manager_get_ne_none (h : TablesInv m) (hs : Step m a m') (ha : a ≠ .clear)
    (hk : m.get k ≠ none) : m'.get k ≠ none := by
  have hwrite : ∀ {x : Tagged} {level : ℕ} {t : MemTable},
      (m.tables m.active).put x.2.key x.2.effect level = .ok t → (m.write x t).get k ≠ none := by
    intro x level t ht
    have hother : ∀ i, m.immutable = some i → ((m.write x t).tables i) = m.tables i := by
      intro i hi
      have := h.immutable_succ i hi
      rw [write_tables, Function.update_of_ne (by omega)]
    rw [get] at hk ⊢
    rw [write_tables, write_active, Function.update_self, MemTable.get_put ht, write_immutable]
    split
    · simp
    · rcases himm : m.immutable with _ | i
      · rwa [himm] at hk
      · rw [himm] at hk
        simpa only [Option.bind_some, hother i himm] using hk
  have hswap : ∀ {n : Manager}, n.immutable = none → n.freezeAndSwap.get k = n.get k := by
    intro n himm
    simp [get, himm]
  cases hs with
  | write hpc ht => exact hwrite ht
  | @writeSwap c level x todo t hpc ht himm =>
    have := hwrite ht
    rwa [← hswap (n := m.write x t) himm] at this
  | swap hpc hfull himm =>
    rw [← hswap himm] at hk
    exact hk
  | clear => exact absurd rfl ha
  | _ => exact hk

/-- `Get` finds the key that was just written. -/
theorem Step.get_written (hs : Step m a m') {x : Tagged} (hx : m'.history = m.history ++ [x]) :
    m'.get x.2.key ≠ none := by
  cases hs with
  | @write c level y todo t hpc ht | @writeSwap c level y todo t hpc ht himm =>
    obtain rfl : y = x := by simpa using hx
    simp [get, MemTable.get_put ht]
  | _ => exact absurd (congrArg List.length hx) (by simp)

end Manager

/-! ### The invariant -/

/-- The batch of record `i` is complete in the history, if it has begun. -/
def Settled (i : ℕ) (m : Manager) (history : List Tagged) : Prop :=
  Begun i history → ∃ r, m.log[i]? = some r ∧
    (history.filter fun x => decide (x.1 = i)) = tagEntries i r.batch

/-- The two tables together hold what the key was last given before they were taken, if the batch
of record `i` wrote it and nobody has overwritten it. -/
def Holding (i : ℕ) (m : Manager) (key : Bytes) (start : List Tagged)
    (found : Option (Option Bytes)) : Prop :=
  (∃ x ∈ start, x.1 = i ∧ x.2.key = key) → NotOverwritten i key m.history →
    found = lastWrite key (start.map fun x => (x.2.key, x.2.effect))

/-- What a call in progress has established. -/
def GetPc.Holds (i : ℕ) (m : Manager) : GetPc → Prop
  | .idle => True
  | .snapped key active immutable start => start <+: m.history ∧ Settled i m start ∧
      active ≤ m.active ∧ (∀ j, immutable = some j → j ≤ m.active) ∧
      Holding i m key start
        (((m.tables active).get key).or (immutable.bind fun j => (m.tables j).get key))
  | .missed key j start => start <+: m.history ∧ Settled i m start ∧ j ≤ m.active ∧
      Holding i m key start ((m.tables j).get key)

/-- The history when the call took its tables. -/
def GetPc.start? : GetPc → Option (List Tagged)
  | .idle => none
  | .snapped _ _ _ start | .missed _ _ start => some start

/-- What is known of an answer. -/
structure Answer.Holds (i : ℕ) (m : Manager) (g : Answer) : Prop where
  start : g.start <+: g.finish
  finish : g.finish <+: m.history
  settled : Settled i m g.start
  value : (∃ x ∈ g.start, x.1 = i ∧ x.2.key = g.key) → NotOverwritten i g.key g.finish →
    g.value = lastWrite g.key (g.start.map fun x => (x.2.key, x.2.effect))

/-- What holds in every state of a run that keeps batch `i` whole. -/
structure WholeInv (i : ℕ) (s : Watched) : Prop where
  tables : s.mgr.TablesInv
  log : s.mgr.LogInv
  /-- who is in the middle of the batch holds the lock -/
  holder : Begun i s.mgr.history → ∀ c, Begun i (s.mgr.pcs c).todo → s.mgr.mu = some c
  /-- what the batch has written is in one of the two tables -/
  kept : ∀ x ∈ s.mgr.history, x.1 = i → s.mgr.get x.2.key ≠ none
  pc : s.pc.Holds i s.mgr
  answers : ∀ g ∈ s.answers, g.Holds i s.mgr
  ordered : s.answers.Pairwise fun g g' => g.finish <+: g'.start
  later : ∀ start, s.pc.start? = some start → ∀ g ∈ s.answers, g.finish <+: start

theorem Settled.mono {m m' : Manager} (h : Settled i m l) (hlog : m.log <+: m'.log) :
    Settled i m' l := by
  intro hbegun
  obtain ⟨r, hr, hfilter⟩ := h hbegun
  obtain ⟨rest, hrest⟩ := hlog
  refine ⟨r, ?_, hfilter⟩
  rw [← hrest, List.getElem?_append_left (List.getElem?_eq_some_iff.1 hr).1, hr]

/-- When the lock is free, the batch is complete or has not begun. -/
theorem WholeInv.settled (h : WholeInv i s) (hmu : s.mgr.mu = none) :
    Settled i s.mgr s.mgr.history := by
  intro hbegun
  obtain ⟨x, hx, hxi⟩ := hbegun
  obtain ⟨r, hr, hacked⟩ := h.log.origin x hx
  rw [hxi] at hr
  have hnone : ((s.mgr.pcs r.caller).todo.filter fun x => decide (x.1 = i)) = [] := by
    rw [List.filter_eq_nil_iff]
    intro y hy hyi
    have := h.holder ⟨x, hx, hxi⟩ r.caller ⟨y, hy, by simpa using hyi⟩
    rw [hmu] at this
    cases this
  have hcomplete := h.log.complete i r hr hacked
  rw [hnone, List.append_nil] at hcomplete
  exact ⟨r, hr, hcomplete⟩

/-- A complete batch writes nothing more. -/
theorem Settled.todo_ne {m : Manager} (h : Settled i m start) (hlog : m.LogInv)
    (hstart : start <+: m.history) (hbegun : Begun i start) {x : Tagged} (hx : x ∈ (m.pcs c).todo) :
    x.1 ≠ i := by
  rintro rfl
  obtain ⟨r, hr, hfilter⟩ := h hbegun
  obtain ⟨r', hr', rfl, hacked⟩ := hlog.owner c x hx
  obtain rfl : r = r' := Option.some.inj (hr.symm.trans hr')
  have hcomplete := hlog.complete x.1 r hr hacked
  obtain ⟨rest, hrest⟩ := hstart
  rw [← hrest, List.filter_append, hfilter, List.append_assoc] at hcomplete
  have hnil := (List.append_eq_nil_iff.1 (List.append_right_eq_self.1 hcomplete)).2
  exact absurd (List.mem_filter.2 ⟨hx, by simp⟩) (hnil ▸ List.not_mem_nil)

/-- A step writes no key that the complete batch wrote and that is not overwritten after it. -/
private theorem not_written {m m' : Manager} {a : Act} {k : Bytes} (hs : Manager.Step m a m')
    (hlog : m.LogInv) (hstart : start <+: m.history) (hsettled : Settled i m start)
    (hk : ∃ x ∈ start, x.1 = i ∧ x.2.key = k) (hover : NotOverwritten i k m'.history) (x : Tagged)
    (hx : m'.history = m.history ++ [x]) : x.2.key ≠ k := by
  intro hxk
  obtain ⟨y, hy, hyi, -⟩ := hk
  rw [hx] at hover
  have hxi := (List.pairwise_append.1 hover).2.2 y (hstart.subset hy) x List.mem_cons_self hyi hxk
  rcases hs.history_cases with hsame | ⟨c, level, z, todo, -, hpc, hz⟩
  · rw [hsame] at hx
    simpa using congrArg List.length hx
  · obtain rfl : z = x := by
      rw [hz] at hx
      simpa using hx
    exact hsettled.todo_ne hlog hstart ⟨y, hy, hyi⟩ (c := c) (by simp [hpc, WritePc.todo]) hxi

/-- What a call has established stays, while the manager moves. -/
theorem GetPc.Holds.mono {m m' : Manager} {a : Act} {pc : GetPc} (h : pc.Holds i m)
    (hlog : m.LogInv) (hs : Manager.Step m a m') : pc.Holds i m' := by
  have hhist := hs.history_prefix
  rcases pc with _ | ⟨key, n, imm, start⟩ | ⟨key, j, start⟩
  · trivial
  · obtain ⟨hstart, hsettled, hn, himm, hfound⟩ := h
    refine ⟨hstart.trans hhist, hsettled.mono hs.log_prefix, hn.trans hs.active_le,
      fun j hj => (himm j hj).trans hs.active_le, fun hk hover => ?_⟩
    have hsame := fun {j : ℕ} => hs.get_of_not_written
      (not_written hs hlog hstart hsettled hk hover) (j := j)
    rw [← hfound hk (hover.of_prefix hhist), hsame hn]
    rcases imm with _ | j
    · rfl
    · rw [Option.bind_some, Option.bind_some, hsame (himm j rfl)]
  · obtain ⟨hstart, hsettled, hj, hfound⟩ := h
    refine ⟨hstart.trans hhist, hsettled.mono hs.log_prefix, hj.trans hs.active_le,
      fun hk hover => ?_⟩
    rw [← hfound hk (hover.of_prefix hhist), hs.get_of_not_written
      (not_written hs hlog hstart hsettled hk hover) hj]

theorem Answer.Holds.mono {m m' : Manager} {a : Act} {g : Answer} (h : g.Holds i m)
    (hs : Manager.Step m a m') : g.Holds i m' :=
  ⟨h.start, h.finish.trans hs.history_prefix, h.settled.mono hs.log_prefix, h.value⟩

private theorem Begun.of_update {pcs : ClientId → WritePc} {d : ClientId} {pc : WritePc}
    (hpc : ∀ x ∈ pc.todo, x ∈ (pcs c).todo) (h : Begun i (Function.update pcs c pc d).todo) :
    Begun i (pcs d).todo := by
  by_cases hdc : d = c
  · subst hdc
    rw [Function.update_self] at h
    obtain ⟨x, hx, hxi⟩ := h
    exact ⟨x, hpc x hx, hxi⟩
  · rwa [Function.update_of_ne hdc] at h

private theorem holder_write (h : WholeInv i s) {d : ClientId} {x : Tagged} {todo : List Tagged}
    {pc : WritePc} (hpc : s.mgr.pcs c = .inserting (x :: todo)) (hnew : pc.todo = todo)
    (hbegun : Begun i (s.mgr.history ++ [x]))
    (hd : Begun i (Function.update s.mgr.pcs c pc d).todo) :
    s.mgr.mu = some d := by
  have hd' : Begun i (s.mgr.pcs d).todo := by
    refine hd.of_update fun y hy => ?_
    rw [hpc]
    exact List.mem_cons_of_mem _ (hnew ▸ hy)
  obtain ⟨y, hy, hyi⟩ := hbegun
  rcases List.mem_append.1 hy with hy | hy
  · exact h.holder ⟨y, hy, hyi⟩ d hd'
  · obtain rfl := List.mem_singleton.1 hy
    obtain ⟨z, hz, hzi⟩ := hd'
    obtain ⟨r, hr, hcaller, -⟩ := h.log.owner c y (by simp [hpc, WritePc.todo])
    obtain ⟨r', hr', hcaller', -⟩ := h.log.owner d z hz
    rw [hzi, ← hyi, hr] at hr'
    cases hr'
    rw [← hcaller', hcaller]
    exact h.tables.holder c _ (.inl hpc)

/-- Whoever is in the middle of the batch holds the lock, also after a step of the manager. -/
private theorem holder_step {a : Act} {m' : Manager} (h : WholeInv i s)
    (hg : KeepsWhole i s (.mgr a)) (hs : Manager.Step s.mgr a m') :
    Begun i m'.history → ∀ c, Begun i (m'.pcs c).todo → m'.mu = some c := by
  intro hbegun d hd
  cases hs with
  | call | rejected | persisted | ret =>
    exact h.holder hbegun d (hd.of_update (by simp [WritePc.todo]))
  | @submit c b hpc =>
    by_cases hdc : d = c
    · -- what is new to do is from a record that nothing was written of
      subst hdc
      obtain ⟨x, hx, hxi⟩ := hbegun
      obtain ⟨y, hy, hyi⟩ := hd
      obtain ⟨r, hr, -⟩ := h.log.origin x hx
      rw [Manager.setPc_pcs, Function.update_self] at hy
      obtain ⟨e, -, rfl⟩ := List.mem_map.1 hy
      have := (List.getElem?_eq_some_iff.1 hr).1
      simp only at hyi
      omega
    · rw [Manager.setPc_pcs, Function.update_of_ne hdc] at hd
      exact h.holder hbegun d hd
  | @lock c todo hpc hmu =>
    have hold := h.holder hbegun d
      (hd.of_update (by rcases hpc with hpc | hpc <;> simp [hpc, WritePc.todo]))
    rw [hmu] at hold
    cases hold
  | write hpc ht | writeSwap hpc ht himm => exact holder_write h hpc rfl hbegun hd
  | @wait c level x todo j hpc hfull himm =>
    have hold := hd.of_update (by simp [hpc, WritePc.todo])
    have hmu := h.holder hbegun d hold
    rw [h.tables.holder c _ (.inl hpc)] at hmu
    cases hmu
    obtain ⟨y, hy, hyi⟩ := hbegun
    exact absurd hyi (hg hfull (by simp [himm]) hold y hy)
  | swap hpc hfull himm | send hpc =>
    exact h.holder hbegun d (hd.of_update (by simp [hpc, WritePc.todo]))
  | @finish c hpc =>
    have hold := hd.of_update (by simp [WritePc.todo])
    have hmu := h.holder hbegun d hold
    rw [h.tables.holder c _ (.inl hpc)] at hmu
    cases hmu
    rw [hpc] at hold
    obtain ⟨y, hy, -⟩ := hold
    exact absurd hy List.not_mem_nil
  | clear =>
    refine h.holder hbegun d ?_
    rw [Manager.wakeAll_pcs] at hd
    split at hd
    · rename_i hpc
      rw [hpc]
      exact hd
    · exact hd
  | _ => exact h.holder hbegun d hd

/-- What the batch has written stays in one of the two tables. -/
private theorem kept_step {a : Act} {m' : Manager} (h : WholeInv i s) (hg : KeepsWhole i s (.mgr a))
    (hs : Manager.Step s.mgr a m') :
    ∀ x ∈ m'.history, x.1 = i → m'.get x.2.key ≠ none := by
  intro x hx hxi
  by_cases hclear : a = .clear
  · subst hclear
    cases hs with
    | clear hf hmu =>
      have hactive := hg x hx hxi
      simpa [Manager.get] using hactive
  · rcases hs.history_cases with hsame | ⟨c, level, y, todo, -, -, hy⟩
    · rw [hsame] at hx
      exact hs.manager_get_ne_none h.tables hclear (h.kept x hx hxi)
    · have hx' := hx
      rw [hy] at hx'
      rcases List.mem_append.1 hx' with hx' | hx'
      · exact hs.manager_get_ne_none h.tables hclear (h.kept x hx' hxi)
      · obtain rfl := List.mem_singleton.1 hx'
        exact hs.get_written hy

private theorem WholeInv.answer (h : WholeInv i s) {key : Bytes} {value : Option (Option Bytes)}
    (hpc : s.pc.start? = some start) (hstart : start <+: s.mgr.history)
    (hsettled : Settled i s.mgr start) (hvalue : Holding i s.mgr key start value) :
    WholeInv i (s.answer key value start) := by
  refine ⟨h.tables, h.log, h.holder, h.kept, trivial, fun g hg => ?_, ?_, fun _ hidle => ?_⟩
  · rcases List.mem_append.1 hg with hg | hg
    · exact h.answers g hg
    · obtain rfl := List.mem_singleton.1 hg
      exact ⟨hstart, List.prefix_rfl, hsettled, hvalue⟩
  · refine List.pairwise_append.2 ⟨h.ordered, List.pairwise_singleton _ _, fun g hg g' hg' => ?_⟩
    obtain rfl := List.mem_singleton.1 hg'
    exact h.later start hpc g hg
  · cases hidle

/-- **Step lemma.** -/
theorem WholeInv.step {s' : Watched} {a : WatchAct} (h : WholeInv i s) (hg : KeepsWhole i s a)
    (hs : s.step a = some s') : WholeInv i s' := by
  have hpc := h.pc
  rcases a with a | key | _ | _
  · obtain ⟨m', hm, rfl⟩ := Option.map_eq_some_iff.1 hs
    have hstep := Manager.step_cases hm
    exact ⟨h.tables.step hstep, h.log.step hstep, holder_step h hg hstep, kept_step h hg hstep,
      hpc.mono h.log hstep, fun g hg => (h.answers g hg).mono hstep, h.ordered, h.later⟩
  · rw [Watched.step] at hs
    split at hs
    · rename_i hfree
      cases hs
      refine ⟨h.tables, h.log, h.holder, h.kept, ?_, h.answers, h.ordered, ?_⟩
      · refine ⟨List.prefix_rfl, h.settled hfree.2, le_rfl, fun j hj => ?_, fun hk _ => ?_⟩
        · exact (Nat.le_succ j).trans (h.tables.immutable_succ j hj).le
        · obtain ⟨x, hx, hxi, rfl⟩ := hk
          -- the two tables have the key, so they have its last write
          obtain ⟨v, hv⟩ := Option.ne_none_iff_exists'.1 (h.kept x hx hxi)
          have hall := h.tables.get_or_retired x.2.key
          rw [hv, Option.some_or, Manager.current, Manager.written] at hall
          rw [← hall, ← hv]
          rfl
      · intro start hstart g hg
        cases hstart
        exact (h.answers g hg).finish
    · cases hs
  · simp only [Watched.step] at hs
    split at hs
    · rename_i key n imm start hsnap
      have hstart? : s.pc.start? = some start := by rw [hsnap]; rfl
      rw [hsnap] at hpc
      obtain ⟨hstart, hsettled, -, himm, hfound⟩ := hpc
      split at hs
      · rename_i v hv
        cases hs
        rw [hv, Option.some_or] at hfound
        exact h.answer hstart? hstart hsettled hfound
      · rename_i j hnone
        cases hs
        rw [hnone, Option.none_or] at hfound
        refine ⟨h.tables, h.log, h.holder, h.kept, ⟨hstart, hsettled, himm j rfl, hfound⟩,
          h.answers, h.ordered, fun start' hstart' => ?_⟩
        cases hstart'
        exact h.later start hstart?
      · rename_i hnone
        cases hs
        rw [hnone, Option.none_or] at hfound
        exact h.answer hstart? hstart hsettled hfound
    · cases hs
  · simp only [Watched.step] at hs
    split at hs
    · rename_i key j start hmissed
      have hstart? : s.pc.start? = some start := by rw [hmissed]; rfl
      rw [hmissed] at hpc
      obtain ⟨hstart, hsettled, -, hfound⟩ := hpc
      cases hs
      exact h.answer hstart? hstart hsettled hfound
    · cases hs

theorem wholeInv_new (i : ℕ) (maxSize : ℤ) : WholeInv i (.new maxSize) where
  tables := Manager.tablesInv_new maxSize
  log := Manager.logInv_new maxSize
  holder := by
    rintro ⟨x, hx, -⟩
    exact absurd hx List.not_mem_nil
  kept x hx := absurd hx List.not_mem_nil
  pc := trivial
  answers g hg := absurd hg List.not_mem_nil
  ordered := List.Pairwise.nil
  later start h := by cases h

/-! ### Batches are seen whole -/

/-- **A batch is atomic to a reader**, in every run in which its writer does not wait in the middle
of it and the flush loop does not drop a table while a key the batch has written is not in the
active one: once a call of `Get` has returned a value of the batch, every later call on a key of
the batch that nobody has overwritten returns the value that the batch gave it. -/
theorem answers_whole {i : ℕ} {maxSize : ℤ} {tr : List WatchAct} {s : Watched}
    (hr : Machine.run Watched.step (.new maxSize) tr = some s)
    (hg : Machine.Guarded Watched.step (KeepsWhole i) (.new maxSize) tr) {r : LogRecord}
    (hrec : s.mgr.log[i]? = some r) : SeenWhole i r.batch s.answers := by
  have h : WholeInv i s := Machine.run_guarded_invariant (fun _ _ _ hi hk hs => hi.step hk hs)
    (wholeInv_new i maxSize) hg hr
  refine List.Pairwise.imp_of_mem (fun {g g'} _ hg' hle hfrom hkey hover => ?_) h.ordered
  obtain ⟨-, x, hx, hxi, -⟩ := hfrom
  obtain ⟨e, he, hek⟩ := hkey
  have hans := h.answers g' hg'
  -- the batch is complete when the later call takes its tables
  obtain ⟨r', hr', hfilter⟩ := hans.settled ⟨x, hle.subset hx, hxi⟩
  obtain rfl : r = r' := Option.some.inj (hrec.symm.trans hr')
  have hmem : (i, e) ∈ g'.start := by
    have htag : (i, e) ∈ tagEntries i r.batch := List.mem_map.2 ⟨e, he, rfl⟩
    rw [← hfilter] at htag
    exact (List.mem_filter.1 htag).1
  rw [hans.value ⟨_, hmem, rfl, hek⟩ hover,
    lastWrite_of_notOverwritten (hover.of_prefix hans.start) ⟨_, hmem, rfl, hek⟩, hfilter,
    tagEntries, List.map_map]
  rfl

/-- A batch of two keys. -/
def twoKeys : Batch := ⟨[⟨opPut, [1], some [1]⟩, ⟨opPut, [2], some [2]⟩]⟩

/-- The reader takes its tables before the batch begins, finds the first key in the middle of it,
and asks for the second one when it is over. -/
def readAcross : List WatchAct :=
  [.snap [1], .mgr (.call 0 twoKeys), .mgr (.submit 0), .mgr (.lock 0), .mgr (.insert 0 1),
    .readActive, .mgr (.insert 0 1), .mgr (.finish 0), .snap [2], .readActive]

/-- The statement at work. -/
theorem answers_whole_readAcross :
    ∃ s, Machine.run Watched.step (.new 4096) readAcross = some s ∧
      Machine.Guarded Watched.step (KeepsWhole 0) (.new 4096) readAcross ∧
      s.mgr.log[0]? = some ⟨twoKeys, 0, true⟩ ∧
      s.answers.map Answer.value = [some (some [1]), some (some [2])] ∧
      SeenWhole 0 twoKeys s.answers := by
  refine ⟨_, rfl, by decide, rfl, rfl, ?_⟩
  exact @answers_whole 0 4096 readAcross _ rfl (by decide) ⟨twoKeys, 0, true⟩ rfl

/-- Another write has filled a table, which is being flushed. The batch writes its first key, finds
the active table full, and waits; the reader asks for both keys. -/
def readWhileWaiting : List WatchAct :=
  [.mgr (.call 0 ⟨[⟨opPut, [9], some [9]⟩]⟩), .mgr (.submit 0), .mgr (.lock 0),
    .mgr (.insert 0 1), .mgr (.send 0), .mgr (.finish 0), .mgr (.call 1 twoKeys),
    .mgr (.submit 1), .mgr (.lock 1), .mgr (.insert 1 1), .mgr (.insert 1 1), .snap [1],
    .readActive, .snap [2], .readActive, .readImmutable]

/-- **A batch is seen torn**: its first key has the new value, and then its second one is not
there. -/
theorem answers_torn :
    ∃ s, Machine.run Watched.step (.new 40) readWhileWaiting = some s ∧
      s.mgr.log[1]? = some ⟨twoKeys, 1, true⟩ ∧
      s.answers.map Answer.value = [some (some [1]), none] ∧ ¬ SeenWhole 1 twoKeys s.answers := by
  refine ⟨_, rfl, rfl, rfl, fun hwhole => ?_⟩
  have htorn := (List.pairwise_cons.1 hwhole).1 _ List.mem_cons_self
    ⟨rfl, (1, ⟨opPut, [1], some [1]⟩), by decide, rfl, rfl⟩
    ⟨⟨opPut, [2], some [2]⟩, by decide, rfl⟩ (by unfold NotOverwritten; decide)
  revert htorn
  decide

/-- The table with the first key is flushed and dropped, and `Manager.Get` no longer finds it. -/
example : ∃ s, Machine.run Watched.step (.new 40)
    [.mgr (.call 0 twoKeys), .mgr (.submit 0), .mgr (.lock 0), .mgr (.insert 0 1), .mgr (.send 0),
      .mgr (.insert 0 1), .mgr (.finish 0), .snap [2], .readActive, .mgr .recv,
      .mgr .readImmutable, .mgr .flushOk, .mgr .clear, .snap [1], .readActive] = some s ∧
    s.answers.map Answer.value = [some (some [2]), none] :=
  ⟨_, rfl, rfl⟩

end Stratum.Memtable
