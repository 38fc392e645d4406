import Mathlib.Data.List.Induction
import Stratum.Memtable.Tables

/-!
# Log order and memory order

A write reaches the log file when its group is committed and the active table when its writer gets
`m.mu`; nothing ties the two orders together. `LogInv` says what holds of every run all the same:
each acknowledged record is written to the tables entry by entry, in its own order, and once.

`InLogOrder` is the missing tie, as a condition on single steps: an entry is not written after an
entry of the same key from a later record. In runs that keep to it the history of each key is in
log order (`Ordered`), so replaying the log gives the current value of every key whose last record
was written out (`lastWrite_logWrites`). `replay_eq_get_of_inLogOrder` is the resulting statement
about recovery, and `replay_ne_get` a run of two writers that breaks it: the second to be logged is
the first to be inserted.
-/

namespace Stratum.Memtable

open Wal LastWrite

/-- The entries a writer has still to write. -/
def WritePc.todo : WritePc → List Tagged
  | .logged todo | .inserting todo | .sending todo | .waiting todo | .woken todo => todo
  | .idle | .called _ | .returned _ => []

/-- The bindings a record makes when it is decoded and applied. -/
def recordWrites (b : Batch) : List Entry := b.recovered.entries.map fun e => (e.key, e.effect)

/-- The bindings the log makes, record after record. -/
def logWrites (log : List LogRecord) : List Entry := log.flatMap fun r => recordWrites r.batch

/-- No entry puts an empty value. -/
def NonEmptyValues (b : Batch) : Prop := ∀ e ∈ b.entries, e.effect ≠ some []

instance (b : Batch) : Decidable (NonEmptyValues b) :=
  inferInstanceAs (Decidable (∀ e ∈ b.entries, e.effect ≠ some []))

namespace Manager

variable {m m' : Manager} {a : Act} {k : Bytes}

/-! ### Acknowledged records are written out in their own order -/

/-- What ties the log to the history in every run. -/
structure LogInv (m : Manager) : Prop where
  /-- what a writer has to do comes from its own acknowledged records -/
  owner : ∀ c, ∀ x ∈ (m.pcs c).todo, ∃ r, m.log[x.1]? = some r ∧ r.caller = c ∧ r.acked = true
  /-- what was written comes from acknowledged records -/
  origin : ∀ x ∈ m.history, ∃ r, m.log[x.1]? = some r ∧ r.acked = true
  /-- an acknowledged record is what was written of it, and what its writer has to do -/
  complete : ∀ i r, m.log[i]? = some r → r.acked = true →
    (m.history.filter fun x => decide (x.1 = i))
      ++ ((m.pcs r.caller).todo.filter fun x => decide (x.1 = i)) = tagEntries i r.batch

/-- Steps that write nothing to log or tables keep the invariant. -/
private theorem LogInv.of_same (h : LogInv m) (hlog : m'.log = m.log)
    (hhist : m'.history = m.history) (htodo : ∀ c, (m'.pcs c).todo = (m.pcs c).todo) :
    LogInv m' := by
  refine ⟨fun c x hx => ?_, fun x hx => ?_, fun i r hr hacked => ?_⟩
  · rw [hlog]
    exact h.owner c x (htodo c ▸ hx)
  · rw [hlog]
    exact h.origin x (hhist ▸ hx)
  · rw [hhist, htodo]
    exact h.complete i r (hlog ▸ hr) hacked

/-- Moving one writer without changing what it has to do. -/
private theorem todo_setPc {c : ClientId} {pc : WritePc} (h : pc.todo = (m.pcs c).todo)
    (d : ClientId) : (Function.update m.pcs c pc d).todo = (m.pcs d).todo := by
  by_cases hd : d = c
  · subst hd
    rw [Function.update_self, h]
  · rw [Function.update_of_ne hd]

theorem filter_tagEntries_self (i : ℕ) (b : Batch) :
    ((tagEntries i b).filter fun x => decide (x.1 = i)) = tagEntries i b := by
  rw [List.filter_eq_self]
  intro x hx
  obtain ⟨e, -, rfl⟩ := List.mem_map.mp hx
  simp

theorem filter_tagEntries_ne {i j : ℕ} (h : j ≠ i) (b : Batch) :
    ((tagEntries j b).filter fun x => decide (x.1 = i)) = [] := by
  rw [List.filter_eq_nil_iff]
  intro x hx
  obtain ⟨e, -, rfl⟩ := List.mem_map.mp hx
  simpa using h

private theorem getElem?_concat_of_some {log : List LogRecord} {i : ℕ} {r x : LogRecord}
    (h : log[i]? = some r) : (log ++ [x])[i]? = some r := by
  rw [List.getElem?_append_left (List.getElem?_eq_some_iff.mp h).1, h]

/-- A record appended by a writer that has nothing to do, with the work `pc` it leaves. -/
private theorem LogInv.append (h : LogInv m) {c : ClientId} {b : Batch} {acked : Bool}
    {pc : WritePc} (hpc : (m.pcs c).todo = [])
    (htodo : pc.todo = if acked then tagEntries m.log.length b else []) :
    LogInv ((m.appendLog b c acked).setPc c pc) := by
  have hhist : (m.history.filter fun x => decide (x.1 = m.log.length)) = [] := by
    rw [List.filter_eq_nil_iff]
    intro x hx
    obtain ⟨r, hr, -⟩ := h.origin x hx
    have := (List.getElem?_eq_some_iff.mp hr).1
    simp only [decide_eq_true_eq]
    omega
  refine ⟨fun d x hx => ?_, fun x hx => ?_, fun i r hr hacked => ?_⟩
  · by_cases hd : d = c
    · subst hd
      simp only [setPc_pcs, Function.update_self, htodo] at hx
      split at hx
      · rename_i hacked
        obtain ⟨e, -, rfl⟩ := List.mem_map.mp hx
        exact ⟨_, List.getElem?_concat_length, rfl, hacked⟩
      · simp at hx
    · simp only [setPc_pcs, appendLog_pcs, Function.update_of_ne hd] at hx
      obtain ⟨r, hr, hrest⟩ := h.owner d x hx
      exact ⟨r, getElem?_concat_of_some hr, hrest⟩
  · obtain ⟨r, hr, hrest⟩ := h.origin x hx
    exact ⟨r, getElem?_concat_of_some hr, hrest⟩
  · simp only [setPc_log, appendLog_log] at hr
    simp only [setPc_history, appendLog_history, setPc_pcs]
    rcases Nat.lt_or_ge i m.log.length with hlt | hge
    · -- an old record: its writer, if it is `c`, had nothing left of it
      rw [List.getElem?_append_left hlt] at hr
      have hold := h.complete i r hr hacked
      by_cases hd : r.caller = c
      · rw [hd, hpc, List.filter_nil, List.append_nil] at hold
        have hnew : (pc.todo.filter fun x => decide (x.1 = i)) = [] := by
          rw [htodo]
          split
          · exact filter_tagEntries_ne (by omega) b
          · rfl
        rw [hd, Function.update_self, hnew, hold, List.append_nil]
      · rwa [Function.update_of_ne hd]
    · -- the new record
      have hi : i = m.log.length := by
        have := (List.getElem?_eq_some_iff.mp hr).1
        simp only [List.length_append, List.length_cons, List.length_nil] at this
        omega
      subst hi
      rw [List.getElem?_concat_length] at hr
      cases hr
      simp only at hacked
      rw [Function.update_self, htodo, hacked, hhist, List.nil_append]
      simp only [if_true]
      exact filter_tagEntries_self _ b

private theorem LogInv.write (h : LogInv m) {c : ClientId} {x : Tagged} {todo : List Tagged}
    {t : MemTable} {pc : WritePc} (hpc : (m.pcs c).todo = x :: todo) (htodo : pc.todo = todo) :
    LogInv ((m.write x t).setPc c pc) := by
  obtain ⟨rx, hrx, hcx, hax⟩ := h.owner c x (by simp [hpc])
  refine ⟨fun d y hy => ?_, fun y hy => ?_, fun i r hr hacked => ?_⟩
  · refine h.owner d y ?_
    by_cases hd : d = c
    · subst hd
      simp only [setPc_pcs, Function.update_self, htodo] at hy
      simp [hpc, hy]
    · simpa only [setPc_pcs, write_pcs, Function.update_of_ne hd] using hy
  · rcases List.mem_append.mp hy with hy | hy
    · exact h.origin y hy
    · obtain rfl : y = x := by simpa using hy
      exact ⟨rx, hrx, hax⟩
  · have hold := h.complete i r hr hacked
    simp only [setPc_history, write_history, setPc_pcs, List.filter_append]
    by_cases hxi : x.1 = i
    · -- the entry moves from what is to do to what is done
      have hr' : r = rx := by
        rw [hxi] at hrx
        exact Option.some.inj (hr.symm.trans hrx)
      rw [hr', hcx, Function.update_self, htodo]
      rw [hr', hcx, hpc] at hold
      simpa [hxi] using hold
    · have hsingle : ([x].filter fun y => decide (y.1 = i)) = [] := by simp [hxi]
      rw [hsingle, List.append_nil]
      by_cases hd : r.caller = c
      · rw [hd, Function.update_self, htodo]
        rw [hd, hpc] at hold
        simpa [hxi] using hold
      · rwa [Function.update_of_ne hd]

theorem logInv_new (maxSize : ℤ) : LogInv (new maxSize) where
  owner c x hx := by simp [new, WritePc.todo] at hx
  origin x hx := by simp [new] at hx
  complete i r hr _ := by simp [new] at hr

/-- **Step lemma**: every step keeps log and history together. -/
theorem LogInv.step (h : LogInv m) (hs : Step m a m') : LogInv m' := by
  cases hs with
  | call hpc | rejected hpc | wait hpc hfull himm | swap hpc hfull himm | send hpc | finish hpc
  | ret hpc => exact h.of_same rfl rfl (todo_setPc (by simp [hpc, WritePc.todo]))
  | submit hpc | persisted hpc =>
    exact h.append (by simp [hpc, WritePc.todo]) (by simp [WritePc.todo])
  | lock hpc hmu =>
    refine h.of_same rfl rfl (todo_setPc ?_)
    rcases hpc with hpc | hpc <;> simp [hpc, WritePc.todo]
  | write hpc ht => exact h.write (by simp [hpc, WritePc.todo]) rfl
  | @writeSwap c level x todo t hpc ht himm =>
    have hw : LogInv ((m.write x t).setPc c (.sending todo)) :=
      h.write (by simp [hpc, WritePc.todo]) rfl
    exact hw.of_same rfl rfl fun _ => rfl
  | clear hf hmu =>
    refine h.of_same rfl rfl fun c => ?_
    simp only [wakeAll_pcs]
    cases hpc : m.pcs c <;> rfl
  | _ => exact h.of_same rfl rfl fun _ => rfl

/-! ### Writes in log order -/

/-- The step does not write an entry after one of the same key from a later record. -/
def InLogOrder (m : Manager) : Act → Prop
  | .insert c _ => ∀ x ∈ (m.pcs c).todo.head?, ∀ y ∈ m.history, y.2.key = x.2.key → y.1 ≤ x.1
  | _ => True

instance (m : Manager) (a : Act) : Decidable (InLogOrder m a) := by
  cases a <;> dsimp only [InLogOrder] <;> infer_instance

/-- The history of each key is in log order. -/
def Ordered (m : Manager) : Prop :=
  ∀ k : Bytes, (m.history.filter fun x => decide (x.2.key = k)).Pairwise fun x y => x.1 ≤ y.1

theorem ordered_new (maxSize : ℤ) : Ordered (new maxSize) := fun k => by simp [new]

/-- **Step lemma**: a step in log order keeps the history of each key in log order. -/
theorem Ordered.step (h : Ordered m) (hg : InLogOrder m a) (hs : Step m a m') : Ordered m' := by
  have hwrite : ∀ {c : ClientId} {level : ℕ} {x : Tagged} {todo : List Tagged},
      InLogOrder m (.insert c level) → m.pcs c = .inserting (x :: todo) → ∀ k : Bytes,
      ((m.history ++ [x]).filter fun x => decide (x.2.key = k)).Pairwise
        fun x y => x.1 ≤ y.1 := by
    intro c level x todo hg hpc k
    rw [List.filter_append, List.pairwise_append]
    refine ⟨h k, List.Pairwise.sublist List.filter_sublist (by simp), fun y hy z hz => ?_⟩
    obtain ⟨hy, hyk⟩ := List.mem_filter.mp hy
    obtain ⟨hz, hzk⟩ := List.mem_filter.mp hz
    obtain rfl : z = x := by simpa using hz
    simp only [decide_eq_true_eq] at hyk hzk
    exact hg z (by simp [hpc, WritePc.todo]) y hy (hyk.trans hzk.symm)
  cases hs with
  | write hpc ht => exact hwrite hg hpc
  | writeSwap hpc ht himm => exact hwrite hg hpc
  | _ => exact h

/-! ### Replaying the log -/

/-- The bindings of a record are those of its entries, when none puts an empty value. -/
theorem recordWrites_eq {b : Batch} (h : NonEmptyValues b) :
    recordWrites b = b.entries.map fun e => (e.key, e.effect) := by
  simp only [recordWrites, Batch.recovered, List.map_map]
  refine List.map_congr_left fun e he => ?_
  simp only [Function.comp_apply, BatchEntry.effect_recovered (h e he)]
  rfl

private theorem lastWrite_recordWrites {b : Batch} (h : NonEmptyValues b) (i : ℕ) (k : Bytes) :
    lastWrite k (recordWrites b) = ((((tagEntries i b).filter fun x =>
      decide (x.2.key = k)).getLast?).map fun x => x.2.effect) := by
  simp only [recordWrites_eq h, lastWrite, tagEntries, List.filter_map, List.getLast?_map,
    Option.map_map]
  rfl

/-- A key whose last record was written out has the value of that record. -/
theorem current_eq_of_last_record (h : LogInv m) (ho : Ordered m) {i : ℕ} {r : LogRecord}
    (hr : m.log[i]? = some r) (hacked : r.acked = true)
    (hdone : ((m.pcs r.caller).todo.filter fun x => decide (x.1 = i)) = [])
    (hval : NonEmptyValues r.batch) (hk : lastWrite k (recordWrites r.batch) ≠ none)
    (hlater : ∀ j r', i < j → m.log[j]? = some r' → NonEmptyValues r'.batch ∧
      lastWrite k (recordWrites r'.batch) = none) :
    m.current k = lastWrite k (recordWrites r.batch) := by
  have hrec := h.complete i r hr hacked
  rw [hdone, List.append_nil] at hrec
  rw [lastWrite_recordWrites hval i] at hk ⊢
  have hne : (((m.history.filter fun x => decide (x.1 = i)).filter fun x =>
      decide (x.2.key = k))) ≠ [] := by
    rw [hrec]
    intro hnil
    simp [hnil] at hk
  rw [current_eq_getLast?, ← hrec]
  congr 1
  refine getLast?_filter_eq_of_tags (ho k) (fun x hx => ?_) hne
  -- an entry of a later record would make that record write the key
  obtain ⟨hx, hxk⟩ := List.mem_filter.mp hx
  by_contra hlt
  obtain ⟨r', hr', hacked'⟩ := h.origin x hx
  obtain ⟨hval', hnone⟩ := hlater x.1 r' (by omega) hr'
  have hmem : x ∈ tagEntries x.1 r'.batch := by
    rw [← h.complete x.1 r' hr' hacked']
    exact List.mem_append_left _ (List.mem_filter.mpr ⟨hx, by simp⟩)
  rw [lastWrite_recordWrites hval' x.1] at hnone
  simp only [Option.map_eq_none_iff, List.getLast?_eq_none_iff, List.filter_eq_nil_iff] at hnone
  exact hnone x hmem hxk

/-- A record is done for a key: if it is the last one of the log that writes the key, then it is
acknowledged and written out. -/
def SettledKey (m : Manager) (k : Bytes) : Prop :=
  ∀ i r, m.log[i]? = some r → lastWrite k (recordWrites r.batch) ≠ none →
    (∀ j r', i < j → m.log[j]? = some r' → lastWrite k (recordWrites r'.batch) = none) →
    r.acked = true ∧ ((m.pcs r.caller).todo.filter fun x => decide (x.1 = i)) = []

/-- **The log is the memory**: for a key whose last record is acknowledged and written out, the
log replayed in file order gives the write that took effect last. -/
theorem lastWrite_logWrites (h : LogInv m) (ho : Ordered m)
    (hval : ∀ r ∈ m.log, NonEmptyValues r.batch) (hk : SettledKey m k) :
    lastWrite k (logWrites m.log) = m.current k := by
  -- by induction on `n`: as long as no record from `n` on writes the key
  have key : ∀ n ≤ m.log.length,
      (∀ j r, n ≤ j → m.log[j]? = some r → lastWrite k (recordWrites r.batch) = none) →
      lastWrite k (logWrites (m.log.take n)) = m.current k := by
    intro n
    induction n with
    | zero =>
      intro _ hnone
      rw [List.take_zero, logWrites, List.flatMap_nil, lastWrite_nil, current_eq_getLast?]
      symm
      rw [Option.map_eq_none_iff, List.getLast?_eq_none_iff, List.filter_eq_nil_iff]
      intro x hx hxk
      obtain ⟨r, hr, hacked⟩ := h.origin x hx
      have hr0 := hnone x.1 r (Nat.zero_le _) hr
      rw [lastWrite_recordWrites (hval r (List.mem_of_getElem? hr)) x.1] at hr0
      simp only [Option.map_eq_none_iff, List.getLast?_eq_none_iff,
        List.filter_eq_nil_iff] at hr0
      refine hr0 x ?_ hxk
      rw [← h.complete x.1 r hr hacked]
      exact List.mem_append_left _ (List.mem_filter.mpr ⟨hx, by simp⟩)
    | succ n ih =>
      intro hn hnone
      have hr : m.log[n]? = some m.log[n] := List.getElem?_eq_getElem (by omega)
      have hsplit : logWrites (m.log.take (n + 1))
          = logWrites (m.log.take n) ++ recordWrites m.log[n].batch := by
        rw [List.take_succ_eq_append_getElem (show n < m.log.length by omega), logWrites,
          List.flatMap_append, List.flatMap_singleton]
        rfl
      rw [hsplit, lastWrite_append]
      by_cases hw : lastWrite k (recordWrites m.log[n].batch) = none
      · rw [hw, Option.none_or]
        refine ih (by omega) fun j r hj hjr => ?_
        rcases Nat.lt_or_eq_of_le hj with hlt | rfl
        · exact hnone j r hlt hjr
        · rwa [← Option.some.inj (hr.symm.trans hjr)]
      · have hlater : ∀ j r', n < j → m.log[j]? = some r' →
            lastWrite k (recordWrites r'.batch) = none := fun j r' hj => hnone j r' hj
        obtain ⟨hacked, hdone⟩ := hk n _ hr hw hlater
        rw [current_eq_of_last_record h ho hr hacked hdone
          (hval _ (List.mem_of_getElem? hr)) hw fun j r' hj hjr =>
            ⟨hval r' (List.mem_of_getElem? hjr), hlater j r' hj hjr⟩]
        obtain ⟨v, hv⟩ := Option.ne_none_iff_exists'.mp hw
        rw [hv, Option.some_or]
  have hall := key m.log.length le_rfl fun j r hj hjr => by
    have := (List.getElem?_eq_some_iff.mp hjr).1
    omega
  rwa [List.take_length] at hall

/-! ### Recovery -/

/-- Replaying the records in file order into an empty table (the towers do not matter). -/
def replay (log : List LogRecord) : SkipList :=
  (logWrites log).foldl (fun sl e => sl.put e.1 e.2 1) .empty

private theorem get_foldl_put (l : List Entry) (sl : SkipList) (k : Bytes) :
    (l.foldl (fun sl e => sl.put e.1 e.2 1) sl).get k = (lastWrite k l).or (sl.get k) := by
  induction l using List.reverseRecOn with
  | nil => simp
  | append_singleton l e ih =>
    rw [List.foldl_append, List.foldl_cons, List.foldl_nil, SkipList.get_put, lastWrite_concat]
    split
    · rfl
    · exact ih

theorem get_replay (log : List LogRecord) (k : Bytes) :
    (replay log).get k = lastWrite k (logWrites log) := by
  rw [replay, get_foldl_put, SkipList.get_empty, Option.or_none]

/-- The calls in question: values are not empty, and a record that reaches the file is
acknowledged. -/
def Acknowledged (_ : Manager) : Act → Prop
  | .call _ b => NonEmptyValues b
  | .submitErr _ persisted => persisted = false
  | _ => True

instance (m : Manager) (a : Act) : Decidable (Acknowledged m a) := by
  cases a <;> dsimp only [Acknowledged] <;> infer_instance

/-- What is true of the batch of every call is true of every record of the log. -/
structure BatchInv (P : Batch → Prop) (m : Manager) : Prop where
  called : ∀ c b, m.pcs c = .called b → P b
  log : ∀ r ∈ m.log, P r.batch

section BatchInv

variable {P : Batch → Prop}

private theorem BatchInv.of_same (h : BatchInv P m) (hlog : m'.log = m.log)
    (hpcs : ∀ c b, m'.pcs c = .called b → m.pcs c = .called b) : BatchInv P m' :=
  ⟨fun c b hc => h.called c b (hpcs c b hc), fun r hr => h.log r (hlog ▸ hr)⟩

private theorem called_setPc {c : ClientId} {pc : WritePc} (h : ∀ b, pc ≠ .called b)
    (d : ClientId) (b : Batch) (hd : Function.update m.pcs c pc d = .called b) :
    m.pcs d = .called b := by
  by_cases hdc : d = c
  · subst hdc
    rw [Function.update_self] at hd
    exact absurd hd (h b)
  · rwa [Function.update_of_ne hdc] at hd

private theorem BatchInv.append (h : BatchInv P m) {c : ClientId} {b : Batch} {acked : Bool}
    {pc : WritePc} (hc : m.pcs c = .called b) (hpc : ∀ b, pc ≠ .called b) :
    BatchInv P ((m.appendLog b c acked).setPc c pc) := by
  refine ⟨fun d b' hd => h.called d b' (called_setPc hpc d b' hd), fun r hr => ?_⟩
  rcases List.mem_append.mp hr with hr | hr
  · exact h.log r hr
  · obtain rfl : r = ⟨b, c, acked⟩ := by simpa using hr
    exact h.called c b hc

theorem BatchInv.step (h : BatchInv P m) (hg : ∀ c b, a = .call c b → P b) (hs : Step m a m') :
    BatchInv P m' := by
  cases hs with
  | @call c b hpc =>
    refine ⟨fun d b' hd => ?_, h.log⟩
    by_cases hdc : d = c
    · subst hdc
      simp only [setPc_pcs, Function.update_self, WritePc.called.injEq] at hd
      exact hd ▸ hg d b rfl
    · simp only [setPc_pcs, Function.update_of_ne hdc] at hd
      exact h.called d b' hd
  | submit hpc => exact h.append hpc (by simp)
  | persisted hpc => exact h.append hpc (by simp)
  | clear hf hmu =>
    refine h.of_same rfl fun c b hc => ?_
    simp only [wakeAll_pcs] at hc
    cases hpc : m.pcs c <;> simp_all
  | recv | recvStop | nothing | readImmutable | flushOk | stop => exact h.of_same rfl fun _ _ => id
  | _ => exact h.of_same rfl (called_setPc (by simp))

end BatchInv

/-- The log grows by the record that is submitted, and by no other step that the guard allows. -/
theorem Step.log_eq (hs : Step m a m') (hsubmit : ∀ c, a ≠ .submit c)
    (herr : ∀ c, a ≠ .submitErr c true) : m'.log = m.log := by
  cases hs with
  | submit => exact absurd rfl (hsubmit _)
  | persisted => exact absurd rfl (herr _)
  | _ => rfl

/-- The record that is submitted is the batch its writer was called with. -/
theorem Step.submit_eq {c : ClientId} (hs : Step m (.submit c) m') :
    ∃ b, m.pcs c = .called b ∧ m'.log = m.log ++ [⟨b, c, true⟩] ∧
      ∀ d, d ≠ c → m'.pcs d = m.pcs d := by
  cases hs with
  | @submit c b hpc =>
    exact ⟨b, hpc, rfl, fun d hd => by rw [setPc_pcs, Function.update_of_ne hd, appendLog_pcs]⟩

/-- Every record of the log is acknowledged. -/
def AllAcked (m : Manager) : Prop := ∀ r ∈ m.log, r.acked = true

theorem AllAcked.step (h : AllAcked m) (hg : ∀ c, a ≠ .submitErr c true) (hs : Step m a m') :
    AllAcked m' := by
  cases hs with
  | @submit c b hpc =>
    intro r hr
    rcases List.mem_append.mp hr with hr | hr
    · exact h r hr
    · obtain rfl : r = ⟨b, c, true⟩ := by simpa using hr
      rfl
  | persisted => exact absurd rfl (hg _)
  | _ => exact h

/-- Every call has returned. -/
def AllReturned (m : Manager) : Prop := ∀ c, m.pcs c = .idle ∨ ∃ ok, m.pcs c = .returned ok

/-- **Replay is memory, when writes take effect in log order.** In every run of calls with
non-empty values whose inserts are in log order, once all calls have returned, replaying the log
into an empty table gives every key what `Manager.Get` finds for it; and if no table was flushed,
exactly what `Manager.Get` answers. -/
theorem replay_eq_get_of_inLogOrder {maxSize : ℤ} {tr : List Act}
    (hr : Machine.run Manager.step (new maxSize) tr = some m)
    (hcalls : Machine.Guarded Manager.step Acknowledged (new maxSize) tr)
    (horder : Machine.Guarded Manager.step InLogOrder (new maxSize) tr)
    (hdone : AllReturned m) (k : Bytes) :
    (∀ v, m.get k = some v → (replay m.log).get k = some v) ∧
      (m.retired = 0 → (replay m.log).get k = m.get k) := by
  have hinv : (TablesInv m ∧ LogInv m) ∧ Ordered m ∧ BatchInv NonEmptyValues m ∧ AllAcked m := by
    refine Machine.run_guarded_invariant (I := fun m => (TablesInv m ∧ LogInv m) ∧ Ordered m ∧
      BatchInv NonEmptyValues m ∧ AllAcked m) ?_ ?_ (hcalls.and horder) hr
    · rintro s a s' ⟨⟨h₁, h₂⟩, h₃, h₄, h₅⟩ ⟨hg₁, hg₂⟩ hs
      have hs := step_cases hs
      refine ⟨⟨h₁.step hs, h₂.step hs⟩, h₃.step hg₂ hs, h₄.step ?_ hs, h₅.step ?_ hs⟩
      · rintro c b rfl
        exact hg₁
      · rintro c rfl
        cases hg₁
    · exact ⟨⟨tablesInv_new maxSize, logInv_new maxSize⟩, ordered_new maxSize,
        ⟨fun c b hc => by simp [new] at hc, fun r hr => by simp [new] at hr⟩,
        fun r hr => by simp [new] at hr⟩
  obtain ⟨⟨htables, hlog⟩, hord, hvalues, hacked⟩ := hinv
  have hsettled : SettledKey m k := fun i r hri _ _ => by
    refine ⟨hacked r (List.mem_of_getElem? hri), ?_⟩
    rcases hdone r.caller with h | ⟨ok, h⟩ <;> simp [h, WritePc.todo]
  have hreplay : (replay m.log).get k = m.current k := by
    rw [get_replay]
    exact lastWrite_logWrites hlog hord hvalues.log hsettled
  have hget := htables.get_or_retired k
  refine ⟨fun v hv => ?_, fun hret => ?_⟩
  · rw [hreplay, ← hget, hv, Option.some_or]
  · rw [hreplay, ← hget, hret, newest, Option.or_none]

/-- Two puts of one key, logged one after the other and inserted in the order given. -/
def twoPuts (first second : ClientId) : List Act :=
  let k : Bytes := [107]
  [.call 0 ⟨[⟨opPut, k, some [1]⟩]⟩, .call 1 ⟨[⟨opPut, k, some [2]⟩]⟩, .submit 0, .submit 1,
    .lock first, .insert first 1, .finish first, .lock second, .insert second 1, .finish second,
    .ret 0, .ret 1]

/-- The statement at work: inserted in log order, the second put is what is read and replayed. -/
theorem replay_eq_get_twoPuts :
    ∃ m, Machine.run Manager.step (new 4096) (twoPuts 0 1) = some m ∧
      m.get [107] = some (some [2]) ∧ (replay m.log).get [107] = some (some [2]) := by
  refine ⟨_, rfl, rfl, ?_⟩
  refine (@replay_eq_get_of_inLogOrder _ 4096 (twoPuts 0 1) rfl (by decide) (by decide) ?_
    [107]).1 _ rfl
  rintro (_ | _ | c)
  · exact .inl rfl
  · exact .inl rfl
  · exact .inl rfl

/-- **Log order is not memory order**: of two concurrent puts of one key, the one that is logged
last is inserted first. `Manager.Get` then answers with the other one, and after a restart the
replay answers with the one that was overwritten. -/
theorem replay_ne_get :
    ∃ m, Machine.run Manager.step (new 4096) (twoPuts 1 0) = some m ∧
      Machine.Guarded Manager.step Acknowledged (new 4096) (twoPuts 1 0) ∧
      AllReturned m ∧ m.retired = 0 ∧
      m.get [107] = some (some [1]) ∧ (replay m.log).get [107] = some (some [2]) := by
  refine ⟨_, rfl, by decide, ?_, rfl, rfl, rfl⟩
  rintro (_ | _ | c)
  · exact .inl rfl
  · exact .inl rfl
  · exact .inl rfl

end Manager

end Stratum.Memtable
