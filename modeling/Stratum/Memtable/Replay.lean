import Stratum.Memtable.LogOrder
import Stratum.Wal.Recovery

/-!
# A batch applied, and the same batch after the log

`WriteBatch`, once its record is in the log, and `ApplyRecoveredBatch` run the same loop over the
entries of a batch: write the entry to the active table, or make room and try again. Here one
client runs that loop on an arbitrary state of the manager, with the flush loop beside it.

* **`Applies.read_eq`**: whatever the sizes of the tables and however often the loop swaps them or
  waits, the keys of the batch then read as the batch says and all others as before.
* **`exists_applies`**: while the flush loop runs and a new table has room, the loop comes to its
  end.

So the live write and the replay of its record leave every key the same, unless the batch as it is
decoded says something else than the batch as it was encoded. It does for a key whose last entry
**puts an empty value**: that comes back as nil, and nil is a deletion (`read_replayed_iff`).
-/

namespace Stratum.Memtable

open Wal LastWrite

/-- The bindings a batch makes when it is applied. -/
def batchWrites (b : Batch) : List Entry := b.entries.map fun e => (e.key, e.effect)

namespace Manager

variable {m n n' : Manager} {c : ClientId} {b : Batch} {a : Act}

/-- What a key reads as: what the active table has for it, else the immutable one, else the newest
of those that were flushed. -/
def read (m : Manager) (k : Bytes) : Option (Option Bytes) := newest m.tables (m.active + 1) k

/-- The client has taken `m.mu` and is at the first entry of the batch. -/
def applying (m : Manager) (c : ClientId) (b : Batch) : Manager :=
  { m with mu := some c }.setPc c (.inserting (tagEntries m.log.length b))

/-- A step of the loop of client `c`, or of the flush loop. -/
def IsAlone (c : ClientId) : Act → Prop
  | .lock d | .insert d _ | .send d => d = c
  | a => a.isLoop = true

/-- The loop over the entries of the batch, run to its end, with the flush loop beside it. -/
structure Applies (m : Manager) (c : ClientId) (b : Batch) (tr : List Act) (n : Manager) :
    Prop where
  run : Machine.run step (m.applying c b) tr = some n
  alone : ∀ a ∈ tr, IsAlone c a
  done : n.pcs c = .inserting []

/-! ### What the loop leaves -/

/-- Some of the entries are written, the others are still to do. -/
def Progress (m : Manager) (c : ClientId) (xs : List Tagged) (n : Manager) : Prop :=
  ∃ done, xs = done ++ (n.pcs c).todo ∧
    ∀ k, n.read k = (lastWrite k (done.map fun x => (x.2.key, x.2.effect))).or (m.read k)

/-- A state with the same tables and the same entries to do. -/
private theorem Progress.of_same {xs : List Tagged} (h : Progress m c xs n)
    (htodo : (n'.pcs c).todo = (n.pcs c).todo) (hread : ∀ k, n'.read k = n.read k) :
    Progress m c xs n' := by
  obtain ⟨done, hdone, hk⟩ := h
  exact ⟨done, htodo ▸ hdone, fun k => (hread k).trans (hk k)⟩

private theorem Progress.write {xs todo : List Tagged} {x : Tagged} (h : Progress m c xs n)
    (hpc : n.pcs c = .inserting (x :: todo)) (htodo : (n'.pcs c).todo = todo)
    (hread : ∀ k, n'.read k = if x.2.key = k then some x.2.effect else n.read k) :
    Progress m c xs n' := by
  obtain ⟨done, hdone, hk⟩ := h
  rw [hpc] at hdone
  refine ⟨done ++ [x], by rw [htodo, List.append_assoc]; exact hdone, fun k => ?_⟩
  rw [hread, hk, List.map_append, List.map_singleton, lastWrite_concat]
  split <;> rfl

/-- **Step lemma**: a step of the loop, or of the flush loop beside it. -/
theorem Progress.step {xs : List Tagged} (h : Progress m c xs n) (ha : IsAlone c a)
    (hs : Step n a n') : Progress m c xs n' := by
  cases hs with
  | @lock d todo hpc hmu =>
    obtain rfl : d = c := ha
    refine h.of_same ?_ fun _ => rfl
    rcases hpc with hpc | hpc <;> simp [hpc, WritePc.todo]
  | @write d level x todo t hpc ht =>
    obtain rfl : d = c := ha
    exact h.write hpc (by simp [WritePc.todo]) fun k => newest_write ht
  | @writeSwap d level x todo t hpc ht himm =>
    obtain rfl : d = c := ha
    refine h.write hpc (by simp [WritePc.todo]) fun k => ?_
    exact newest_freezeAndSwap.trans (newest_write ht)
  | @wait d level x todo i hpc hfull himm =>
    obtain rfl : d = c := ha
    exact h.of_same (by simp [hpc, WritePc.todo]) fun _ => rfl
  | @swap d level x todo hpc hfull himm =>
    obtain rfl : d = c := ha
    exact h.of_same (by simp [hpc, WritePc.todo]) fun k => newest_freezeAndSwap
  | @send d todo hpc =>
    obtain rfl : d = c := ha
    exact h.of_same (by simp [hpc, WritePc.todo]) fun _ => rfl
  | recv | recvStop | nothing | readImmutable | flushOk => exact h.of_same rfl fun _ => rfl
  | clear =>
    refine h.of_same ?_ fun _ => rfl
    rw [wakeAll_pcs]
    split
    · rename_i hpc
      rw [hpc]
      rfl
    · rfl
  | call | submit | rejected | persisted | finish | ret | stop => cases ha

/-- **What applying a batch leaves**: the bindings of the batch, over what was there. -/
theorem Applies.read_eq {tr : List Act} (h : Applies m c b tr n) (k : Bytes) :
    n.read k = (lastWrite k (batchWrites b)).or (m.read k) := by
  have hstart : Progress m c (tagEntries m.log.length b) (m.applying c b) :=
    ⟨[], by simp [applying, WritePc.todo], fun _ => rfl⟩
  have halone : Machine.Guarded Manager.step (fun _ => IsAlone c) (m.applying c b) tr :=
    Machine.guarded_of_forall_mem fun a ha _ => h.alone a ha
  obtain ⟨done, hdone, hk⟩ := Machine.run_guarded_invariant (I := Progress m c _)
    (fun _ _ _ hp ha hs => hp.step ha (step_cases hs)) hstart halone h.run
  rw [h.done, WritePc.todo, List.append_nil] at hdone
  rw [hk, ← hdone, tagEntries, List.map_map]
  rfl

/-! ### The loop comes to its end -/

/-- The flush loop runs: it has not seen `stopCh`, and when it is idle and there is a table for it,
it was told so. -/
def FlushRuns (m : Manager) : Prop :=
  (m.flush = .idle ∧ (m.immutable ≠ none → m.flushCh = true)) ∨ m.flush = .received false ∨
    (∃ i, m.flush = .flushing false i) ∨ ∃ i, m.flush = .flushed false i

/-- The client is inside the loop, which can go on. -/
structure Ready (c : ClientId) (todo : List Tagged) (n : Manager) : Prop where
  pc : n.pcs c = .inserting todo
  mu : n.mu = some c
  flush : FlushRuns n
  size : 0 < n.maxSize

/-- Some steps of the client and the flush loop lead from one state to the other. -/
abbrev Reaches (c : ClientId) : Manager → Manager → Prop := Machine.Reaches step (IsAlone c)

private theorem reaches_step (hs : n.step a = some n') (ha : IsAlone c a) : Reaches c n n' :=
  .single hs ha

/-- The flush loop can clear the immutable table while the client waits. -/
private def CanClear (c : ClientId) (todo : List Tagged) (n : Manager) : Prop :=
  ∃ n', Reaches c n n' ∧ n'.pcs c = .woken todo ∧ n'.mu = none ∧ n'.immutable = none ∧
    n'.flush = .idle ∧ n'.maxSize = n.maxSize

private theorem CanClear.of_step {todo : List Tagged} (hs : n.step a = some n') (ha : IsAlone c a)
    (hsize : n'.maxSize = n.maxSize) (h : CanClear c todo n') : CanClear c todo n := by
  obtain ⟨n'', hreach, hpc, hmu, himm, hidle, hsize'⟩ := h
  exact ⟨n'', (reaches_step hs ha).trans hreach, hpc, hmu, himm, hidle, hsize'.trans hsize⟩

/-- Between waiting and waking. -/
private theorem canClear {todo : List Tagged} {i : ℕ} (hpc : n.pcs c = .waiting todo)
    (hmu : n.mu = none) (hflush : FlushRuns n) (himm : n.immutable = some i) :
    CanClear c todo n := by
  -- from the last position of `doFlush` to the first
  have hflushed : ∀ n : Manager, ∀ i, n.flush = .flushed false i → n.pcs c = .waiting todo →
      n.mu = none → CanClear c todo n := by
    intro n i hf hpc hmu
    have hs : n.step .clear = some { n.wakeAll with immutable := none, flush := .idle } := by
      simp [Manager.step, hf, hmu, afterFlush]
    exact ⟨_, .single hs rfl, by simp [hpc], hmu, rfl, rfl, rfl⟩
  have hflushing : ∀ n : Manager, ∀ i, n.flush = .flushing false i → n.pcs c = .waiting todo →
      n.mu = none → CanClear c todo n := by
    intro n i hf hpc hmu
    have hs : n.step .flushOk = some { n with flush := .flushed false i } := by
      simp [Manager.step, hf]
    exact .of_step hs rfl rfl (hflushed _ i rfl hpc hmu)
  have hreceived : ∀ n : Manager, n.flush = .received false → n.immutable = some i →
      n.pcs c = .waiting todo → n.mu = none → CanClear c todo n := by
    intro n hf himm hpc hmu
    have hs : n.step .readImmutable = some { n with flush := .flushing false i } := by
      simp [Manager.step, hf, hmu, himm]
    exact .of_step hs rfl rfl (hflushing _ i rfl hpc hmu)
  rcases hflush with ⟨hf, hch⟩ | hf | ⟨j, hf⟩ | ⟨j, hf⟩
  · have hs : n.step .recv = some { n with flushCh := false, flush := .received false } := by
      rw [Manager.step, if_pos ⟨hf, hch (by simp [himm])⟩]
    exact .of_step hs rfl rfl (hreceived _ rfl himm hpc hmu)
  · exact hreceived n hf himm hpc hmu
  · exact hflushing n j hf hpc hmu
  · exact hflushed n j hf hpc hmu

private theorem FlushRuns.swapped (h : FlushRuns n) (hflush : n'.flush = n.flush)
    (hch : n'.flushCh = true) : FlushRuns n' := by
  rw [FlushRuns, hflush]
  exact h.imp (fun hidle => ⟨hidle.1, fun _ => hch⟩) id

/-- A full table is swapped when there is none to be flushed. -/
private theorem Ready.swap {todo : List Tagged} {x : Tagged} (h : Ready c (x :: todo) n)
    (hfull : (n.tables n.active).isFull = true) (himm : n.immutable = none) :
    ∃ n', Reaches c n n' ∧ Ready c (x :: todo) n' ∧ (n'.tables n'.active).isFull = false := by
  have hs : n.step (.insert c 1) = some (n.freezeAndSwap.setPc c (.sending (x :: todo))) := by
    simp [Manager.step, insert, h.pc, MemTable.put, hfull, himm]
  have hs' : (n.freezeAndSwap.setPc c (.sending (x :: todo))).step (.send c) =
      some ({ n.freezeAndSwap.setPc c (.sending (x :: todo)) with flushCh := true }.setPc c
        (.inserting (x :: todo))) := by
    simp [Manager.step]
  refine ⟨_, (reaches_step hs rfl).trans (reaches_step hs' rfl), ⟨by simp, h.mu, ?_, h.size⟩, ?_⟩
  · exact h.flush.swapped rfl rfl
  · have hsize := h.size
    simp [MemTable.isFull, MemTable.new, MemTable.shouldFlush, SkipList.empty, hsize]

/-- The loop makes room, waiting for the flush loop if it has to. -/
private theorem Ready.makeRoom {todo : List Tagged} {x : Tagged} (h : Ready c (x :: todo) n) :
    ∃ n', Reaches c n n' ∧ Ready c (x :: todo) n' ∧ (n'.tables n'.active).isFull = false := by
  rcases Bool.eq_false_or_eq_true (n.tables n.active).isFull with hfull | hroom
  · rcases himm : n.immutable with _ | i
    · exact h.swap hfull himm
    · have hs : n.step (.insert c 1) =
          some ({ n with mu := none }.setPc c (.waiting (x :: todo))) := by
        simp [Manager.step, insert, h.pc, MemTable.put, hfull, himm]
      obtain ⟨n₁, hreach, hpc, hmu, himm₁, hidle, hsize⟩ :=
        @canClear ({ n with mu := none }.setPc c (.waiting (x :: todo))) c (x :: todo) i (by simp)
          rfl h.flush himm
      have hs₁ : n₁.step (.lock c) =
          some ({ n₁ with mu := some c }.setPc c (.inserting (x :: todo))) := by
        simp [Manager.step, hpc, hmu]
      have hreach₁ := ((reaches_step hs rfl).trans hreach).trans (reaches_step hs₁ rfl)
      have hready : Ready c (x :: todo)
          ({ n₁ with mu := some c }.setPc c (.inserting (x :: todo))) :=
        ⟨by simp, rfl, .inl ⟨hidle, fun hne => absurd himm₁ hne⟩, hsize ▸ h.size⟩
      rcases Bool.eq_false_or_eq_true (n₁.tables n₁.active).isFull with hfull₁ | hroom₁
      · obtain ⟨n', hreach', hready', hroom'⟩ := hready.swap hfull₁ himm₁
        exact ⟨n', hreach₁.trans hreach', hready', hroom'⟩
      · exact ⟨_, hreach₁, hready, hroom₁⟩
  · exact ⟨n, .refl _ _ n, h, hroom⟩

private theorem Ready.write {todo : List Tagged} {x : Tagged} (h : Ready c (x :: todo) n) :
    ∃ n', Reaches c n n' ∧ Ready c todo n' := by
  obtain ⟨n₁, hreach, hready, hroom⟩ := h.makeRoom
  obtain ⟨t, ht⟩ : ∃ t, (n₁.tables n₁.active).put x.2.key x.2.effect 1 = .ok t :=
    ⟨_, by rw [MemTable.put, if_neg (by simp [hroom])]⟩
  by_cases hswap : (t.shouldFlush && n₁.immutable.isNone) = true
  · have hs : n₁.step (.insert c 1) =
        some ((n₁.write x t).freezeAndSwap.setPc c (.sending todo)) := by
      simp only [Manager.step, insert, hready.pc, ht, hswap, if_true]
    have hs' : ((n₁.write x t).freezeAndSwap.setPc c (.sending todo)).step (.send c) =
        some ({ (n₁.write x t).freezeAndSwap.setPc c (.sending todo) with flushCh := true }.setPc c
          (.inserting todo)) := by
      simp [Manager.step]
    refine ⟨_, (hreach.trans (reaches_step hs rfl)).trans (reaches_step hs' rfl),
      ⟨by simp, hready.mu, hready.flush.swapped rfl rfl, hready.size⟩⟩
  · have hs : n₁.step (.insert c 1) = some ((n₁.write x t).setPc c (.inserting todo)) := by
      simp only [Manager.step, insert, hready.pc, ht, if_neg hswap]
    exact ⟨_, hreach.trans (reaches_step hs rfl), ⟨by simp, hready.mu, hready.flush, hready.size⟩⟩

/-- **The loop comes to its end**, when the flush loop runs and a new table has room. -/
theorem exists_applies (hflush : FlushRuns m) (hsize : 0 < m.maxSize) (c : ClientId) (b : Batch) :
    ∃ tr n, Applies m c b tr n := by
  have hall : ∀ (todo : List Tagged) (n : Manager), Ready c todo n →
      ∃ n', Reaches c n n' ∧ Ready c [] n' := by
    intro todo
    induction todo with
    | nil => exact fun n h => ⟨n, .refl _ _ n, h⟩
    | cons x todo ih =>
      intro n h
      obtain ⟨n₁, hreach, hready⟩ := h.write
      obtain ⟨n', hreach', hready'⟩ := ih n₁ hready
      exact ⟨n', hreach.trans hreach', hready'⟩
  obtain ⟨n, ⟨tr, hrun, halone⟩, hready⟩ := hall (tagEntries m.log.length b) (m.applying c b)
    ⟨by simp [applying], rfl, hflush, hsize⟩
  exact ⟨tr, n, hrun, halone, hready.pc⟩

/-! ### Replay -/

/-- The last binding of a key after the round trip: an empty value has become nil. -/
theorem lastWrite_batchWrites_recovered (b : Batch) (k : Bytes) :
    lastWrite k (batchWrites b.recovered) =
      (lastWrite k (batchWrites b)).map fun v => if v = some [] then none else v := by
  have heffect : ∀ e : BatchEntry,
      e.recovered.effect = if e.effect = some [] then none else e.effect := by
    intro e
    by_cases hempty : e.effect = some []
    · have hop : e.op = opPut ∧ e.value = some [] := by
        simpa [BatchEntry.effect] using hempty
      simp [BatchEntry.effect, BatchEntry.recovered, hop.1, hop.2]
    · rw [if_neg hempty, BatchEntry.effect_recovered hempty]
  simp only [batchWrites, Batch.recovered, List.map_map, lastWrite, List.filter_map,
    List.getLast?_map, Option.map_map]
  congr 1
  exact funext fun e => heffect e

/-- **Replay means what the write meant**, exactly when the last entry for each key does not put an
empty value. A batch decodes to some batch. When both are applied to one state of the manager, by
whatever steps, all keys read the same just in that case; and both can be applied, when the flush
loop runs and a new table has room. -/
theorem read_replayed_iff (hfits : b.Fits) :
    ∃ b', decodeBatch b.encode = .ok b' ∧
      (∀ tr tr' n n', Applies m c b tr n → Applies m c b' tr' n' →
        ((∀ k, n'.read k = n.read k) ↔ ∀ k, lastWrite k (batchWrites b) ≠ some (some []))) ∧
      (FlushRuns m → 0 < m.maxSize →
        (∃ tr n, Applies m c b tr n) ∧ ∃ tr n, Applies m c b' tr n) := by
  refine ⟨b.recovered, decodeBatch_encode hfits.1 hfits.2, ?_, fun hflush hsize =>
    ⟨exists_applies hflush hsize c b, exists_applies hflush hsize c b.recovered⟩⟩
  intro tr tr' n n' h h'
  refine forall_congr' fun k => ?_
  rw [h.read_eq, h'.read_eq, lastWrite_batchWrites_recovered]
  rcases lastWrite k (batchWrites b) with _ | v
  · simp
  · by_cases hv : v = some []
    · simp [hv]
    · simp [hv]

/-- A put of one byte, applied and replayed on an empty manager. -/
theorem read_replayed_put :
    (⟨[⟨opPut, [1], some [2]⟩]⟩ : Batch).Fits ∧
      ∃ n n', Applies (new 4096) 0 ⟨[⟨opPut, [1], some [2]⟩]⟩ [.insert 0 1] n ∧
        Applies (new 4096) 0 ⟨[⟨opPut, [1], some [2]⟩]⟩ [.insert 0 2] n' ∧
        ∀ k, n'.read k = n.read k := by
  have hfits : (⟨[⟨opPut, [1], some [2]⟩]⟩ : Batch).Fits := by simp [Batch.Fits, BatchEntry.Fits]
  obtain ⟨b', hb', hiff, -⟩ := @read_replayed_iff (new 4096) 0 _ hfits
  obtain rfl : b' = ⟨[⟨opPut, [1], some [2]⟩]⟩ := Except.ok.inj (hb'.symm.trans rfl)
  refine ⟨hfits, _, _, ⟨rfl, by simp [IsAlone], rfl⟩, ⟨rfl, by simp [IsAlone], rfl⟩, ?_⟩
  refine (hiff [.insert 0 1] [.insert 0 2] _ _ ⟨rfl, by simp [IsAlone], rfl⟩
    ⟨rfl, by simp [IsAlone], rfl⟩).2 fun k => ?_
  by_cases hk : [1] = k
  · subst hk
    decide
  · simp [batchWrites, lastWrite, hk]

/-- **An empty value is lost.** It is put on an empty manager and is there; replayed from its
record, the same put is a deletion. -/
theorem read_replayed_empty :
    ∃ b' n n', decodeBatch (Batch.encode ⟨[⟨opPut, [1], some []⟩]⟩) = .ok b' ∧
      Applies (new 4096) 0 ⟨[⟨opPut, [1], some []⟩]⟩ [.insert 0 1] n ∧
      Applies (new 4096) 0 b' [.insert 0 1] n' ∧
      n.get [1] = some (some []) ∧ n'.get [1] = some none ∧ n'.read [1] ≠ n.read [1] := by
  refine ⟨_, _, _, rfl, ⟨rfl, by simp [IsAlone], rfl⟩, ⟨rfl, by simp [IsAlone], rfl⟩, rfl, rfl, ?_⟩
  decide

end Manager

end Stratum.Memtable
