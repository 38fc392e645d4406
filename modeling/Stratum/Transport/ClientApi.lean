import Stratum.Memtable.Replay
import Stratum.Mvcc.Txn

/-!
# Writes of a compute node

`ClientAPI.Put` and `ClientAPI.Delete` begin a transaction, add the key to its write set and commit
it; if that succeeds, they send the write to the storage node. The transactions of the node are
those of `Txns`, and the storage node applies the batches **in the order in which they arrive**.

The lock of the transaction manager is free again when the write is sent, and the batch that is
sent carries no timestamp. A write that is delayed is therefore applied over a write that was
committed later.

* `Api.latest_stored`: as long as no write arrives after a write of the same key with a larger
  commit timestamp, and none is the put of an empty value, the value of every key is, once all
  requests have returned, that of the request with the largest commit timestamp.
* `Api.older_write_stored`: two puts of one key, one after the other, of which the older arrives
  last.

The readers of the node (`ClientAPI.Get`) are transactions without a request: they begin and abort.
-/

namespace Stratum.Transport

open Mvcc Wal Memtable LastWrite

/-! ### What is sent -/

/-- A request: `ClientAPI.Put` or `ClientAPI.Delete`. -/
inductive ClientOp
  | put (key value : Bytes)
  | delete (key : Bytes)
deriving DecidableEq

/-- The key of a request. -/
def ClientOp.key : ClientOp → Bytes
  | .put key _ | .delete key => key

/-- `WriteBatchRequest`, as it is received. -/
structure WriteBatchRequest where
  puts : List (Bytes × Option Bytes)
  deletes : List Bytes
deriving DecidableEq

/-- A `bytes` field of a message: an empty one is not sent, and is received as nil. -/
def bytesField (b : Bytes) : Option Bytes := if b = [] then none else some b

/-- The message of `StorageClient.WriteBatch`. -/
def StorageClient.writeBatch (puts : List (Bytes × Bytes)) (deletes : List Bytes) :
    WriteBatchRequest :=
  ⟨puts.map fun p => (p.1, bytesField p.2), deletes⟩

/-- The batch of `StorageServer.WriteBatch`. -/
def StorageServer.batch (req : WriteBatchRequest) : Batch :=
  req.deletes.foldl Batch.delete (req.puts.foldl (fun b p => b.put p.1 p.2) ⟨[]⟩)

/-- The batch that a request has written to storage. -/
def ClientOp.batch : ClientOp → Batch
  | .put key value => StorageServer.batch (StorageClient.writeBatch [(key, value)] [])
  | .delete key => StorageServer.batch (StorageClient.writeBatch [] [key])

/-- What a request is to leave under its key: a value, or a tombstone. -/
def ClientOp.effect : ClientOp → Option Bytes
  | .put _ value => some value
  | .delete _ => none

/-- The value of a put is not empty. -/
def ClientOp.HasValue : ClientOp → Prop
  | .put _ value => value ≠ []
  | .delete _ => True

instance : DecidablePred ClientOp.HasValue
  | .put _ value => inferInstanceAs (Decidable (value ≠ []))
  | .delete _ => isTrue trivial

/-- A request writes its key and no other. An **empty value** is received as nil, which is stored
as a tombstone, so the put of one is left out. -/
theorem ClientOp.batchWrites_batch {op : ClientOp} (h : op.HasValue) :
    batchWrites op.batch = [(op.key, op.effect)] := by
  cases op with
  | put key value =>
    have hvalue : bytesField value = some value := if_neg h
    simp only [batch, StorageClient.writeBatch, List.map_cons, List.map_nil, hvalue]
    rfl
  | delete key => rfl

/-! ### Requests -/

/-- What a request returns. -/
inductive Result
  /-- its transaction has committed at `commitTS`, which is not part of the response -/
  | success (commitTS : UInt64)
  | aborted
  | failed
deriving DecidableEq

/-- Where a request is. -/
inductive RequestPc
  | idle
  /-- in `Begin` -/
  | called (op : ClientOp)
  /-- the key is in the write set -/
  | added (op : ClientOp)
  /-- `Commit` has returned, and the write is on its way to storage -/
  | committed (op : ClientOp) (commitTS : UInt64)
  /-- storage has applied the write, and the response is on its way back -/
  | applied (op : ClientOp) (commitTS : UInt64)
  | returned (op : ClientOp) (result : Result)
deriving DecidableEq

/-- A write that has arrived. Storage sees the batch only: not whose it is, nor its timestamp. -/
structure Arrival where
  id : ℕ
  op : ClientOp
  commitTS : UInt64
deriving DecidableEq

/-- A compute node: its transactions, of which number `i` is the one of request `i`, its requests,
and the writes that have arrived at storage. -/
structure Api where
  txns : Txns
  requests : ℕ → RequestPc
  storage : List Arrival

/-- The steps; `ts` is what the clock returns in it. -/
inductive ApiAct
  | call (i : ℕ) (op : ClientOp)
  | beginNow (i : ℕ) (ts : UInt64)
  | beginRegister (i : ℕ)
  | addWrite (i : ℕ)
  | commit (i : ℕ) (ts : UInt64)
  /-- storage receives the write and applies it -/
  | arrive (i : ℕ)
  /-- the write is lost, and the call fails -/
  | lose (i : ℕ)
  /-- the response comes back, or the call fails -/
  | respond (i : ℕ) (ok : Bool)
  /-- the end of a read -/
  | abort (i : ℕ)
deriving DecidableEq

namespace Api

/-- No request yet. -/
def init : Api := ⟨.init, fun _ => .idle, []⟩

/-- Request `i` is at `pc` now. -/
@[simps]
def setPc (s : Api) (i : ℕ) (pc : RequestPc) : Api :=
  { s with requests := Function.update s.requests i pc }

/-- A step of the transaction manager. -/
def txnStep (s : Api) (a : TxnAct) : Option Api := (s.txns.step a).map fun t => { s with txns := t }

/-- Where a request is after `Commit`. -/
def afterCommit (op : ClientOp) : TxnPc → RequestPc
  | .ended _ (some commitTS) => .committed op commitTS
  | _ => .returned op .aborted

/-- What a step does; `none` when it is not enabled. -/
def step (s : Api) : ApiAct → Option Api
  | .call i op =>
    if s.requests i = .idle ∧ s.txns.txns i = .idle then some (s.setPc i (.called op)) else none
  | .beginNow i ts => s.txnStep (.beginNow i ts)
  | .beginRegister i => s.txnStep (.beginRegister i)
  | .addWrite i =>
    match s.requests i with
    | .called op => (s.txnStep (.addWrite i op.key)).map fun t => t.setPc i (.added op)
    | _ => none
  | .commit i ts =>
    match s.requests i with
    | .added op =>
      (s.txnStep (.commit i ts)).map fun t => t.setPc i (afterCommit op (t.txns.txns i))
    | _ => none
  | .arrive i =>
    match s.requests i with
    | .committed op ts =>
      some { s.setPc i (.applied op ts) with storage := s.storage ++ [⟨i, op, ts⟩] }
    | _ => none
  | .lose i =>
    match s.requests i with
    | .committed op _ => some (s.setPc i (.returned op .failed))
    | _ => none
  | .respond i ok =>
    match s.requests i with
    | .applied op ts => some (s.setPc i (.returned op (if ok then .success ts else .failed)))
    | _ => none
  | .abort i => if s.requests i = .idle then s.txnStep (.abort i) else none

/-- The value stored for a key: that of the last batch that wrote it. -/
def stored (s : Api) (key : Bytes) : Option (Option Bytes) :=
  lastWrite key (s.storage.flatMap fun x => batchWrites x.op.batch)

/-! ### What a step can do -/

end Api

/-- The request has not committed. -/
def RequestPc.Pending : RequestPc → Prop
  | .idle | .called _ | .added _ => True
  | _ => False

/-- What a request has committed, unless it has failed. -/
def RequestPc.commit? : RequestPc → Option (ClientOp × UInt64)
  | .committed op ts | .applied op ts | .returned op (.success ts) => some (op, ts)
  | _ => none

/-- The write of the request has been applied. -/
def RequestPc.Arrived (op : ClientOp) (ts : UInt64) (pc : RequestPc) : Prop :=
  pc = .applied op ts ∨ pc = .returned op (.success ts) ∨ pc = .returned op .failed

theorem RequestPc.Pending.commit?_eq_none {pc : RequestPc} (h : pc.Pending) :
    pc.commit? = none := by
  cases pc <;> first | rfl | exact h.elim

theorem RequestPc.Pending.not_arrived {pc : RequestPc} (h : pc.Pending) {op : ClientOp}
    {ts : UInt64} : ¬ pc.Arrived op ts := by
  rintro (rfl | rfl | rfl) <;> exact h.elim

theorem RequestPc.not_arrived_committed {op op' : ClientOp} {ts ts' : UInt64} :
    ¬ (RequestPc.committed op ts).Arrived op' ts' := by
  rintro (h | h | h) <;> cases h

namespace Api

/-- The transitions of the system, as far as requests, storage and clock are concerned. -/
inductive Step (s : Api) : ApiAct → Api → Prop
  /-- a transaction moves -/
  | txn {a t} (h : s.txns.clock ⊆ t.clock) : Step s a { s with txns := t }
  /-- a request moves that does not commit -/
  | pending {a i t pc} (h : s.txns.clock ⊆ t.clock) (hi : (s.requests i).Pending)
      (hpc : pc.Pending ∨ ∃ op, pc = .returned op .aborted) :
      Step s a { s.setPc i pc with txns := t }
  | commit {i op ts t} (hi : s.requests i = .added op) (hts : s.txns.CanTick ts)
      (h : t.clock = ts :: s.txns.clock) :
      Step s (.commit i ts) { s.setPc i (.committed op ts) with txns := t }
  | arrive {i op ts} (hi : s.requests i = .committed op ts) :
      Step s (.arrive i)
        { s.setPc i (.applied op ts) with storage := s.storage ++ [⟨i, op, ts⟩] }
  | lose {i op ts} (hi : s.requests i = .committed op ts) :
      Step s (.lose i) (s.setPc i (.returned op .failed))
  | respond {i op ts} (ok : Bool) (hi : s.requests i = .applied op ts) :
      Step s (.respond i ok) (s.setPc i (.returned op (if ok then .success ts else .failed)))

variable {s s' : Api} {a : ApiAct}

/-- What a clock has returned, it has returned. -/
private theorem clock_subset {t t' : Txns} {b : TxnAct} (h : t.step b = some t') :
    t.clock ⊆ t'.clock := by
  cases Txns.step_cases h with
  | beginNow | commit | minActiveSnapshot => exact List.subset_cons_self _ _
  | _ => exact List.Subset.refl _

private theorem txnStep_eq_some {b : TxnAct} (h : s.txnStep b = some s') :
    ∃ t, s.txns.step b = some t ∧ s' = { s with txns := t } := by
  obtain ⟨t, ht, rfl⟩ := Option.map_eq_some_iff.1 h
  exact ⟨t, ht, rfl⟩

/-- **Inversion**: a step is one of the transitions. -/
theorem step_cases (h : s.step a = some s') : Step s a s' := by
  have htxn : ∀ {b}, s.txnStep b = some s' → Step s a s' := by
    intro b hb
    obtain ⟨t, ht, rfl⟩ := txnStep_eq_some hb
    exact .txn (clock_subset ht)
  cases a with
  | call i op =>
    rw [step] at h
    split at h
    · rename_i hidle
      cases h
      refine .pending (List.Subset.refl _) ?_ (.inl trivial)
      rw [hidle.1]
      trivial
    · cases h
  | beginNow | beginRegister => exact htxn h
  | addWrite i =>
    simp only [step] at h
    split at h
    · rename_i op hi
      obtain ⟨u, hu, rfl⟩ := Option.map_eq_some_iff.1 h
      obtain ⟨t, ht, rfl⟩ := txnStep_eq_some hu
      refine .pending (i := i) (clock_subset ht) ?_ (.inl trivial)
      rw [hi]
      trivial
    · cases h
  | commit i ts =>
    simp only [step] at h
    split at h
    · rename_i op hi
      obtain ⟨u, hu, rfl⟩ := Option.map_eq_some_iff.1 h
      obtain ⟨t, ht, rfl⟩ := txnStep_eq_some hu
      cases Txns.step_cases ht with
      | conflict htxn hc =>
        refine .pending (i := i) (clock_subset ht) ?_ (.inr ⟨op, ?_⟩)
        · rw [hi]
          trivial
        · simp [afterCommit]
      | @commit _ txn _ htxn hts hc =>
        have hpc : ∀ t : Txns, t.txns i = .ended txn (some ts) →
            afterCommit op (t.txns i) = .committed op ts := fun t ht => by rw [ht, afterCommit]
        rw [hpc _ (Function.update_self ..)]
        exact .commit hi hts rfl
    · cases h
  | arrive i =>
    simp only [step] at h
    split at h <;> cases h
    exact .arrive ‹_›
  | lose i =>
    simp only [step] at h
    split at h <;> cases h
    exact .lose ‹_›
  | respond i ok =>
    simp only [step] at h
    split at h <;> cases h
    exact .respond ok ‹_›
  | abort i =>
    simp only [step] at h
    split at h
    · exact htxn h
    · cases h

/-! ### The order of arrival -/

/-- A write that arrives is no put of an empty value, and no write of the same key with a larger
commit timestamp has arrived before. -/
def InCommitOrder (s : Api) : ApiAct → Prop
  | .arrive i => ∀ op ts, (s.requests i).commit? = some (op, ts) →
      op.HasValue ∧ ∀ x ∈ s.storage, x.op.key = op.key → ¬ ts < x.commitTS
  | _ => True

instance (s : Api) (a : ApiAct) : Decidable (s.InCommitOrder a) :=
  match a with
  | .arrive i =>
    match h : (s.requests i).commit? with
    | none => isTrue (by intro op ts hc; rw [h] at hc; cases hc)
    | some (op, ts) =>
      decidable_of_iff (op.HasValue ∧ ∀ x ∈ s.storage, x.op.key = op.key → ¬ ts < x.commitTS) (by
        simp only [InCommitOrder, h, Option.some.injEq, Prod.mk.injEq]
        constructor
        · rintro hall _ _ ⟨rfl, rfl⟩
          exact hall
        · exact fun hall => hall op ts ⟨rfl, rfl⟩)
  | .call .. | .beginNow .. | .beginRegister _ | .addWrite _ | .commit .. | .lose _ | .respond ..
  | .abort _ => isTrue trivial

/-- Every request that was called has committed and returned success, or has aborted. -/
def AllReturned (s : Api) : Prop :=
  ∀ i, s.requests i = .idle ∨
    ∃ op, s.requests i = .returned op .aborted ∨ ∃ ts, s.requests i = .returned op (.success ts)

/-- The value of every key is that of the committed request with the largest commit timestamp, and
a key that no committed request wrote has none. -/
def LatestStored (s : Api) : Prop :=
  ∀ key,
    (∀ i op ts, s.requests i = .returned op (.success ts) → op.key = key →
      (∀ j op' ts', s.requests j = .returned op' (.success ts') → op'.key = key → ts' ≤ ts) →
      s.stored key = some op.effect) ∧
    ((∀ i op ts, s.requests i = .returned op (.success ts) → op.key ≠ key) → s.stored key = none)

/-- What holds in every state of a run in which the writes of each key arrive in commit order. -/
structure OrderInv (s : Api) : Prop where
  /-- commit timestamps are from the clock -/
  drawn : ∀ i op ts, (s.requests i).commit? = some (op, ts) → ts ∈ s.txns.clock
  /-- no two requests have the same -/
  commit_inj : ∀ i j op op' ts, (s.requests i).commit? = some (op, ts) →
    (s.requests j).commit? = some (op', ts) → i = j
  storage_arrived : ∀ x ∈ s.storage, (s.requests x.id).Arrived x.op x.commitTS
  arrived_mem : ∀ i op ts,
    s.requests i = .applied op ts ∨ s.requests i = .returned op (.success ts) →
      ⟨i, op, ts⟩ ∈ s.storage
  sorted : s.storage.Pairwise fun x y => x.op.key = y.op.key → x.commitTS ≤ y.commitTS

theorem orderInv_init : OrderInv init where
  drawn i op ts h := by cases h
  commit_inj i j op op' ts h := by cases h
  storage_arrived x hx := by cases hx
  arrived_mem i op ts h := by rcases h with h | h <;> cases h
  sorted := .nil

private theorem OrderInv.of_moved (h : OrderInv s) {i : ℕ} {pc : RequestPc} {t : Txns}
    {storage : List Arrival} (hclock : s.txns.clock ⊆ t.clock)
    (hcommit : ∀ op ts, pc.commit? = some (op, ts) → (s.requests i).commit? = some (op, ts))
    (hstorage : ∀ x ∈ storage, (Function.update s.requests i pc x.id).Arrived x.op x.commitTS)
    (hmem : ∀ j op ts, Function.update s.requests i pc j = .applied op ts ∨
      Function.update s.requests i pc j = .returned op (.success ts) → ⟨j, op, ts⟩ ∈ storage)
    (hsorted : storage.Pairwise fun x y => x.op.key = y.op.key → x.commitTS ≤ y.commitTS) :
    OrderInv ⟨t, Function.update s.requests i pc, storage⟩ := by
  have hold : ∀ j op ts, (Function.update s.requests i pc j).commit? = some (op, ts) →
      (s.requests j).commit? = some (op, ts) := by
    intro j op ts hj
    by_cases hji : j = i
    · subst hji
      rw [Function.update_self] at hj
      exact hcommit op ts hj
    · rwa [Function.update_of_ne hji] at hj
  refine ⟨fun j op ts hj => hclock (h.drawn j op ts (hold j op ts hj)), ?_, hstorage, hmem, hsorted⟩
  intro j k op op' ts hj hk
  exact h.commit_inj j k op op' ts (hold j op ts hj) (hold k op' ts hk)

/-- A request moves that has not arrived, or has and stays so. -/
private theorem OrderInv.storage_update (h : OrderInv s) {i : ℕ} {pc : RequestPc}
    (hpc : ∀ op ts, (s.requests i).Arrived op ts → pc.Arrived op ts) :
    ∀ x ∈ s.storage, (Function.update s.requests i pc x.id).Arrived x.op x.commitTS := by
  intro x hx
  by_cases hxi : x.id = i
  · rw [hxi, Function.update_self]
    exact hpc _ _ (hxi ▸ h.storage_arrived x hx)
  · rw [Function.update_of_ne hxi]
    exact h.storage_arrived x hx

private theorem OrderInv.mem_update (h : OrderInv s) {i : ℕ} {pc : RequestPc}
    (hpc : ∀ op ts, pc = .applied op ts ∨ pc = .returned op (.success ts) →
      ⟨i, op, ts⟩ ∈ s.storage) :
    ∀ j op ts, Function.update s.requests i pc j = .applied op ts ∨
      Function.update s.requests i pc j = .returned op (.success ts) →
        ⟨j, op, ts⟩ ∈ s.storage := by
  intro j op ts hj
  by_cases hji : j = i
  · subst hji
    rw [Function.update_self] at hj
    exact hpc op ts hj
  · rw [Function.update_of_ne hji] at hj
    exact h.arrived_mem j op ts hj

/-- A request commits: its timestamp is above all that were drawn before. -/
private theorem OrderInv.commit (h : OrderInv s) {i : ℕ} {op : ClientOp} {ts : UInt64} {t : Txns}
    (hi : s.requests i = .added op) (hts : s.txns.CanTick ts)
    (hclock : t.clock = ts :: s.txns.clock) :
    OrderInv { s.setPc i (.committed op ts) with txns := t } := by
  have hnew : ∀ j op', (s.requests j).commit? ≠ some (op', ts) := fun j op' hj =>
    UInt64.lt_irrefl _ (hts ts (h.drawn j op' ts hj))
  have hpending : (s.requests i).Pending := by
    rw [hi]
    trivial
  refine ⟨?_, ?_, h.storage_update fun _ _ harr => absurd harr hpending.not_arrived,
    h.mem_update ?_, h.sorted⟩
  · intro j op' ts' hj
    rw [hclock]
    by_cases hji : j = i
    · subst hji
      rw [setPc_requests, Function.update_self] at hj
      cases hj
      exact List.mem_cons_self
    · rw [setPc_requests, Function.update_of_ne hji] at hj
      exact List.mem_cons_of_mem _ (h.drawn j op' ts' hj)
  · intro j k op₁ op₂ ts' hj hk
    rw [setPc_requests] at hj hk
    by_cases hji : j = i <;> by_cases hki : k = i
    · rw [hji, hki]
    · rw [hji, Function.update_self] at hj
      rw [Function.update_of_ne hki] at hk
      cases hj
      exact absurd hk (hnew k op₂)
    · rw [hki, Function.update_self] at hk
      rw [Function.update_of_ne hji] at hj
      cases hk
      exact absurd hj (hnew j op₁)
    · rw [Function.update_of_ne hji] at hj
      rw [Function.update_of_ne hki] at hk
      exact h.commit_inj j k op₁ op₂ ts' hj hk
  · rintro op' ts' (harr | harr) <;> cases harr

/-- A write arrives, and finds no later one of its key. -/
private theorem OrderInv.arrive (h : OrderInv s) {i : ℕ} {op : ClientOp} {ts : UInt64}
    (hi : s.requests i = .committed op ts)
    (hlast : ∀ x ∈ s.storage, x.op.key = op.key → x.commitTS ≤ ts) :
    OrderInv { s.setPc i (.applied op ts) with storage := s.storage ++ [⟨i, op, ts⟩] } := by
  refine h.of_moved (List.Subset.refl _) ?_ ?_ ?_ ?_
  · intro op' ts' hc
    rw [hi]
    exact hc
  · intro x hx
    rcases List.mem_append.1 hx with hx | hx
    · refine h.storage_update ?_ x hx
      intro op' ts' harr
      rw [hi] at harr
      exact absurd harr RequestPc.not_arrived_committed
    · rw [List.mem_singleton.1 hx, Function.update_self]
      exact .inl rfl
  · intro j op' ts' hj
    by_cases hji : j = i
    · subst hji
      rw [Function.update_self] at hj
      rcases hj with hj | hj <;> cases hj
      exact List.mem_append_right _ List.mem_cons_self
    · rw [Function.update_of_ne hji] at hj
      exact List.mem_append_left _ (h.arrived_mem j op' ts' hj)
  · refine List.pairwise_append.2 ⟨h.sorted, List.pairwise_singleton _ _, ?_⟩
    intro x hx y hy hkey
    rw [List.mem_singleton.1 hy] at hkey ⊢
    exact hlast x hx hkey

/-- The client is told that its write has succeeded, or that it has not. -/
private theorem OrderInv.respond (h : OrderInv s) {i : ℕ} {op : ClientOp} {ts : UInt64} (ok : Bool)
    (hi : s.requests i = .applied op ts) :
    OrderInv (s.setPc i (.returned op (if ok then .success ts else .failed))) := by
  refine h.of_moved (List.Subset.refl _) ?_ (h.storage_update ?_) (h.mem_update ?_) h.sorted
  · intro op' ts' hc
    rw [hi]
    cases ok <;> cases hc
    rfl
  · intro op' ts' harr
    rw [hi] at harr
    rcases harr with harr | harr | harr <;> cases harr
    cases ok
    · exact .inr (.inr rfl)
    · exact .inr (.inl rfl)
  · intro op' ts' harr
    rcases harr with harr | harr <;> cases ok <;> cases harr
    exact h.arrived_mem i op ts (.inl hi)

/-- **Step lemma.** -/
theorem OrderInv.step (h : OrderInv s) (hg : s.InCommitOrder a) (hs : s.step a = some s') :
    OrderInv s' := by
  cases step_cases hs with
  | txn hclock =>
    exact ⟨fun i op ts hi => hclock (h.drawn i op ts hi), h.commit_inj, h.storage_arrived,
      h.arrived_mem, h.sorted⟩
  | @pending a i t pc hclock hi hpc =>
    refine h.of_moved hclock ?_ (h.storage_update fun _ _ harr => absurd harr hi.not_arrived)
      (h.mem_update ?_) h.sorted
    · intro op ts hc
      rcases hpc with hpc | ⟨_, rfl⟩
      · rw [hpc.commit?_eq_none] at hc
        cases hc
      · cases hc
    · intro op ts harr
      rcases hpc with hpc | ⟨_, rfl⟩
      · rcases harr with rfl | rfl <;> exact hpc.elim
      · rcases harr with harr | harr <;> cases harr
  | commit hi hts hclock => exact h.commit hi hts hclock
  | @arrive i op ts hi =>
    refine h.arrive hi fun x hx hkey => UInt64.not_lt.1 ((hg op ts ?_).2 x hx hkey)
    rw [hi]
    rfl
  | @lose i op ts hi =>
    refine h.of_moved (List.Subset.refl _) nofun (h.storage_update ?_) (h.mem_update ?_) h.sorted
    · intro op' ts' harr
      rw [hi] at harr
      exact absurd harr RequestPc.not_arrived_committed
    · rintro op' ts' (harr | harr) <;> cases harr
  | respond ok hi => exact h.respond ok hi

/-! ### What is stored -/

/-- All writes that have arrived have a value to store. -/
private theorem hasValue_step (h : ∀ x ∈ s.storage, x.op.HasValue) (hg : s.InCommitOrder a)
    (hs : s.step a = some s') : ∀ x ∈ s'.storage, x.op.HasValue := by
  cases step_cases hs with
  | @arrive i op ts hi =>
    intro x hx
    rcases List.mem_append.1 hx with hx | hx
    · exact h x hx
    · rw [List.mem_singleton.1 hx]
      exact (hg op ts (by rw [hi]; rfl)).1
  | _ => exact h

/-- The last write of a key is the one with the largest timestamp, where timestamps are in order. -/
private theorem lastWrite_of_largest {l : List Arrival} {x : Arrival}
    (hsorted : l.Pairwise fun x y => x.op.key = y.op.key → x.commitTS ≤ y.commitTS) (hx : x ∈ l)
    (hmax : ∀ y ∈ l, y.op.key = x.op.key → y.commitTS ≤ x.commitTS)
    (hinj : ∀ y ∈ l, y.op.key = x.op.key → y.commitTS = x.commitTS → y = x)
    (hvalue : ∀ y ∈ l, y.op.HasValue) :
    lastWrite x.op.key (l.flatMap fun y => batchWrites y.op.batch) = some x.op.effect := by
  induction l using List.reverseRecOn with
  | nil => exact absurd hx List.not_mem_nil
  | append_singleton l y ih =>
    obtain ⟨hl, -, hy⟩ := List.pairwise_append.1 hsorted
    have hylast : y ∈ l ++ [y] := List.mem_append_right _ List.mem_cons_self
    rw [List.flatMap_append, List.flatMap_singleton, ClientOp.batchWrites_batch (hvalue y hylast),
      lastWrite_concat]
    split
    · rename_i hkey
      have hyx : y = x := by
        rcases List.mem_append.1 hx with hx | hx
        · have hle := hy x hx y List.mem_cons_self hkey.symm
          exact hinj y hylast hkey (UInt64.le_antisymm (hmax y hylast hkey) hle)
        · exact (List.mem_singleton.1 hx).symm
      rw [hyx]
    · rename_i hkey
      have hxl : x ∈ l := by
        rcases List.mem_append.1 hx with hx | hx
        · exact hx
        · rw [List.mem_singleton.1 hx] at hkey
          exact absurd rfl hkey
      exact ih hl hxl (fun z hz => hmax z (List.mem_append_left _ hz))
        (fun z hz => hinj z (List.mem_append_left _ hz))
        fun z hz => hvalue z (List.mem_append_left _ hz)

/-- Once all requests have returned, what has arrived is what has succeeded. -/
private theorem OrderInv.succeeded (h : OrderInv s) (hret : s.AllReturned) {x : Arrival}
    (hx : x ∈ s.storage) : s.requests x.id = .returned x.op (.success x.commitTS) := by
  rcases h.storage_arrived x hx with harr | harr | harr
  · rcases hret x.id with hidle | ⟨op, habort | ⟨ts, hts⟩⟩ <;> simp_all
  · exact harr
  · rcases hret x.id with hidle | ⟨op, habort | ⟨ts, hts⟩⟩ <;> simp_all

/-- **Storage order follows commit order** in every run in which no write is the put of an empty
value and none arrives after one of the same key with a larger commit timestamp. -/
theorem latest_stored {tr : List ApiAct} (hrun : Machine.run step init tr = some s)
    (hg : Machine.Guarded step InCommitOrder init tr) (hret : s.AllReturned) :
    s.LatestStored := by
  have h : OrderInv s :=
    Machine.run_guarded_invariant (fun _ _ _ h hg hs => h.step hg hs) orderInv_init hg hrun
  have hvalue : ∀ x ∈ s.storage, x.op.HasValue :=
    Machine.run_guarded_invariant (I := fun s => ∀ x ∈ s.storage, x.op.HasValue)
      (fun _ _ _ h hg hs => hasValue_step h hg hs) (by simp [init]) hg hrun
  intro key
  constructor
  · rintro i op ts hi rfl hmax
    have hmem : ⟨i, op, ts⟩ ∈ s.storage := h.arrived_mem i op ts (.inr hi)
    refine lastWrite_of_largest (x := ⟨i, op, ts⟩) h.sorted hmem ?_ ?_ hvalue
    · intro y hy hkey
      exact hmax y.id y.op y.commitTS (h.succeeded hret hy) hkey
    · intro y hy _ hts
      have hyret := h.succeeded hret hy
      obtain rfl : y.commitTS = ts := hts
      -- commit timestamps tell the requests apart
      have hid : y.id = i :=
        h.commit_inj y.id i y.op op y.commitTS (by rw [hyret]; rfl) (by rw [hi]; rfl)
      rw [hid, hi] at hyret
      cases hyret
      rw [← hid]
  · intro hnone
    rw [stored, lastWrite_eq_none_iff]
    intro p hp
    obtain ⟨x, hx, hpx⟩ := List.mem_flatMap.1 hp
    rw [ClientOp.batchWrites_batch (hvalue x hx), List.mem_singleton] at hpx
    rw [hpx]
    exact hnone x.id x.op x.commitTS (h.succeeded hret hx)

/-- Two puts of one key, of which the second begins when the first has committed. Then the writes
arrive, and then the responses. -/
def twoPuts (first second : ℕ) : List ApiAct :=
  [.call 0 (.put [1] [10]), .beginNow 0 1, .beginRegister 0, .addWrite 0, .commit 0 2,
    .call 1 (.put [1] [11]), .beginNow 1 3, .beginRegister 1, .addWrite 1, .commit 1 4,
    .arrive first, .arrive second, .respond 0 true, .respond 1 true]

/-- The writes arrive as they were committed. -/
theorem latest_stored_twoPuts :
    ∃ s, Machine.run step init (twoPuts 0 1) = some s ∧ s.AllReturned ∧ s.LatestStored ∧
      s.stored [1] = some (some [11]) := by
  obtain ⟨s, hs⟩ : ∃ s, Machine.run step init (twoPuts 0 1) = some s := ⟨_, rfl⟩
  have hret : s.AllReturned := by
    cases hs
    intro i
    rcases i with _ | _ | i
    · exact .inr ⟨_, .inr ⟨_, rfl⟩⟩
    · exact .inr ⟨_, .inr ⟨_, rfl⟩⟩
    · exact .inl rfl
  refine ⟨s, hs, hret, latest_stored hs (by decide) hret, ?_⟩
  cases hs
  decide

/-- **The older write is stored**, if it arrives last. -/
theorem older_write_stored :
    ∃ s, Machine.run step init (twoPuts 1 0) = some s ∧ s.AllReturned ∧ ¬ s.LatestStored := by
  refine ⟨_, rfl, ?_, ?_⟩
  · intro i
    rcases i with _ | _ | i
    · exact .inr ⟨_, .inr ⟨_, rfl⟩⟩
    · exact .inr ⟨_, .inr ⟨_, rfl⟩⟩
    · exact .inl rfl
  · intro h
    have := (h [1]).1 1 (.put [1] [11]) 4 rfl rfl ?_
    · exact absurd this (by decide)
    · intro j op ts hj _
      rcases j with _ | _ | j <;> cases hj <;> decide

end Api

end Stratum.Transport
