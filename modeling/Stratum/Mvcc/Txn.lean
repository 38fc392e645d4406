import Mathlib.Data.Finset.Insert
import Mathlib.Data.List.Pairwise
import Stratum.Lib.Run
import Stratum.Mvcc.Key

/-!
# Transactions

`TxnManager` keeps the snapshot timestamps of the active transactions and, for each key, the
timestamp of the last commit that wrote it. `Txns` is the manager together with the transactions
of its users and its clock. The clock is only assumed to return **strictly increasing** values:
a step that calls `Now` says what it returns.

`Begin` is two steps, as its two locks make it: the timestamp is drawn from the clock, and
registered later. `Commit`, `Abort` and `MinActiveSnapshot` are one step each; they hold the lock
of the manager, and where the clock is read in between is where the step takes place. A
transaction commits at most once; it may be aborted at any time, before or after.

* `Txns.first_writer_wins`: `Commit` fails exactly for a transaction that meets a later commit, so
  that of two committed transactions with a common key one had committed before the snapshot of
  the other.
* `Txns.horizon_safe_iff`: what `MinActiveSnapshot` returns stays below all snapshots of all
  futures exactly when every `Begin` that is caught between its two steps has drawn a timestamp at
  or above some active snapshot.
-/

namespace Stratum.Mvcc

/-- `Txn`: its snapshot and the keys it has written. -/
structure Txn where
  snapshotTS : UInt64
  writeSet : Finset Bytes
deriving DecidableEq

/-- `Txn.AddWrite`. -/
def Txn.addWrite (txn : Txn) (userKey : Bytes) : Txn :=
  { txn with writeSet := insert userKey txn.writeSet }

/-- `TxnManager`; the clock is outside. -/
structure TxnManager where
  activeTxns : List UInt64
  latestCommits : Bytes → Option UInt64

namespace TxnManager

/-- `NewTxnManager`. -/
def newTxnManager : TxnManager := ⟨[], fun _ => none⟩

/-- The registration in `Begin`. -/
def register (tm : TxnManager) (ts : UInt64) : TxnManager :=
  { tm with activeTxns := ts :: tm.activeTxns }

/-- A snapshot is no longer active. -/
def unregister (tm : TxnManager) (ts : UInt64) : TxnManager :=
  { tm with activeTxns := tm.activeTxns.filter (· ≠ ts) }

/-- `MinActiveSnapshot`, when the clock returns `now`. -/
def minActiveSnapshot (tm : TxnManager) (now : UInt64) : UInt64 :=
  tm.activeTxns.foldl (fun minTS ts => if ts < minTS then ts else minTS) now

/-- Someone committed a write to a key of the transaction after its snapshot. -/
def Conflict (tm : TxnManager) (txn : Txn) : Prop :=
  ∃ key ∈ txn.writeSet, ∃ commitTS ∈ tm.latestCommits key, commitTS > txn.snapshotTS

instance (tm : TxnManager) (txn : Txn) : Decidable (tm.Conflict txn) :=
  haveI (key : Bytes) : Decidable (∃ commitTS ∈ tm.latestCommits key, commitTS > txn.snapshotTS) :=
    match tm.latestCommits key with
    | none => isFalse (by simp)
    | some commitTS => decidable_of_iff (commitTS > txn.snapshotTS) (by simp)
  inferInstanceAs (Decidable (∃ key ∈ txn.writeSet, _))

/-- `Commit`, when the clock returns `now`; it is not asked in case of a conflict. -/
def commit (tm : TxnManager) (txn : Txn) (now : UInt64) : TxnManager × Option UInt64 :=
  if tm.Conflict txn then (tm.unregister txn.snapshotTS, none)
  else
    ({ tm.unregister txn.snapshotTS with
        latestCommits := fun key =>
          if key ∈ txn.writeSet then some now else tm.latestCommits key },
      some now)

/-- `Abort`. -/
def abort (tm : TxnManager) (txn : Txn) : TxnManager := tm.unregister txn.snapshotTS

theorem mem_unregister {tm : TxnManager} {ts t : UInt64} :
    t ∈ (tm.unregister ts).activeTxns ↔ t ∈ tm.activeTxns ∧ t ≠ ts := by
  simp [unregister]

private theorem foldl_min_le_iff (l : List UInt64) (m ts : UInt64) :
    l.foldl (fun minTS ts => if ts < minTS then ts else minTS) m ≤ ts ↔
      m ≤ ts ∨ ∃ a ∈ l, a ≤ ts := by
  induction l generalizing m with
  | nil => simp
  | cons t l ih =>
    have hmin : (if t < m then t else m) ≤ ts ↔ m ≤ ts ∨ t ≤ ts := by
      simp only [UInt64.lt_iff_toNat_lt, UInt64.le_iff_toNat_le]
      split <;> omega
    rw [List.foldl_cons, ih, hmin, List.exists_mem_cons_iff, or_assoc]

/-- `MinActiveSnapshot` is the least of what the clock returns and the active snapshots. -/
theorem minActiveSnapshot_le_iff (tm : TxnManager) (now ts : UInt64) :
    tm.minActiveSnapshot now ≤ ts ↔ now ≤ ts ∨ ∃ a ∈ tm.activeTxns, a ≤ ts :=
  foldl_min_le_iff _ _ _

end TxnManager

/-! ### Runs of transactions -/

/-- Where a transaction is in its life. -/
inductive TxnPc
  | idle
  /-- `Begin` has drawn its timestamp and not registered it -/
  | drawn (ts : UInt64)
  | begun (txn : Txn)
  /-- `Commit` was called, with this result -/
  | ended (txn : Txn) (result : Option UInt64)
deriving DecidableEq

/-- The record of a successful `Commit`. -/
structure Committed where
  id : ℕ
  txn : Txn
  commitTS : UInt64
deriving DecidableEq

/-- The manager, its clock with all values it has returned, the transactions, and what was
committed, the earliest first. -/
structure Txns where
  manager : TxnManager
  clock : List UInt64
  txns : ℕ → TxnPc
  commits : List Committed

/-- The steps; `ts` is what the clock returns in it. -/
inductive TxnAct
  | beginNow (i : ℕ) (ts : UInt64)
  | beginRegister (i : ℕ)
  | addWrite (i : ℕ) (userKey : Bytes)
  | commit (i : ℕ) (ts : UInt64)
  | abort (i : ℕ)
  | minActiveSnapshot (ts : UInt64)
deriving DecidableEq

namespace Txns

/-- No transaction yet. -/
def init : Txns := ⟨.newTxnManager, [], fun _ => .idle, []⟩

/-- The transaction `i` is at `pc` now. -/
@[simps]
def setPc (s : Txns) (i : ℕ) (pc : TxnPc) : Txns :=
  { s with txns := Function.update s.txns i pc }

/-- The clock returns `ts`. -/
@[simps]
def tick (s : Txns) (ts : UInt64) : Txns := { s with clock := ts :: s.clock }

/-- The clock may return `ts`: it is above all that it has returned. -/
def CanTick (s : Txns) (ts : UInt64) : Prop := ∀ t ∈ s.clock, t < ts

instance (s : Txns) (ts : UInt64) : Decidable (s.CanTick ts) :=
  List.decidableBAll (· < ts) s.clock

/-- `Commit` of the transaction `i`. -/
def commitStep (s : Txns) (i : ℕ) (txn : Txn) (ts : UInt64) : Txns :=
  match s.manager.commit txn ts with
  | (tm, none) => { s.setPc i (.ended txn none) with manager := tm }
  | (tm, some commitTS) =>
    { (s.tick ts).setPc i (.ended txn (some commitTS)) with
      manager := tm
      commits := s.commits ++ [⟨i, txn, commitTS⟩] }

/-- What a step does; `none` when it is not enabled. -/
def step (s : Txns) : TxnAct → Option Txns
  | .beginNow i ts =>
    match s.txns i with
    | .idle => if s.CanTick ts then some ((s.tick ts).setPc i (.drawn ts)) else none
    | _ => none
  | .beginRegister i =>
    match s.txns i with
    | .drawn ts =>
      some { s.setPc i (.begun ⟨ts, ∅⟩) with manager := s.manager.register ts }
    | _ => none
  | .addWrite i userKey =>
    match s.txns i with
    | .begun txn => some (s.setPc i (.begun (txn.addWrite userKey)))
    | .ended txn result => some (s.setPc i (.ended (txn.addWrite userKey) result))
    | _ => none
  | .commit i ts =>
    match s.txns i with
    | .begun txn =>
      if s.manager.Conflict txn ∨ s.CanTick ts then some (s.commitStep i txn ts) else none
    | _ => none
  | .abort i =>
    match s.txns i with
    | .begun txn | .ended txn _ => some { s with manager := s.manager.abort txn }
    | _ => none
  | .minActiveSnapshot ts => if s.CanTick ts then some (s.tick ts) else none

/-- The transitions of the system. -/
inductive Step (s : Txns) : TxnAct → Txns → Prop
  | beginNow {i ts} (h : s.txns i = .idle) (hts : s.CanTick ts) :
      Step s (.beginNow i ts) ((s.tick ts).setPc i (.drawn ts))
  | beginRegister {i ts} (h : s.txns i = .drawn ts) :
      Step s (.beginRegister i)
        { s.setPc i (.begun ⟨ts, ∅⟩) with manager := s.manager.register ts }
  | addWrite {i txn userKey} (h : s.txns i = .begun txn) :
      Step s (.addWrite i userKey) (s.setPc i (.begun (txn.addWrite userKey)))
  | addWriteEnded {i txn result userKey} (h : s.txns i = .ended txn result) :
      Step s (.addWrite i userKey) (s.setPc i (.ended (txn.addWrite userKey) result))
  | conflict {i txn ts} (h : s.txns i = .begun txn) (hc : s.manager.Conflict txn) :
      Step s (.commit i ts) { s.setPc i (.ended txn none) with
        manager := s.manager.unregister txn.snapshotTS }
  | commit {i txn ts} (h : s.txns i = .begun txn) (hts : s.CanTick ts)
      (hc : ¬ s.manager.Conflict txn) :
      Step s (.commit i ts) { (s.tick ts).setPc i (.ended txn (some ts)) with
        manager := { s.manager.unregister txn.snapshotTS with
          latestCommits := fun key =>
            if key ∈ txn.writeSet then some ts else s.manager.latestCommits key }
        commits := s.commits ++ [⟨i, txn, ts⟩] }
  | abort {i txn} (h : s.txns i = .begun txn ∨ ∃ result, s.txns i = .ended txn result) :
      Step s (.abort i) { s with manager := s.manager.unregister txn.snapshotTS }
  | minActiveSnapshot {ts} (hts : s.CanTick ts) : Step s (.minActiveSnapshot ts) (s.tick ts)

variable {s s' : Txns} {a : TxnAct}

/-- **Inversion**: a step is one of the transitions. -/
theorem step_cases (h : s.step a = some s') : Step s a s' := by
  cases a with
  | beginNow i ts =>
    simp only [step] at h
    split at h
    · split at h <;> cases h
      exact .beginNow ‹_› ‹_›
    · cases h
  | beginRegister i =>
    simp only [step] at h
    split at h <;> cases h
    exact .beginRegister ‹_›
  | addWrite i userKey =>
    simp only [step] at h
    split at h <;> cases h
    · exact .addWrite ‹_›
    · exact .addWriteEnded ‹_›
  | commit i ts =>
    simp only [step] at h
    split at h
    · rename_i txn hi
      split at h
      · rename_i hts
        cases h
        by_cases hc : s.manager.Conflict txn
        · simpa only [commitStep, TxnManager.commit, if_pos hc] using .conflict hi hc
        · simpa only [commitStep, TxnManager.commit, if_neg hc]
            using .commit hi (hts.resolve_left hc) hc
      · cases h
    · cases h
  | abort i =>
    simp only [step] at h
    split at h <;> cases h
    · exact .abort (.inl ‹_›)
    · exact .abort (.inr ⟨_, ‹_›⟩)
  | minActiveSnapshot ts =>
    simp only [step] at h
    split at h <;> cases h
    exact .minActiveSnapshot ‹_›

/-! ### What stays above a horizon -/

/-- Nothing that is active or may become active is below `m`. -/
structure Above (m : UInt64) (s : Txns) : Prop where
  active : ∀ ts ∈ s.manager.activeTxns, m ≤ ts
  drawn : ∀ i ts, s.txns i = .drawn ts → m ≤ ts
  clock : ∃ ts ∈ s.clock, m ≤ ts

variable {m : UInt64}

/-- A transaction moves on, and is not waiting for its registration. -/
private theorem Above.drawn_setPc (h : s.Above m) {i : ℕ} {pc : TxnPc}
    (hpc : ∀ ts, pc = .drawn ts → m ≤ ts) :
    ∀ j ts, (s.setPc i pc).txns j = .drawn ts → m ≤ ts := by
  intro j ts hj
  rw [setPc_txns] at hj
  by_cases hji : j = i
  · rw [hji, Function.update_self] at hj
    exact hpc ts hj
  · rw [Function.update_of_ne hji] at hj
    exact h.drawn j ts hj

private theorem Above.tick_clock (h : s.Above m) (now : UInt64) :
    ∃ ts ∈ now :: s.clock, m ≤ ts := by
  obtain ⟨t, ht, hle⟩ := h.clock
  exact ⟨t, List.mem_cons_of_mem _ ht, hle⟩

private theorem Above.active_unregister (h : s.Above m) (ts : UInt64) :
    ∀ t ∈ (s.manager.unregister ts).activeTxns, m ≤ t :=
  fun t ht => h.active t (TxnManager.mem_unregister.mp ht).1

theorem Above.step (h : s.Above m) (hs : s.step a = some s') : s'.Above m := by
  cases step_cases hs with
  | @beginNow i ts hi hts =>
    obtain ⟨t, ht, hle⟩ := h.clock
    -- what is drawn now is above all that was drawn
    have hm : m ≤ ts := UInt64.le_trans hle (UInt64.le_of_lt (hts t ht))
    refine ⟨h.active, h.drawn_setPc fun ts' hts' => ?_, h.tick_clock ts⟩
    cases hts'
    exact hm
  | @beginRegister i ts hi =>
    refine ⟨fun t ht => ?_, h.drawn_setPc nofun, h.clock⟩
    rcases List.mem_cons.mp ht with rfl | ht
    · exact h.drawn i t hi
    · exact h.active t ht
  | addWrite hi | addWriteEnded hi => exact ⟨h.active, h.drawn_setPc nofun, h.clock⟩
  | conflict hi hc => exact ⟨h.active_unregister _, h.drawn_setPc nofun, h.clock⟩
  | commit hi hts hc =>
    exact ⟨h.active_unregister _, h.drawn_setPc nofun, h.tick_clock _⟩
  | abort hi => exact ⟨h.active_unregister _, h.drawn, h.clock⟩
  | minActiveSnapshot hts => exact ⟨h.active, h.drawn, h.tick_clock _⟩

/-! ### Conflicts -/

/-- The two wrote a common key. -/
def Meets (v w : Finset Bytes) : Prop := ∃ key ∈ v, key ∈ w

instance (v w : Finset Bytes) : Decidable (Meets v w) :=
  inferInstanceAs (Decidable (∃ key ∈ v, key ∈ w))

theorem Meets.symm {v w : Finset Bytes} : Meets v w → Meets w v :=
  fun ⟨key, hv, hw⟩ => ⟨key, hw, hv⟩

/-- If the two wrote a common key, one committed before the snapshot of the other. -/
def Apart (c d : Committed) : Prop :=
  Meets c.txn.writeSet d.txn.writeSet →
    c.commitTS < d.txn.snapshotTS ∨ d.commitTS < c.txn.snapshotTS

instance : Std.Symm Apart := ⟨fun _ _ hcd hmeet => (hcd hmeet.symm).symm⟩

/-- The snapshot of a transaction that has drawn one. -/
def snapshotOf : TxnPc → Option UInt64
  | .idle => none
  | .drawn ts => some ts
  | .begun txn | .ended txn _ => some txn.snapshotTS

/-- `latestCommits` is a summary of the commits that is **enough**: it holds of each key the commit
timestamp of one that wrote it, and none that wrote it is later. -/
structure CommitInv (s : Txns) : Prop where
  latest_mem : ∀ key v, s.manager.latestCommits key = some v →
    ∃ c ∈ s.commits, key ∈ c.txn.writeSet ∧ c.commitTS = v
  le_latest : ∀ c ∈ s.commits, ∀ key ∈ c.txn.writeSet,
    ∃ v, s.manager.latestCommits key = some v ∧ c.commitTS ≤ v
  commit_drawn : ∀ c ∈ s.commits, c.commitTS ∈ s.clock
  snapshot_drawn : ∀ i ts, snapshotOf (s.txns i) = some ts → ts ∈ s.clock
  commit_ne : ∀ c ∈ s.commits, ∀ i ts, snapshotOf (s.txns i) = some ts → c.commitTS ≠ ts
  /-- who commits later had its snapshot after the earlier commit -/
  apart : s.commits.Pairwise fun c d =>
    Meets c.txn.writeSet d.txn.writeSet → c.commitTS < d.txn.snapshotTS

theorem commitInv_init : init.CommitInv where
  latest_mem := by simp [init, TxnManager.newTxnManager]
  le_latest := by simp [init]
  commit_drawn := by simp [init]
  snapshot_drawn := by simp [init, snapshotOf]
  commit_ne := by simp [init]
  apart := by simp [init]

/-- **A conflict is a later commit of a common key.** -/
theorem CommitInv.conflict_iff (h : s.CommitInv) (txn : Txn) :
    s.manager.Conflict txn ↔
      ∃ c ∈ s.commits, Meets c.txn.writeSet txn.writeSet ∧ txn.snapshotTS < c.commitTS := by
  constructor
  · rintro ⟨key, hkey, v, hv, hlt⟩
    obtain ⟨c, hc, hmem, rfl⟩ := h.latest_mem key v hv
    exact ⟨c, hc, ⟨key, hmem, hkey⟩, hlt⟩
  · rintro ⟨c, hc, ⟨key, hmem, hkey⟩, hlt⟩
    obtain ⟨v, hv, hle⟩ := h.le_latest c hc key hmem
    exact ⟨key, hkey, v, hv, UInt64.lt_of_lt_of_le hlt hle⟩

private theorem snapshotOf_setPc {i j : ℕ} {pc : TxnPc} {ts : UInt64}
    (h : snapshotOf ((s.setPc i pc).txns j) = some ts) :
    snapshotOf pc = some ts ∨ snapshotOf (s.txns j) = some ts := by
  rw [setPc_txns] at h
  by_cases hji : j = i
  · rw [hji, Function.update_self] at h
    exact .inl h
  · rw [Function.update_of_ne hji] at h
    exact .inr h

/-- A step that keeps the commits, and gives no transaction another snapshot. -/
private theorem CommitInv.of_same (h : s.CommitInv)
    (hlatest : s'.manager.latestCommits = s.manager.latestCommits)
    (hcommits : s'.commits = s.commits) (hclock : s'.clock = s.clock)
    (hsnap : ∀ j ts, snapshotOf (s'.txns j) = some ts → ∃ i, snapshotOf (s.txns i) = some ts) :
    s'.CommitInv where
  latest_mem := by simpa only [hlatest, hcommits] using h.latest_mem
  le_latest := by simpa only [hlatest, hcommits] using h.le_latest
  commit_drawn := by simpa only [hcommits, hclock] using h.commit_drawn
  snapshot_drawn j ts hj := by
    obtain ⟨i, hi⟩ := hsnap j ts hj
    exact hclock ▸ h.snapshot_drawn i ts hi
  commit_ne c hc j ts hj := by
    obtain ⟨i, hi⟩ := hsnap j ts hj
    exact h.commit_ne c (hcommits ▸ hc) i ts hi
  apart := hcommits ▸ h.apart

private theorem CommitInv.move (h : s.CommitInv) {i : ℕ} {pc : TxnPc} {tm : TxnManager}
    (hpc : snapshotOf pc = snapshotOf (s.txns i))
    (htm : tm.latestCommits = s.manager.latestCommits) :
    CommitInv { s.setPc i pc with manager := tm } :=
  h.of_same htm rfl rfl fun j _ hj => (snapshotOf_setPc hj).elim
    (fun hpc' => ⟨i, hpc ▸ hpc'⟩) fun hj' => ⟨j, hj'⟩

/-- The clock returns a value for a new snapshot, or for none. -/
private theorem CommitInv.tick (h : s.CommitInv) {now : UInt64} (hnow : s.CanTick now)
    {txns : ℕ → TxnPc} (hsnap : ∀ j ts, snapshotOf (txns j) = some ts →
      ts = now ∨ ∃ i, snapshotOf (s.txns i) = some ts) :
    CommitInv { s.tick now with txns := txns } where
  latest_mem := h.latest_mem
  le_latest := h.le_latest
  commit_drawn c hc := List.mem_cons_of_mem _ (h.commit_drawn c hc)
  snapshot_drawn j ts hj := by
    rcases hsnap j ts hj with rfl | ⟨i, hi⟩
    · exact List.mem_cons_self
    · exact List.mem_cons_of_mem _ (h.snapshot_drawn i ts hi)
  commit_ne c hc j ts hj := by
    rcases hsnap j ts hj with rfl | ⟨i, hi⟩
    · exact UInt64.ne_of_lt (hnow _ (h.commit_drawn c hc))
    · exact h.commit_ne c hc i ts hi
  apart := h.apart

private theorem CommitInv.commit (h : s.CommitInv) {i : ℕ} {txn : Txn} {now : UInt64}
    {tm : TxnManager} (hi : s.txns i = .begun txn) (hnow : s.CanTick now)
    (hc : ¬ s.manager.Conflict txn)
    (htm : tm.latestCommits = fun key =>
      if key ∈ txn.writeSet then some now else s.manager.latestCommits key) :
    CommitInv { (s.tick now).setPc i (.ended txn (some now)) with
      manager := tm
      commits := s.commits ++ [⟨i, txn, now⟩] } := by
  have hsnap : snapshotOf (s.txns i) = some txn.snapshotTS := by rw [hi]; rfl
  have hold : ∀ j ts,
      snapshotOf (((s.tick now).setPc i (.ended txn (some now))).txns j) = some ts →
        ∃ k, snapshotOf (s.txns k) = some ts := fun j _ hj =>
    (snapshotOf_setPc hj).elim (fun hpc => ⟨i, hsnap.trans hpc⟩) fun hj' => ⟨j, hj'⟩
  refine
    { latest_mem := fun key v hv => ?_
      le_latest := fun c hmem key hkey => ?_
      commit_drawn := fun c hmem => ?_
      snapshot_drawn := fun j ts hj => ?_
      commit_ne := fun c hmem j ts hj => ?_
      apart := ?_ }
  · simp only [htm] at hv
    split at hv
    · rename_i hkey
      cases hv
      exact ⟨_, List.mem_concat_self, hkey, rfl⟩
    · obtain ⟨c, hmem, hkey, heq⟩ := h.latest_mem key v hv
      exact ⟨c, List.mem_append_left _ hmem, hkey, heq⟩
  · simp only [htm]
    rcases List.mem_append.mp hmem with hmem | hmem
    · obtain ⟨v, hv, hle⟩ := h.le_latest c hmem key hkey
      split
      · exact ⟨now, rfl, UInt64.le_of_lt (hnow _ (h.commit_drawn c hmem))⟩
      · exact ⟨v, hv, hle⟩
    · obtain rfl := List.mem_singleton.mp hmem
      exact ⟨now, if_pos hkey, UInt64.le_refl _⟩
  · rcases List.mem_append.mp hmem with hmem | hmem
    · exact List.mem_cons_of_mem _ (h.commit_drawn c hmem)
    · obtain rfl := List.mem_singleton.mp hmem
      exact List.mem_cons_self
  · obtain ⟨k, hk⟩ := hold j ts hj
    exact List.mem_cons_of_mem _ (h.snapshot_drawn k ts hk)
  · obtain ⟨k, hk⟩ := hold j ts hj
    rcases List.mem_append.mp hmem with hmem | hmem
    · exact h.commit_ne c hmem k ts hk
    · obtain rfl := List.mem_singleton.mp hmem
      exact (UInt64.ne_of_lt (hnow _ (h.snapshot_drawn k ts hk))).symm
  · refine List.pairwise_append.mpr ⟨h.apart, List.pairwise_singleton _ _, fun c hmem d hd => ?_⟩
    obtain rfl := List.mem_singleton.mp hd
    intro hmeet
    -- no conflict: the earlier commit is not after the snapshot, and it is not the snapshot
    have hle : ¬ txn.snapshotTS < c.commitTS :=
      fun hlt => hc ((h.conflict_iff txn).mpr ⟨c, hmem, hmeet, hlt⟩)
    exact UInt64.lt_of_le_of_ne (UInt64.not_lt.mp hle) (h.commit_ne c hmem i _ hsnap)

theorem CommitInv.step (h : s.CommitInv) (hs : s.step a = some s') : s'.CommitInv := by
  cases step_cases hs with
  | @beginNow i ts hi hts =>
    refine h.tick hts fun j t hj => ?_
    have hor : snapshotOf (.drawn ts) = some t ∨ snapshotOf (s.txns j) = some t :=
      snapshotOf_setPc hj
    rcases hor with hpc | hj'
    · exact .inl (Option.some.inj hpc).symm
    · exact .inr ⟨j, hj'⟩
  | beginRegister hi | addWrite hi | addWriteEnded hi | conflict hi hc =>
    exact h.move (by rw [hi]; rfl) rfl
  | commit hi hts hc => exact h.commit hi hts hc rfl
  | abort hi => exact h.of_same rfl rfl rfl fun j ts hj => ⟨j, hj⟩
  | minActiveSnapshot hts => exact h.tick hts fun j ts hj => .inr ⟨j, hj⟩

/-- **First writer wins.** In every state of every run: `Commit` of a transaction fails exactly if a
transaction that has committed wrote a common key and its commit is after the snapshot; a failed
`Commit` changes nothing of `latestCommits`; and of two committed transactions that wrote a common
key, one committed before the snapshot of the other. -/
theorem first_writer_wins {tr : List TxnAct} (hr : Machine.run step init tr = some s) :
    (∀ i txn ts, s.txns i = .begun txn →
      ((s.manager.commit txn ts).2 = none ↔
        ∃ c ∈ s.commits, Meets c.txn.writeSet txn.writeSet ∧ txn.snapshotTS < c.commitTS) ∧
      ((s.manager.commit txn ts).2 = none →
        (s.manager.commit txn ts).1.latestCommits = s.manager.latestCommits)) ∧
    (∀ c ∈ s.commits, ∀ d ∈ s.commits, c.id ≠ d.id → Apart c d) := by
  have h : s.CommitInv := Machine.run_invariant (fun _ _ _ h hs => h.step hs) commitInv_init hr
  refine ⟨fun i txn ts _ => ⟨?_, ?_⟩, fun c hc d hd hne => ?_⟩
  · rw [← h.conflict_iff, TxnManager.commit]
    split <;> simp [*]
  · rw [TxnManager.commit]
    split
    · exact fun _ => rfl
    · nofun
  · -- one of the two is earlier in the list of the commits
    have hapart : s.commits.Pairwise Apart := h.apart.imp fun hcd hmeet => .inl (hcd hmeet)
    exact hapart.forall hc hd fun heq => hne (congrArg Committed.id heq)

/-- Two transactions write one key; the second to commit fails. -/
theorem second_writer_fails :
    ∃ s, Machine.run step init [.beginNow 0 1, .beginRegister 0, .beginNow 1 2, .beginRegister 1,
        .addWrite 0 [107], .addWrite 1 [107], .commit 0 3] = some s ∧
      s.txns 1 = .begun ⟨2, {[107]}⟩ ∧ (s.manager.commit ⟨2, {[107]}⟩ 4).2 = none := by
  obtain ⟨s, hr, hpc, hcommits⟩ : ∃ s,
      Machine.run step init [.beginNow 0 1, .beginRegister 0, .beginNow 1 2, .beginRegister 1,
        .addWrite 0 [107], .addWrite 1 [107], .commit 0 3] = some s ∧
      s.txns 1 = .begun ⟨2, {[107]}⟩ ∧ s.commits = [⟨0, ⟨1, {[107]}⟩, 3⟩] :=
    ⟨_, rfl, rfl, rfl⟩
  refine ⟨s, hr, hpc, (((first_writer_wins hr).1 1 _ 4 hpc).1).mpr ?_⟩
  rw [hcommits]
  decide

/-! ### When the horizon is safe -/

/-- From now on every active snapshot is at least `m`. -/
def HorizonSafe (s : Txns) (m : UInt64) : Prop :=
  ∀ tr u, Machine.run step s tr = some u → ∀ ts ∈ u.manager.activeTxns, m ≤ ts

/-- **When the horizon is safe**, in every state of every run: exactly when each timestamp that a
`Begin` has drawn and not registered is at or above some active snapshot. -/
theorem horizon_safe_iff {tr : List TxnAct} {now : UInt64} (hr : Machine.run step init tr = some s)
    (hs : s.step (.minActiveSnapshot now) = some s') :
    s'.HorizonSafe (s.manager.minActiveSnapshot now) ↔
      ∀ i ts, s.txns i = .drawn ts → ∃ a ∈ s.manager.activeTxns, a ≤ ts := by
  have hinv : s.CommitInv := Machine.run_invariant (fun _ _ _ h hs => h.step hs) commitInv_init hr
  cases step_cases hs with
  | minActiveSnapshot hts =>
    constructor
    · intro h i ts hi
      -- the half-started transaction registers next
      have hreg : (s.tick now).step (.beginRegister i) = some { (s.tick now).setPc i
          (.begun ⟨ts, ∅⟩) with manager := s.manager.register ts } := by
        simp only [step, tick_txns, hi]
        rfl
      have hle : s.manager.minActiveSnapshot now ≤ ts :=
        h [.beginRegister i] _ (Machine.run_cons_eq_some.mpr ⟨_, hreg, rfl⟩) ts
          (by simp [TxnManager.register])
      -- the clock has gone on since the timestamp was drawn
      have hlt : ts < now := hts ts (hinv.snapshot_drawn i ts (by rw [hi]; rfl))
      exact ((s.manager.minActiveSnapshot_le_iff now ts).1 hle).resolve_left (UInt64.not_le.2 hlt)
    · intro h tr u hr
      have hbase : (s.tick now).Above (s.manager.minActiveSnapshot now) := by
        refine ⟨fun ts hts => ?_, fun i ts hi => ?_, now, by simp, ?_⟩
        · exact (s.manager.minActiveSnapshot_le_iff now ts).2 (.inr ⟨ts, hts, UInt64.le_refl ts⟩)
        · exact (s.manager.minActiveSnapshot_le_iff now ts).2 (.inr (h i ts hi))
        · exact (s.manager.minActiveSnapshot_le_iff now now).2 (.inl (UInt64.le_refl now))
      exact (Machine.run_invariant (fun _ _ _ h hs => h.step hs) hbase hr).active

/-- One transaction is active and a second has drawn its timestamp when the horizon is computed. -/
theorem horizon_safe_one_active :
    ∃ s s', Machine.run step init [.beginNow 0 1, .beginRegister 0, .beginNow 1 2] = some s ∧
      s.txns 1 = .drawn 2 ∧ s.step (.minActiveSnapshot 3) = some s' ∧ s'.HorizonSafe 1 := by
  obtain ⟨s, hr, hdrawn, hsecond, htick, hactive⟩ : ∃ s,
      Machine.run step init [.beginNow 0 1, .beginRegister 0, .beginNow 1 2] = some s ∧
      (∀ i ts, s.txns i = .drawn ts → i = 1) ∧ s.txns 1 = .drawn 2 ∧ s.CanTick 3 ∧
        s.manager.activeTxns = [1] := by
    refine ⟨_, rfl, fun i ts hi => ?_, rfl, by decide, rfl⟩
    by_contra h1
    by_cases h0 : i = 0
    · subst h0
      cases hi
    · simp [init, h0, h1] at hi
  have hstep : s.step (.minActiveSnapshot 3) = some (s.tick 3) := if_pos htick
  refine ⟨s, s.tick 3, hr, hsecond, hstep, ?_⟩
  have hone : s.manager.minActiveSnapshot 3 = 1 := by
    rw [TxnManager.minActiveSnapshot, hactive]
    rfl
  rw [← hone]
  refine (horizon_safe_iff hr hstep).mpr fun i ts hi => ⟨1, by simp [hactive], ?_⟩
  obtain rfl := hdrawn i ts hi
  obtain rfl := TxnPc.drawn.inj (hsecond.symm.trans hi)
  decide

/-- **A horizon above a snapshot.** `Begin` draws `1`, `MinActiveSnapshot` finds no active
transaction and returns `2`, and `Begin` registers `1`. -/
theorem horizon_passes_drawn_snapshot :
    ∃ s s' u, Machine.run step init [.beginNow 0 1] = some s ∧
      s.step (.minActiveSnapshot 2) = some s' ∧ s.manager.minActiveSnapshot 2 = 2 ∧
      Machine.run step s' [.beginRegister 0] = some u ∧
      (1 : UInt64) ∈ u.manager.activeTxns ∧ (1 : UInt64) < 2 :=
  ⟨_, _, _, rfl, rfl, rfl, rfl, by decide, by decide⟩

end Txns

end Stratum.Mvcc
