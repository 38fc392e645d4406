import Stratum.Lsm.Picker
import Stratum.Lsm.Session
import Stratum.Sstable.Table

/-!
# A write stall is always looked at again

`stalled` is a comparison that was made some time ago: `CheckWriteStall` counts the files of level
`0` and writes down whether there are `L0StallTrigger` of them or more. `Flush` calls it after its
edit, the compaction loop after each round. It holds `l.mu` from the count to the write; the version
changes under the lock of the manifest, so that between the two an edit may come in.

`Stalling` is the tree with that gap: `CheckWriteStall` is two steps, and whoever is between them
holds `l.mu`. All other steps are those of the tree.

* While `stalled` is set, level `0` has at least `trigger` files, **or the compaction loop has made
  its edit and is still to look again** (`StallInv.count`).
* While `stalled` is set, the compaction loop is running, or it has been told to, or `Flush` is
  about to tell it (`StallInv.told`). The loop goes to sleep only on a version of at most
  `L0CompactionTrigger` files on level `0`, so with a larger stall trigger it never goes to sleep on
  a stall.
-/

namespace Stratum.Lsm

open Sstable

/-- Who is in `CheckWriteStall`. -/
inductive Checker
  | flush
  | compact
deriving DecidableEq, Repr

/-- The tree, and who is in `CheckWriteStall` with the number of files it has read. -/
structure Stalling (fmt : TableFormat) where
  tree : Tree fmt
  check : Option (Checker × ℕ)

/-- The steps: those of the tree, and the two halves of `CheckWriteStall`. -/
inductive StallAct
  | tree (a : TreeAct)
  | readCount (who : Checker)
  | writeStalled

/-- The step takes `l.mu`. -/
def TreeAct.locks : TreeAct → Bool
  | .flushPass | .flushRegister | .compactSwap | .compactSwapErr _ | .getSearch _ => true
  | _ => false

/-- The step is `CheckWriteStall` as a whole. -/
def TreeAct.checks : TreeAct → Bool
  | .flushCheck | .compactRelease => true
  | _ => false

/-- The compaction loop has made its edit, or found nothing to do, and is still to call
`ReleaseStall`. -/
def CompactPc.isPast : CompactPc → Bool
  | .removing _ _ | .swapped _ => true
  | _ => false

namespace Stalling

variable {fmt : TableFormat}

/-- Whoever is in `CheckWriteStall` is at the place from which it is called. -/
def atCheck (t : Tree fmt) : Checker → Bool
  | .flush => decide (t.flush = .applied)
  | .compact =>
    match t.compact with
    | .swapped _ => true
    | _ => false

/-- Behind `CheckWriteStall`. -/
def afterCheck (t : Tree fmt) : Checker → Tree fmt
  | .flush => { t with flush := .checked }
  | .compact => { t with compact := .looping }

/-- What a step does; `none` when it is not enabled. -/
def step (trigger : ℕ) (s : Stalling fmt) : StallAct → Option (Stalling fmt)
  | .tree a =>
    if a.checks || (a.locks && s.check.isSome) then none
    else (s.tree.step trigger a).map fun t => ⟨t, if t.opened then s.check else none⟩
  | .readCount who =>
    if s.tree.opened ∧ s.check = none ∧ atCheck s.tree who = true then
      some { s with check := some (who, (s.tree.version.levels 0).length) }
    else none
  | .writeStalled =>
    match s.check with
    | some (who, l0Count) =>
      some ⟨afterCheck { s.tree with stalled := decide (trigger ≤ l0Count) } who, none⟩
    | none => none

/-- What a step does. -/
inductive Step (trigger : ℕ) (s : Stalling fmt) : StallAct → Stalling fmt → Prop
  | tree {a t} (ha : a.checks = false) (ht : s.tree.step trigger a = some t) :
      Step trigger s (.tree a) ⟨t, if t.opened then s.check else none⟩
  | readCount {who} (ho : s.tree.opened = true) (hat : atCheck s.tree who = true) :
      Step trigger s (.readCount who)
        { s with check := some (who, (s.tree.version.levels 0).length) }
  | writeStalled {who l0Count} (hcheck : s.check = some (who, l0Count)) :
      Step trigger s .writeStalled
        ⟨afterCheck { s.tree with stalled := decide (trigger ≤ l0Count) } who, none⟩

theorem step_cases {trigger : ℕ} {s s' : Stalling fmt} {a : StallAct}
    (h : s.step trigger a = some s') : Step trigger s a s' := by
  cases a with
  | tree a =>
    rw [step, Option.ite_none_left_eq_some] at h
    obtain ⟨hguard, h⟩ := h
    obtain ⟨t, ht, rfl⟩ := Option.map_eq_some_iff.mp h
    simp only [Bool.or_eq_true, not_or, Bool.not_eq_true] at hguard
    exact .tree hguard.1 ht
  | readCount who =>
    rw [step, Option.ite_none_right_eq_some] at h
    obtain ⟨⟨ho, -, hat⟩, h⟩ := h
    cases h
    exact .readCount ho hat
  | writeStalled =>
    rw [step] at h
    split at h <;> cases h
    exact .writeStalled ‹_›

/-- No session is open. -/
def closed (files : ℕ → Option fmt.File) (contents : ℕ → List Memtable.Entry) (manifest : Bytes) :
    Stalling fmt := ⟨.closed files contents manifest, none⟩

end Stalling

namespace Tree

variable {fmt : TableFormat} {trigger : ℕ} {t t' : Tree fmt} {a : TreeAct}

/-! ### What a step of the tree does to a stall -/

/-- The steps of a session other than `CheckWriteStall`, as far as stalls are concerned. -/
structure StallMoves (t t' : Tree fmt) : Prop where
  opened : t'.opened = true
  stalled : t'.stalled = t.stalled
  /-- only the edit of a compaction takes files from level `0` -/
  level0 : (t.version.levels 0).length ≤ (t'.version.levels 0).length ∨ t'.compact.isPast = true
  past : t.compact.isPast = true → t'.compact.isPast = true
  /-- the loop goes to sleep when there is nothing to pick -/
  idle : t'.compact = .idle →
    t.compact = .idle ∨ t.compact = .looping ∧ pickCompaction t.version = none
  /-- who was told stays told, until the loop runs -/
  told : t.flush = .checked ∨ t.compactCh = true →
    t'.compact ≠ .idle ∨ t'.flush = .checked ∨ t'.compactCh = true
  atCheck : ∀ who, Stalling.atCheck t who = true → Stalling.atCheck t' who = true ∧
    (who = .compact → (t.version.levels 0).length ≤ (t'.version.levels 0).length)

/-- A step of `Flush` leaves the compaction loop where it is. -/
private theorem StallMoves.of_flush (ho : t'.opened = true) (hstalled : t'.stalled = t.stalled)
    (hcompact : t'.compact = t.compact)
    (hlevel : (t.version.levels 0).length ≤ (t'.version.levels 0).length)
    (happlied : t.flush ≠ .applied) (hchecked : t.flush = .checked → t'.compactCh = true)
    (hch : t.compactCh = true → t'.compactCh = true) : StallMoves t t' where
  opened := ho
  stalled := hstalled
  level0 := .inl hlevel
  past h := hcompact ▸ h
  idle h := .inl (hcompact ▸ h)
  told h := .inr (.inr (h.elim hchecked hch))
  atCheck who h := by
    cases who with
    | flush => exact absurd (of_decide_eq_true h) happlied
    | compact =>
      refine ⟨?_, fun _ => hlevel⟩
      rw [Stalling.atCheck, hcompact]
      exact h

/-- The edit of a flush adds one file to level `0`. -/
theorem length_level0_flushEdit (v : Version) (num : ℕ) (es : List Memtable.Entry) :
    ((v.edit (flushEdit (tableFile fmt 0 num es))).levels 0).length = (v.levels 0).length + 1 := by
  rw [Version.levels_edit, if_neg (by simp), VersionEdit.levelAfter]
  simp [flushEdit, tableFile]

theorem FlushStep.stallMoves (h : FlushStep trigger t a t') (ha : a.checks = false)
    (ho : t.opened = true) : StallMoves t t' := by
  cases h with
  | call hf | pass hf | create hf | register hf | torn hf =>
    exact .of_flush ho rfl rfl le_rfl (by simp [hf]) (by simp [hf]) id
  | @apply num es m hf hm =>
    refine .of_flush ho rfl rfl ?_ (by simp [hf]) (by simp [hf]) id
    rw [show version { t with manifest := m, flush := .applied } = _ from (apply_spec hm).1,
      length_level0_flushEdit]
    exact Nat.le_succ _
  | err hf =>
    rcases hf with hf | ⟨num, hf⟩
    · exact .of_flush ho rfl rfl le_rfl (by simp [hf]) (by simp [hf]) id
    · exact .of_flush ho rfl rfl le_rfl (by simp [hf]) (by simp [hf]) id
  | check hf => cases ha
  | send hf => exact .of_flush ho rfl rfl le_rfl (by simp [hf]) (fun _ => rfl) fun _ => rfl

/-- A step of the compaction loop leaves `Flush` where it is. -/
private theorem StallMoves.of_compact (ho : t'.opened = true) (hstalled : t'.stalled = t.stalled)
    (hflush : t'.flush = t.flush)
    (hch : t.compactCh = true → t'.compact ≠ .idle ∨ t'.compactCh = true)
    (hlevel : (t.version.levels 0).length ≤ (t'.version.levels 0).length ∨
      t'.compact.isPast = true)
    (hpast : t.compact.isPast = true → t'.compact.isPast = true)
    (hidle : t'.compact = .idle → t.compact = .looping ∧ pickCompaction t.version = none)
    (hswapped : ∀ c, t.compact ≠ .swapped c) : StallMoves t t' where
  opened := ho
  stalled := hstalled
  level0 := hlevel
  past := hpast
  idle h := .inr (hidle h)
  told h := h.elim (fun hf => .inr (.inl (hflush.trans hf))) fun h => (hch h).imp_right .inr
  atCheck who h := by
    cases who with
    | flush => exact ⟨by rwa [Stalling.atCheck, hflush], by simp⟩
    | compact =>
      rw [Stalling.atCheck] at h
      split at h
      · rename_i hc
        exact absurd hc (hswapped _)
      · cases h

private theorem StallMoves.of_early (ho : t'.opened = true) (hstalled : t'.stalled = t.stalled)
    (hflush : t'.flush = t.flush)
    (hch : t.compactCh = true → t'.compact ≠ .idle ∨ t'.compactCh = true)
    (hlevel : (t.version.levels 0).length ≤ (t'.version.levels 0).length)
    (hearly : t.compact.isPast = false)
    (hidle : t'.compact = .idle → t.compact = .looping ∧ pickCompaction t.version = none) :
    StallMoves t t' := by
  refine .of_compact ho hstalled hflush hch (.inl hlevel) (fun hpast => ?_) hidle fun c hc => ?_
  · rw [hearly] at hpast
    cases hpast
  · rw [hc] at hearly
    cases hearly

theorem CompactStep.stallMoves (h : CompactStep trigger t a t') (ha : a.checks = false)
    (ho : t.opened = true) : StallMoves t t' := by
  cases h with
  | recv hc =>
    exact .of_early ho rfl rfl (fun _ => .inl (by simp)) le_rfl (by rw [hc]; rfl) (by simp)
  | pickNone hc hp => exact .of_early ho rfl rfl .inr le_rfl (by rw [hc]; rfl) fun _ => ⟨hc, hp⟩
  | pick hc | openNone hc | openInputs hc | torn hc =>
    exact .of_early ho rfl rfl .inr le_rfl (by rw [hc]; rfl) (by simp)
  | next hc hx hn =>
    have hframe := nextEntry_frame hn
    refine .of_early (by rw [hframe]; exact ho) (by rw [hframe]) (by rw [hframe])
      (fun _ => .inl (by simp)) ?_ (by rw [hc]; rfl) (by simp)
    rw [hframe]
  | finish hc hx hn =>
    have hframe := finishLoop_frame hn
    refine .of_early (by rw [hframe]; exact ho) (by rw [hframe]) (by rw [hframe])
      (fun _ => .inl (by simp)) ?_ (by rw [hc]; rfl) (by simp)
    rw [hframe]
  | apply hc hm =>
    exact .of_compact ho rfl rfl .inr (.inr rfl) (fun _ => rfl) (by simp) (by simp [hc])
  | err hc =>
    rcases hc with hc | ⟨x, hc⟩
    · exact .of_early ho rfl rfl .inr le_rfl (by rw [hc]; rfl) (by simp)
    · exact .of_early ho rfl rfl .inr le_rfl (by rw [hc]; rfl) (by simp)
  | remove hc | swap hc | swapErr hc =>
    exact .of_compact ho rfl rfl .inr (.inl le_rfl) (fun _ => rfl) (by simp) (by simp [hc])
  | release hc => cases ha

theorem LookupStep.stallMoves (h : LookupStep t a t') (ho : t.opened = true) : StallMoves t t' := by
  have hsame : ∀ ls, StallMoves t { t with lookups := ls } := fun ls =>
    { opened := ho
      stalled := rfl
      level0 := .inl le_rfl
      past := id
      idle := .inl
      told := .inr
      atCheck := fun _ h => ⟨h, fun _ => le_rfl⟩ }
  cases h <;> exact hsame _

end Tree

/-! ### Every run -/

namespace Stalling

variable {fmt : TableFormat} {trigger : ℕ} {s s' : Stalling fmt} {a : StallAct}

/-- **Invariant**: why `stalled` may be set, and who is going to look at it again. -/
structure StallInv (trigger : ℕ) (s : Stalling fmt) : Prop where
  closed : s.tree.opened = false → s.tree.stalled = false ∧ s.check = none
  count : s.tree.stalled = true →
    trigger ≤ (s.tree.version.levels 0).length ∨ s.tree.compact.isPast = true
  told : s.tree.stalled = true →
    s.tree.compact ≠ .idle ∨ s.tree.flush = .checked ∨ s.tree.compactCh = true
  atCheck : ∀ who l0Count, s.check = some (who, l0Count) → atCheck s.tree who = true
  /-- the count that was read is still a lower bound, unless a compaction has taken files away and
  is going to count again -/
  flushCount : ∀ l0Count, s.check = some (.flush, l0Count) →
    l0Count ≤ (s.tree.version.levels 0).length ∨ s.tree.compact.isPast = true
  compactCount : ∀ l0Count, s.check = some (.compact, l0Count) →
    l0Count ≤ (s.tree.version.levels 0).length

private theorem StallInv.of_closed (hstalled : s.tree.stalled = false) (hcheck : s.check = none) :
    StallInv trigger s where
  closed _ := ⟨hstalled, hcheck⟩
  count h := by simp [hstalled] at h
  told h := by simp [hstalled] at h
  atCheck := by simp [hcheck]
  flushCount := by simp [hcheck]
  compactCount := by simp [hcheck]

theorem stallInv_closed (files : ℕ → Option fmt.File) (contents : ℕ → List Memtable.Entry)
    (manifest : Bytes) : StallInv trigger (closed files contents manifest) := .of_closed rfl rfl

/-- A step of the session that is not `CheckWriteStall`. -/
theorem StallInv.stallMoves (h : StallInv trigger s) (htrigger : l0CompactionTrigger < trigger)
    {t : Tree fmt} (hm : Tree.StallMoves s.tree t) : StallInv trigger ⟨t, s.check⟩ where
  closed ho := by
    rw [hm.opened] at ho
    cases ho
  count hstalled := by
    rcases h.count (hm.stalled ▸ hstalled) with hcount | hpast
    · exact hm.level0.imp_left hcount.trans
    · exact .inr (hm.past hpast)
  told hstalled := by
    rw [hm.stalled] at hstalled
    by_cases hidle : t.compact = .idle
    · rcases hm.idle hidle with hold | ⟨hlooping, hpick⟩
      · exact hm.told ((h.told hstalled).resolve_left fun hne => hne hold)
      · -- the loop goes to sleep: few files on level `0`, so there is no stall
        have hfew := (pickCompaction_eq_none_iff.mp hpick).level0
        rcases h.count hstalled with hcount | hpast
        · omega
        · rw [hlooping] at hpast
          cases hpast
    · exact .inl hidle
  atCheck who l0Count hcheck := (hm.atCheck who (h.atCheck who l0Count hcheck)).1
  flushCount l0Count hcheck := by
    rcases h.flushCount l0Count hcheck with hcount | hpast
    · exact hm.level0.imp_left hcount.trans
    · exact .inr (hm.past hpast)
  compactCount l0Count hcheck := by
    have hle := (hm.atCheck .compact (h.atCheck .compact l0Count hcheck)).2 rfl
    exact (h.compactCount l0Count hcheck).trans hle

/-- The first half of `CheckWriteStall`, which counts. -/
private theorem StallInv.counted (h : StallInv trigger s) (ho : s.tree.opened = true)
    {who : Checker} (hat : Stalling.atCheck s.tree who = true) :
    StallInv trigger { s with check := some (who, (s.tree.version.levels 0).length) } where
  closed hclosed := by simp [ho] at hclosed
  count := h.count
  told := h.told
  atCheck := by
    rintro _ _ ⟨⟩
    exact hat
  flushCount := by
    rintro _ ⟨⟩
    exact .inl le_rfl
  compactCount := by
    rintro _ ⟨⟩
    exact le_rfl

/-- The second half, which sets or clears `stalled` by the count. -/
private theorem StallInv.written (h : StallInv trigger s) {who : Checker} {l0Count : ℕ}
    (hcheck : s.check = some (who, l0Count)) :
    StallInv trigger
      ⟨afterCheck { s.tree with stalled := decide (trigger ≤ l0Count) } who, none⟩ := by
  have ho : s.tree.opened = true := by
    by_contra hclosed
    have hnone := (h.closed (by simpa using hclosed)).2
    rw [hcheck] at hnone
    cases hnone
  cases who with
  | flush =>
    exact
      { closed := fun hclosed => by simp [afterCheck, ho] at hclosed
        count := fun hstalled => (h.flushCount l0Count hcheck).imp_left fun hle =>
          (of_decide_eq_true hstalled).trans hle
        told := fun _ => .inr (.inl rfl)
        atCheck := by simp
        flushCount := by simp
        compactCount := by simp }
  | compact =>
    exact
      { closed := fun hclosed => by simp [afterCheck, ho] at hclosed
        count := fun hstalled =>
          .inl ((of_decide_eq_true hstalled).trans (h.compactCount l0Count hcheck))
        told := fun _ => .inl (by simp [afterCheck])
        atCheck := by simp
        flushCount := by simp
        compactCount := by simp }

/-- **Step lemma.** -/
theorem StallInv.step (h : StallInv trigger s) (htrigger : l0CompactionTrigger < trigger)
    (hs : s.step trigger a = some s') : StallInv trigger s' := by
  cases step_cases hs with
  | @tree a t hchecks ht =>
    -- inside a session, all steps are moves
    have hmoves : Tree.StallMoves s.tree t →
        StallInv trigger ⟨t, if t.opened = true then s.check else none⟩ := by
      intro hm
      rw [if_pos hm.opened]
      exact h.stallMoves htrigger hm
    cases Tree.step_cases ht with
    | openTree ho hopen =>
      obtain ⟨hstalled, hcheck⟩ := h.closed ho
      refine .of_closed ?_ (by simp [hcheck])
      rw [Tree.openSession] at hopen
      split at hopen
      · cases hopen
      · split at hopen <;> cases hopen
        exact hstalled
    | close ho hf hc => exact .of_closed rfl rfl
    | kill ho => exact .of_closed rfl rfl
    | flush ho hs | compact ho hs => exact hmoves (hs.stallMoves hchecks ho)
    | lookup ho hs => exact hmoves (hs.stallMoves ho)
  | readCount ho hat => exact h.counted ho hat
  | writeStalled hcheck => exact h.written hcheck

/-- **A write stall is always going to be looked at again.** With a stall trigger above the
compaction trigger, in every state of every run over any directory: when `stalled` is set, the
compaction loop is not idle, or there is a token in `compactCh`, or `Flush` is between
`CheckWriteStall` and its send. -/
theorem stalled_is_looked_at (htrigger : l0CompactionTrigger < trigger)
    {files : ℕ → Option fmt.File} {contents : ℕ → List Memtable.Entry} {manifest : Bytes}
    {tr : List StallAct}
    (hr : Machine.run (step trigger) (closed files contents manifest) tr = some s) :
    ¬ (s.tree.stalled = true ∧ s.tree.compact = .idle ∧ s.tree.compactCh = false ∧
      s.tree.flush ≠ .checked) := by
  have hinv : StallInv trigger s := Machine.run_invariant (fun _ _ _ hi hs => hi.step htrigger hs)
    (stallInv_closed files contents manifest) hr
  rintro ⟨hstalled, hidle, hch, hflush⟩
  rcases hinv.told hstalled with h | h | h
  · exact h hidle
  · exact hflush h
  · rw [hch] at h
    cases h

/-- `Flush` of a table with one key, up to its send on `compactCh`. -/
def flushKey (k : UInt8) : List StallAct :=
  [.tree (.flushCall ⟨.put .empty [k] (some [1]) 1, 4096, false⟩), .tree .flushPass,
    .tree .flushCreate, .tree .flushRegister, .tree .flushApply, .readCount .flush, .writeStalled,
    .tree .flushSend]

/-- A session on an empty directory, with five flushes. -/
def fiveFlushes : List StallAct :=
  .tree .openTree :: [1, 2, 3, 4, 5].flatMap flushKey

/-- The last of the five flushes finds the stall trigger reached. -/
theorem exists_fiveFlushes : ∃ s : Stalling Config.noFilter.format,
    Machine.run (step 5) (closed (fun _ => none) (fun _ => []) []) fiveFlushes = some s ∧
      (s.tree.stalled = true ∧ s.tree.compact = .idle ∧ s.tree.flush = .idle) ∧
      s.tree.opened = true ∧ (s.tree.version.levels 0).length = 5 ∧
      s.tree.found.levels 0 = [] := by
  have hrun : (Machine.run (step 5) (closed (fun _ => none) (fun _ => []) [] :
      Stalling Config.noFilter.format) fiveFlushes).any fun s =>
        decide (s.tree.stalled = true ∧ s.tree.compact = .idle ∧ s.tree.flush = .idle) &&
          decide (s.tree.opened = true ∧ (s.tree.version.levels 0).length = 5 ∧
            s.tree.found.levels 0 = []) := by
    decide +kernel
  obtain ⟨s, hs, h⟩ := (Option.any_eq_true _ _).1 hrun
  simp only [Bool.and_eq_true, decide_eq_true_eq] at h
  exact ⟨s, hs, h⟩

/-- The writes are stalled, and there is a token for the compaction loop. -/
theorem stalled_is_looked_at_five : ∃ s : Stalling Config.noFilter.format,
    Machine.run (step 5) (closed (fun _ => none) (fun _ => []) []) fiveFlushes = some s ∧
      s.tree.stalled = true ∧ s.tree.compact = .idle ∧ s.tree.compactCh = true := by
  obtain ⟨s, hs, ⟨hstalled, hidle, hflush⟩, -⟩ := exists_fiveFlushes
  refine ⟨s, hs, hstalled, hidle, ?_⟩
  by_contra hch
  have htrigger : l0CompactionTrigger < 5 := by decide
  refine stalled_is_looked_at htrigger hs ⟨hstalled, hidle, by simpa using hch, ?_⟩
  rw [hflush]
  nofun

end Stalling

end Stratum.Lsm
