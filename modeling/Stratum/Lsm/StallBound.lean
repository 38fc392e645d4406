import Stratum.Lsm.FileNumber
import Stratum.Lsm.Stall

/-!
# What a write stall bounds

`Flush` waits for `stalled` to be cleared before it creates a table, and only `Flush` adds files to
level `0`. `Stalling.level0_bounded`: in every state of every run level `0` has at most
`L0StallTrigger` files, or one more than the session **found**, since `NewLSMTree` does not look at
the stall condition and the first flush of a session passes in any case.

The comparison behind `stalled` may be out of date: a compaction counts the files, an edit of
`Flush` comes in between, and then the compaction clears `stalled`. That does no harm, since `Flush`
is then still to look itself (`BoundInv.compactCount`).
-/

namespace Stratum.Lsm

open Sstable

/-- `Flush` is past `WaitForStall` and its edit is still to come. -/
def FlushPc.isAdding : FlushPc → Bool
  | .passed _ | .created _ _ | .registered _ _ => true
  | _ => false

namespace Tree

variable {fmt : TableFormat} {trigger : ℕ} {t t' : Tree fmt} {a : TreeAct}

/-- The output of a compaction under way is not level `0`. -/
def OutputsDeep (t : Tree fmt) : Prop := ∀ c, t.compact.job = some c → 1 ≤ c.outputLevel

/-- `Flush` is about to add a file to level `0`, or may pass `WaitForStall` and then add one. -/
def NeedsRoom (t : Tree fmt) : Prop :=
  t.flush.isAdding = true ∨ t.stalled = false ∧ t.flush ≠ .applied

/-- The steps of a session other than `CheckWriteStall`, as far as level `0` is concerned. -/
structure Room (t t' : Tree fmt) : Prop where
  opened : t'.opened = true
  found : t'.found = t.found
  swapped : ∀ c, t.compact = .swapped c → t'.compact = .swapped c
  /-- only the edit of a flush adds a file -/
  level0 : (t'.version.levels 0).length ≤ (t.version.levels 0).length ∧
      (t'.flush = .applied ↔ t.flush = .applied) ∧ (t'.NeedsRoom → t.NeedsRoom) ∨
    (t'.version.levels 0).length = (t.version.levels 0).length + 1 ∧
      t.flush.isAdding = true ∧ t'.flush = .applied

/-- The edit of a compaction adds no file to level `0`. -/
theorem length_level0_compactionEdit (v : Version) {c : Compaction} {added : List FileMetadata}
    (hadded : ∀ f ∈ added, f.level ≠ 0) :
    ((v.edit (compactionEdit c added)).levels 0).length ≤ (v.levels 0).length := by
  rw [Version.levels_edit, if_neg (by simp), VersionEdit.levelAfter, List.length_append]
  have hnone : (compactionEdit c added).addedFiles.filter (fun f => decide (f.level = 0)) = [] := by
    rw [List.filter_eq_nil_iff]
    intro f hf
    simpa using hadded f hf
  rw [hnone, List.length_nil, Nat.add_zero]
  exact List.length_filter_le _ _

/-- A step that leaves the version and the flush alone. -/
private theorem Room.of_same (ho : t'.opened = true) (hfound : t'.found = t.found)
    (hstalled : t'.stalled = t.stalled) (hversion : t'.version = t.version)
    (hflush : t'.flush = t.flush)
    (hswapped : ∀ c, t.compact = .swapped c → t'.compact = .swapped c) : Room t t' where
  opened := ho
  found := hfound
  swapped := hswapped
  level0 := .inl (by simp [NeedsRoom, hversion, hflush, hstalled])

theorem FlushStep.room (h : FlushStep trigger t a t') (ha : a.checks = false)
    (ho : t.opened = true) : Room t t' := by
  cases h with
  | call hf | create hf | register hf | torn hf | send hf =>
    exact ⟨ho, rfl, fun _ => id,
      .inl ⟨le_rfl, by simp [hf], by simp [NeedsRoom, FlushPc.isAdding, hf]⟩⟩
  | pass hf hstalled =>
    exact ⟨ho, rfl, fun _ => id, .inl (by simp [NeedsRoom, FlushPc.isAdding, hf, hstalled])⟩
  | @apply num es m hf hm =>
    refine ⟨ho, rfl, fun _ => id, .inr ⟨?_, by rw [hf]; rfl, rfl⟩⟩
    rw [show version { t with manifest := m, flush := .applied } = _ from (apply_spec hm).1]
    exact length_level0_flushEdit t.version num es
  | err hf =>
    refine ⟨ho, rfl, fun _ => id, .inl ?_⟩
    rcases hf with hf | ⟨num, hf⟩ <;> simp [NeedsRoom, FlushPc.isAdding, hf]
  | check hf => cases ha

theorem CompactStep.room (h : CompactStep trigger t a t') (ha : a.checks = false)
    (ho : t.opened = true) (hsession : t.InSession) (hdeep : t.OutputsDeep) : Room t t' := by
  cases h with
  | next hc hx hn =>
    have hframe := nextEntry_frame hn
    refine .of_same ?_ ?_ ?_ ?_ ?_ (by simp [hc]) <;> rw [hframe]
    exact ho
  | finish hc hx hn =>
    have hframe := finishLoop_frame hn
    refine .of_same ?_ ?_ ?_ ?_ ?_ (by simp [hc]) <;> rw [hframe]
    exact ho
  | @apply c added m hc hm =>
    obtain ⟨kept, -, -, ⟨x, hx, -, rfl⟩, -⟩ :
      t.CompactSound (fun _ _ _ _ _ => True) (.finished c added) := hc ▸ hsession.sound
    have hout : 1 ≤ c.outputLevel := hdeep c (by rw [hc]; rfl)
    refine ⟨ho, rfl, by simp [hc], .inl ⟨?_, Iff.rfl, id⟩⟩
    rw [version, (apply_spec hm).1]
    refine length_level0_compactionEdit t.version fun f hf => ?_
    rw [(hx.onDisk f hf).metadata]
    exact Nat.one_le_iff_ne_zero.mp hout
  | err hc => exact .of_same ho rfl rfl rfl rfl (by rcases hc with hc | ⟨x, hc⟩ <;> simp [hc])
  | release hc => cases ha
  | recv hc | pickNone hc | pick hc | openNone hc | openInputs hc | torn hc | remove hc | swap hc
  | swapErr hc =>
    exact .of_same ho rfl rfl rfl rfl (by simp [hc])

theorem LookupStep.room (h : LookupStep t a t') (ho : t.opened = true) : Room t t' := by
  cases h <;> exact .of_same ho rfl rfl rfl rfl fun _ => id

theorem OutputsDeep.step (h : t.OutputsDeep) (hs : CompactStep trigger t a t') :
    t'.OutputsDeep := by
  intro c hc
  cases hs with
  | pick hl hp =>
    cases hc
    rw [(picked_of_pickCompaction hp).outputLevel_eq]
    omega
  | openInputs hl | next hl | finish hl =>
    cases hc
    exact h c (by rw [hl]; rfl)
  | _ => cases hc

end Tree

namespace Stalling

variable {fmt : TableFormat} {trigger : ℕ} {s s' : Stalling fmt} {a : StallAct}

/-- The files that level `0` may have: as many as the trigger, or one more than were found. -/
def bound (trigger : ℕ) (t : Tree fmt) : ℕ := max trigger ((t.found.levels 0).length + 1)

/-- **Invariant**: there is room for what `Flush` is about to add. -/
structure BoundInv (trigger : ℕ) (s : Stalling fmt) : Prop where
  session : s.tree.InSession
  deep : s.tree.OutputsDeep
  closed : s.tree.opened = false → s.check = none
  level0 : s.tree.opened = true → (s.tree.version.levels 0).length ≤ bound trigger s.tree
  room : s.tree.opened = true → s.tree.NeedsRoom →
    (s.tree.version.levels 0).length < bound trigger s.tree
  swapped : ∀ l0Count, s.check = some (.compact, l0Count) → ∃ c, s.tree.compact = .swapped c
  flushCount : ∀ l0Count, s.check = some (.flush, l0Count) → s.tree.flush = .applied ∧
    (s.tree.version.levels 0).length ≤ l0Count
  /-- a count that an edit of `Flush` made wrong is not the last one -/
  compactCount : ∀ l0Count, s.check = some (.compact, l0Count) → s.tree.flush ≠ .applied →
    (s.tree.version.levels 0).length ≤ l0Count

private theorem BoundInv.of_unchecked (hcheck : s.check = none) (hsession : s.tree.InSession)
    (hdeep : s.tree.OutputsDeep)
    (hlevel : s.tree.opened = true → (s.tree.version.levels 0).length ≤ bound trigger s.tree)
    (hroom : s.tree.opened = true → s.tree.NeedsRoom →
      (s.tree.version.levels 0).length < bound trigger s.tree) : BoundInv trigger s where
  session := hsession
  deep := hdeep
  closed _ := hcheck
  level0 := hlevel
  room := hroom
  swapped := by simp [hcheck]
  flushCount := by simp [hcheck]
  compactCount := by simp [hcheck]

theorem BoundInv.moves (h : BoundInv trigger s) (ho : s.tree.opened = true) {t : Tree fmt}
    (hsession : t.InSession) (hdeep : t.OutputsDeep) (hm : Tree.Room s.tree t) :
    BoundInv trigger ⟨t, s.check⟩ := by
  obtain ⟨ho', hfound, hswapped, hlevel⟩ := hm
  have hbound : bound trigger t = bound trigger s.tree := by rw [bound, bound, hfound]
  have hclosed : t.opened = false → s.check = none := by simp [ho']
  have hswap : ∀ l0Count, s.check = some (.compact, l0Count) → ∃ c, t.compact = .swapped c :=
    fun l0Count hcheck => (h.swapped l0Count hcheck).imp hswapped
  rcases hlevel with ⟨hle, happlied, hroom⟩ | ⟨hlen, hadding, happlied⟩
  · refine ⟨hsession, hdeep, hclosed, fun _ => ?_, fun _ hneeds => ?_, hswap,
      fun l0Count hcheck => ?_, fun l0Count hcheck hne => ?_⟩
    · rw [hbound]
      exact hle.trans (h.level0 ho)
    · rw [hbound]
      exact Nat.lt_of_le_of_lt hle (h.room ho (hroom hneeds))
    · obtain ⟨happ, hcount⟩ := h.flushCount l0Count hcheck
      exact ⟨happlied.mpr happ, hle.trans hcount⟩
    · exact hle.trans (h.compactCount l0Count hcheck (mt happlied.mpr hne))
  · -- the edit of a flush: there was room for its file
    refine ⟨hsession, hdeep, hclosed, fun _ => ?_, fun _ hneeds => ?_, hswap,
      fun l0Count hcheck => ?_, fun _ _ hne => absurd happlied hne⟩
    · rw [hbound, hlen]
      exact h.room ho (.inl hadding)
    · simp [Tree.NeedsRoom, FlushPc.isAdding, happlied] at hneeds
    · rw [(h.flushCount l0Count hcheck).1] at hadding
      cases hadding

/-- The files are counted. -/
theorem BoundInv.counted (h : BoundInv trigger s) (ho : s.tree.opened = true) {who : Checker}
    (hat : atCheck s.tree who = true) :
    BoundInv trigger { s with check := some (who, (s.tree.version.levels 0).length) } :=
  { session := h.session
    deep := h.deep
    closed := fun hclosed => by
      rw [ho] at hclosed
      cases hclosed
    level0 := h.level0
    room := h.room
    swapped := by
      rintro _ ⟨⟩
      rw [atCheck] at hat
      split at hat
      · exact ⟨_, ‹_›⟩
      · cases hat
    flushCount := by
      rintro _ ⟨⟩
      exact ⟨of_decide_eq_true hat, le_rfl⟩
    compactCount := by
      rintro _ ⟨⟩ _
      exact le_rfl }

private theorem inSession_afterCheck {t : Tree fmt} (h : t.InSession) (ho : t.opened = true)
    (b : Bool) (who : Checker) : (afterCheck { t with stalled := b } who).InSession := by
  cases who with
  | flush =>
    exact ⟨by simp [afterCheck, ho], h.live, nofun, nofun,
      h.sound.congr le_rfl fun _ _ => ⟨rfl, rfl⟩⟩
  | compact =>
    exact ⟨by simp [afterCheck, ho], h.live, h.flush_lt, fun _ _ => List.not_mem_nil, trivial⟩

/-- `stalled` is set or cleared by the count. -/
theorem BoundInv.written (h : BoundInv trigger s) {who : Checker} {l0Count : ℕ}
    (hcheck : s.check = some (who, l0Count)) :
    BoundInv trigger
      ⟨afterCheck { s.tree with stalled := decide (trigger ≤ l0Count) } who, none⟩ := by
  have ho : s.tree.opened = true := by
    by_contra hclosed
    have hnone := h.closed (by simpa using hclosed)
    rw [hcheck] at hnone
    cases hnone
  -- whoever does not stall has counted fewer files than the trigger
  have hfew : decide (trigger ≤ l0Count) = false → ∀ {n : ℕ}, n ≤ l0Count →
      n < bound trigger s.tree := by
    intro hstalled n hn
    have hlt : ¬ trigger ≤ l0Count := of_decide_eq_false hstalled
    rw [bound]
    omega
  have hsession := inSession_afterCheck h.session ho (decide (trigger ≤ l0Count)) who
  cases who with
  | flush =>
    refine .of_unchecked rfl hsession h.deep (fun _ => h.level0 ho) fun _ hneeds => ?_
    rcases hneeds with ⟨⟨⟩⟩ | ⟨hstalled, -⟩
    exact hfew hstalled (h.flushCount l0Count hcheck).2
  | compact =>
    refine .of_unchecked rfl hsession nofun (fun _ => h.level0 ho) fun _ hneeds => ?_
    rcases hneeds with hadding | ⟨hstalled, hne⟩
    · exact h.room ho (.inl hadding)
    · exact hfew hstalled (h.compactCount l0Count hcheck hne)

/-- **Step lemma.** -/
theorem BoundInv.step (h : BoundInv trigger s) (hs : s.step trigger a = some s') :
    BoundInv trigger s' := by
  cases step_cases hs with
  | @tree a t hchecks ht =>
    have hsession := Tree.InSession.step h.session ht
    have hmoves : s.tree.opened = true → t.OutputsDeep → Tree.Room s.tree t →
        BoundInv trigger ⟨t, if t.opened = true then s.check else none⟩ := by
      intro ho hdeep hm
      rw [if_pos hm.opened]
      exact h.moves ho hsession hdeep hm
    cases Tree.step_cases ht with
    | openTree hclosed hopen =>
      obtain ⟨hflush, hcompact, hstalled⟩ := h.session.idle hclosed
      have hcheck := h.closed hclosed
      rw [Tree.openSession] at hopen
      split at hopen
      · cases hopen
      · split at hopen <;> cases hopen
        -- what is found is within the bound, with room for one more
        rename_i m _ _
        have hroom : (m.current.levels 0).length < max trigger ((m.current.levels 0).length + 1) :=
          Nat.lt_of_lt_of_le (Nat.lt_succ_self _) (Nat.le_max_right _ _)
        refine .of_unchecked (by simp [hcheck]) hsession (fun c hc => ?_) (fun _ => hroom.le)
          fun _ _ => hroom
        rw [hcompact] at hc
        cases hc
    | close ho | kill ho =>
      exact .of_unchecked rfl hsession (by rintro c ⟨⟩) (by rintro ⟨⟩) (by rintro ⟨⟩)
    | flush ho hs =>
      have hdeep : t.OutputsDeep := by
        cases hs <;> exact h.deep
      exact hmoves ho hdeep (hs.room hchecks ho)
    | compact ho hs => exact hmoves ho (h.deep.step hs) (hs.room hchecks ho h.session h.deep)
    | lookup ho hs =>
      have hdeep : t.OutputsDeep := by
        cases hs <;> exact h.deep
      exact hmoves ho hdeep (hs.room ho)
  | readCount ho hat => exact h.counted ho hat
  | writeStalled hcheck => exact h.written hcheck

/-- **A write stall bounds level `0`.** In every state of every run over any directory, with any
number of sessions: level `0` has at most as many files as the stall trigger, or one more than the
session found. -/
theorem level0_bounded {files : ℕ → Option fmt.File} {contents : ℕ → List Memtable.Entry}
    {manifest : Bytes} {tr : List StallAct}
    (hr : Machine.run (step trigger) (closed files contents manifest) tr = some s)
    (ho : s.tree.opened = true) :
    (s.tree.version.levels 0).length ≤ max trigger ((s.tree.found.levels 0).length + 1) := by
  have hclosed : BoundInv trigger (closed files contents manifest) :=
    .of_unchecked rfl (Tree.inSession_closed files contents manifest) nofun nofun nofun
  have hinv : BoundInv trigger s :=
    Machine.run_invariant (fun _ _ _ hi hs => hi.step hs) hclosed hr
  exact hinv.level0 ho

/-- Five flushes on an empty directory come to the bound, and the writes stall. -/
theorem level0_bounded_five : ∃ s : Stalling Config.noFilter.format,
    Machine.run (step 5) (closed (fun _ => none) (fun _ => []) []) fiveFlushes = some s ∧
      s.tree.stalled = true ∧ s.tree.found.levels 0 = [] ∧
      (s.tree.version.levels 0).length = 5 ∧
      (s.tree.version.levels 0).length ≤ max 5 ((s.tree.found.levels 0).length + 1) := by
  obtain ⟨s, hs, ⟨hstalled, -⟩, hopened, hfive, hfound⟩ := exists_fiveFlushes
  exact ⟨s, hs, hstalled, hfound, hfive, level0_bounded hs hopened⟩

end Stalling

end Stratum.Lsm
