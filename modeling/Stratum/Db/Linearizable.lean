import Stratum.Db.Store
import Stratum.Sstable.RoundTrip

/-!
# Reads across the hand-off from memory to disk

A read looks at the active table, the immutable table and the tree one after the other, while
writers fill the tables, swap them, and the flush loop publishes what was swapped out. Still the
answer is one that the key had **at some instant during the read** (`get_mem_visited`), as long as
the tables that are flushed can be read back and no flush draws the number of a live file. The
store is one that `Open` made of any directory; a key has the value of its last write, or else what
the tree held when it was opened.

`Extends` says once what a step of anybody can do to the data a read will look at: the tables only
grow at the top, the published part only grows, and the readers of a version stay. `GetInv` is
what a read in progress has established so far, in terms of the values `seen` since it began;
`GetInv.mono` keeps it along every step of the others, and `GetInv.step` along the read's own.
-/

namespace Stratum.Db.Store

open Memtable Lsm LastWrite Sstable ByteCodec

variable {fmt : TableFormat} {base : Bytes → Except fmt.Err (Option (Option Bytes))}
  {held : Option (Option Bytes)} {s s' : Store fmt} {a : StoreAct} {k : Bytes} {c : ClientId}

/-- What the first `n` tables have for a key, or else the tree when it was opened: `held`. -/
def below (held : Option (Option Bytes)) (s : Store fmt) (n : ℕ) (key : Bytes) : Option Bytes :=
  ((Manager.newest s.mgr.tables n key).or held).join

/-- The value of a key: that of the write that took effect last, or else what the tree held when
it was opened; none when there is none or it was a deletion. -/
def value (held : Option (Option Bytes)) (s : Store fmt) (key : Bytes) : Option Bytes :=
  ((s.mgr.current key).or held).join

/-! ### What a step leaves of the data below a read -/

/-- The data of a key in `s'` extends that in `s`. -/
structure Extends (k : Bytes) (s s' : Store fmt) : Prop where
  active_le : s.mgr.active ≤ s'.mgr.active
  get_of_lt : ∀ j < s.mgr.active, (s'.mgr.tables j).get k = (s.mgr.tables j).get k
  get_new : ∀ j v, j ≤ s'.mgr.active → (s'.mgr.tables j).get k = some v →
    (j ≤ s.mgr.active ∧ (s.mgr.tables j).get k = some v) ∨ s'.mgr.current k = some v
  get_ne_none : ∀ j ≤ s.mgr.active, (s.mgr.tables j).get k ≠ none →
    (s'.mgr.tables j).get k ≠ none
  published_le : s.published ≤ s'.published
  live : ∀ n, s.version.Live n → s'.version.Live n
  readers : ∀ n, s.version.Live n → s'.readers n = s.readers n

private theorem extends_of_mgr_eq (hm : s'.mgr = s.mgr) (hp : s.published ≤ s'.published)
    (hlive : ∀ n, s.version.Live n → s'.version.Live n)
    (hr : ∀ n, s.version.Live n → s'.readers n = s.readers n) : Extends k s s' := by
  refine ⟨?_, ?_, ?_, ?_, hp, hlive, hr⟩ <;> rw [hm]
  · exact fun _ _ => rfl
  · exact fun j v hj hv => .inl ⟨hj, hv⟩
  · exact fun _ _ => id

private theorem extends_of_mgr_step {a : Act} (hm : Manager.Step s.mgr a s'.mgr)
    (hp : s.published ≤ s'.published) (hv : s'.version = s.version)
    (hr : s'.readers = s.readers) : Extends k s s' where
  active_le := hm.active_le
  get_of_lt j hj := hm.get_of_lt hj k
  get_new j v hj hget := hm.get_eq_current hj hget
  get_ne_none j hj := hm.get_ne_none hj
  published_le := hp
  live n hn := hv ▸ hn
  readers n _ := by rw [hr]

/-- **Step lemma**: every step extends the data. -/
theorem Step.extends (h : StoreInv base s) (hs : Step s a s') (k : Bytes) : Extends k s s' := by
  cases hs with
  | mgr ha hm => exact extends_of_mgr_step hm (h.published_mgr ha hm).ge rfl rfl
  | flushOk hj hm =>
    refine extends_of_mgr_step hm (le_of_eq ?_) rfl rfl
    cases hm with
    | flushOk hf =>
      have himm := h.tables.flushing_eq _ _ hf
      simp [published, flushedImmutable, himm, hj, FlushPc.isFlushed]
  | create hf hj =>
    exact extends_of_mgr_eq rfl (by simp [published, flushedImmutable, hj]) (fun _ => id)
      fun _ _ => rfl
  | @register stop i num r hf hj hr =>
    refine extends_of_mgr_eq rfl (by simp [published, flushedImmutable, hj]) (fun _ => id) ?_
    intro n hn
    have hne : n ≠ num := fun heq => h.fresh_job num (.inl hj) (heq ▸ hn)
    rw [register_readers, Function.update_of_ne hne]
  | @apply stop i num m hf hj hm =>
    refine extends_of_mgr_eq rfl ?_ (fun n hn => ?_) fun _ _ => rfl
    · have himm := h.tables.flushing_eq _ _ hf
      simp [published, flushedImmutable, himm, hj, hf, FlushPc.isFlushed]
    · change m.current.Live n
      rw [h.current_apply hm]
      exact Version.live_addL0.mpr (.inl hn)
  | applyErr hf hj | flushErr hj =>
    exact extends_of_mgr_eq rfl (by simp [published, flushedImmutable, hj]) (fun _ => id)
      fun _ _ => rfl
  | _ => exact extends_of_mgr_eq rfl le_rfl (fun _ => id) fun _ _ => rfl

/-! ### What a read in progress knows -/

/-- The values in the tables from `n` on were all seen since the read began, and so was what the
tables below `n` hold. -/
structure Window (s : Store fmt) (seen : Option Bytes → Prop) (k : Bytes) (n : ℕ) : Prop where
  le : n ≤ s.mgr.active
  above : ∀ j v, n ≤ j → j ≤ s.mgr.active → (s.mgr.tables j).get k = some v → seen v

/-- The immutable table of a snapshot whose active table is `n`, and the published ones, together
are all tables below `n`. -/
def Covered (s : Store fmt) (n : ℕ) : Option ℕ → Prop
  | none => n ≤ s.published
  | some i => i + 1 = n ∧ i ≤ s.published

/-- What a read of `k` has established, `seen` being the values of `k` since it began. -/
def GetInv (held : Option (Option Bytes)) (seen : Option Bytes → Prop) (k : Bytes)
    (s : Store fmt) : GetPc fmt.Err → Prop
  | .idle => False
  | .started key => key = k
  | .snapped key n imm => key = k ∧ Window s seen k n ∧
      ((s.mgr.tables n).get k = none → seen (s.below held n k)) ∧
      Covered s n imm
  | .missedActive key imm => key = k ∧ ∃ n, Window s seen k n ∧
      seen (s.below held n k) ∧ Covered s n imm
  | .missedTables key => key = k ∧ ∃ n p, Window s seen k n ∧
      seen (s.below held n k) ∧ p ≤ n ∧ p ≤ s.published ∧
      ∀ j, p ≤ j → j < n → (s.mgr.tables j).get k = none
  | .snappedVersion key v => key = k ∧ (∀ n, v.Live n → s.version.Live n) ∧
      ∃ r, v.get s.readers fmt.get k = .ok r ∧ seen r.join
  | .done key res => key = k ∧ ∃ v, res = .ok v ∧ seen v

section Mono

variable {seen seen' : Option Bytes → Prop}

private theorem Window.mono {n : ℕ} (hw : Window s seen k n) (he : Extends k s s')
    (hseen : ∀ v, seen v → seen' v) (hnow : seen' (s'.value held k)) : Window s' seen' k n := by
  refine ⟨hw.le.trans he.active_le, fun j v hj hj' hv => ?_⟩
  rcases he.get_new j v hj' hv with ⟨hle, hold⟩ | hcur
  · exact hseen v (hw.above j v hj hle hold)
  · rw [value, hcur] at hnow
    exact hnow

private theorem Covered.mono {n : ℕ} {imm : Option ℕ} (hc : Covered s n imm)
    (he : Extends k s s') : Covered s' n imm := by
  cases imm with
  | none => exact le_trans hc he.published_le
  | some i => exact ⟨hc.1, le_trans hc.2 he.published_le⟩

private theorem below_extends {n : ℕ} (hn : n ≤ s.mgr.active) (he : Extends k s s') :
    s'.below held n k = s.below held n k := by
  rw [below, Manager.newest_congr fun j hj => he.get_of_lt j (lt_of_lt_of_le hj hn), below]

/-- What a read knows stays true while the others move. -/
theorem GetInv.mono {pc : GetPc fmt.Err} (h : GetInv held seen k s pc) (he : Extends k s s')
    (hseen : ∀ v, seen v → seen' v) (hnow : seen' (s'.value held k)) :
    GetInv held seen' k s' pc := by
  cases pc with
  | idle => exact h
  | started key => exact h
  | snapped key n imm =>
    obtain ⟨rfl, hw, hmiss, hcov⟩ := h
    refine ⟨rfl, hw.mono he hseen hnow, fun hnone => ?_, hcov.mono he⟩
    rw [below_extends hw.le he]
    refine hseen _ (hmiss ?_)
    by_contra hne
    exact he.get_ne_none n hw.le hne hnone
  | missedActive key imm =>
    obtain ⟨rfl, n, hw, hbelow, hcov⟩ := h
    refine ⟨rfl, n, hw.mono he hseen hnow, ?_, hcov.mono he⟩
    rw [below_extends hw.le he]
    exact hseen _ hbelow
  | missedTables key =>
    obtain ⟨rfl, n, p, hw, hbelow, hpn, hpub, hgap⟩ := h
    refine ⟨rfl, n, p, hw.mono he hseen hnow, ?_, hpn, hpub.trans he.published_le,
      fun j hj hjn => ?_⟩
    · rw [below_extends hw.le he]
      exact hseen _ hbelow
    · rw [he.get_of_lt j (lt_of_lt_of_le hjn hw.le)]
      exact hgap j hj hjn
  | snappedVersion key v =>
    obtain ⟨rfl, hlive, r, hr, hsr⟩ := h
    refine ⟨rfl, fun n hn => he.live n (hlive n hn), r, ?_, hseen _ hsr⟩
    rw [← hr]
    exact Version.get_congr (fun n hn => he.readers n (hlive n hn)) key
  | done key res =>
    obtain ⟨rfl, v, rfl, hv⟩ := h
    exact ⟨rfl, v, rfl, hseen v hv⟩

end Mono

section Own

variable {seen : Option Bytes → Prop}

/-- What the first `q` tables have, when those from `p` on lack the key. -/
private theorem below_of_gap {p q : ℕ} (hpq : p ≤ q)
    (hgap : ∀ j, p ≤ j → j < q → (s.mgr.tables j).get k = none) :
    s.below held q k = s.below held p k := by
  induction q, hpq using Nat.le_induction with
  | base => rfl
  | succ q hpq ih =>
    rw [below, Manager.newest, hgap q hpq (Nat.lt_succ_self q), Option.none_or]
    exact ih fun j hj hjq => hgap j hj (Nat.lt_succ_of_lt hjq)

/-- Going up from `n`, the newest value is one of the tables above `n` or the one below. -/
private theorem seen_newest_of_le {n q : ℕ} (hw : Window s seen k n)
    (hbelow : seen (s.below held n k)) (hnq : n ≤ q) (hq : q ≤ s.mgr.active) :
    seen (s.below held q k) := by
  induction q, hnq using Nat.le_induction with
  | base => exact hbelow
  | succ q hnq ih =>
    rw [below, Manager.newest]
    cases hget : (s.mgr.tables q).get k with
    | none =>
      rw [Option.none_or]
      exact ih (by omega)
    | some v => exact hw.above q v hnq (by omega) hget

/-- What the version answers when both memory tables missed was the value at some instant. -/
private theorem seen_lookup {n p : ℕ} (h : StoreInv base s) (hw : Window s seen k n)
    (hbelow : seen (s.below held n k)) (hpn : p ≤ n) (hpub : p ≤ s.published)
    (hgap : ∀ j, p ≤ j → j < n → (s.mgr.tables j).get k = none) :
    seen (s.below held s.published k) := by
  rcases le_total n s.published with hle | hle
  · exact seen_newest_of_le hw hbelow hle h.published_le
  · -- nothing lies between the published tables and the snapshot
    rw [below_of_gap hpub fun j hj hj' => hgap j hj (by omega), ← below_of_gap hpn hgap]
    exact hbelow

private theorem covered_immutable (h : StoreInv base s) :
    Covered s s.mgr.active s.mgr.immutable := by
  cases himm : s.mgr.immutable with
  | none => exact le_of_eq (by rw [published, himm])
  | some i =>
    refine ⟨h.tables.immutable_succ i himm, ?_⟩
    rw [published, himm]
    dsimp only
    split <;> omega

/-- The active table of a snapshot holds the current value of its keys. -/
private theorem window_active (h : StoreInv base s) (hnow : seen (s.value held k)) :
    Window s seen k s.mgr.active := by
  refine ⟨le_rfl, fun j v hj hj' hv => ?_⟩
  obtain rfl : j = s.mgr.active := le_antisymm hj' hj
  have htop := h.tables.newest_eq k
  rw [Manager.newest, hv, Option.some_or] at htop
  rw [value, ← htop] at hnow
  exact hnow

/-- A key the active table lacks has its current value in the tables below. -/
private theorem seen_below_active (h : StoreInv base s) (hnow : seen (s.value held k))
    (hnone : (s.mgr.tables s.mgr.active).get k = none) : seen (s.below held s.mgr.active k) := by
  have htop := h.tables.newest_eq k
  rw [Manager.newest, hnone, Option.none_or] at htop
  rw [below, htop]
  exact hnow

/-- **Step lemma**: the read's own steps. -/
theorem GetInv.own_step (h : GetInv held seen k s (s.gets c)) (hinv : StoreInv base s)
    (hbase : base k = .ok held) (hnow : seen (s.value held k)) (hs : Step s a s')
    (hend : a ≠ .getEnd c) (hown : s'.gets c ≠ s.gets c) : GetInv held seen k s (s'.gets c) := by
  -- a step that moves another read leaves this one where it is
  have hself : ∀ {d : ClientId} {pc : GetPc fmt.Err}, (s.setGet d pc).gets c ≠ s.gets c →
      d = c ∧ (s.setGet d pc).gets c = pc := by
    intro d pc hne
    by_cases hdc : d = c
    · subst hdc
      exact ⟨rfl, by simp⟩
    · exact absurd (by simp [Function.update_of_ne (Ne.symm hdc)]) hne
  cases hs with
  | getStart hpc =>
    obtain ⟨rfl, -⟩ := hself hown
    rw [hpc] at h
    exact h.elim
  | getSnap hpc hmu =>
    obtain ⟨rfl, hnew⟩ := hself hown
    rw [hpc] at h
    cases h
    rw [hnew]
    exact ⟨rfl, window_active hinv hnow, seen_below_active hinv hnow, covered_immutable hinv⟩
  | @getActive d key n imm hpc =>
    obtain ⟨rfl, hnew⟩ := hself hown
    rw [hpc] at h
    obtain ⟨rfl, hw, hmiss, hcov⟩ := h
    rw [hnew]
    cases hget : (s.mgr.tables n).get key with
    | none => exact ⟨rfl, n, hw, hmiss hget, hcov⟩
    | some v => exact ⟨rfl, v, rfl, hw.above n v le_rfl hw.le hget⟩
  | @getImmutable d key imm hpc =>
    obtain ⟨rfl, hnew⟩ := hself hown
    rw [hpc] at h
    obtain ⟨rfl, n, hw, hbelow, hcov⟩ := h
    rw [hnew]
    cases imm with
    | none => exact ⟨rfl, n, n, hw, hbelow, le_rfl, hcov, fun j hj hjn => by omega⟩
    | some i =>
      obtain ⟨rfl, hpub⟩ := hcov
      rw [Option.bind_some]
      cases hget : (s.mgr.tables i).get key with
      | some v =>
        rw [below, Manager.newest, hget] at hbelow
        exact ⟨rfl, v, rfl, hbelow⟩
      | none =>
        refine ⟨rfl, i + 1, i, hw, hbelow, Nat.le_succ i, hpub, fun j hj hjn => ?_⟩
        obtain rfl : j = i := by omega
        exact hget
  | getVersion hpc =>
    obtain ⟨rfl, hnew⟩ := hself hown
    rw [hpc] at h
    obtain ⟨rfl, n, p, hw, hbelow, hpn, hpub, hgap⟩ := h
    rw [hnew]
    refine ⟨rfl, fun _ => id, _, (hinv.lookup _).trans (hbase ▸ orTree_ok _ _), ?_⟩
    exact seen_lookup hinv hw hbelow hpn hpub hgap
  | getSearch hpc =>
    obtain ⟨rfl, hnew⟩ := hself hown
    rw [hpc] at h
    obtain ⟨rfl, -, r, hr, hsr⟩ := h
    rw [hnew, hr]
    exact ⟨rfl, r.join, rfl, hsr⟩
  | getEnd hpc =>
    obtain ⟨rfl, -⟩ := hself hown
    exact absurd rfl hend
  | _ => exact absurd rfl hown

end Own

/-! ### Whole runs -/

/-- A step of anybody but the return of the read keeps what the read knows. -/
theorem GetInv.step {seen seen' : Option Bytes → Prop} (h : GetInv held seen k s (s.gets c))
    (hinv : StoreInv base s) (hbase : base k = .ok held) (hnow : seen (s.value held k))
    (hs : Step s a s') (hend : a ≠ .getEnd c) (hseen : ∀ v, seen v → seen' v)
    (hnow' : seen' (s'.value held k)) : GetInv held seen' k s' (s'.gets c) := by
  have hstay : GetInv held seen k s (s'.gets c) := by
    by_cases hown : s'.gets c = s.gets c
    · rwa [hown]
    · exact h.own_step hinv hbase hnow hs hend hown
  exact hstay.mono (hs.extends hinv k) hseen hnow'

/-- The step draws a fresh number, and writes a table that can be read back. -/
def FreshAndReadable (s : Store fmt) (a : StoreAct) : Prop := FreshNumber s a ∧ ReadableTable s a

/-- What a read knows at the end of a run, `seen` being what it knew at the beginning. -/
private theorem GetInv.run {tr : List StoreAct} {seen : Option Bytes → Prop}
    (h : GetInv held seen k s (s.gets c)) (hinv : StoreInv base s) (hbase : base k = .ok held)
    (hnow : seen (s.value held k)) (hg : Machine.Guarded Store.step FreshAndReadable s tr)
    (hr : Machine.run Store.step s tr = some s') (hend : .getEnd c ∉ tr) :
    GetInv held (fun v => seen v ∨ ∃ t ∈ Machine.visited Store.step s tr, t.value held k = v) k s'
      (s'.gets c) := by
  induction tr generalizing s seen with
  | nil =>
    cases hr
    exact h.mono ((extends_of_mgr_eq rfl le_rfl (fun _ => id) fun _ _ => rfl))
      (fun v hv => .inl hv) (.inl hnow)
  | cons a tr ih =>
    obtain ⟨t, hst, hrt⟩ := Machine.run_cons_eq_some.mp hr
    have hs := step_cases hst
    have hseen' : GetInv held (fun v => seen v ∨ t.value held k = v) k t (t.gets c) :=
      h.step hinv hbase hnow hs (fun ha => hend (by simp [ha])) (fun v hv => .inl hv) (.inr rfl)
    have hrest := ih hseen' (hinv.step hg.1.1 hg.1.2 hs) (.inr rfl) (hg.2 t hst) hrt
      fun hmem => hend (List.mem_cons_of_mem a hmem)
    refine hrest.mono (extends_of_mgr_eq rfl le_rfl (fun _ => id) fun _ _ => rfl) ?_ ?_
    · rintro v ((hv | hv) | ⟨u, hu, hv⟩)
      · exact .inl hv
      · exact .inr ⟨t, by simp [Machine.visited, hst, Machine.mem_visited_self], hv⟩
      · exact .inr ⟨u, by simp [Machine.visited, hst, hu], hv⟩
    · exact .inr ⟨s', Machine.mem_visited_of_run hr, rfl⟩

/-- **A read answers with a value of its key at some instant between its start and its end.** -/
theorem get_mem_visited {before during : List StoreAct} {s₀ s₁ s₂ : Store fmt}
    {res : Except fmt.Err (Option Bytes)} (hinv : StoreInv base s₀) (hbase : base k = .ok held)
    (hbefore : Machine.run Store.step s₀ before = some s₁)
    (hstart : s₁.step (.getStart c k) = some s₂)
    (hduring : Machine.run Store.step s₂ during = some s) (hend : .getEnd c ∉ during)
    (hg : Machine.Guarded Store.step FreshAndReadable s₀ (before ++ .getStart c k :: during))
    (hdone : s.gets c = .done k res) :
    ∃ t ∈ Machine.visited Store.step s₂ during, res = .ok (t.value held k) := by
  obtain ⟨hg₀, hg₁⟩ := hg.of_append hbefore
  have hinv₁ : StoreInv base s₁ := Machine.run_guarded_invariant
    (fun _ _ _ h hg hs => h.step hg.1 hg.2 (step_cases hs)) hinv hg₀ hbefore
  have hs := step_cases hstart
  have hinv₂ : StoreInv base s₂ := hinv₁.step hg₁.1.1 hg₁.1.2 hs
  have hget : GetInv held (fun v => s₂.value held k = v) k s₂ (s₂.gets c) := by
    cases hs with
    | getStart hpc => simp [GetInv]
  have hfinal := hget.run hinv₂ hbase rfl (hg₁.2 s₂ hstart) hduring hend
  rw [hdone] at hfinal
  obtain ⟨-, v, rfl, hv | ⟨t, ht, hv⟩⟩ := hfinal
  · exact ⟨s₂, Machine.mem_visited_self s₂ during, by rw [hv]⟩
  · exact ⟨t, ht, by rw [hv]⟩

/-! ### With the tables of the repository -/

section Tables

variable {cfg : Config}

/-- A step that writes a table writes one of small entries: the block size and the largest encoded
entry together are at most `8 * DefaultBlockSize` (and the table is below `2 ^ 61` bytes). -/
def SmallTable (s : Store cfg.format) : StoreAct → Prop
  | .register =>
    match s.mgr.flush with
    | .flushing _ i => cfg.SmallEntries (s.mgr.tables i).entries ∧
        totalLen (s.mgr.tables i).entries < 2 ^ 61
    | _ => True
  | _ => True

/-- **The condition on a step**: a flush draws a number that no file of the current version has,
and writes a table of small entries. -/
def FreshAndSmall (s : Store cfg.format) (a : StoreAct) : Prop := FreshNumber s a ∧ SmallTable s a

/-- Small tables can be read back. -/
theorem SmallTable.readable {s : Store cfg.format} (h : SmallTable s a) : ReadableTable s a := by
  cases a with
  | register =>
    intro stop i hf
    simp only [SmallTable, hf] at h
    exact ⟨_, h.1.readable (entriesSorted_entries _) h.2⟩
  | _ => trivial

/-- `FreshAndSmall` as a test. -/
def freshAndSmall (s : Store cfg.format) : StoreAct → Bool
  | .create => decide (s.manifest.nextFileNum ∉ s.version.fileNums)
  | .register =>
    match s.mgr.flush with
    | .flushing _ i => decide ((∀ e ∈ (s.mgr.tables i).entries,
        cfg.blockSize + encodedLen e ≤ 8 * defaultBlockSize) ∧
          totalLen (s.mgr.tables i).entries < 2 ^ 61)
    | _ => true
  | _ => true

theorem freshAndSmall_iff {s : Store cfg.format} :
    freshAndSmall s a = true ↔ FreshAndSmall s a := by
  cases a with
  | create => simp [freshAndSmall, FreshAndSmall, FreshNumber, SmallTable, Version.mem_fileNums]
  | register =>
    cases hf : s.mgr.flush <;>
      simp [freshAndSmall, FreshAndSmall, FreshNumber, SmallTable, hf, Config.SmallEntries]
  | _ => simp [freshAndSmall, FreshAndSmall, FreshNumber, SmallTable]

instance {s : Store cfg.format} : Decidable (FreshAndSmall s a) :=
  decidable_of_iff _ freshAndSmall_iff

/-- **Linearizability of reads across the hand-off.** The store is opened on any directory, and
its tree answers for the key. In every run whose flushes draw fresh numbers and write tables of
small entries, every `DB.Get` of the key that comes to its end answers with the value the key had
at some instant between its start and its end. -/
theorem get_linearizable {files : ℕ → Option cfg.format.File} {manifest : Bytes}
    {batches : List Wal.Batch} {maxSize : ℤ} {before during : List StoreAct}
    {s₀ s₁ s₂ s : Store cfg.format} {res : Except TableErr (Option Bytes)}
    (hopen : openStore files manifest batches maxSize = some s₀) (hheld : s₀.treeGet k = .ok held)
    (hbefore : Machine.run Store.step s₀ before = some s₁)
    (hstart : s₁.step (.getStart c k) = some s₂)
    (hduring : Machine.run Store.step s₂ during = some s) (hend : .getEnd c ∉ during)
    (hg : Machine.Guarded Store.step FreshAndSmall s₀ (before ++ .getStart c k :: during))
    (hdone : s.gets c = .done k res) :
    ∃ t ∈ Machine.visited Store.step s₂ during, res = .ok (t.value held k) :=
  get_mem_visited (storeInv_openStore hopen) hheld hbefore hstart hduring hend
    (hg.mono fun _ _ h => ⟨h.1, SmallTable.readable h.2⟩) hdone

end Tables

/-! ### One put, its flush, and a read -/

section OnePut

open Wal

/-- The log has nothing to replay. -/
def replayNothing : List StoreAct := [.mgr (.lock 0), .mgr (.finish 0), .mgr (.ret 0)]

/-- A put that fills the active table, up to the swap of the tables. -/
def putAndSwap (k v : Bytes) : List StoreAct :=
  [.mgr (.call 0 ⟨[⟨opPut, k, some v⟩]⟩), .mgr (.submit 0), .mgr (.lock 0), .mgr (.insert 0 1)]

/-- The put returns, and the flush loop takes its table. -/
def returnAndTake : List StoreAct :=
  [.mgr (.send 0), .mgr (.finish 0), .mgr (.ret 0), .mgr .recv, .mgr .readImmutable]

/-- The flush. -/
def flushAndClear : List StoreAct := [.create, .register, .apply, .mgr .flushOk, .mgr .clear]

/-- A read, up to its answer. -/
def readThrough (c : ClientId) : List StoreAct :=
  [.getSnap c, .getActive c, .getImmutable c, .getVersion c, .getSearch c]

/-- A put of another key fills its table, and the table is flushed. -/
def putOther : List StoreAct :=
  replayNothing ++ putAndSwap [108] [7] ++ returnAndTake ++ flushAndClear

/-- What an earlier session has put. -/
def oldEntry : Entry := ([107], some [1])

/-- `Open` on the directory of that session, which has flushed it to the table `num`. -/
def openOld (fmt : TableFormat) (num : ℕ) : Option (Store fmt) :=
  openStore (Function.update (fun _ => none) num (some (fmt.write [oldEntry])))
    (flushEdit (tableFile fmt 0 num [oldEntry])).frame [] 1

/-- **A read that misses its key.** An earlier session has left the key in its table `1`. The file
numbers begin at `1` again: when the memory is flushed, its table takes the place of that one.
`DB.Get` finds nothing, although the key had its value all the time. -/
theorem get_misses_on_reused_number :
    ∃ s₀ s₁ s₂ s : Store Config.noFilter.format,
      openOld Config.noFilter.format 1 = some s₀ ∧
      s₀.treeGet [107] = .ok (some (some [1])) ∧
      Machine.run Store.step s₀ putOther = some s₁ ∧
      s₁.step (.getStart 1 [107]) = some s₂ ∧
      Machine.run Store.step s₂ (readThrough 1) = some s ∧ s.gets 1 = .done [107] (.ok none) ∧
      ∀ t ∈ Machine.visited Store.step s₂ (readThrough 1),
        t.value (some (some [1])) [107] = some [1] := by
  have hrun : (openOld Config.noFilter.format 1).any
      fun s₀ => decide (s₀.treeGet [107] = .ok (some (some [1]))) &&
        (Machine.run Store.step s₀ putOther).any fun s₁ =>
          (s₁.step (.getStart 1 [107])).any fun s₂ =>
            (Machine.run Store.step s₂ (readThrough 1)).any fun s =>
              decide ((s.gets 1).answered = some ([107], .ok none) ∧
                ∀ t ∈ Machine.visited Store.step s₂ (readThrough 1),
                  t.value (some (some [1])) [107] = some [1]) := by
    decide +kernel
  obtain ⟨s₀, h₀, hrun⟩ := (Option.any_eq_true _ _).mp hrun
  obtain ⟨hheld, hrun⟩ := Bool.and_eq_true_iff.mp hrun
  obtain ⟨s₁, h₁, hrun⟩ := (Option.any_eq_true _ _).mp hrun
  obtain ⟨s₂, h₂, hrun⟩ := (Option.any_eq_true _ _).mp hrun
  obtain ⟨s, hs, hrun⟩ := (Option.any_eq_true _ _).mp hrun
  obtain ⟨hdone, hvalue⟩ := of_decide_eq_true hrun
  exact ⟨s₀, s₁, s₂, s, h₀, of_decide_eq_true hheld, h₁, h₂, hs,
    GetPc.answered_eq_some.mp hdone, hvalue⟩

/-- The same before the read goes on. -/
def flushDuringRead : List StoreAct := putOther ++ readThrough 1

/-- With a fresh number, a read of the old key beside a flush. -/
theorem get_linearizable_flushed :
    ∃ s₀ s₁ s : Store Config.noFilter.format,
      openOld Config.noFilter.format 2 = some s₀ ∧
      s₀.step (.getStart 1 [107]) = some s₁ ∧
      Machine.run Store.step s₁ flushDuringRead = some s ∧
      s.gets 1 = .done [107] (.ok (some [1])) ∧
      ∃ t ∈ Machine.visited Store.step s₁ flushDuringRead,
        t.value (some (some [1])) [107] = some [1] := by
  have hrun : (openOld Config.noFilter.format 2).any
      fun s₀ => (s₀.step (.getStart 1 [107])).any fun s₁ =>
        (Machine.run Store.step s₁ flushDuringRead).any fun s =>
          decide (s₀.treeGet [107] = .ok (some (some [1])) ∧
            (s.gets 1).answered = some ([107], .ok (some [1])) ∧
            Machine.Guarded Store.step FreshAndSmall s₀
              ([] ++ .getStart 1 [107] :: flushDuringRead)) := by
    decide +kernel
  obtain ⟨s₀, h₀, hrun⟩ := (Option.any_eq_true _ _).mp hrun
  obtain ⟨s₁, h₁, hrun⟩ := (Option.any_eq_true _ _).mp hrun
  obtain ⟨s, hs, hrun⟩ := (Option.any_eq_true _ _).mp hrun
  obtain ⟨hheld, hdone, hg⟩ := of_decide_eq_true hrun
  have hdone := GetPc.answered_eq_some.mp hdone
  obtain ⟨t, ht, hv⟩ := get_linearizable h₀ hheld rfl h₁ hs (by decide) hg hdone
  exact ⟨s₀, s₁, s, h₀, h₁, hs, hdone, t, ht, (Except.ok.inj hv).symm⟩

end OnePut

end Stratum.Db.Store
