import Mathlib.Data.Finite.Defs
import Mathlib.Order.WellFounded

/-!
# Versions, snapshots and pruning

The versions of one key are a relation between timestamps and values, with `none` for a tombstone. A
**snapshot** `s` sees the newest version up to `s`, and nothing when that is a tombstone.

A store that consists of a part `A` and of a rest `B` is *pruned* in the part `A`: of the versions
below a bound `m` the newest one stays, or, if `deep` is true, not even that when it is a tombstone.
`visible_pruned_iff` says for which `A` and `B` no snapshot from `m` on can tell: the tombstone that
goes must not have hidden a version **in the rest**.
-/

namespace Versions

/-- The order of machine words, as a linear order. -/
scoped instance wordOrder : LinearOrder UInt64 where
  le_refl := UInt64.le_refl
  le_trans _ _ _ := UInt64.le_trans
  lt_iff_le_not_ge a b := by
    simp only [UInt64.lt_iff_toNat_lt, UInt64.le_iff_toNat_le]
    omega
  le_antisymm _ _ := UInt64.le_antisymm
  le_total := UInt64.le_total
  toDecidableLE := inferInstance
  toDecidableEq := inferInstance
  toDecidableLT := inferInstance
  compare_eq_compareOfLessAndEq _ _ := rfl

scoped instance wordOrder_wellFounded : WellFoundedGT UInt64 :=
  ⟨Subrelation.wf (fun {a b} (h : b < a) => by
    have hlt : b.toNat < a.toNat := UInt64.lt_iff_toNat_lt.mp h
    have ha := a.toNat_lt
    change 2 ^ 64 - a.toNat < 2 ^ 64 - b.toNat
    omega) (measure fun a : UInt64 => 2 ^ 64 - a.toNat).wf⟩

variable {τ β : Type*} [LinearOrder τ] {A B : τ → Option β → Prop} {m s ts : τ} {x : β}
  {v : Option β} {deep : Prop}

/-- The snapshot `s` sees the value `x`. -/
def Visible (P : τ → Option β → Prop) (s : τ) (x : β) : Prop :=
  ∃ ts ≤ s, P ts (some x) ∧ ∀ ts' v, P ts' v → ts' ≤ s → ts' ≤ ts

/-- No version below `m` is newer. -/
def NewestBelow (A : τ → Option β → Prop) (m ts : τ) : Prop :=
  ∀ ts' v, A ts' v → ts' < m → ts' ≤ ts

/-- What stays of the versions `A`. -/
def Pruned (A : τ → Option β → Prop) (m : τ) (deep : Prop) (ts : τ) (v : Option β) : Prop :=
  A ts v ∧ (ts < m → NewestBelow A m ts ∧ ¬ (v = none ∧ deep))

/-- The tombstone that goes. -/
structure Dropped (A : τ → Option β → Prop) (m : τ) (deep : Prop) (ts : τ) : Prop where
  deep : deep
  lt : ts < m
  tombstone : A ts none
  newest : NewestBelow A m ts

/-- Nothing below `ts` comes to light: the newest version there, if there is one, is a tombstone. -/
def Quiet (B : τ → Option β → Prop) (ts : τ) : Prop :=
  ∀ ts' x, B ts' (some x) → ts' < ts → ∃ ts'' v, B ts'' v ∧ ts' < ts'' ∧ ts'' < ts

private theorem visible_of_visible (hs : m ≤ s)
    (h : Visible (fun ts v => A ts v ∨ B ts v) s x) :
    Visible (fun ts v => Pruned A m deep ts v ∨ B ts v) s x := by
  obtain ⟨ts, hle, hx, hmax⟩ := h
  refine ⟨ts, hle, ?_, fun ts' v hv => hmax ts' v (hv.imp_left And.left)⟩
  refine hx.imp_left fun hA => ⟨hA, fun _ => ⟨fun ts' v hv hlt => ?_, by simp⟩⟩
  exact hmax ts' v (.inl hv) (hlt.le.trans hs)

/-- What is seen after and not before: a tombstone was dropped above it. -/
private theorem exists_dropped [WellFoundedGT τ] (hs : m ≤ s)
    (hle : ts ≤ s) (hx : Pruned A m deep ts (some x) ∨ B ts (some x))
    (hmax : ∀ ts' v, Pruned A m deep ts' v ∨ B ts' v → ts' ≤ s → ts' ≤ ts)
    (hnot : ¬ Visible (fun ts v => A ts v ∨ B ts v) s x) :
    ∃ ts₀, Dropped A m deep ts₀ ∧ ts < ts₀ := by
  -- some version above `ts` is gone
  obtain ⟨ts', v, hA, hlt', hgt⟩ : ∃ ts' v, A ts' v ∧ ts' < m ∧ ts < ts' := by
    by_contra hno
    refine hnot ⟨ts, hle, hx.imp_left And.left, fun ts' v hv hle' => ?_⟩
    by_contra hgt
    rcases hv with hA | hB
    · by_cases hlt : ts' < m
      · exact hno ⟨ts', v, hA, hlt, lt_of_not_ge hgt⟩
      · exact hgt (hmax ts' v (.inl ⟨hA, fun h => absurd h hlt⟩) hle')
    · exact hgt (hmax ts' v (.inr hB) hle')
  -- then the newest one below the bound is gone
  obtain ⟨ts₀, ⟨v₀, hA₀, hlt₀⟩, hnewest⟩ :=
    wellFounded_gt.has_min {ts | ∃ v, A ts v ∧ ts < m} ⟨ts', v, hA, hlt'⟩
  have hnewest : NewestBelow A m ts₀ := fun ts'' v hv hlt => not_lt.mp (hnewest ts'' ⟨v, hv, hlt⟩)
  have hgt₀ : ts < ts₀ := hgt.trans_le (hnewest ts' v hA hlt')
  have hgone : v₀ = none ∧ deep := by
    by_contra hkeep
    have hle₀ := hmax ts₀ v₀ (.inl ⟨hA₀, fun _ => ⟨hnewest, hkeep⟩⟩) (hlt₀.le.trans hs)
    exact absurd hgt₀ (not_lt.mpr hle₀)
  obtain ⟨rfl, hdeep⟩ := hgone
  exact ⟨ts₀, ⟨hdeep, hlt₀, hA₀, hnewest⟩, hgt₀⟩

/-- **When pruning cannot be seen**, for a part and a rest that have no version in common. -/
theorem visible_pruned_iff [WellFoundedGT τ] (hunique : ∀ ts v v', A ts v → A ts v' → v = v')
    (hdisjoint : ∀ ts v v', A ts v → ¬ B ts v') :
    (∀ s, m ≤ s → ∀ x, Visible (fun ts v => Pruned A m deep ts v ∨ B ts v) s x ↔
        Visible (fun ts v => A ts v ∨ B ts v) s x) ↔
      ∀ ts, Dropped A m deep ts →
        (∃ ts' v, (A ts' v ∨ B ts' v) ∧ ts < ts' ∧ ts' ≤ m) ∨ Quiet B ts := by
  constructor
  · intro hsame ts hd
    by_contra hno
    obtain ⟨hnone, hloud⟩ := not_or.mp hno
    simp only [Quiet, not_forall] at hloud
    obtain ⟨ts', x, hx, hlt, hbetween⟩ := hloud
    -- the snapshot `m` sees the version `ts'` of the rest
    have hafter : Visible (fun ts v => Pruned A m deep ts v ∨ B ts v) m x := by
      refine ⟨ts', (hlt.trans hd.lt).le, .inr hx, fun ts'' v hv hle => ?_⟩
      by_contra hgt
      have hle' : ts'' ≤ ts := not_lt.mp fun h =>
        hnone ⟨ts'', v, hv.imp_left And.left, h, hle⟩
      rcases hv with ⟨hA, hkeep⟩ | hB
      · obtain ⟨hnewest, htomb⟩ := hkeep (hle'.trans_lt hd.lt)
        obtain rfl : ts'' = ts := le_antisymm hle' (hnewest ts none hd.tombstone hd.lt)
        exact htomb ⟨hunique _ _ _ hA hd.tombstone, hd.deep⟩
      · rcases hle'.lt_or_eq with hlt' | rfl
        · exact hbetween ⟨ts'', v, hB, lt_of_not_ge hgt, hlt'⟩
        · exact hdisjoint _ _ _ hd.tombstone hB
    -- before, it sees the tombstone
    obtain ⟨ts'', hle, hx', hmax⟩ := (hsame m le_rfl x).mp hafter
    have hge := hmax ts none (.inl hd.tombstone) hd.lt.le
    rcases hge.lt_or_eq with hgt | rfl
    · exact hnone ⟨ts'', _, hx', hgt, hle⟩
    · rcases hx' with hA | hB
      · exact absurd (hunique _ _ _ hA hd.tombstone) nofun
      · exact hdisjoint _ _ _ hd.tombstone hB
  · intro hcond s hs x
    refine ⟨fun ⟨ts, hle, hx, hmax⟩ => ?_, visible_of_visible hs⟩
    by_contra hnot
    obtain ⟨ts₀, hd, hgt⟩ := exists_dropped hs hle hx hmax hnot
    rcases hcond ts₀ hd with ⟨ts', v, hv, hlt', hle'⟩ | hquiet
    · -- a version between the tombstone and `m` stays
      have hstays : Pruned A m deep ts' v ∨ B ts' v := hv.imp_left fun hA =>
        ⟨hA, fun hlt => absurd (hd.newest ts' v hA hlt) (not_le.mpr hlt')⟩
      exact absurd (hmax ts' v hstays (hle'.trans hs)) (not_le.mpr (hgt.trans hlt'))
    · have hB : B ts (some x) := hx.resolve_left fun ⟨hA, hkeep⟩ =>
        absurd ((hkeep (hgt.trans hd.lt)).1 ts₀ none hd.tombstone hd.lt) (not_le.mpr hgt)
      obtain ⟨ts'', v, hB', hlt, hlt''⟩ := hquiet ts x hB hgt
      exact absurd (hmax ts'' v (.inr hB') ((hlt''.trans hd.lt).le.trans hs)) (not_le.mpr hlt)

/-! ### A part of the versions -/

/-- The version that the snapshot `s` gets, tombstone or not. -/
def Shows (P : τ → Option β → Prop) (s ts : τ) (v : Option β) : Prop :=
  P ts v ∧ ts ≤ s ∧ ∀ ts' v', P ts' v' → ts' ≤ s → ts' ≤ ts

/-- A snapshot gets something as soon as there is a version up to it. -/
theorem exists_shows [WellFoundedGT τ] (hv : A ts v) (hle : ts ≤ s) :
    ∃ ts' v', Shows A s ts' v' ∧ ts ≤ ts' := by
  obtain ⟨ts', ⟨v', hv', hle'⟩, hmax⟩ :=
    wellFounded_gt.has_min {ts | ∃ v, A ts v ∧ ts ≤ s} ⟨ts, v, hv, hle⟩
  have hnewest : ∀ ts'' v'', A ts'' v'' → ts'' ≤ s → ts'' ≤ ts' := fun ts'' v'' h'' hs =>
    not_lt.mp (hmax ts'' ⟨v'', h'', hs⟩)
  exact ⟨ts', v', ⟨hv', hle', hnewest⟩, hnewest ts v hv hle⟩

/-- A part of the versions that has what `s` gets, or else nothing as old as that: `s` gets the same
from it, or nothing. -/
theorem shows_of_part [WellFoundedGT τ] (hsub : ∀ ts v, B ts v → A ts v)
    (hpart : ∀ ts v, Shows A s ts v → B ts v ∨ ∀ ts' v', B ts' v' → ts < ts')
    (h : Shows B s ts v) : Shows A s ts v := by
  obtain ⟨hB, hle, hmax⟩ := h
  obtain ⟨ts₀, v₀, hshows, hge⟩ := exists_shows (hsub ts v hB) hle
  rcases hpart ts₀ v₀ hshows with hB₀ | hnewer
  · obtain rfl : ts = ts₀ := le_antisymm hge (hmax ts₀ v₀ hB₀ hshows.2.1)
    exact ⟨hsub ts v hB, hshows.2⟩
  · exact absurd (hnewer ts v hB) (not_lt.mpr hge)

end Versions
