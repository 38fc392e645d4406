import Mathlib.Data.Nat.Basic
import Mathlib.Tactic.Common

/-!
# Binary search for the first index

`search n f` is the smallest index below `n` at which `f` holds, or `n` when there is none, found
by halving, for an `f` that is false up to some point and true from there on. The interval shrinks
in every round, so `n` rounds are enough. `searchM` is the same search with a test that can fail.
-/

namespace BinarySearch

/-- The loop over the interval `[lo, hi)`. -/
def loop (f : ℕ → Bool) : ℕ → ℕ → ℕ → ℕ
  | 0, lo, _ => lo
  | fuel + 1, lo, hi =>
    if lo < hi then
      let mid := (lo + hi) / 2
      if f mid then loop f fuel lo mid else loop f fuel (mid + 1) hi
    else lo

/-- The first index below `n` at which `f` holds. -/
def search (n : ℕ) (f : ℕ → Bool) : ℕ := loop f n 0 n

/-- The loop finds the point where `f` changes, wherever in the interval it lies. -/
theorem loop_eq {f : ℕ → Bool} {n i fuel lo hi : ℕ} (hbelow : ∀ j < i, f j = false)
    (habove : ∀ j, i ≤ j → j < n → f j = true) (hlo : lo ≤ i) (hhi : i ≤ hi) (hn : hi ≤ n)
    (hfuel : hi - lo ≤ fuel) : loop f fuel lo hi = i := by
  induction fuel generalizing lo hi with
  | zero =>
    rw [loop]
    omega
  | succ fuel ih =>
    simp only [loop]
    split
    · split
      · rename_i hlt hmid
        -- the midpoint is not below the change
        have hi' : i ≤ (lo + hi) / 2 := by
          by_contra hnot
          rw [hbelow _ (by omega)] at hmid
          cases hmid
        exact ih hlo hi' (by omega) (by omega)
      · rename_i hlt hmid
        have hi' : (lo + hi) / 2 < i := by
          by_contra hnot
          exact hmid (habove _ (by omega) (by omega))
        exact ih (by omega) hhi hn (by omega)
    · omega

/-- **The search finds the change**: `f` is false below `i` and true from `i` on. -/
theorem search_eq {f : ℕ → Bool} {n i : ℕ} (hi : i ≤ n) (hbelow : ∀ j < i, f j = false)
    (habove : ∀ j, i ≤ j → j < n → f j = true) : search n f = i :=
  loop_eq hbelow habove (Nat.zero_le i) hi le_rfl (by omega)

/-! ### A test that can fail -/

section Failing

variable {E : Type}

/-- The loop over the interval `[lo, hi)`, to the first failure. -/
def loopM (f : ℕ → Except E Bool) (lo hi : ℕ) : Except E ℕ :=
  if lo < hi then do
    let holds ← f ((lo + hi) / 2)
    if holds then loopM f lo ((lo + hi) / 2) else loopM f ((lo + hi) / 2 + 1) hi
  else pure lo
termination_by hi - lo

/-- The search with a test that can fail. -/
def searchM (n : ℕ) (f : ℕ → Except E Bool) : Except E ℕ := loopM f 0 n

/-- A test that does not fail below `n` is only made there. -/
theorem loopM_eq {f : ℕ → Except E Bool} {g : ℕ → Bool} {n fuel lo hi : ℕ}
    (hf : ∀ i < n, f i = .ok (g i)) (hn : hi ≤ n) (hfuel : hi - lo ≤ fuel) :
    loopM f lo hi = .ok (loop g fuel lo hi) := by
  induction fuel generalizing lo hi with
  | zero =>
    rw [loopM, if_neg (by omega), loop]
    rfl
  | succ fuel ih =>
    rw [loopM, loop]
    by_cases hlt : lo < hi
    · rw [if_pos hlt, if_pos hlt, hf _ (by omega)]
      dsimp only
      cases hmid : g ((lo + hi) / 2) with
      | true => exact @ih lo ((lo + hi) / 2) (by omega) (by omega)
      | false => exact @ih ((lo + hi) / 2 + 1) hi hn (by omega)
    · rw [if_neg hlt, if_neg hlt]
      rfl

theorem searchM_eq {f : ℕ → Except E Bool} {g : ℕ → Bool} {n : ℕ}
    (hf : ∀ i < n, f i = .ok (g i)) : searchM n f = .ok (search n g) :=
  loopM_eq hf le_rfl (by omega)

end Failing

end BinarySearch
