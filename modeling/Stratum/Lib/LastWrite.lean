import Mathlib.Data.List.Basic
import Mathlib.Data.List.Pairwise
import Mathlib.Order.Basic

/-!
# The last write of a key

A list of bindings, oldest first, read as a map: the value of a key is the one bound last. The
same list tagged with the number of the record each binding came from can be appended to out of
record order; `getLast?_filter_eq_of_tags` says when the order does not matter for a key, namely
when the tags of that key's bindings do not decrease.
-/

namespace LastWrite

variable {κ β γ : Type*} [DecidableEq κ]

/-- The value bound last to `k`. -/
def lastWrite (k : κ) (l : List (κ × β)) : Option β :=
  ((l.filter fun p => decide (p.1 = k)).getLast?).map Prod.snd

@[simp] theorem lastWrite_nil (k : κ) : lastWrite k ([] : List (κ × β)) = none := rfl

/-- Later bindings shadow earlier ones. -/
theorem lastWrite_append (k : κ) (l₁ l₂ : List (κ × β)) :
    lastWrite k (l₁ ++ l₂) = (lastWrite k l₂).or (lastWrite k l₁) := by
  simp only [lastWrite, List.filter_append, List.getLast?_append, Option.map_or]

theorem lastWrite_concat (k : κ) (l : List (κ × β)) (p : κ × β) :
    lastWrite k (l ++ [p]) = if p.1 = k then some p.2 else lastWrite k l := by
  rw [lastWrite_append]
  by_cases h : p.1 = k <;> simp [lastWrite, h]

/-- A key without a value is a key without a binding. -/
theorem lastWrite_eq_none_iff {k : κ} {l : List (κ × β)} :
    lastWrite k l = none ↔ ∀ p ∈ l, p.1 ≠ k := by
  simp only [lastWrite, Option.map_eq_none_iff, List.getLast?_eq_none_iff,
    List.filter_eq_nil_iff, decide_eq_true_eq, ne_eq]

/-- **Tags in order fix the last binding.** Among the bindings that satisfy `p`, let the tags
not decrease along the list and let `q` be an upper bound of them. If some binding tagged `q`
satisfies `p`, the last binding that satisfies `p` is the last one of those tagged `q`. -/
theorem getLast?_filter_eq_of_tags {l : List (ℕ × γ)} {p : ℕ × γ → Bool} {q : ℕ}
    (hsort : (l.filter p).Pairwise fun x y => x.1 ≤ y.1)
    (hle : ∀ x ∈ l.filter p, x.1 ≤ q)
    (hne : ((l.filter fun x => decide (x.1 = q)).filter p) ≠ []) :
    (l.filter p).getLast? = ((l.filter fun x => decide (x.1 = q)).filter p).getLast? := by
  have hcomm : (l.filter fun x => decide (x.1 = q)).filter p
      = (l.filter p).filter fun x => decide (x.1 = q) := by
    simp only [List.filter_filter, Bool.and_comm]
  rw [hcomm] at hne ⊢
  generalize l.filter p = m at hsort hle hne ⊢
  -- the last binding of `m` has the largest tag, which is `q`
  rcases List.eq_nil_or_concat' m with rfl | ⟨m', x, rfl⟩
  · simp at hne
  · have hx : x.1 = q := by
      obtain ⟨y, hy⟩ := List.exists_mem_of_ne_nil _ hne
      obtain ⟨hym, hyq⟩ := List.mem_filter.mp hy
      have hyq' : y.1 = q := by simpa using hyq
      have hxq : x.1 ≤ q := hle x (by simp)
      rcases List.mem_append.mp hym with hy' | hy'
      · have := (List.pairwise_append.mp hsort).2.2 y hy' x (by simp)
        omega
      · obtain rfl : y = x := by simpa using hy'
        exact hyq'
    simp [List.filter_append, hx]

end LastWrite
