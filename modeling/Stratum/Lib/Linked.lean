import Mathlib.Data.List.Basic

/-!
# Linked cells

Cells are linked by pointers that are read with `read`: it yields what a cell points to, `none`
standing for nil, or **fails** where the cell has no such pointer. `Chain read s ps` says that from
the pointer `s` on there are the cells `ps`, every one of them readable, up to nil.

* `walk` moves on as long as the next cell is below a bound; `Chain.walk_eq` says where it stops.
* `collect` follows the pointers to the end.
* `Chain.splice` is the insertion of a cell behind another one: two pointers change.
-/

namespace Linked

variable {ι : Type*} {read read' : ι → Option (Option ι)} {s : Option ι} {p q h : ι}
  {ps qs l r : List ι}

/-- The cells from a pointer on. -/
inductive Chain (read : ι → Option (Option ι)) : Option ι → List ι → Prop
  | nil : Chain read none []
  | cons {p : ι} {s : Option ι} {ps : List ι} (hread : read p = some s) (rest : Chain read s ps) :
      Chain read (some p) (p :: ps)

/-- Move on as long as the next cell is below the bound. -/
def walk (read : ι → Option (Option ι)) (below : ι → Bool) : ℕ → ι → Option ι
  | 0, _ => none
  | fuel + 1, p =>
    match read p with
    | none => none
    | some none => some p
    | some (some q) => if below q then walk read below fuel q else some p

/-- Follow the pointers to the end. -/
def collect (read : ι → Option (Option ι)) : ℕ → Option ι → Option (List ι)
  | _, none => some []
  | 0, some _ => none
  | fuel + 1, some p => (read p).bind fun s => (collect read fuel s).map (p :: ·)

namespace Chain

/-- The pointer leads to the first cell. -/
theorem start_eq (hc : Chain read s ps) : s = ps.head? := by
  induction hc with
  | nil => rfl
  | cons hread rest ih => rfl

/-- A chain only depends on its own cells. -/
theorem congr (hc : Chain read s ps) (hsame : ∀ p ∈ ps, read' p = read p) : Chain read' s ps := by
  induction hc with
  | nil => exact .nil
  | cons hread rest ih =>
    exact .cons ((hsame _ (by simp)).trans hread) (ih fun p hp => hsame p (by simp [hp]))

/-- The chain from one of its cells on. -/
theorem suffix (hc : Chain read s (ps ++ q :: qs)) : Chain read (some q) (q :: qs) := by
  induction ps generalizing s with
  | nil =>
    obtain rfl : s = some q := hc.start_eq
    exact hc
  | cons p ps ih =>
    rw [List.cons_append] at hc
    cases hc with
    | cons hread rest => exact ih rest

/-- The chain behind its first cells. -/
theorem drop (hc : Chain read s (l ++ r)) : Chain read r.head? r := by
  cases r with
  | nil => exact .nil
  | cons q qs => exact hc.suffix

/-- The last cell of the first part points to the second part. -/
theorem read_last (hc : Chain read (some h) (h :: (l ++ r))) :
    read (l.getLastD h) = some r.head? := by
  induction l generalizing h with
  | nil =>
    cases hc with
    | cons hread rest =>
      rw [List.getLastD_nil, hread, rest.start_eq]
      rfl
  | cons a l ih =>
    rw [List.getLastD_cons]
    exact ih (@suffix _ _ _ _ [h] _ hc)

/-- **Where the walk stops**: behind the cells that are below the bound. -/
theorem walk_eq {below : ι → Bool} (hc : Chain read (some p) (p :: ps)) {fuel : ℕ}
    (hfuel : ps.length < fuel) :
    walk read below fuel p = some ((ps.takeWhile below).getLastD p) := by
  induction fuel generalizing p ps with
  | zero => exact absurd hfuel (Nat.not_lt_zero _)
  | succ fuel ih =>
    cases hc with
    | cons hread rest =>
      cases rest with
      | nil => simp [walk, hread]
      | @cons q s qs hread' rest' =>
        have hlen : qs.length < fuel := by simpa using hfuel
        simp only [walk, hread]
        split
        · rename_i hbelow
          rw [ih (.cons hread' rest') hlen, List.takeWhile_cons_of_pos hbelow, List.getLastD_cons]
        · rename_i hbelow
          rw [List.takeWhile_cons_of_neg hbelow, List.getLastD_nil]

theorem collect_eq (hc : Chain read s ps) {fuel : ℕ} (hfuel : ps.length ≤ fuel) :
    collect read fuel s = some ps := by
  induction fuel generalizing s ps with
  | zero =>
    obtain rfl := List.eq_nil_of_length_eq_zero (Nat.le_zero.mp hfuel)
    cases hc
    rfl
  | succ fuel ih =>
    cases hc with
    | nil => rfl
    | cons hread rest =>
      rw [collect, hread, Option.bind_some, ih rest (by simpa using hfuel), Option.map_some]

/-- **Insertion**: the new cell `q` points to where the last cell of the first part pointed, and
that cell points to `q`. -/
theorem splice (hc : Chain read (some h) (h :: (l ++ r))) (hnodup : (h :: (l ++ r)).Nodup)
    (hq : q ∉ h :: (l ++ r)) (hnew : read' q = read (l.getLastD h))
    (hlast : read' (l.getLastD h) = some (some q))
    (hsame : ∀ p, p ≠ q → p ≠ l.getLastD h → read' p = read p) :
    Chain read' (some h) (h :: (l ++ q :: r)) := by
  induction l generalizing h with
  | nil =>
    simp only [List.nil_append, List.getLastD_nil] at hc hnodup hq hnew hlast hsame ⊢
    cases hc with
    | cons hread rest =>
      rw [hread] at hnew
      refine .cons hlast (.cons hnew (rest.congr fun p hp => hsame p ?_ ?_))
      · rintro rfl
        exact hq (List.mem_cons_of_mem _ hp)
      · rintro rfl
        exact (List.nodup_cons.mp hnodup).1 hp
  | cons a l ih =>
    simp only [List.cons_append, List.getLastD_cons] at hc hnodup hq hnew hlast hsame ⊢
    obtain ⟨hh, hnodup'⟩ := List.nodup_cons.mp hnodup
    have hmem : l.getLastD a ∈ a :: (l ++ r) :=
      List.cons_subset_cons a (List.subset_append_left l r) List.getLastD_mem_cons
    have hne : h ≠ l.getLastD a := by
      rintro rfl
      exact hh hmem
    have hhq : h ≠ q := fun heq => hq (by simp [heq])
    cases hc with
    | cons hread rest =>
      have hstart := rest.start_eq
      rw [List.head?_cons] at hstart
      subst hstart
      exact .cons ((hsame h hhq hne).trans hread)
        (ih rest hnodup' (fun hmem' => hq (List.mem_cons_of_mem _ hmem')) hnew hlast hsame)

end Chain

end Linked
