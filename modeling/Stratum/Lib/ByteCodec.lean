import Mathlib.Data.Nat.Basic
import Mathlib.Tactic.Ring

/-!
# Fixed-width numbers as bytes

`leBytes w n` is the `w`-byte little-endian form of `n`, reduced modulo `256 ^ w` as a
fixed-width store does it; `leNat` reads such a form back. Big-endian forms are the reversals.
A number survives the round trip when it fits (`leNat_leBytes_of_lt`). `splitBytes` is the bounds
check of a decoder followed by its two slices.
-/

/-- A byte string. -/
abbrev Bytes := List UInt8

namespace ByteCodec

/-- The `w`-byte little-endian form of a number. -/
def leBytes : ℕ → ℕ → Bytes
  | 0, _ => []
  | w + 1, n => UInt8.ofNat n :: leBytes w (n / 256)

/-- The number a little-endian byte string stands for. -/
def leNat : Bytes → ℕ
  | [] => 0
  | b :: bs => b.toNat + 256 * leNat bs

/-- The `w`-byte big-endian form of a number. -/
def beBytes (w n : ℕ) : Bytes := (leBytes w n).reverse

/-- The number a big-endian byte string stands for. -/
def beNat (bs : Bytes) : ℕ := leNat bs.reverse

@[simp] theorem length_leBytes (w n : ℕ) : (leBytes w n).length = w := by
  induction w generalizing n with
  | zero => rfl
  | succ w ih => simp [leBytes, ih]

@[simp] theorem length_beBytes (w n : ℕ) : (beBytes w n).length = w := by
  simp [beBytes]

/-- Reading back a stored number gives it modulo the width. -/
theorem leNat_leBytes (w n : ℕ) : leNat (leBytes w n) = n % 256 ^ w := by
  induction w generalizing n with
  | zero => simp [leBytes, leNat, Nat.mod_one]
  | succ w ih =>
    have hsplit : n % 256 ^ (w + 1) = n % 256 + 256 * (n / 256 % 256 ^ w) := by
      rw [Nat.pow_succ', Nat.mod_mul]
    rw [leBytes, leNat, ih, UInt8.toNat_ofNat', hsplit]

variable {w n : ℕ} {bs a b data : Bytes}

/-- A number that fits survives the round trip. -/
theorem leNat_leBytes_of_lt (h : n < 256 ^ w) : leNat (leBytes w n) = n := by
  rw [leNat_leBytes, Nat.mod_eq_of_lt h]

/-- A byte string stands for a number that fits its length. -/
theorem leNat_lt (bs : Bytes) : leNat bs < 256 ^ bs.length := by
  induction bs with
  | nil => simp [leNat]
  | cons b bs ih =>
    have hb := b.toNat_lt
    rw [leNat, List.length_cons, Nat.pow_succ']
    omega

theorem beNat_beBytes_of_lt (h : n < 256 ^ w) : beNat (beBytes w n) = n := by
  rw [beNat, beBytes, List.reverse_reverse, leNat_leBytes_of_lt h]

/-- A byte string is the form of the number it stands for. -/
theorem leBytes_leNat (bs : Bytes) : leBytes bs.length (leNat bs) = bs := by
  induction bs with
  | nil => rfl
  | cons b bs ih =>
    have hb := b.toNat_lt
    have hdiv : (b.toNat + 256 * leNat bs) / 256 = leNat bs := by omega
    have hbyte : UInt8.ofNat (b.toNat + 256 * leNat bs) = b := by
      rw [← UInt8.toNat_inj, UInt8.toNat_ofNat']
      omega
    rw [leNat, List.length_cons, leBytes, hdiv, hbyte, ih]

theorem beBytes_beNat (h : bs.length = w) : beBytes w (beNat bs) = bs := by
  rw [beBytes, beNat, ← h, ← List.length_reverse, leBytes_leNat, List.reverse_reverse]

theorem beNat_lt (bs : Bytes) : beNat bs < 256 ^ bs.length := by
  simpa [beNat] using leNat_lt bs.reverse

/-! ### The order of byte strings -/

private theorem compare_cons_cons (a b : UInt8) (as bs : Bytes) :
    compare (a :: as) (b :: bs) = (compare a b).then (compare as bs) := by
  change List.compareLex compare (a :: as) (b :: bs) = _
  rw [List.compareLex_cons_cons]
  rfl

/-- A common beginning does not count. -/
theorem compare_append_left (p as bs : Bytes) : compare (p ++ as) (p ++ bs) = compare as bs := by
  induction p with
  | nil => rfl
  | cons x p ih =>
    rw [List.cons_append, List.cons_append, compare_cons_cons, ih,
      @Std.ReflCmp.compare_self _ compare _ x]
    rfl

private theorem compare_concat {as : Bytes} (h : as.length = bs.length) (a b : UInt8) :
    compare (as ++ [a]) (bs ++ [b]) = (compare as bs).then (compare a b) := by
  induction as generalizing bs with
  | nil =>
    cases bs with
    | nil =>
      rw [List.nil_append, List.nil_append, compare_cons_cons]
      cases compare a b <;> rfl
    | cons b bs => cases h
  | cons x as ih =>
    cases bs with
    | nil => cases h
    | cons y bs =>
      rw [List.cons_append, List.cons_append, compare_cons_cons, compare_cons_cons,
        ih (Nat.succ.inj h), Ordering.then_assoc]

private theorem compare_ofNat (n k : ℕ) :
    compare (UInt8.ofNat n) (UInt8.ofNat k) = compare (n % 256) (k % 256) := by
  have hcmp : ∀ a b : UInt8, compare a b = compare a.toNat b.toNat := by
    intro a b
    rw [Nat.compare_eq_ite_lt]
    change compareOfLessAndEq a b = _
    rw [compareOfLessAndEq]
    simp only [UInt8.lt_iff_toNat_lt, ← UInt8.toNat_inj]
    split_ifs <;> first | rfl | omega
  rw [hcmp, UInt8.toNat_ofNat', UInt8.toNat_ofNat']

/-- **Big-endian forms are in the order of the numbers.** -/
theorem compare_beBytes {k : ℕ} (hn : n < 256 ^ w) (hk : k < 256 ^ w) :
    compare (beBytes w n) (beBytes w k) = compare n k := by
  induction w generalizing n k with
  | zero =>
    rw [Nat.lt_one_iff.mp hn, Nat.lt_one_iff.mp hk]
    rfl
  | succ w ih =>
    have hdiv : ∀ {n : ℕ}, n < 256 ^ (w + 1) → n / 256 < 256 ^ w := fun h =>
      Nat.div_lt_of_lt_mul (by rwa [← Nat.pow_succ'])
    -- the last byte is the least significant one
    have hbe : ∀ n, beBytes (w + 1) n = beBytes w (n / 256) ++ [UInt8.ofNat n] := fun n => by
      simp [beBytes, leBytes]
    rw [hbe, hbe, compare_concat (by simp), ih (hdiv hn) (hdiv hk), compare_ofNat,
      Nat.compare_eq_ite_lt, Nat.compare_eq_ite_lt, Nat.compare_eq_ite_lt]
    split_ifs <;> first | rfl | omega

/-! ### Cutting a byte string -/

/-- Cut off the first `n` bytes, when there are that many. -/
def splitBytes (n : ℕ) (data : Bytes) : Option (Bytes × Bytes) :=
  if data.length < n then none else some (data.take n, data.drop n)

/-- Cutting at a known boundary gives the two parts. -/
theorem splitBytes_append (h : a.length = n) :
    splitBytes n (a ++ b) = some (a, b) := by
  subst h
  simp [splitBytes]

theorem length_of_splitBytes (h : splitBytes n data = some (a, b)) :
    a.length = n := by
  rw [splitBytes] at h
  split at h
  · cases h
  · cases h
    rw [List.length_take]
    omega

theorem append_of_splitBytes (h : splitBytes n data = some (a, b)) :
    a ++ b = data := by
  rw [splitBytes] at h
  split at h
  · cases h
  · cases h
    exact List.take_append_drop n data

end ByteCodec
