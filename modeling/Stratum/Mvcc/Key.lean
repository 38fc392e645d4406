import Mathlib.Order.Basic
import Stratum.Lib.ByteCodec

/-!
# MVCC keys and their order

A stored key is a user key followed by eight bytes, the bitwise inverse of a timestamp in
big-endian order. `compareKeys` compares the user parts first and the whole keys after that, so
that newer versions of one user key come first; keys of fewer than eight bytes are compared as
their own user part. It is a total order on all byte strings, and the instances below are what
the rest of the development uses of it.
-/

namespace Stratum.Mvcc

open ByteCodec

/-- `EncodeKey`: the user key followed by the inverted timestamp. -/
def encodeKey (userKey : Bytes) (ts : UInt64) : Bytes :=
  userKey ++ beBytes 8 (~~~ts).toNat

/-- `DecodeKey`: a key of fewer than eight bytes is its own user key, with timestamp `0`. -/
def decodeKey (mvccKey : Bytes) : Bytes × UInt64 :=
  if mvccKey.length < 8 then (mvccKey, 0)
  else
    let userKeyLen := mvccKey.length - 8
    (mvccKey.take userKeyLen, ~~~(UInt64.ofNat (beNat (mvccKey.drop userKeyLen))))

/-- `UserKey`: the key without its last eight bytes. -/
def userKey (mvccKey : Bytes) : Bytes :=
  if mvccKey.length < 8 then mvccKey else mvccKey.take (mvccKey.length - 8)

/-- `CompareKeys`: user keys first, then the full keys (`bytes.Compare` is `compare`). -/
def compareKeys (a b : Bytes) : Ordering :=
  (compare (userKey a) (userKey b)).then (compare a b)

/-! ### `compareKeys` is a total order -/

instance : Std.TransCmp compareKeys :=
  inferInstanceAs (Std.TransCmp (compareLex (compareOn userKey) compare))

instance : Std.LawfulEqCmp compareKeys where
  eq_of_compare {a b} h := by
    have h' : compare a b = .eq := (Ordering.then_eq_eq.mp h).2
    exact Std.LawfulEqCmp.eq_of_compare h'

@[simp] theorem compareKeys_self (a : Bytes) : compareKeys a a = .eq :=
  Std.ReflCmp.compare_self

variable {a b c : Bytes}

theorem compareKeys_eq_iff : compareKeys a b = .eq ↔ a = b :=
  Std.LawfulEqCmp.compare_eq_iff_eq

theorem compareKeys_gt_iff : compareKeys a b = .gt ↔ compareKeys b a = .lt :=
  Std.OrientedCmp.gt_iff_lt

theorem compareKeys_lt_trans (h₁ : compareKeys a b = .lt) (h₂ : compareKeys b c = .lt) :
    compareKeys a c = .lt :=
  Std.TransCmp.lt_trans h₁ h₂

theorem compareKeys_ne_of_lt (h : compareKeys a b = .lt) : a ≠ b := by
  rintro rfl
  simp at h

/-- What is not below `c` stays not below `c` when it grows. -/
theorem compareKeys_not_lt_of_not_lt (h₁ : compareKeys a c ≠ .lt) (h₂ : compareKeys a b = .lt) :
    compareKeys b c ≠ .lt :=
  fun h => h₁ (compareKeys_lt_trans h₂ h)

/-- `a ≤ b < c`. -/
theorem compareKeys_lt_of_not_lt_of_lt (h₁ : compareKeys b a ≠ .lt) (h₂ : compareKeys b c = .lt) :
    compareKeys a c = .lt := by
  rcases h : compareKeys a c with _ | _ | _
  · rfl
  · rw [compareKeys_eq_iff.mp h] at h₁
    exact absurd h₂ h₁
  · exact absurd (compareKeys_lt_trans h₂ (compareKeys_gt_iff.mp h)) h₁

/-- `a < b ≤ c`. -/
theorem compareKeys_lt_of_lt_of_not_lt (h₁ : compareKeys a b = .lt) (h₂ : compareKeys c b ≠ .lt) :
    compareKeys a c = .lt := by
  rcases h : compareKeys a c with _ | _ | _
  · rfl
  · rw [compareKeys_eq_iff.mp h] at h₁
    exact absurd h₁ h₂
  · exact absurd (compareKeys_lt_trans (compareKeys_gt_iff.mp h) h₁) h₂

/-- `a ≤ b ≤ c`. -/
theorem compareKeys_not_lt_trans (h₁ : compareKeys b a ≠ .lt) (h₂ : compareKeys c b ≠ .lt) :
    compareKeys c a ≠ .lt :=
  fun h => h₂ (compareKeys_lt_of_lt_of_not_lt h h₁)

/-- Any two keys compare one way or the other. -/
theorem compareKeys_trichotomy (a b : Bytes) :
    compareKeys a b = .lt ∨ a = b ∨ compareKeys b a = .lt := by
  rcases h : compareKeys a b with _ | _ | _
  · exact .inl rfl
  · exact .inr (.inl (compareKeys_eq_iff.mp h))
  · exact .inr (.inr (compareKeys_gt_iff.mp h))

/-- A different key that is not below is above. -/
theorem compareKeys_lt_of_not_lt_of_ne (h : compareKeys a b ≠ .lt) (hne : a ≠ b) :
    compareKeys b a = .lt :=
  ((compareKeys_trichotomy a b).resolve_left h).resolve_left hne

/-! ### Encoded keys -/

@[simp] theorem length_encodeKey (u : Bytes) (ts : UInt64) :
    (encodeKey u ts).length = u.length + 8 := by
  simp [encodeKey]

theorem userKey_eq_decodeKey (key : Bytes) : userKey key = (decodeKey key).1 := by
  rw [userKey, decodeKey]
  split <;> rfl

@[simp] theorem decodeKey_encodeKey (u : Bytes) (ts : UInt64) :
    decodeKey (encodeKey u ts) = (u, ts) := by
  have hlt : (~~~ts).toNat < 256 ^ 8 := (~~~ts).toNat_lt
  have hlen : (encodeKey u ts).length - 8 = u.length := by simp
  rw [decodeKey, if_neg (by simp), hlen]
  dsimp only
  rw [encodeKey, List.take_left, List.drop_left, beNat_beBytes_of_lt hlt, UInt64.ofNat_toNat,
    UInt64.not_not]

@[simp] theorem userKey_encodeKey (u : Bytes) (ts : UInt64) : userKey (encodeKey u ts) = u := by
  rw [userKey_eq_decodeKey, decodeKey_encodeKey]

theorem encodeKey_inj {u u' : Bytes} {ts ts' : UInt64} :
    encodeKey u ts = encodeKey u' ts' ↔ u = u' ∧ ts = ts' := by
  refine ⟨fun h => ?_, fun ⟨hu, hts⟩ => by rw [hu, hts]⟩
  have := congrArg decodeKey h
  simpa using this

/-- Encoding the parts of a key of at least eight bytes gives the key. -/
theorem encodeKey_decodeKey {key : Bytes} (h : 8 ≤ key.length) :
    encodeKey (decodeKey key).1 (decodeKey key).2 = key := by
  have hlen : (key.drop (key.length - 8)).length = 8 := by
    rw [List.length_drop]
    omega
  have hlt : beNat (key.drop (key.length - 8)) < 2 ^ 64 := by
    have := beNat_lt (key.drop (key.length - 8))
    rwa [hlen] at this
  rw [decodeKey, if_neg (by omega)]
  dsimp only
  rw [encodeKey, UInt64.not_not, UInt64.toNat_ofNat_of_lt' hlt, beBytes_beNat hlen,
    List.take_append_drop]

/-- **Encoded keys are in the order of their user keys, and newer versions come first.** -/
theorem compareKeys_encodeKey (u u' : Bytes) (ts ts' : UInt64) :
    compareKeys (encodeKey u ts) (encodeKey u' ts') = (compare u u').then (compare ts' ts) := by
  rw [compareKeys, userKey_encodeKey, userKey_encodeKey]
  rcases h : compare u u' with _ | _ | _
  · rfl
  · -- one user key: the inverted timestamps decide
    have hu : u = u' := Std.LawfulEqCmp.eq_of_compare h
    have hinv : ∀ ts : UInt64, (~~~ts).toNat < 256 ^ 8 := fun ts => (~~~ts).toNat_lt
    have hts := ts.toNat_lt
    have hts' := ts'.toNat_lt
    have hsize : UInt64.size = 2 ^ 64 := rfl
    subst hu
    change compare (encodeKey u ts) (encodeKey u ts') = compareOfLessAndEq ts' ts
    rw [encodeKey, encodeKey, compare_append_left, compare_beBytes (hinv ts) (hinv ts'),
      Nat.compare_eq_ite_lt, compareOfLessAndEq]
    simp only [UInt64.lt_iff_toNat_lt, ← UInt64.toNat_inj, UInt64.toNat_not]
    split_ifs <;> first | rfl | omega
  · rfl

theorem compareKeys_encodeKey_lt {u : Bytes} {ts ts' : UInt64} :
    compareKeys (encodeKey u ts) (encodeKey u ts') = .lt ↔ ts' < ts := by
  rw [compareKeys_encodeKey, @Std.ReflCmp.compare_self _ compare _ u]
  exact compareOfLessAndEq_eq_lt

/-- Keys are in the order of their user keys. -/
theorem compare_userKey_ne_gt (h : compareKeys a b = .lt) :
    compare (userKey a) (userKey b) ≠ .gt := by
  intro hgt
  rw [compareKeys, hgt] at h
  cases h

/-! ### The order and the encoding together -/

/-- **The order of MVCC keys.** `compareKeys` is a total order on all byte strings, `EncodeKey` and
`DecodeKey` are inverse to each other on keys of at least eight bytes, and encoded keys are ordered
by user key and then by descending timestamp. -/
theorem mvcc_key_order :
    (∀ a b, compareKeys a b = .eq ↔ a = b) ∧
    (∀ a b, compareKeys b a = (compareKeys a b).swap) ∧
    (∀ a b c, compareKeys a b ≠ .gt → compareKeys b c ≠ .gt → compareKeys a c ≠ .gt) ∧
    (∀ u ts, decodeKey (encodeKey u ts) = (u, ts)) ∧
    (∀ key, 8 ≤ key.length → encodeKey (decodeKey key).1 (decodeKey key).2 = key) ∧
    ∀ u₁ u₂ t₁ t₂,
      compareKeys (encodeKey u₁ t₁) (encodeKey u₂ t₂) = (compare u₁ u₂).then (compare t₂ t₁) := by
  refine ⟨fun a b => compareKeys_eq_iff, fun a b => Std.OrientedCmp.eq_swap, ?_,
    decodeKey_encodeKey, fun key => encodeKey_decodeKey,
    fun u₁ u₂ t₁ t₂ => compareKeys_encodeKey u₁ u₂ t₁ t₂⟩
  intro a b c hab hbc hac
  rw [ne_eq, compareKeys_gt_iff] at hab hbc
  exact compareKeys_not_lt_trans hab hbc (compareKeys_gt_iff.mp hac)

/-- A raw key of two bytes, an encoded one and another version of it. -/
theorem mvcc_key_order_short_and_long :
    compareKeys [1, 2] (encodeKey [1, 2] 7) ≠ .gt ∧
      compareKeys (encodeKey [1, 2] 7) (encodeKey [1, 2] 5) ≠ .gt ∧
      compareKeys [1, 2] (encodeKey [1, 2] 5) ≠ .gt ∧
      encodeKey (decodeKey [0, 0, 0, 0, 0, 0, 0, 1]).1 (decodeKey [0, 0, 0, 0, 0, 0, 0, 1]).2 =
        [0, 0, 0, 0, 0, 0, 0, 1] := by
  have h₁ : compareKeys [1, 2] (encodeKey [1, 2] 7) ≠ .gt := by decide +kernel
  have h₂ : compareKeys (encodeKey [1, 2] 7) (encodeKey [1, 2] 5) ≠ .gt := by decide +kernel
  exact ⟨h₁, h₂, mvcc_key_order.2.2.1 _ _ _ h₁ h₂,
    mvcc_key_order.2.2.2.2.1 [0, 0, 0, 0, 0, 0, 0, 1] (by decide)⟩

end Stratum.Mvcc
