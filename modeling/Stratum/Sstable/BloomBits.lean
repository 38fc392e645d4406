import Stratum.Sstable.Bloom

/-!
# The Bloom filter, bit by bit

`Indexed` follows `NewFilter`, `Add` and `MayContain` in the machine integers of the source, and
with its loops: **a byte outside of the filter**, or a position modulo zero bits, ends in `none`,
which is a Go panic. What the product with `math.Ln2` is converted to is a parameter, as the
conversion of a float out of range is up to the platform; the filter only depends on what the source
makes of it, which is between `1` and `30`.

The sizes of a table's filter do not overflow, whatever the bits per key
(`Indexed.wellFormed_newFilter`). Hence the loops stay in range and are the functions of the filter
module (`Indexed.add_eq`, `Indexed.mayContain_eq`).
-/

namespace Stratum.Bloom

namespace Indexed

/-- The number of hash functions, from what the float product is converted to. -/
def clampHash (nHash : UInt32) : UInt32 :=
  if nHash < 1 then 1 else if nHash > 30 then 30 else nHash

/-- `NewFilter`, where `float64(bitsPerKey) * math.Ln2` is converted to `nHash`. -/
def newFilter (nHash : UInt32) (numKeys bitsPerKey : Int64) : Filter :=
  let numKeys := if numKeys < 0 then 0 else numKeys
  let bitsPerKey := if bitsPerKey < 1 then 1 else bitsPerKey
  let numBits := (numKeys * bitsPerKey).toUInt64.toUInt32
  let numBits := if numBits < 64 then 64 else numBits
  let bytes := (numBits + 7) / 8
  ⟨List.replicate bytes.toNat 0, clampHash nHash, bytes * 8⟩

variable (sum128 : Bytes → UInt64 × UInt64)

/-- The value of `(hash1 + i*hash2) % f.numBits`. -/
def position (f : Filter) (key : Bytes) (i : ℕ) : ℕ :=
  (((sum128 key).1.toUInt32 + UInt32.ofNat i * (sum128 key).2.toUInt32) % f.numBits).toNat

/-- The expression `(hash1 + i*hash2) % f.numBits`. -/
def bitPos (f : Filter) (key : Bytes) (i : ℕ) : Option ℕ :=
  if f.numBits = 0 then none else some (position sum128 f key i)

/-- A round of the loop of `Add`, on the bits so far. -/
def addRound (f : Filter) (key : Bytes) (bits : Bytes) (i : ℕ) : Option Bytes := do
  let pos ← bitPos sum128 f key i
  let b ← bits[pos / 8]?
  pure (bits.set (pos / 8) (b ||| 1 <<< UInt8.ofNat (pos % 8)))

/-- `Filter.Add`. -/
def add (f : Filter) (key : Bytes) : Option Filter :=
  if f.bits = [] then some f
  else do
    let bits ← (List.range f.nHash.toNat).foldlM (addRound sum128 f key) f.bits
    pure { f with bits }

/-- The loop of `MayContain`, over the rounds that are left. -/
def testRounds (f : Filter) (key : Bytes) : List ℕ → Option Bool
  | [] => some true
  | i :: rounds => do
    let pos ← bitPos sum128 f key i
    let b ← f.bits[pos / 8]?
    if b &&& (1 <<< UInt8.ofNat (pos % 8)) = 0 then pure false else testRounds f key rounds

/-- `Filter.MayContain`. -/
def mayContain (f : Filter) (key : Bytes) : Option Bool :=
  if f.bits = [] then some false else testRounds sum128 f key (List.range f.nHash.toNat)

/-! ### The sizes -/

theorem clampHash_le (nHash : UInt32) : (clampHash nHash).toNat ≤ 30 := by
  rw [clampHash]
  split
  · decide
  · split
    · decide
    · rename_i h
      rw [gt_iff_lt, UInt32.lt_iff_toNat_lt] at h
      exact Nat.le_of_not_lt h

/-- The truncated product of two `int`s that are not negative, also if it overflows. -/
theorem toUInt32_mul {a b : Int64} (ha : 0 ≤ a.toInt) (hb : 0 ≤ b.toInt) :
    (a * b).toUInt64.toUInt32 = UInt32.ofNat (a.toInt * b.toInt).toNat := by
  have hnat : ∀ {x : Int64}, 0 ≤ x.toInt → x.toInt = x.toUInt64.toNat := by
    intro x hx
    have hbits : x.toInt = x.toUInt64.toBitVec.toInt := rfl
    have hlt := x.toUInt64.toBitVec.isLt
    rw [hbits, BitVec.toInt_eq_toNat_cond] at hx ⊢
    split
    · rfl
    · rename_i hbig
      rw [if_neg hbig] at hx
      omega
  have hmul : (a * b).toUInt64 = a.toUInt64 * b.toUInt64 := rfl
  rw [hnat ha, hnat hb, hmul, ← UInt32.toNat_inj, UInt64.toNat_toUInt32, UInt64.toNat_mul,
    UInt32.toNat_ofNat', ← Int.natCast_mul, Int.toNat_natCast,
    Nat.mod_mod_of_dvd _ (by decide)]

/-- The sizes are those of the filter module. -/
theorem newFilter_eq (nHash : UInt32) (numKeys bitsPerKey : Int64) :
    newFilter nHash numKeys bitsPerKey
      = { Bloom.newFilter numKeys.toInt bitsPerKey.toInt with nHash := clampHash nHash } := by
  have hkeys : (if numKeys < 0 then 0 else numKeys).toInt
      = if numKeys.toInt < 0 then 0 else numKeys.toInt := by
    simp only [Int64.lt_iff_toInt_lt, Int64.toInt_zero]
    split <;> rfl
  have hbits : (if bitsPerKey < 1 then 1 else bitsPerKey).toInt
      = if bitsPerKey.toInt < 1 then 1 else bitsPerKey.toInt := by
    simp only [Int64.lt_iff_toInt_lt, Int64.toInt_one]
    split <;> rfl
  have hproduct := @toUInt32_mul (if numKeys < 0 then 0 else numKeys)
    (if bitsPerKey < 1 then 1 else bitsPerKey) (by rw [hkeys]; split <;> omega)
    (by rw [hbits]; split <;> omega)
  rw [hkeys, hbits] at hproduct
  simp only [newFilter, Bloom.newFilter, bitCount, hproduct]

theorem clampHash_hashCount (bitsPerKey : ℤ) :
    clampHash (hashCount bitsPerKey) = hashCount bitsPerKey := by
  have hcount : (hashCount bitsPerKey).toNat
      = max 1 (min 30 (bitsPerKey.toNat * 693147180559945309 / 10 ^ 18)) := by
    rw [hashCount, UInt32.toNat_ofNat', Nat.mod_eq_of_lt (by omega)]
  have h1 : (1 : UInt32).toNat = 1 := rfl
  have h30 : (30 : UInt32).toNat = 30 := rfl
  rw [clampHash, if_neg, if_neg]
  · rw [gt_iff_lt, UInt32.lt_iff_toNat_lt, hcount, h30]
    omega
  · rw [UInt32.lt_iff_toNat_lt, hcount, h1]
    omega

/-- The filter module computes the product exactly: its filter is the one of that conversion. -/
theorem newFilter_hashCount (numKeys bitsPerKey : Int64) :
    newFilter (hashCount (if bitsPerKey.toInt < 1 then 1 else bitsPerKey.toInt)) numKeys bitsPerKey
      = Bloom.newFilter numKeys.toInt bitsPerKey.toInt := by
  rw [newFilter_eq, clampHash_hashCount]
  rfl

/-- **The filter of a table is well formed**, whatever the bits per key. -/
theorem wellFormed_newFilter (nHash : UInt32) (bitsPerKey : Int64) :
    (newFilter nHash 10000 bitsPerKey).WellFormed := by
  have h := Bloom.wellFormed_newFilter bitsPerKey.toInt
  have hle := clampHash_le nHash
  rw [newFilter_eq]
  exact ⟨h.nonempty, h.numBits_eq, Nat.lt_of_le_of_lt hle (by decide)⟩

/-! ### The loops -/

variable {sum128} {f : Filter}

/-- The positions are those of the filter module, and in range. -/
theorem bitPos_eq (h : f.WellFormed) (key : Bytes) {i : ℕ} (hi : i < f.nHash.toNat) :
    bitPos sum128 f key i = some (position sum128 f key i) ∧
      position sum128 f key i / 8 < f.bits.length := by
  have hpos := List.length_pos_iff.2 h.nonempty
  have hne : f.numBits ≠ 0 := by
    intro hzero
    have heq := h.numBits_eq
    rw [hzero, UInt32.toNat_zero] at heq
    omega
  have hmem : position sum128 f key i ∈ f.positions sum128 key :=
    List.mem_map.2 ⟨i, List.mem_range.2 hi, rfl⟩
  exact ⟨by rw [bitPos, if_neg hne], h.position_lt hmem⟩

/-- A round sets its bit. -/
theorem addRound_eq (h : f.WellFormed) (key : Bytes) {i : ℕ} (hi : i < f.nHash.toNat) {bits : Bytes}
    (hlen : bits.length = f.bits.length) :
    addRound sum128 f key bits i = some (setBit bits (position sum128 f key i)) := by
  obtain ⟨hbitPos, hlt⟩ := @bitPos_eq sum128 f h key i hi
  rw [← hlen] at hlt
  simp only [addRound, hbitPos, Option.bind_eq_bind, Option.bind_some, setBit,
    List.modify_eq_set, List.getElem?_eq_getElem hlt, Option.pure_def, Option.getD_some]

theorem foldlM_addRound (h : f.WellFormed) (key : Bytes) {rounds : List ℕ} {bits : Bytes}
    (hrounds : ∀ i ∈ rounds, i < f.nHash.toNat) (hlen : bits.length = f.bits.length) :
    rounds.foldlM (addRound sum128 f key) bits
      = some ((rounds.map (position sum128 f key)).foldl setBit bits) := by
  induction rounds generalizing bits with
  | nil => rfl
  | cons i rounds ih =>
    obtain ⟨hi, hrounds⟩ := List.forall_mem_cons.1 hrounds
    rw [List.foldlM_cons, addRound_eq h key hi hlen, List.map_cons, List.foldl_cons]
    exact ih hrounds ((length_setBit _ _).trans hlen)

/-- **`Add` stays in range.** -/
theorem add_eq (h : f.WellFormed) (key : Bytes) :
    add sum128 f key = some (f.add sum128 key) := by
  rw [add, if_neg h.nonempty, Filter.add, if_neg h.nonempty,
    foldlM_addRound h key (fun i hi => List.mem_range.1 hi) rfl]
  rfl

theorem testRounds_eq (h : f.WellFormed) (key : Bytes) {rounds : List ℕ}
    (hrounds : ∀ i ∈ rounds, i < f.nHash.toNat) :
    testRounds sum128 f key rounds
      = some ((rounds.map (position sum128 f key)).all (testBit f.bits)) := by
  induction rounds with
  | nil => rfl
  | cons i rounds ih =>
    obtain ⟨hi, hrounds⟩ := List.forall_mem_cons.1 hrounds
    obtain ⟨hbitPos, hlt⟩ := @bitPos_eq sum128 f h key i hi
    simp only [testRounds, hbitPos, Option.bind_eq_bind, Option.bind_some,
      List.getElem?_eq_getElem hlt, ih hrounds, List.map_cons, List.all_cons, testBit,
      List.getD_eq_getElem?_getD, Option.getD_some, Option.pure_def]
    split
    · rename_i hzero
      simp [hzero]
    · rename_i hne
      simp [hne]

/-- **`MayContain` stays in range.** -/
theorem mayContain_eq (h : f.WellFormed) (key : Bytes) :
    mayContain sum128 f key = some (f.mayContain sum128 key) := by
  rw [mayContain, if_neg h.nonempty, Filter.mayContain, if_neg h.nonempty,
    testRounds_eq h key (fun i hi => List.mem_range.1 hi)]
  rfl

/-! ### Additions -/

/-- A run of additions stays in range, and keeps the filter well formed. -/
theorem foldlM_add (h : f.WellFormed) (keys : List Bytes) :
    keys.foldlM (add sum128) f = some (keys.foldl (Filter.add sum128) f) ∧
      (keys.foldl (Filter.add sum128) f).WellFormed := by
  refine ⟨?_, h.foldl_add keys⟩
  induction keys generalizing f with
  | nil => rfl
  | cons key keys ih =>
    rw [List.foldlM_cons, add_eq h]
    exact ih (h.add key)

end Indexed

/-- **No false negatives**, also after storage. Whatever the hash, the bits per key and the
conversion of the float product, and whatever keys a table adds to its filter: every access is in
range, for every key that is added or asked for; each key that was added is in the filter, and in
the filter that is decoded from its encoding; and what is in the filter is in it after more keys. -/
theorem added_mayContain (sum128 : Bytes → UInt64 × UInt64) (nHash : UInt32) (bitsPerKey : Int64)
    (keys more : List Bytes) :
    ∃ f f', keys.foldlM (Indexed.add sum128) (Indexed.newFilter nHash 10000 bitsPerKey) = some f ∧
      more.foldlM (Indexed.add sum128) f = some f' ∧
      (∀ key, (Indexed.mayContain sum128 f key).isSome ∧
        (Indexed.mayContain sum128 (decodeFilter f.encode) key).isSome) ∧
      (∀ key ∈ keys, Indexed.mayContain sum128 f key = some true ∧
        Indexed.mayContain sum128 (decodeFilter f.encode) key = some true) ∧
      ∀ key, Indexed.mayContain sum128 f key = some true →
        Indexed.mayContain sum128 f' key = some true := by
  have hnew := Indexed.wellFormed_newFilter nHash bitsPerKey
  obtain ⟨hadd, hwf⟩ := @Indexed.foldlM_add sum128 _ hnew keys
  obtain ⟨hadd', hwf'⟩ := @Indexed.foldlM_add sum128 _ hwf more
  refine ⟨_, _, hadd, hadd', ?_, ?_, ?_⟩
  · intro key
    rw [decodeFilter_encode hwf, Indexed.mayContain_eq hwf]
    exact ⟨rfl, rfl⟩
  · intro key hkey
    rw [decodeFilter_encode hwf, Indexed.mayContain_eq hwf,
      mayContain_foldl_add_of_mem hnew hkey]
    exact ⟨rfl, rfl⟩
  · intro key hkey
    rw [Indexed.mayContain_eq hwf, Option.some.injEq] at hkey
    rw [Indexed.mayContain_eq hwf', mayContain_foldl_add more hkey]

end Stratum.Bloom
