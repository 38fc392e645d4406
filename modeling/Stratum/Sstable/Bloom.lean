import Stratum.Lib.ByteCodec

/-!
# The Bloom filter of a table

A filter is a string of bits; a key sets, and later tests, the positions that double hashing gives
for it. The hash itself (`murmur3.Sum128`) is a parameter: no property of it matters for the
guarantee that a key that was added is never denied (`mayContain_add_self`, `mayContain_add`), nor
for the filter surviving its encoding (`decodeFilter_encode`).
-/

namespace Stratum.Bloom

open ByteCodec

/-- `Filter`. -/
structure Filter where
  bits : Bytes
  nHash : UInt32
  numBits : UInt32
deriving DecidableEq, Repr

/-- The number of hash functions: `bitsPerKey * ln 2` rounded down, kept between `1` and `30`. -/
def hashCount (bitsPerKey : ℤ) : UInt32 :=
  UInt32.ofNat (max 1 (min 30 (bitsPerKey.toNat * 693147180559945309 / 10 ^ 18)))

/-- The number of bits asked for, before rounding up to whole bytes. -/
def bitCount (numKeys bitsPerKey : ℤ) : UInt32 :=
  let numBits := UInt32.ofNat (numKeys * bitsPerKey).toNat
  if numBits < 64 then 64 else numBits

/-- `NewFilter`. -/
def newFilter (numKeys bitsPerKey : ℤ) : Filter :=
  let numKeys := if numKeys < 0 then 0 else numKeys
  let bitsPerKey := if bitsPerKey < 1 then 1 else bitsPerKey
  let bytes := (bitCount numKeys bitsPerKey + 7) / 8
  ⟨List.replicate bytes.toNat 0, hashCount bitsPerKey, bytes * 8⟩

/-- Set one bit. -/
def setBit (bits : Bytes) (pos : ℕ) : Bytes :=
  bits.modify (pos / 8) fun b => b ||| 1 <<< UInt8.ofNat (pos % 8)

/-- Test one bit. -/
def testBit (bits : Bytes) (pos : ℕ) : Bool :=
  (bits.getD (pos / 8) 0) &&& (1 <<< UInt8.ofNat (pos % 8)) != 0

variable (sum128 : Bytes → UInt64 × UInt64)

/-- The positions of a key: `(hash1 + i * hash2) % numBits`, in 32-bit arithmetic. -/
def Filter.positions (f : Filter) (key : Bytes) : List ℕ :=
  (List.range f.nHash.toNat).map fun i =>
    (((sum128 key).1.toUInt32 + UInt32.ofNat i * (sum128 key).2.toUInt32) % f.numBits).toNat

/-- `Filter.Add`. -/
def Filter.add (f : Filter) (key : Bytes) : Filter :=
  if f.bits = [] then f else { f with bits := (f.positions sum128 key).foldl setBit f.bits }

/-- `Filter.MayContain`. -/
def Filter.mayContain (f : Filter) (key : Bytes) : Bool :=
  if f.bits = [] then false else (f.positions sum128 key).all (testBit f.bits)

/-- `Filter.Encode`. -/
def Filter.encode (f : Filter) : Bytes := UInt8.ofNat f.nHash.toNat :: f.bits

/-- `DecodeFilter`. -/
def decodeFilter : Bytes → Filter
  | [] => ⟨[], 0, 0⟩
  | nHash :: bits => ⟨bits, UInt32.ofNat nHash.toNat, UInt32.ofNat (bits.length * 8)⟩

/-! ### Bits -/

@[simp] theorem length_setBit (bits : Bytes) (pos : ℕ) :
    (setBit bits pos).length = bits.length := by
  simp [setBit]

private theorem or_and_distrib (x y m : UInt8) : (x ||| y) &&& m = (x &&& m) ||| (y &&& m) := by
  apply UInt8.toBitVec_inj.mp
  simp only [UInt8.toBitVec_and, UInt8.toBitVec_or]
  ext i
  simp [Bool.and_or_distrib_right]

private theorem mask_ne_zero : ∀ i < 8, (1 <<< UInt8.ofNat i : UInt8) ≠ 0 := by decide

variable {bits key : Bytes} {pos : ℕ}

/-- A bit that is set stays set. -/
theorem testBit_setBit_of_testBit (p : ℕ) (h : testBit bits pos = true) :
    testBit (setBit bits p) pos = true := by
  simp only [testBit, setBit, List.getD_eq_getElem?_getD, List.getElem?_modify, bne_iff_ne] at h ⊢
  cases hb : bits[pos / 8]? with
  | none => simp [hb] at h
  | some b =>
    simp only [hb, Option.map_eq_map, Option.map_some, Option.getD_some] at h ⊢
    split
    · rw [or_and_distrib]
      exact fun h0 => h (UInt8.or_eq_zero_iff.mp h0).1
    · exact h

theorem testBit_setBit_self (h : pos / 8 < bits.length) :
    testBit (setBit bits pos) pos = true := by
  simp only [testBit, setBit, List.getD_eq_getElem?_getD, List.getElem?_modify, bne_iff_ne,
    List.getElem?_eq_getElem h, Option.map_eq_map, Option.map_some, Option.getD_some, if_true]
  rw [or_and_distrib, UInt8.and_self]
  exact fun h0 => mask_ne_zero (pos % 8) (by omega) (UInt8.or_eq_zero_iff.mp h0).2

theorem testBit_foldl_setBit (ps : List ℕ) (h : testBit bits pos = true) :
    testBit (ps.foldl setBit bits) pos = true := by
  induction ps generalizing bits with
  | nil => exact h
  | cons p ps ih => exact ih (testBit_setBit_of_testBit p h)

theorem length_foldl_setBit (ps : List ℕ) (bits : Bytes) :
    (ps.foldl setBit bits).length = bits.length := by
  induction ps generalizing bits with
  | nil => rfl
  | cons p ps ih => rw [List.foldl_cons, ih, length_setBit]

/-- Setting positions that are in range sets all of them. -/
theorem testBit_foldl_setBit_of_mem {ps : List ℕ} (hpos : pos ∈ ps) (h : pos / 8 < bits.length) :
    testBit (ps.foldl setBit bits) pos = true := by
  induction ps generalizing bits with
  | nil => simp at hpos
  | cons p ps ih =>
    rcases List.mem_cons.mp hpos with rfl | hpos
    · exact testBit_foldl_setBit ps (testBit_setBit_self h)
    · exact ih hpos (by simpa using h)

/-! ### No false negatives -/

/-- The bit count is that of the bytes, and there are some; the hash count fits its byte. -/
structure Filter.WellFormed (f : Filter) : Prop where
  nonempty : f.bits ≠ []
  numBits_eq : f.numBits.toNat = f.bits.length * 8
  nHash_lt : f.nHash.toNat < 256

variable {sum128} {f : Filter}

private theorem foldl_setBit_ne_nil (h : bits ≠ []) (ps : List ℕ) :
    ps.foldl setBit bits ≠ [] := by
  rw [← List.length_pos_iff, length_foldl_setBit]
  exact List.length_pos_iff.mpr h

theorem Filter.WellFormed.add (h : f.WellFormed) (key : Bytes) :
    (f.add sum128 key).WellFormed := by
  rw [Filter.add, if_neg h.nonempty]
  exact ⟨foldl_setBit_ne_nil h.nonempty _, by simp [length_foldl_setBit, h.numBits_eq],
    h.nHash_lt⟩

/-- Every position is the position of a bit. -/
theorem Filter.WellFormed.position_lt (h : f.WellFormed) (hpos : pos ∈ f.positions sum128 key) :
    pos / 8 < f.bits.length := by
  obtain ⟨i, -, rfl⟩ := List.mem_map.mp hpos
  have hlen := List.length_pos_iff.mpr h.nonempty
  have hlt : ∀ x : UInt32, (x % f.numBits).toNat < f.bits.length * 8 := by
    intro x
    rw [UInt32.toNat_mod, h.numBits_eq]
    exact Nat.mod_lt _ (by omega)
  have := hlt ((sum128 key).1.toUInt32 + UInt32.ofNat i * (sum128 key).2.toUInt32)
  omega

/-- A key that was added is not denied. -/
theorem mayContain_add_self (h : f.WellFormed) (key : Bytes) :
    (f.add sum128 key).mayContain sum128 key = true := by
  rw [Filter.add, if_neg h.nonempty, Filter.mayContain,
    if_neg (foldl_setBit_ne_nil h.nonempty _), List.all_eq_true]
  intro pos hpos
  exact testBit_foldl_setBit_of_mem hpos (h.position_lt hpos)

/-- Adding keys denies none. -/
theorem mayContain_add (key' : Bytes) (h : f.mayContain sum128 key = true) :
    (f.add sum128 key').mayContain sum128 key = true := by
  rw [Filter.mayContain] at h
  split at h
  · cases h
  · rename_i hne
    rw [Filter.add, if_neg hne, Filter.mayContain, if_neg (foldl_setBit_ne_nil hne _),
      List.all_eq_true]
    rw [List.all_eq_true] at h
    exact fun pos hpos => testBit_foldl_setBit _ (h pos hpos)

theorem Filter.WellFormed.foldl_add (h : f.WellFormed) (keys : List Bytes) :
    (keys.foldl (Filter.add sum128) f).WellFormed := by
  induction keys generalizing f with
  | nil => exact h
  | cons key keys ih => exact ih (h.add key)

/-- Further additions deny no key. -/
theorem mayContain_foldl_add (keys : List Bytes) (h : f.mayContain sum128 key = true) :
    (keys.foldl (Filter.add sum128) f).mayContain sum128 key = true := by
  induction keys generalizing f with
  | nil => exact h
  | cons key' keys ih => exact ih (mayContain_add key' h)

/-- A run of additions denies none of its keys. -/
theorem mayContain_foldl_add_of_mem (h : f.WellFormed) {keys : List Bytes} (hkey : key ∈ keys) :
    (keys.foldl (Filter.add sum128) f).mayContain sum128 key = true := by
  induction keys generalizing f with
  | nil => cases hkey
  | cons key' keys ih =>
    rcases List.mem_cons.1 hkey with rfl | hkey
    · exact mayContain_foldl_add keys (mayContain_add_self h key)
    · exact ih (h.add key') hkey

/-- The filter survives being stored. -/
theorem decodeFilter_encode (h : f.WellFormed) : decodeFilter f.encode = f := by
  have hhash : UInt32.ofNat (UInt8.ofNat f.nHash.toNat).toNat = f.nHash := by
    rw [UInt8.toNat_ofNat', Nat.mod_eq_of_lt h.nHash_lt, UInt32.ofNat_toNat]
  have hbits : UInt32.ofNat (f.bits.length * 8) = f.numBits := by
    rw [← h.numBits_eq, UInt32.ofNat_toNat]
  rw [Filter.encode, decodeFilter, hhash, hbits]

/-- The bit count of a table's filter leaves room for rounding up to bytes: `10000` is a multiple
of `16`, so the count is one modulo `2 ^ 32` too. -/
private theorem bitCount_bounds {b : ℤ} (hb : 1 ≤ b) :
    64 ≤ (bitCount 10000 b).toNat ∧ (bitCount 10000 b).toNat + 7 < 2 ^ 32 := by
  have hmod : (UInt32.ofNat (10000 * b).toNat).toNat = (10000 * b).toNat % 2 ^ 32 :=
    UInt32.toNat_ofNat'
  have hdvd : (10000 * b).toNat % 16 = 0 := by omega
  rw [bitCount]
  split
  · decide
  · rename_i hlt
    have h64 : (64 : UInt32).toNat = 64 := rfl
    rw [UInt32.lt_iff_toNat_lt, hmod, h64] at hlt
    rw [hmod]
    omega

/-- The filter a table starts with is well formed, whatever the bits per key. -/
theorem wellFormed_newFilter (bitsPerKey : ℤ) : (newFilter 10000 bitsPerKey).WellFormed := by
  obtain ⟨b, hb, hnew⟩ : ∃ b : ℤ, 1 ≤ b ∧ newFilter 10000 bitsPerKey
      = ⟨List.replicate ((bitCount 10000 b + 7) / 8).toNat 0, hashCount b,
        (bitCount 10000 b + 7) / 8 * 8⟩ :=
    ⟨if bitsPerKey < 1 then 1 else bitsPerKey, by split <;> omega, rfl⟩
  obtain ⟨hlo, hhi⟩ := bitCount_bounds hb
  have hbytes : ((bitCount 10000 b + 7) / 8).toNat = ((bitCount 10000 b).toNat + 7) / 8 := by
    have h7 : (7 : UInt32).toNat = 7 := rfl
    have h8 : (8 : UInt32).toNat = 8 := rfl
    rw [UInt32.toNat_div, UInt32.toNat_add, h7, h8, Nat.mod_eq_of_lt hhi]
  rw [hnew]
  refine ⟨?_, ?_, ?_⟩
  · rw [← List.length_pos_iff, List.length_replicate, hbytes]
    omega
  · have h8 : (8 : UInt32).toNat = 8 := rfl
    rw [UInt32.toNat_mul, List.length_replicate, hbytes, h8]
    exact Nat.mod_eq_of_lt (by omega)
  · have hle : max 1 (min 30 (b.toNat * 693147180559945309 / 10 ^ 18)) ≤ 30 := by omega
    rw [hashCount, UInt32.toNat_ofNat', Nat.mod_eq_of_lt (by omega)]
    omega

end Stratum.Bloom
