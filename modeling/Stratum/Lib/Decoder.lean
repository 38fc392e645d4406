import Mathlib.Tactic.Common
import Stratum.Lib.ByteCodec

/-!
# Decoders that read exactly one encoding

A decoder takes a value off the front of a byte string and returns it with the rest. `Reads d bs a`
says that it reads **exactly** the bytes `bs` as `a`: whatever follows them is left, and if any of
them is missing the decoder fails. So a value that is encoded as `bs` round-trips (`Reads.eq_some`),
and no part of its encoding is taken for a value (`Reads.cut`).

Decoders are built by binding one after the other, and `Reads.bind` follows that: the bytes are
those of the parts in a row.

A program that decodes keeps the whole data and an offset instead of the rest, and checks the length
before it slices. `Agrees` compares the two: where such a program and a decoder agree, the program
never slices **out of range**, since the decoder has no such outcome. An encoder that sizes its
buffer first writes at an offset in the same way (`writeAt`).
-/

namespace ByteCodec

variable {α β : Type*}

/-- The decoder reads exactly `bs`, as `a`. -/
structure Reads (decode : Bytes → Option (α × Bytes)) (bs : Bytes) (a : α) : Prop where
  append : ∀ rest, decode (bs ++ rest) = some (a, rest)
  cut : ∀ p, p <+: bs → p.length < bs.length → decode p = none

namespace Reads

variable {decode : Bytes → Option (α × Bytes)} {bs cs : Bytes} {a : α} {b : β}

theorem eq_some (h : Reads decode bs a) : decode bs = some (a, []) := by
  simpa using h.append []

/-- Reading one thing and then another. -/
theorem bind {k : α × Bytes → Option (β × Bytes)} (h : Reads decode bs a)
    (h' : Reads (fun rest => k (a, rest)) cs b) :
    Reads (fun data => (decode data).bind k) (bs ++ cs) b where
  append rest := by
    rw [List.append_assoc, h.append, Option.bind_some, h'.append]
  cut p hp hlt := by
    by_cases hshort : p.length < bs.length
    · -- the cut is in the first part
      have hfirst := List.prefix_of_prefix_length_le hp (List.prefix_append bs cs) hshort.le
      rw [h.cut p hfirst hshort, Option.bind_none]
    · obtain ⟨q, rfl⟩ := List.prefix_of_prefix_length_le (List.prefix_append bs cs) hp
        (Nat.le_of_not_lt hshort)
      rw [List.length_append, List.length_append] at hlt
      rw [h.append, Option.bind_some]
      exact h'.cut q ((List.prefix_append_right_inj bs).1 hp) (by omega)

/-- Reading the last thing. -/
theorem last {k : α × Bytes → Option (β × Bytes)} (h : Reads decode bs a)
    (hk : ∀ rest, k (a, rest) = some (b, rest)) :
    Reads (fun data => (decode data).bind k) bs b := by
  have hnil : Reads (fun rest => k (a, rest)) [] b :=
    ⟨hk, fun _ _ hlt => absurd hlt (Nat.not_lt_zero _)⟩
  simpa using h.bind hnil

end Reads

/-- The bounds check reads as many bytes as it checks for. -/
theorem reads_splitBytes {n : ℕ} {bs : Bytes} (h : bs.length = n) : Reads (splitBytes n) bs bs where
  append _ := splitBytes_append h
  cut p _ hlt := by rw [splitBytes, if_pos (h ▸ hlt)]

/-! ### Decoding at an offset -/

section Offsets

variable {E α β : Type}

/-- The slice `data[lo:hi]`; `oob` is the outcome of one that is out of range. -/
def slice (oob : E) (data : Bytes) (lo hi : ℕ) : Except E Bytes :=
  if lo ≤ hi ∧ hi ≤ data.length then .ok ((data.take hi).drop lo) else .error oob

variable {offset n : ℕ} {r : Except E (α × ℕ)} {k' : Bytes × Bytes → Option (β × Bytes)}

theorem slice_of_le (oob : E) {data : Bytes} (h : offset + n ≤ data.length) :
    slice oob data offset (offset + n) = .ok ((data.drop offset).take n) := by
  rw [slice, if_pos ⟨Nat.le_add_right offset n, h⟩, List.drop_take, Nat.add_sub_cancel_left]

/-- The check `offset+n > len(data)` in front of a slice. -/
def need (invalid : E) (data : Bytes) (offset n : ℕ) : Except E Unit :=
  if offset + n > data.length then .error invalid else .ok ()

/-- A little-endian number of `w` bytes at an offset. -/
def uintAt (oob : E) (data : Bytes) (offset w : ℕ) : Except E ℕ := do
  let bytes ← slice oob data offset (offset + w)
  pure (leNat bytes)

theorem uintAt_of_le (oob : E) {data : Bytes} {offset w : ℕ} (h : offset + w ≤ data.length) :
    uintAt oob data offset w = .ok (leNat ((data.drop offset).take w)) := by
  rw [uintAt, slice_of_le oob h]
  rfl

/-- The byte `data[offset]`. -/
def byteAt (oob : E) (data : Bytes) (offset : ℕ) : Except E UInt8 :=
  match data[offset]? with
  | some b => .ok b
  | none => .error oob

/-- The check passes where a decoder finds its bytes. -/
theorem splitBytes_drop {data : Bytes} (h : offset + n ≤ data.length) :
    splitBytes n (data.drop offset) = some ((data.drop offset).take n, data.drop (offset + n)) := by
  rw [splitBytes, if_neg (by rw [List.length_drop]; omega), List.drop_drop]

theorem splitBytes_drop_eq_none {data : Bytes} (hn : offset ≤ data.length)
    (h : offset + n > data.length) : splitBytes n (data.drop offset) = none := by
  rw [splitBytes, if_pos (by rw [List.length_drop]; omega)]

/-- The outcome at an offset is the outcome of the decoder on the rest of the data. -/
def Agrees (invalid : E) (data : Bytes) (r : Except E (α × ℕ)) : Option (α × Bytes) → Prop
  | none => r = .error invalid
  | some (a, rest) => ∃ offset ≤ data.length, rest = data.drop offset ∧ r = .ok (a, offset)

variable {invalid oob : E} {data : Bytes}

/-- The two outcomes that agree. -/
theorem Agrees.cases {d : Option (α × Bytes)} (h : Agrees invalid data r d) :
    r = .error invalid ∧ d = none ∨
      ∃ a, ∃ offset ≤ data.length, r = .ok (a, offset) ∧ d = some (a, data.drop offset) := by
  rcases d with _ | ⟨a, rest⟩
  · exact .inl ⟨h, rfl⟩
  · obtain ⟨offset, hle, rfl, hr⟩ := h
    exact .inr ⟨a, offset, hle, hr, rfl⟩

/-- Decoding one thing and then another. -/
theorem Agrees.bind {d : Option (α × Bytes)} {k : α × ℕ → Except E (β × ℕ)}
    {k' : α × Bytes → Option (β × Bytes)} (h : Agrees invalid data r d)
    (h' : ∀ a offset, offset ≤ data.length →
      Agrees invalid data (k (a, offset)) (k' (a, data.drop offset))) :
    Agrees invalid data (r >>= k) (d.bind k') := by
  obtain ⟨rfl, rfl⟩ | ⟨a, offset, hle, rfl, rfl⟩ := h.cases
  · rfl
  · exact h' a offset hle

/-- Where the decoder takes some bytes, the offset grows. -/
theorem Agrees.lt_of_ok {d : Bytes → Option (α × Bytes)}
    (h : Agrees invalid data r (d (data.drop offset)))
    (hd : ∀ {bs a rest}, d bs = some (a, rest) → rest.length < bs.length) {a : α} {offset' : ℕ}
    (hr : r = .ok (a, offset')) : offset < offset' ∧ offset' ≤ data.length := by
  obtain ⟨herr, -⟩ | ⟨_, _, hle, hok, hrest⟩ := h.cases
  · rw [hr] at herr
    cases herr
  · rw [hr] at hok
    cases hok
    have hlt := hd hrest
    rw [List.length_drop, List.length_drop] at hlt
    omega

/-- A number behind its own check. -/
theorem agrees_need_uintAt (h : offset ≤ data.length) (w : ℕ) {k : ℕ → Except E (β × ℕ)}
    (hk : ∀ bytes, offset + w ≤ data.length →
      Agrees invalid data (k (leNat bytes)) (k' (bytes, data.drop (offset + w)))) :
    Agrees invalid data (do need invalid data offset w; let n ← uintAt oob data offset w; k n)
      ((splitBytes w (data.drop offset)).bind k') := by
  by_cases hw : offset + w ≤ data.length
  · rw [need, if_neg (by omega), uintAt_of_le oob hw, splitBytes_drop hw]
    exact hk _ hw
  · rw [need, if_pos (by omega), splitBytes_drop_eq_none h (by omega)]
    rfl

/-- A byte behind its own check. -/
theorem agrees_need_byteAt (h : offset ≤ data.length) {k : UInt8 → Except E (β × ℕ)}
    (hk : ∀ b, offset + 1 ≤ data.length →
      Agrees invalid data (k b) (k' ([b], data.drop (offset + 1)))) :
    Agrees invalid data (do need invalid data offset 1; let b ← byteAt oob data offset; k b)
      ((splitBytes 1 (data.drop offset)).bind k') := by
  by_cases h1 : offset + 1 ≤ data.length
  · have hhead : data.drop offset = data[offset] :: data.drop (offset + 1) :=
      List.drop_eq_getElem_cons h1
    rw [need, if_neg (by omega), byteAt, List.getElem?_eq_getElem h1, splitBytes_drop h1, hhead]
    exact hk _ h1
  · rw [need, if_pos (by omega), splitBytes_drop_eq_none h (by omega)]
    rfl

/-- A slice behind its own check. -/
theorem agrees_need_slice (h : offset ≤ data.length) (n : ℕ) {k : Bytes → Except E (β × ℕ)}
    (hk : ∀ bytes, offset + n ≤ data.length →
      Agrees invalid data (k bytes) (k' (bytes, data.drop (offset + n)))) :
    Agrees invalid data
      (do need invalid data offset n; let bytes ← slice oob data offset (offset + n); k bytes)
      ((splitBytes n (data.drop offset)).bind k') := by
  by_cases hn : offset + n ≤ data.length
  · rw [need, if_neg (by omega), slice_of_le oob hn, splitBytes_drop hn]
    exact hk _ hn
  · rw [need, if_pos (by omega), splitBytes_drop_eq_none h (by omega)]
    rfl

/-- A number that an earlier check covers. -/
theorem agrees_uintAt {w : ℕ} (h : offset + w ≤ data.length) {k : ℕ → Except E (β × ℕ)}
    (hk : ∀ bytes, Agrees invalid data (k (leNat bytes)) (k' (bytes, data.drop (offset + w)))) :
    Agrees invalid data (uintAt oob data offset w >>= k)
      ((splitBytes w (data.drop offset)).bind k') := by
  rw [uintAt_of_le oob h, splitBytes_drop h]
  exact hk _

/-- A slice that an earlier check covers. -/
theorem agrees_slice (h : offset + n ≤ data.length) {k : Bytes → Except E (β × ℕ)}
    (hk : ∀ bytes : Bytes, bytes.length = n →
      Agrees invalid data (k bytes) (k' (bytes, data.drop (offset + n)))) :
    Agrees invalid data (slice oob data offset (offset + n) >>= k)
      ((splitBytes n (data.drop offset)).bind k') := by
  rw [slice_of_le oob h, splitBytes_drop h]
  exact hk _ (by rw [List.length_take, List.length_drop]; omega)

/-- A check for several things at once, where the decoder fails on fewer bytes. -/
theorem agrees_need {r : Unit → Except E (β × ℕ)} {d : Option (β × Bytes)}
    (hshort : (data.drop offset).length < n → d = none)
    (hr : offset + n ≤ data.length → Agrees invalid data (r ()) d) (h : offset ≤ data.length) :
    Agrees invalid data (need invalid data offset n >>= r) d := by
  by_cases hn : offset + n ≤ data.length
  · rw [need, if_neg (by omega)]
    exact hr hn
  · rw [need, if_pos (by omega), hshort (by rw [List.length_drop]; omega)]
    rfl

/-- A decoder that starts with `w` bytes and needs `n` more. -/
theorem bind_splitBytes_eq_none {w : ℕ} {bs : Bytes} {k : Bytes × Bytes → Option (β × Bytes)}
    (h : bs.length < w + n) (hk : ∀ a rest : Bytes, rest.length < n → k (a, rest) = none) :
    (splitBytes w bs).bind k = none := by
  rw [splitBytes]
  split
  · rfl
  · exact hk _ _ (by rw [List.length_drop]; omega)

/-! ### Encoding into a buffer -/

/-- Store `bytes` in the slice `buf[offset:offset+len(bytes)]`. -/
def writeAt (oob : E) (buf : Bytes) (offset : ℕ) (bytes : Bytes) : Except E Bytes :=
  if offset + bytes.length ≤ buf.length then
    .ok (buf.take offset ++ bytes ++ buf.drop (offset + bytes.length))
  else .error oob

/-- A buffer of `total` bytes that is filled from its front. -/
def filled (total : ℕ) (done : Bytes) : Bytes := done ++ List.replicate (total - done.length) 0

/-- The next write finds its room, as long as the buffer was sized for it. -/
theorem writeAt_filled {total : ℕ} {done : Bytes} (bytes : Bytes) (hoffset : offset = done.length)
    (h : (done ++ bytes).length ≤ total) :
    writeAt oob (filled total done) offset bytes = .ok (filled total (done ++ bytes)) := by
  rw [List.length_append] at h
  have hroom : offset + bytes.length ≤ (filled total done).length := by
    rw [filled, List.length_append, List.length_replicate]
    omega
  rw [writeAt, if_pos hroom, hoffset, filled, List.take_left, ← List.drop_drop, List.drop_left,
    List.drop_replicate, filled, List.length_append, Nat.sub_add_eq]

theorem filled_length (done : Bytes) : filled done.length done = done := by
  rw [filled, Nat.sub_self, List.replicate_zero, List.append_nil]

end Offsets

end ByteCodec
