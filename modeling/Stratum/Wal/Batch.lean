import Stratum.Lib.ByteCodec

/-!
# Write batches

A batch is the unit the write-ahead log stores: the entries of one `Put`, `Delete` or
`WriteBatch` call. `Batch.encode` lays it out as a 32-bit count followed by the entries, and
`decodeBatch` parses it, checking every length against what is left of the input.

A value is a Go `[]byte` that may be nil, so it is an `Option Bytes`. The codec does **not** keep
the difference between nil and empty: an entry is decoded with a nil value when its length field
is zero. `Batch.recovered` is what a batch looks like after the round trip
(`decodeBatch_encode`), and `BatchEntry.effect` is what an entry writes.
-/

namespace Stratum.Wal

open ByteCodec

/-- `OpType`: a byte; anything but `opPut` is applied as a deletion. -/
abbrev OpType := UInt8

/-- `OpPut`. -/
def opPut : OpType := 1

/-- `OpDelete`. -/
def opDelete : OpType := 2

/-- `BatchEntry`. -/
structure BatchEntry where
  op : OpType
  key : Bytes
  value : Option Bytes
deriving DecidableEq, Repr

/-- `Batch`. -/
structure Batch where
  entries : List BatchEntry
deriving DecidableEq, Repr

namespace Batch

/-- `Batch.Put` on a batch. -/
def put (b : Batch) (key : Bytes) (value : Option Bytes) : Batch :=
  ⟨b.entries ++ [⟨opPut, key, value⟩]⟩

/-- `Batch.Delete` on a batch. -/
def delete (b : Batch) (key : Bytes) : Batch :=
  ⟨b.entries ++ [⟨opDelete, key, none⟩]⟩

end Batch

/-- The value an entry leaves under its key: a put its value (nil is a tombstone), any other
operation a tombstone. -/
def BatchEntry.effect (e : BatchEntry) : Option Bytes :=
  if e.op = opPut then e.value else none

/-! ### The codec -/

/-- The bytes of one entry: operation, key length, key, value length, value. -/
def BatchEntry.encode (e : BatchEntry) : Bytes :=
  [e.op] ++ leBytes 4 e.key.length ++ e.key
    ++ leBytes 4 (e.value.getD []).length ++ e.value.getD []

/-- `Batch.Encode`. -/
def Batch.encode (b : Batch) : Bytes :=
  leBytes 4 b.entries.length ++ b.entries.flatMap BatchEntry.encode

/-- `errors.New("wal: invalid batch format")`. -/
inductive DecodeError
  | invalidFormat
deriving DecidableEq, Repr

/-- One round of the loop of `DecodeBatch`: each of the five bounds checks, and the slices. -/
def decodeEntry (data : Bytes) : Option (BatchEntry × Bytes) := do
  let (op, data) ← splitBytes 1 data
  let (kLen, data) ← splitBytes 4 data
  let (key, data) ← splitBytes (leNat kLen) data
  let (vLen, data) ← splitBytes 4 data
  let (value, data) ← splitBytes (leNat vLen) data
  -- `value` stays nil when `vLen` is zero
  pure (⟨op.headD 0, key, if leNat vLen > 0 then some value else none⟩, data)

/-- The loop of `DecodeBatch`, run `count` times. -/
def decodeEntries : ℕ → Bytes → Option (List BatchEntry)
  | 0, _ => some []
  | count + 1, data => do
    let (e, data) ← decodeEntry data
    let es ← decodeEntries count data
    pure (e :: es)

/-- `DecodeBatch`. -/
def decodeBatch (data : Bytes) : Except DecodeError Batch :=
  match splitBytes 4 data with
  | none => .error .invalidFormat
  | some (count, data) =>
    match decodeEntries (leNat count) data with
    | none => .error .invalidFormat
    | some es => .ok ⟨es⟩

/-- An entry after the round trip: an empty value comes back nil. -/
def BatchEntry.recovered (e : BatchEntry) : BatchEntry :=
  { e with value := if (e.value.getD []).length > 0 then e.value else none }

/-- A batch after the round trip. -/
def Batch.recovered (b : Batch) : Batch := ⟨b.entries.map BatchEntry.recovered⟩

/-- The lengths of an entry fit their 32-bit fields. -/
def BatchEntry.Fits (e : BatchEntry) : Prop :=
  e.key.length < 256 ^ 4 ∧ (e.value.getD []).length < 256 ^ 4

/-- The lengths of a batch fit the fields of the codec. -/
def Batch.Fits (b : Batch) : Prop := b.entries.length < 256 ^ 4 ∧ ∀ e ∈ b.entries, e.Fits

variable {e : BatchEntry} {b : Batch}

/-- One encoded entry is decoded to its recovered form, and the rest is left. -/
theorem decodeEntry_encode (h : e.Fits) (rest : Bytes) :
    decodeEntry (e.encode ++ rest) = some (e.recovered, rest) := by
  simp only [decodeEntry, BatchEntry.encode, List.append_assoc]
  rw [splitBytes_append (by simp)]
  simp only [Option.bind_eq_bind, Option.bind_some]
  rw [splitBytes_append (by simp)]
  simp only [Option.bind_some, leNat_leBytes_of_lt h.1]
  rw [splitBytes_append rfl]
  simp only [Option.bind_some]
  rw [splitBytes_append (by simp)]
  simp only [Option.bind_some, leNat_leBytes_of_lt h.2]
  rw [splitBytes_append rfl]
  cases hv : e.value <;> simp [BatchEntry.recovered, hv]

theorem decodeEntries_encode {es : List BatchEntry} (h : ∀ e ∈ es, e.Fits) (rest : Bytes) :
    decodeEntries es.length (es.flatMap BatchEntry.encode ++ rest)
      = some (es.map BatchEntry.recovered) := by
  induction es with
  | nil => rfl
  | cons e es ih =>
    have he : e.Fits := h e (by simp)
    have hes : ∀ e' ∈ es, e'.Fits := fun e' he' => h e' (by simp [he'])
    simp only [List.length_cons, decodeEntries, List.flatMap_cons, List.append_assoc,
      decodeEntry_encode he, ih hes, List.map_cons, Option.bind_eq_bind, Option.bind_some,
      Option.pure_def]

/-- Decoding reads an encoded batch and nothing behind it. -/
theorem decodeBatch_encode_append (h : b.Fits) (x : Bytes) :
    decodeBatch (b.encode ++ x) = .ok b.recovered := by
  rw [decodeBatch, Batch.encode, List.append_assoc, splitBytes_append (by simp)]
  simp only [leNat_leBytes_of_lt h.1, decodeEntries_encode h.2, Batch.recovered]

/-- **Round trip of the codec**: decoding an encoded batch gives the batch back, with nil and
empty values identified. -/
theorem decodeBatch_encode (hlen : b.entries.length < 256 ^ 4) (h : ∀ e ∈ b.entries, e.Fits) :
    decodeBatch b.encode = .ok b.recovered := by
  simpa using decodeBatch_encode_append ⟨hlen, h⟩ []

/-- An entry is encoded again as it was. -/
theorem BatchEntry.encode_recovered (e : BatchEntry) : e.recovered.encode = e.encode := by
  rcases hv : e.value with _ | v
  · simp [BatchEntry.recovered, BatchEntry.encode, hv]
  · rcases v with _ | ⟨x, xs⟩ <;> simp [BatchEntry.recovered, BatchEntry.encode, hv]

/-- A batch is encoded again as it was. -/
theorem Batch.encode_recovered (b : Batch) : b.recovered.encode = b.encode := by
  rw [Batch.encode, Batch.recovered, List.length_map, Batch.encode, List.flatMap_map]
  simp only [BatchEntry.encode_recovered]

/-- A batch whose lengths fit 32 bits is encoded again as it was. -/
theorem Batch.Fits.encode_decoded {b' : Batch} (h : b.Fits)
    (hdecode : decodeBatch b.encode = .ok b') : b'.encode = b.encode := by
  rw [decodeBatch_encode h.1 h.2] at hdecode
  cases hdecode
  exact b.encode_recovered

/-! ### What is decoded -/

/-- An entry that was decoded is what it will be decoded to, and its encoding is what was read. -/
theorem decodeEntry_normal {data rest : Bytes} (h : decodeEntry data = some (e, rest)) :
    (e.Fits ∧ e.recovered = e) ∧ e.encode ++ rest = data := by
  simp only [decodeEntry, Option.bind_eq_bind, Option.bind_eq_some_iff, Option.pure_def,
    Option.some.injEq, Prod.mk.injEq, Prod.exists] at h
  obtain ⟨op, _, hop, kLen, _, hkLen, key, _, hkey, vLen, _, hvLen, value, _, hvalue, rfl, rfl⟩ := h
  have hk := leNat_lt kLen
  have hv := leNat_lt vLen
  rw [length_of_splitBytes hkLen] at hk
  rw [length_of_splitBytes hvLen] at hv
  -- the value is nil exactly when its length is zero
  have hvalueD : (if leNat vLen > 0 then some value else none).getD [] = value := by
    split
    · rfl
    · exact (List.eq_nil_of_length_eq_zero (by have := length_of_splitBytes hvalue; omega)).symm
  refine ⟨⟨⟨length_of_splitBytes hkey ▸ hk, ?_⟩, ?_⟩, ?_⟩
  · rw [hvalueD, length_of_splitBytes hvalue]
    exact hv
  · simp only [BatchEntry.recovered, hvalueD, length_of_splitBytes hvalue]
    split <;> rfl
  · obtain ⟨o, rfl⟩ := List.length_eq_one_iff.1 (length_of_splitBytes hop)
    have hkLen' : leBytes 4 (leNat kLen) = kLen := length_of_splitBytes hkLen ▸ leBytes_leNat kLen
    have hvLen' : leBytes 4 (leNat vLen) = vLen := length_of_splitBytes hvLen ▸ leBytes_leNat vLen
    rw [BatchEntry.encode, hvalueD, length_of_splitBytes hkey, length_of_splitBytes hvalue,
      hkLen', hvLen', List.headD_cons]
    simp only [List.append_assoc]
    rw [append_of_splitBytes hvalue, append_of_splitBytes hvLen, append_of_splitBytes hkey,
      append_of_splitBytes hkLen, append_of_splitBytes hop]

theorem decodeEntries_normal {count : ℕ} {data : Bytes} {es : List BatchEntry}
    (h : decodeEntries count data = some es) :
    es.length = count ∧ (∀ e ∈ es, e.Fits ∧ e.recovered = e) ∧
      es.flatMap BatchEntry.encode <+: data := by
  induction count generalizing data es with
  | zero =>
    cases h
    exact ⟨rfl, by simp, List.nil_prefix⟩
  | succ count ih =>
    simp only [decodeEntries, Option.bind_eq_bind, Option.bind_eq_some_iff, Option.pure_def,
      Option.some.injEq, Prod.exists] at h
    obtain ⟨e, rest, he, es', hes, rfl⟩ := h
    obtain ⟨hnormal, rfl⟩ := decodeEntry_normal he
    obtain ⟨hlen, hall, hprefix⟩ := ih hes
    exact ⟨congrArg (· + 1) hlen, List.forall_mem_cons.2 ⟨hnormal, hall⟩,
      (List.prefix_append_right_inj _).2 hprefix⟩

/-- **The image of the codec**: a batch is decoded exactly when it fits the codec, is what it will
be decoded to, and its encoding is in front. -/
theorem decodeBatch_eq_ok_iff {record : Bytes} :
    decodeBatch record = .ok b ↔ (b.Fits ∧ b.recovered = b) ∧ b.encode <+: record := by
  constructor
  · intro h
    rw [decodeBatch] at h
    split at h
    · cases h
    · rename_i count data hcount
      split at h
      · cases h
      · rename_i es hes
        cases h
        obtain ⟨hlen, hall, hprefix⟩ := decodeEntries_normal hes
        have hlt := leNat_lt count
        have hcount' := leBytes_leNat count
        rw [length_of_splitBytes hcount] at hlt hcount'
        refine ⟨⟨⟨hlen ▸ hlt, fun e he => (hall e he).1⟩, ?_⟩, ?_⟩
        · rw [Batch.recovered, List.map_congr_left fun e he => (hall e he).2, List.map_id']
        · rw [Batch.encode, hlen, hcount', ← append_of_splitBytes hcount]
          exact (List.prefix_append_right_inj _).2 hprefix
  · rintro ⟨⟨hfits, hsame⟩, x, rfl⟩
    rw [decodeBatch_encode_append hfits, hsame]

/-- **A batch that was decoded** fits the codec, and is what it will be decoded to. -/
theorem decodeBatch_normal {record : Bytes} (h : decodeBatch record = .ok b) :
    b.Fits ∧ b.recovered = b :=
  (decodeBatch_eq_ok_iff.1 h).1

/-- **No part of an encoded batch is a batch.** -/
theorem decodeBatch_of_cut (h : b.Fits) {p : Bytes} (hp : p <+: b.encode) (hne : p ≠ b.encode) :
    decodeBatch p = .error .invalidFormat := by
  rcases hdecode : decodeBatch p with ⟨⟩ | b'
  · rfl
  · -- what is decoded from the part is decoded from the whole, so the part is the whole
    obtain ⟨hnormal, hfront⟩ := decodeBatch_eq_ok_iff.1 hdecode
    have hwhole := decodeBatch_eq_ok_iff.2 ⟨hnormal, hfront.trans hp⟩
    rw [h.encode_decoded hwhole] at hfront
    exact absurd (hp.eq_of_length_le hfront.length_le) hne

/-- Recovery keeps what an entry writes, unless it puts an empty value. -/
theorem BatchEntry.effect_recovered (h : e.effect ≠ some []) :
    e.recovered.effect = e.effect := by
  simp only [effect, recovered] at h ⊢
  by_cases hop : e.op = opPut
  · rcases hv : e.value with _ | v
    · simp
    · rcases v with _ | ⟨b, bs⟩
      · exact absurd (by simp [hop, hv]) h
      · simp
  · simp [hop]

end Stratum.Wal
