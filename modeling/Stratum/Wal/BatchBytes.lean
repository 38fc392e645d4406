import Stratum.Lib.Decoder
import Stratum.Wal.Batch

/-!
# Write batches, access by access

`Indexed` follows `Batch.Encode` and `DecodeBatch` with the offsets and slices of the source:
**every access that is out of range** ends in `BatchFault.outOfRange`, which is a Go panic.

* The decoder checks each length before it slices, so it is the decoder of the batch module
  (`Indexed.decodeBatch_eq`).
* The encoder sizes its buffer in a pass of its own and never checks again. The two passes agree
  (`Indexed.encode_eq`): each write finds its room, and the last one ends where the buffer does.

Recovery decodes arbitrary bytes and encodes what it found, so it needs both directions of the
codec: what is decoded is in front of the bytes, and what is encoded is decoded wherever it is in
front (`batch_codec_image`).
-/

namespace Stratum.Wal

open ByteCodec

/-- How the codec ends without a result: with its own error, or in an access out of range. -/
inductive BatchFault
  | invalidFormat
  | outOfRange
deriving DecidableEq, Repr

namespace Indexed

/-! ### The decoder -/

/-- One round of the loop of `DecodeBatch`. -/
def decodeEntry (data : Bytes) (offset : ℕ) : Except BatchFault (BatchEntry × ℕ) := do
  need .invalidFormat data offset 1
  let op ← byteAt .outOfRange data offset
  need .invalidFormat data (offset + 1) 4
  let kLen ← uintAt .outOfRange data (offset + 1) 4
  need .invalidFormat data (offset + 1 + 4) kLen
  let key ← slice .outOfRange data (offset + 1 + 4) (offset + 1 + 4 + kLen)
  let offset := offset + 1 + 4 + kLen
  need .invalidFormat data offset 4
  let vLen ← uintAt .outOfRange data offset 4
  need .invalidFormat data (offset + 4) vLen
  -- `value` stays nil when `vLen` is zero
  let value ← if vLen > 0 then some <$> slice .outOfRange data (offset + 4) (offset + 4 + vLen)
    else pure none
  pure (⟨op, key, value⟩, offset + 4 + vLen)

/-- The loop of `DecodeBatch`, run `count` times. -/
def decodeEntries (data : Bytes) : ℕ → ℕ → Except BatchFault (List BatchEntry)
  | 0, _ => pure []
  | count + 1, offset => do
    let (e, offset) ← decodeEntry data offset
    let es ← decodeEntries data count offset
    pure (e :: es)

/-- `DecodeBatch`. -/
def decodeBatch (data : Bytes) : Except BatchFault Batch := do
  need .invalidFormat data 0 4
  let count ← uintAt .outOfRange data 0 4
  let entries ← decodeEntries data count 4
  pure ⟨entries⟩

theorem agrees_decodeEntry {data : Bytes} {offset : ℕ} (h : offset ≤ data.length) :
    Agrees .invalidFormat data (decodeEntry data offset) (Wal.decodeEntry (data.drop offset)) := by
  refine agrees_need_byteAt h fun op h => ?_
  refine agrees_need_uintAt h 4 fun kLen h => ?_
  refine agrees_need_slice h _ fun key h => ?_
  refine agrees_need_uintAt h 4 fun vLen h => ?_
  by_cases hpos : leNat vLen > 0
  · simp only [if_pos hpos, map_eq_pure_bind, bind_assoc, pure_bind]
    refine agrees_need_slice h _ fun value h => ?_
    exact ⟨_, h, rfl, rfl⟩
  · -- nothing is sliced, and the decoder of the batch module drops its empty slice
    obtain hzero : leNat vLen = 0 := by omega
    simp only [hzero]
    rw [need, if_neg (by omega)]
    exact ⟨_, h, rfl, rfl⟩

theorem decodeEntries_eq {data : Bytes} (count : ℕ) {offset : ℕ} (h : offset ≤ data.length) :
    decodeEntries data count offset
      = (Wal.decodeEntries count (data.drop offset)).elim (.error .invalidFormat) .ok := by
  induction count generalizing offset with
  | zero => rfl
  | succ count ih =>
    rw [decodeEntries, Wal.decodeEntries]
    obtain ⟨hr, hd⟩ | ⟨e, offset', hle, hr, hd⟩ := (agrees_decodeEntry h).cases
    · rw [hr, hd]
      rfl
    · rw [hr, hd]
      change (decodeEntries data count offset' >>= _) = _
      rw [ih hle]
      change _ = ((Wal.decodeEntries count (data.drop offset')).bind _).elim _ _
      cases Wal.decodeEntries count (data.drop offset') <;> rfl

/-- **The decoder is never out of range**: it gives the batch or its own error. -/
theorem decodeBatch_eq (data : Bytes) :
    decodeBatch data = (Wal.decodeBatch data).mapError fun _ => .invalidFormat := by
  rw [decodeBatch, Wal.decodeBatch]
  by_cases h : 4 ≤ data.length
  · have hsplit : splitBytes 4 data = some (data.take 4, data.drop 4) := by
      rw [splitBytes, if_neg (by omega)]
    rw [need, if_neg (by omega), @uintAt_of_le _ _ _ 0 4 (by omega), hsplit, List.drop_zero]
    change (decodeEntries data (leNat (data.take 4)) 4 >>= _) = _
    rw [decodeEntries_eq _ h]
    dsimp only
    cases Wal.decodeEntries (leNat (data.take 4)) (data.drop 4) <;> rfl
  · rw [need, if_pos (by omega), splitBytes, if_pos (by omega)]
    rfl

/-! ### The encoder -/

/-- The first loop of `Batch.Encode`: the size of the buffer. -/
def encodedSize (b : Batch) : ℕ :=
  b.entries.foldl
    (fun size e => size + (1 + 4 + e.key.length + 4 + (e.value.getD []).length)) 4

/-- One round of the second loop. -/
def encodeEntry : Bytes × ℕ → BatchEntry → Except BatchFault (Bytes × ℕ)
  | (buf, offset), e => do
    let buf ← writeAt .outOfRange buf offset [e.op]
    let offset := offset + 1
    let buf ← writeAt .outOfRange buf offset (leBytes 4 e.key.length)
    let offset := offset + 4
    let buf ← writeAt .outOfRange buf offset e.key
    let offset := offset + e.key.length
    let buf ← writeAt .outOfRange buf offset (leBytes 4 (e.value.getD []).length)
    let offset := offset + 4
    let buf ← writeAt .outOfRange buf offset (e.value.getD [])
    pure (buf, offset + (e.value.getD []).length)

/-- `Batch.Encode`. -/
def encode (b : Batch) : Except BatchFault Bytes := do
  let buf := List.replicate (encodedSize b) 0
  let buf ← writeAt .outOfRange buf 0 (leBytes 4 b.entries.length)
  let (buf, _) ← b.entries.foldlM encodeEntry (buf, 4)
  pure buf

theorem length_encode (e : BatchEntry) :
    e.encode.length = 1 + 4 + e.key.length + 4 + (e.value.getD []).length := by
  simp [BatchEntry.encode]
  omega

theorem encodedSize_eq (b : Batch) :
    encodedSize b = 4 + (b.entries.flatMap BatchEntry.encode).length := by
  have hfold : ∀ (es : List BatchEntry) (size : ℕ),
      es.foldl (fun size e => size + (1 + 4 + e.key.length + 4 + (e.value.getD []).length)) size
        = size + (es.flatMap BatchEntry.encode).length := by
    intro es
    induction es with
    | nil => simp
    | cons e es ih =>
      intro size
      rw [List.foldl_cons, ih, List.flatMap_cons, List.length_append, length_encode]
      omega
  exact hfold b.entries 4

/-- One round writes the entry behind what is written. -/
theorem encodeEntry_filled {total : ℕ} {done : Bytes} (e : BatchEntry)
    (h : (done ++ e.encode).length ≤ total) :
    encodeEntry (filled total done, done.length) e
      = .ok (filled total (done ++ e.encode), (done ++ e.encode).length) := by
  rw [List.length_append, length_encode] at h
  -- after each write the offset is the length of what is written
  simp only [encodeEntry, bind, Except.bind]
  rw [writeAt_filled [e.op] rfl (by simp; omega)]
  dsimp only
  rw [writeAt_filled (leBytes 4 e.key.length) (by simp) (by simp; omega)]
  dsimp only
  rw [writeAt_filled e.key (by simp) (by simp; omega)]
  dsimp only
  rw [writeAt_filled (leBytes 4 (e.value.getD []).length) (by simp; omega) (by simp; omega)]
  dsimp only
  rw [writeAt_filled (e.value.getD []) (by simp; omega) (by simp; omega)]
  simp [BatchEntry.encode, pure, Except.pure]
  omega

theorem foldlM_encodeEntry {total : ℕ} {es : List BatchEntry} {done : Bytes}
    (h : (done ++ es.flatMap BatchEntry.encode).length ≤ total) :
    es.foldlM encodeEntry (filled total done, done.length)
      = .ok (filled total (done ++ es.flatMap BatchEntry.encode),
          (done ++ es.flatMap BatchEntry.encode).length) := by
  induction es generalizing done with
  | nil => simp [pure, Except.pure]
  | cons e es ih =>
    rw [List.flatMap_cons, ← List.append_assoc] at h ⊢
    have hfirst : (done ++ e.encode).length ≤ total :=
      (List.prefix_append _ _).length_le.trans h
    rw [List.foldlM_cons, encodeEntry_filled e hfirst]
    exact ih h

/-- **The encoder is never out of range**, and fills the buffer it has sized. -/
theorem encode_eq (b : Batch) : encode b = .ok b.encode := by
  have hsize : encodedSize b = b.encode.length := by
    rw [encodedSize_eq, Batch.encode, List.length_append, length_leBytes]
  have hhead : writeAt BatchFault.outOfRange (filled b.encode.length []) 0
      (leBytes 4 b.entries.length)
        = .ok (filled b.encode.length (leBytes 4 b.entries.length)) :=
    writeAt_filled _ rfl (List.prefix_append _ _).length_le
  have hloop := @foldlM_encodeEntry b.encode.length b.entries (leBytes 4 b.entries.length) le_rfl
  rw [length_leBytes] at hloop
  rw [encode, hsize]
  change (writeAt _ (filled b.encode.length []) 0 _ >>= _) = _
  rw [hhead]
  change (b.entries.foldlM encodeEntry (filled b.encode.length (leBytes 4 b.entries.length), 4)
    >>= _) = _
  rw [hloop]
  exact congrArg Except.ok (filled_length b.encode)

end Indexed

/-! ### Both directions of the codec -/

/-- **The codec on its image and on prefixes.** What is decoded from any bytes is, encoded again,
in front of them. A batch of fewer than `2 ^ 32` entries, with keys and values shorter than
`2 ^ 32`, is decoded from its encoding whatever follows it, with nil and empty values identified,
and from no proper prefix of its encoding. Neither function makes an access out of range. -/
theorem batch_codec_image :
    (∀ d b, Indexed.decodeBatch d = .ok b →
      ∃ bytes, Indexed.encode b = .ok bytes ∧ bytes <+: d) ∧
    (∀ b : Batch, b.entries.length < 2 ^ 32 →
      (∀ e ∈ b.entries, e.key.length < 2 ^ 32 ∧ (e.value.getD []).length < 2 ^ 32) →
      ∃ bytes, Indexed.encode b = .ok bytes ∧
        (∀ p, p <+: bytes → p ≠ bytes → Indexed.decodeBatch p = .error .invalidFormat) ∧
        ∀ x, Indexed.decodeBatch (bytes ++ x) = .ok b.recovered) ∧
    (∀ d, Indexed.decodeBatch d ≠ .error .outOfRange) ∧
    ∀ b, ∃ bytes, Indexed.encode b = .ok bytes := by
  refine ⟨?_, ?_, ?_, ?_⟩
  · intro d b h
    have hdecode : decodeBatch d = .ok b := by
      rw [Indexed.decodeBatch_eq] at h
      cases hd : decodeBatch d with
      | error e =>
        rw [hd] at h
        cases h
      | ok b' =>
        rw [hd] at h
        cases h
        rfl
    exact ⟨b.encode, Indexed.encode_eq b, (decodeBatch_eq_ok_iff.1 hdecode).2⟩
  · intro b hlen hentries
    have hfits : b.Fits := ⟨hlen, hentries⟩
    refine ⟨b.encode, Indexed.encode_eq b, fun p hp hne => ?_, fun x => ?_⟩
    · rw [Indexed.decodeBatch_eq, decodeBatch_of_cut hfits hp hne]
      rfl
    · rw [Indexed.decodeBatch_eq, decodeBatch_encode_append hfits]
      rfl
  · intro d h
    rw [Indexed.decodeBatch_eq] at h
    cases hd : decodeBatch d <;> rw [hd] at h <;> cases h
  · intro b
    exact ⟨b.encode, Indexed.encode_eq b⟩

/-- A put of an empty value, with more bytes behind it and with its last byte missing. -/
theorem batch_codec_image_put :
    Indexed.decodeBatch
        ((⟨[⟨opPut, [1], some []⟩]⟩ : Batch).encode ++ [9]) = .ok ⟨[⟨opPut, [1], none⟩]⟩ ∧
      Indexed.decodeBatch ((⟨[⟨opPut, [1], some []⟩]⟩ : Batch).encode.dropLast)
        = .error .invalidFormat := by
  obtain ⟨bytes, hencode, hcut, happend⟩ :=
    batch_codec_image.2.1 ⟨[⟨opPut, [1], some []⟩]⟩ (by decide) (by decide)
  obtain rfl : (⟨[⟨opPut, [1], some []⟩]⟩ : Batch).encode = bytes :=
    Except.ok.inj ((Indexed.encode_eq _).symm.trans hencode)
  exact ⟨happend [9], hcut _ (List.dropLast_prefix _) (by decide)⟩

end Stratum.Wal
