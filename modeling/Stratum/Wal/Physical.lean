import Mathlib.Tactic.Common
import Stratum.Lib.ByteCodec

/-!
# The log file, byte by byte

A record is written as one or more physical records, each a header of seven bytes (checksum,
length, type) and a fragment of the record. The **writer** cuts a record so that no fragment
leaves the block it is filling, where it measures the block by `blockUsed`, the bytes it has
collected since the last write to the file; when fewer than seven bytes are left of a block it
fills them with zeros. `Sync` and `Close` write out a partly filled block, and the next fragment
starts what the writer takes for a new block.

The **reader** reads the file in blocks of 32 KiB, counted from the beginning of the file, and
expects every physical record inside one of them.

`Writer.pieces` records what was emitted, physical records and padding; the code has no such
field. `faults` are the outcomes of the writes to the file that are still to come.
-/

namespace Stratum.Wal

open ByteCodec

/-- `BlockSize`. -/
def blockSize : ℕ := 32 * 1024

/-- `HeaderSize`: checksum, length and type. -/
def headerSize : ℕ := 7

/-- `RecordType`. -/
abbrev RecordType := UInt8

/-- `RecordFull`. -/
def recordFull : RecordType := 1

/-- `RecordFirst`. -/
def recordFirst : RecordType := 2

/-- `RecordMiddle`. -/
def recordMiddle : RecordType := 3

/-- `RecordLast`. -/
def recordLast : RecordType := 4

/-- The errors of the log: a write that failed, `ErrClosed`, `ErrCorruptRecord`, `ErrShortRecord`,
and `io.EOF`. -/
inductive WalErr
  | io
  | closed
  | corruptRecord
  | shortRecord
  | eof
deriving DecidableEq, Repr

/-! ### Checksums -/

/-- One round of the table construction, with the reversed Castagnoli polynomial. -/
def crcRound (crc : UInt32) : UInt32 :=
  if crc &&& 1 = 1 then (crc >>> 1) ^^^ 0x82F63B78 else crc >>> 1

/-- An entry of `castagnoliTable`. -/
def castagnoliTable (i : UInt8) : UInt32 := Nat.iterate crcRound 8 i.toUInt32

/-- `crc32.Update`. -/
def crcUpdate (crc : UInt32) (p : Bytes) : UInt32 :=
  ~~~(p.foldl (fun crc v => castagnoliTable (crc.toUInt8 ^^^ v) ^^^ (crc >>> 8)) (~~~crc))

/-- The checksum of a physical record, over its type and its fragment. -/
def checksum (typ : RecordType) (payload : Bytes) : UInt32 :=
  crcUpdate (crcUpdate 0 [typ]) payload

/-! ### Pieces of the file -/

/-- What the writer puts into a block: a physical record, or zeros to the end of the block. -/
inductive Piece
  | frag (typ : RecordType) (payload : Bytes)
  | pad (n : ℕ)
deriving DecidableEq, Repr

/-- The header of a physical record. -/
def header (typ : RecordType) (payload : Bytes) : Bytes :=
  leBytes 4 (checksum typ payload).toNat ++ leBytes 2 payload.length ++ [typ]

/-- The bytes of a piece. -/
def Piece.bytes : Piece → Bytes
  | .frag typ payload => header typ payload ++ payload
  | .pad n => List.replicate n 0

@[simp] theorem length_header (typ : RecordType) (payload : Bytes) :
    (header typ payload).length = headerSize := by
  simp [header, headerSize]

@[simp] theorem length_bytes_frag (typ : RecordType) (payload : Bytes) :
    (Piece.frag typ payload).bytes.length = headerSize + payload.length := by
  simp [Piece.bytes]

@[simp] theorem length_bytes_pad (n : ℕ) : (Piece.pad n).bytes.length = n := by
  simp [Piece.bytes]

/-! ### The writer -/

/-- `Writer`; `block` is `blockBuf[:blockUsed]`. -/
structure Writer where
  file : Bytes
  block : Bytes
  closed : Bool
  faults : List Bool
  pieces : List Piece

namespace Writer

/-- `flushBlock`; a write that fails writes nothing. -/
def flushBlock (w : Writer) : Writer × Option WalErr :=
  if w.block = [] then (w, none)
  else
    match w.faults with
    | true :: faults => ({ w with faults := faults }, some .io)
    | faults => ({ w with file := w.file ++ w.block, block := [], faults := faults.tail }, none)

/-- A piece goes to the block. -/
def put (w : Writer) (p : Piece) : Writer :=
  { w with block := w.block ++ p.bytes, pieces := w.pieces ++ [p] }

/-- The first part of the loop of `Append`: a block with no room for a header is filled up with
zeros and written out. -/
def makeRoom (w : Writer) : Writer × Option WalErr :=
  let rem := blockSize - w.block.length
  if rem < headerSize then (if 0 < rem then w.put (.pad rem) else w).flushBlock else (w, none)

/-- The type of a fragment: whether it is the first one and whether it is the last one. -/
def fragType (first last : Bool) : RecordType :=
  if first && last then recordFull else if first then recordFirst
  else if last then recordLast else recordMiddle

theorem fragType_ne_zero (first last : Bool) : fragType first last ≠ 0 := by
  revert first last
  decide

/-- A write that succeeds empties the block. -/
theorem flushBlock_cases {w w' : Writer} (h : w.flushBlock = (w', none)) :
    w'.block = [] ∧ w'.file = w.file ++ w.block ∧ w'.pieces = w.pieces ∧
      w'.closed = w.closed := by
  simp only [flushBlock] at h
  split at h
  · rename_i hnil
    cases h
    exact ⟨hnil, by simp [hnil], rfl, rfl⟩
  · split at h
    · cases h
    · cases h
      exact ⟨rfl, rfl, rfl, rfl⟩

/-- After `makeRoom` there is room for a header: in the block as it was, or in an empty one. -/
theorem makeRoom_cases {w w' : Writer} (h : w.makeRoom = (w', none)) :
    (w' = w ∧ headerSize ≤ blockSize - w.block.length) ∨ w'.block = [] := by
  simp only [makeRoom] at h
  split at h
  · exact .inr (flushBlock_cases h).1
  · rename_i hroom
    cases h
    exact .inl ⟨rfl, not_lt.mp hroom⟩

theorem makeRoom_room {w w' : Writer} (h : w.makeRoom = (w', none)) :
    w'.block.length + headerSize ≤ blockSize := by
  have hheader : headerSize = 7 := rfl
  have hsize : blockSize = 32768 := rfl
  rcases makeRoom_cases h with ⟨rfl, hroom⟩ | hnil
  · omega
  · rw [hnil, List.length_nil]
    omega

theorem flushBlock_closed (w : Writer) : w.flushBlock.1.closed = w.closed := by
  simp only [flushBlock]
  repeat' split
  all_goals rfl

theorem makeRoom_closed (w : Writer) : w.makeRoom.1.closed = w.closed := by
  simp only [makeRoom]
  split
  · rw [flushBlock_closed]
    split <;> rfl
  · rfl

/-- The bytes of a record that fit the block behind a header. -/
def avail (w : Writer) : ℕ := blockSize - w.block.length - headerSize

/-- The block has room for a header and nothing more. -/
def headerLeft (w : Writer) : ℕ := if blockSize - w.block.length = headerSize then 1 else 0

theorem headerLeft_le (w : Writer) : w.headerLeft ≤ 1 := by
  rw [headerLeft]
  split <;> omega

/-- Going round the loop of `Append` is progress: an empty fragment leaves a full block behind, so
the next one is not empty. -/
private theorem append_progress {w w' : Writer} (h : w.makeRoom = (w', none)) (typ : RecordType)
    {record : Bytes} (hlt : w'.avail < record.length) :
    2 * (record.drop w'.avail).length + (w'.put (.frag typ (record.take w'.avail))).headerLeft
      < 2 * record.length + w.headerLeft := by
  rw [List.length_drop]
  rcases Nat.eq_zero_or_pos w'.avail with hzero | hpos
  · have hblock : (w'.put (.frag typ (record.take w'.avail))).block.length
        = w'.block.length + headerSize := by
      simp [put, hzero]
    have hrem : w' = w ∧ blockSize - w.block.length = headerSize := by
      rcases makeRoom_cases h with ⟨rfl, hroom⟩ | hnil
      · rw [avail] at hzero
        exact ⟨rfl, by omega⟩
      · rw [avail, hnil] at hzero
        cases hzero
    have hold : w.headerLeft = 1 := if_pos hrem.2
    have hnew : (w'.put (.frag typ (record.take w'.avail))).headerLeft = 0 := by
      rw [headerLeft, hblock, hrem.1]
      refine if_neg ?_
      have hpos : 0 < headerSize := by decide
      omega
    omega
  · have := (w'.put (.frag typ (record.take w'.avail))).headerLeft_le
    omega

/-- The loop of `Append`: make room, emit as much of the record as fits, and go on with the
rest. -/
def appendLoop (w : Writer) (record : Bytes) (first : Bool) : Writer × Option WalErr :=
  match _hroom : w.makeRoom with
  | (w', some e) => (w', some e)
  | (w', none) =>
    if _hlast : record.length ≤ w'.avail then
      (w'.put (.frag (fragType first true) record), none)
    else
      appendLoop (w'.put (.frag (fragType first false) (record.take w'.avail)))
        (record.drop w'.avail) false
termination_by 2 * record.length + w.headerLeft
decreasing_by exact append_progress _hroom _ (not_le.mp _hlast)

/-- The loop of `Append`, when there was room or room was made. -/
theorem appendLoop_of_makeRoom {w w' : Writer} (h : w.makeRoom = (w', none)) (record : Bytes)
    (first : Bool) :
    w.appendLoop record first =
      if record.length ≤ w'.avail then (w'.put (.frag (fragType first true) record), none)
      else (w'.put (.frag (fragType first false) (record.take w'.avail))).appendLoop
        (record.drop w'.avail) false := by
  rw [appendLoop]
  split
  · rename_i hroom
    rw [h] at hroom
    cases hroom
  · rename_i hroom
    rw [h] at hroom
    cases hroom
    simp only [dite_eq_ite]

/-- The loop of `Append`, when room could not be made. -/
theorem appendLoop_of_makeRoom_error {w w' : Writer} {e : WalErr} (h : w.makeRoom = (w', some e))
    (record : Bytes) (first : Bool) : w.appendLoop record first = (w', some e) := by
  rw [appendLoop]
  split
  · rename_i hroom
    rw [h] at hroom
    cases hroom
    rfl
  · rename_i hroom
    rw [h] at hroom
    cases hroom

/-- Appending does not close the writer. -/
theorem appendLoop_closed (w : Writer) (record : Bytes) (first : Bool) :
    (w.appendLoop record first).1.closed = w.closed := by
  induction w, record, first using appendLoop.induct with
  | case1 w record first w' e hroom =>
    rw [appendLoop_of_makeRoom_error hroom, ← w.makeRoom_closed, hroom]
  | case2 w record first w' hroom hlast =>
    rw [appendLoop_of_makeRoom hroom, if_pos hlast, ← w.makeRoom_closed, hroom]
    rfl
  | case3 w record first w' hroom hlast ih =>
    rw [appendLoop_of_makeRoom hroom, if_neg hlast, ih, ← w.makeRoom_closed, hroom]
    rfl

/-- `Append`. -/
def append (w : Writer) (record : Bytes) : Writer × Option WalErr :=
  if w.closed then (w, some .closed) else w.appendLoop record true

/-- `Sync`. -/
def sync (w : Writer) : Writer × Option WalErr :=
  if w.closed then (w, some .closed) else w.flushBlock

@[simp] theorem append_closed (w : Writer) (record : Bytes) :
    (w.append record).1.closed = w.closed := by
  rw [append]
  split
  · rfl
  · exact w.appendLoop_closed record true

@[simp] theorem sync_closed (w : Writer) : w.sync.1.closed = w.closed := by
  rw [sync]
  split
  · rfl
  · exact w.flushBlock_closed

/-- `Close`. -/
def close (w : Writer) : Writer × Option WalErr :=
  if w.closed then (w, none) else { w with closed := true }.flushBlock

end Writer

/-! ### The reader -/

/-- `Reader`: what is left of the file, what is left of the block, and whether the end of the file
was seen. -/
structure Reader where
  rest : Bytes
  block : Bytes
  eof : Bool
deriving DecidableEq, Repr

namespace Reader

/-- `NewReader`, on a file that exists. -/
def new (file : Bytes) : Reader := ⟨file, [], false⟩

/-- `readBlock`; a short block sets `eof`, an empty one is the end of the file. -/
def readBlock (r : Reader) : Reader × Option WalErr :=
  if r.rest = [] then ({ r with eof := true }, some .eof)
  else
    (⟨r.rest.drop blockSize, r.rest.take blockSize, r.eof || decide (r.rest.length < blockSize)⟩,
      none)

/-- Reading a block moves bytes out of what is left of the file. -/
private theorem readBlock_progress {r r' : Reader} (h : r.readBlock = (r', none)) :
    2 * r'.rest.length + r'.block.length < 2 * r.rest.length + r.block.length := by
  simp only [readBlock] at h
  split at h
  · cases h
  · rename_i hne
    cases h
    have hpos := List.length_pos_iff.mpr hne
    simp only [List.length_drop, List.length_take, blockSize]
    omega

/-- The fields of the header at the front of the block. -/
def headerFields (block : Bytes) : ℕ × ℕ × RecordType :=
  (leNat (block.take 4), leNat ((block.drop 4).take 2), (block.drop 6).headD 0)

/-- The loop of `ReadRecord`; `record` is what was collected so far, of a fragmented record when
`inFragmentedRecord`. -/
def readLoop (r : Reader) (record : Bytes) (inFragmentedRecord : Bool) :
    Reader × Except WalErr Bytes :=
  if _hblock : r.block.length < headerSize then
    if r.eof then (r, .error (if inFragmentedRecord then .shortRecord else .eof))
    else
      match _hread : r.readBlock with
      | (r', some .eof) => (r', .error (if inFragmentedRecord then .shortRecord else .eof))
      | (r', some e) => (r', .error e)
      | (r', none) => readLoop r' record inFragmentedRecord
  else
    let (crcExpected, length, typ) := headerFields r.block
    if length = 0 ∧ typ = 0 then
      -- zero padding reached, advance to the next block
      readLoop { r with block := [] } record inFragmentedRecord
    else if r.block.length < headerSize + length then (r, .error .shortRecord)
    else
      let payload := (r.block.drop headerSize).take length
      if crcExpected ≠ (checksum typ payload).toNat then (r, .error .corruptRecord)
      else
        let r' := { r with block := r.block.drop (headerSize + length) }
        if !inFragmentedRecord then
          if typ = recordFull then (r', .ok (record ++ payload))
          else if typ = recordFirst then readLoop r' (record ++ payload) true
          else (r', .error .corruptRecord)
        else
          if typ = recordLast then (r', .ok (record ++ payload))
          else if typ = recordMiddle then readLoop r' (record ++ payload) true
          else (r', .error .corruptRecord)
termination_by 2 * r.rest.length + r.block.length
decreasing_by
  · exact readBlock_progress _hread
  all_goals
    simp only [headerSize, List.length_drop, List.length_nil] at *
    omega

/-- `ReadRecord`. -/
def readRecord (r : Reader) : Reader × Except WalErr Bytes := r.readLoop [] false

/-- `ReadRecord` up to `n` times, until it fails: the records, and the error. -/
def readRecords : ℕ → Reader → List Bytes × Option WalErr
  | 0, _ => ([], none)
  | n + 1, r =>
    match r.readRecord with
    | (_, .error e) => ([], some e)
    | (r', .ok record) => ((record :: (readRecords n r').1), (readRecords n r').2)

end Reader

end Stratum.Wal
