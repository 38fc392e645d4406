import Mathlib.Data.List.TakeWhile
import Stratum.Lib.BinarySearch
import Stratum.Sstable.Bloom
import Stratum.Sstable.TableFormat

/-!
# SSTables, byte by byte

The writer collects encoded entries into data blocks; a block is closed as soon as it reaches the
block size, compressed when that makes it smaller, and appended to the file behind one byte that
says so. After the last block come the index (the last key of each block and where it lies), the
Bloom filter, and a footer of 48 bytes that leads to both.

The reader goes the other way: footer, index and filter when it is opened, one data block for each
lookup. It decompresses into a buffer of `8 * defaultBlockSize` bytes, because the uncompressed
length is not stored.

LZ4 and murmur3 are the libraries the code uses; they are fields of `Config`, the former with the
contract `Lz4` between its two directions.
-/

namespace Stratum.Sstable

open ByteCodec Memtable Mvcc Bloom

/-- `DefaultBlockSize`. -/
def defaultBlockSize : ℕ := 4096

/-- `FooterSize`. -/
def footerSize : ℕ := 48

/-- `MagicNumber`. -/
def magicNumber : ℕ := 0x5354524154554D00

/-- The LZ4 block codec: `compressBlock` yields nothing when the block does not compress, and what
it yields is decompressed into a buffer exactly when the block fits the buffer. -/
structure Lz4 where
  compressBlock : Bytes → Bytes
  uncompressBlock : Bytes → ℕ → Option Bytes
  uncompress_compress : ∀ src cap, compressBlock src ≠ [] → src.length ≤ cap →
    uncompressBlock (compressBlock src) cap = some src
  uncompress_short : ∀ src cap, compressBlock src ≠ [] → cap < src.length →
    uncompressBlock (compressBlock src) cap = none

/-- The bytes without the zeros at the end. -/
def stripZeros (src : Bytes) : Bytes := (src.reverse.dropWhile (· == 0)).reverse

theorem stripZeros_append_replicate (src : Bytes) :
    stripZeros src ++ List.replicate (src.length - (stripZeros src).length) 0 = src := by
  have hsplit : src.reverse.takeWhile (· == 0) ++ src.reverse.dropWhile (· == 0) = src.reverse :=
    List.takeWhile_append_dropWhile
  have hzeros : src.reverse.takeWhile (· == 0)
      = List.replicate (src.reverse.takeWhile (· == 0)).length 0 := by
    rw [List.eq_replicate_iff]
    exact ⟨rfl, fun b hb => by simpa using List.mem_takeWhile_imp hb⟩
  have hlen : (src.reverse.takeWhile (· == 0)).length
      = src.length - (stripZeros src).length := by
    have := congrArg List.length hsplit
    simp only [List.length_append, List.length_reverse] at this
    rw [stripZeros, List.length_reverse]
    omega
  have := congrArg List.reverse hsplit
  rw [List.reverse_append, List.reverse_reverse, hzeros, List.reverse_replicate, hlen] at this
  exact this

/-- Bytes that do not end in a zero, with zeros behind them. -/
theorem stripZeros_append_zeros {body : Bytes} {b : UInt8} (hb : b ≠ 0) (n : ℕ) :
    stripZeros (body ++ [b] ++ List.replicate n 0) = body ++ [b] := by
  have hdrop : (List.replicate n (0 : UInt8) ++ (body ++ [b]).reverse).dropWhile (· == 0)
      = (body ++ [b]).reverse := by
    rw [List.dropWhile_append_of_pos (by simp [List.mem_replicate])]
    simp [hb]
  rw [stripZeros, List.reverse_append, List.reverse_replicate, hdrop, List.reverse_reverse]

/-- Shorten a block that ends in zeros, to the number of the zeros and the bytes before them. -/
def zeroTailCompress (src : Bytes) : Bytes :=
  if 8 + (stripZeros src).length < src.length ∧ src.length < 256 ^ 8 then
    leBytes 8 (src.length - (stripZeros src).length) ++ stripZeros src
  else []

def zeroTailUncompress (data : Bytes) (cap : ℕ) : Option Bytes := do
  let (n, body) ← splitBytes 8 data
  if body.length + leNat n ≤ cap then some (body ++ List.replicate (leNat n) 0) else none

theorem zeroTailUncompress_compress {src : Bytes} (hne : zeroTailCompress src ≠ []) (cap : ℕ) :
    zeroTailUncompress (zeroTailCompress src) cap =
      if src.length ≤ cap then some src else none := by
  rw [zeroTailCompress] at hne ⊢
  split at hne
  · rename_i h
    rw [if_pos h, zeroTailUncompress, splitBytes_append (by simp)]
    simp only [Option.bind_eq_bind, Option.bind_some]
    have hlen : (stripZeros src).length + (src.length - (stripZeros src).length) = src.length := by
      omega
    rw [leNat_leBytes_of_lt (by omega), hlen, stripZeros_append_replicate]
  · exact absurd rfl hne

/-- A codec that meets the contract, so that the model can be run. -/
def Lz4.zeroTail : Lz4 where
  compressBlock := zeroTailCompress
  uncompressBlock := zeroTailUncompress
  uncompress_compress _ cap hne hcap := (zeroTailUncompress_compress hne cap).trans (if_pos hcap)
  uncompress_short _ cap hne hcap :=
    (zeroTailUncompress_compress hne cap).trans (if_neg (Nat.not_le_of_lt hcap))

/-- The options of a table, and the libraries it uses. -/
structure Config where
  blockSize : ℕ
  bloomBits : ℤ
  lz4 : Lz4
  sum128 : Bytes → UInt64 × UInt64

/-- How opening or reading a table can fail: `ErrCorrupt`, a read beyond the end of the file, or an
error of the decompression. -/
inductive TableErr
  | corrupt
  | shortRead
  | lz4
deriving DecidableEq, Repr

/-! ### Entries -/

/-- The length field of a value; all ones stand for a tombstone. -/
def valueLen : Option Bytes → ℕ
  | none => 0xFFFFFFFF
  | some v => v.length

/-- The bytes of one entry: `[keyLen(4)][valLen(4)][key][val]`. -/
def encodeEntry (e : Entry) : Bytes :=
  leBytes 4 e.1.length ++ leBytes 4 (valueLen e.2) ++ e.1 ++ e.2.getD []

/-- The bytes of a data block before compression. -/
def encodeEntries (es : List Entry) : Bytes := es.flatMap encodeEntry

/-- Read one entry off the front: the two bounds checks, and the slices. -/
def parseEntry (data : Bytes) : Option (Entry × Bytes) := do
  let (keyLen, data) ← splitBytes 4 data
  let (valLen, data) ← splitBytes 4 data
  let (key, data) ← splitBytes (leNat keyLen) data
  if leNat valLen = 0xFFFFFFFF then pure ((key, none), data)
  else
    let (val, data) ← splitBytes (leNat valLen) data
    pure ((key, some val), data)

/-! ### Handles, index and footer -/

/-- `BlockHandle`. -/
structure BlockHandle where
  offset : ℕ
  size : ℕ
deriving DecidableEq, Repr

/-- `BlockHandle.Encode`. -/
def BlockHandle.encode (h : BlockHandle) : Bytes := leBytes 8 h.offset ++ leBytes 8 h.size

/-- `DecodeBlockHandle`, on at least 16 bytes. -/
def decodeBlockHandle (data : Bytes) : BlockHandle :=
  ⟨leNat (data.take 8), leNat ((data.drop 8).take 8)⟩

/-- `IndexEntry`: the last key of a data block, and where it lies. -/
structure IndexEntry where
  key : Bytes
  handle : BlockHandle
deriving DecidableEq, Repr

/-- One entry of the index block. -/
def IndexEntry.encode (ie : IndexEntry) : Bytes :=
  leBytes 4 ie.key.length ++ ie.key ++ ie.handle.encode

/-- The index loop of `OpenReader`; each round takes at least 20 bytes. -/
def parseIndex : ℕ → Bytes → Option (List IndexEntry)
  | 0, _ => some []
  | fuel + 1, buf =>
    if buf = [] then some []
    else do
      let (keyLen, buf) ← splitBytes 4 buf
      let (key, buf) ← splitBytes (leNat keyLen) buf
      let (handle, buf) ← splitBytes 16 buf
      let ies ← parseIndex fuel buf
      pure (⟨key, decodeBlockHandle handle⟩ :: ies)

/-- `Footer`. -/
structure Footer where
  indexHandle : BlockHandle
  bloomHandle : BlockHandle
  numEntries : ℕ
deriving DecidableEq, Repr

/-- `Footer.Encode`, with the magic number. -/
def Footer.encode (f : Footer) : Bytes :=
  f.indexHandle.encode ++ f.bloomHandle.encode ++ leBytes 8 f.numEntries
    ++ leBytes 8 magicNumber

/-- `DecodeFooter`. -/
def decodeFooter (data : Bytes) : Option Footer :=
  if data.length < footerSize then none
  else if leNat ((data.drop 40).take 8) ≠ magicNumber then none
  else some ⟨decodeBlockHandle data, decodeBlockHandle (data.drop 16),
    leNat ((data.drop 32).take 8)⟩

/-! ### The writer -/

/-- `Writer`; `file` is what was written so far, `offset` its length. -/
structure Writer where
  file : Bytes
  blockBuf : Bytes
  indexEntries : List IndexEntry
  bloom : Filter
  offset : ℕ
  entryCount : ℕ
  lastKey : Bytes

namespace Writer

/-- `NewWriter`, on the truncated file. -/
def new (cfg : Config) : Writer where
  file := []
  blockBuf := []
  indexEntries := []
  bloom := newFilter 10000 cfg.bloomBits
  offset := 0
  entryCount := 0
  lastKey := []

end Writer

/-- A data block as it is written: behind a byte `1` compressed, if that is shorter, else behind a
byte `0` as it is. -/
def Config.diskBlock (cfg : Config) (raw : Bytes) : Bytes :=
  let compressed := cfg.lz4.compressBlock raw
  if 0 < compressed.length ∧ compressed.length < raw.length then 1 :: compressed else 0 :: raw

namespace Writer

variable (cfg : Config)

/-- `flushDataBlock`. -/
def flushDataBlock (w : Writer) : Writer :=
  if w.blockBuf = [] then w
  else
    let block := cfg.diskBlock w.blockBuf
    { w with
      file := w.file ++ block
      indexEntries := w.indexEntries ++ [⟨w.lastKey, ⟨w.offset, block.length⟩⟩]
      offset := w.offset + block.length
      blockBuf := [] }

/-- The entry goes to the filter and to the current block. -/
@[simps]
def append (w : Writer) (e : Entry) : Writer :=
  { w with
    bloom := w.bloom.add cfg.sum128 e.1
    blockBuf := w.blockBuf ++ encodeEntry e
    entryCount := w.entryCount + 1
    lastKey := e.1 }

/-- `Writer.Add`. -/
def add (w : Writer) (e : Entry) : Writer :=
  let w := w.append cfg e
  if cfg.blockSize ≤ w.blockBuf.length then w.flushDataBlock cfg else w

/-- The index block. -/
def indexBlock (w : Writer) : Bytes := w.indexEntries.flatMap IndexEntry.encode

/-- `Writer.Close`: what the file holds in the end. -/
def close (w : Writer) : Bytes :=
  let w := w.flushDataBlock cfg
  let index := w.indexBlock
  let bloom := w.bloom.encode
  let footer : Footer :=
    ⟨⟨w.offset, index.length⟩, ⟨w.offset + index.length, bloom.length⟩, w.entryCount⟩
  w.file ++ index ++ bloom ++ footer.encode

/-- The writer that `Writer.Close` leaves: its offset counts the index and the filter, but not the
footer. -/
def closed (w : Writer) : Writer :=
  let flushed := w.flushDataBlock cfg
  { flushed with
    file := w.close cfg
    offset := flushed.offset + flushed.indexBlock.length + flushed.bloom.encode.length }

/-- `Writer.Size`. -/
def size (w : Writer) : ℕ := w.offset + footerSize

end Writer

/-- The file of a table: each entry added, and closed. -/
def Config.write (cfg : Config) (es : List Entry) : Bytes :=
  (es.foldl (Writer.add cfg) (Writer.new cfg)).close cfg

/-! ### The reader -/

/-- `Reader`. -/
structure Reader where
  file : Bytes
  indexEntries : List IndexEntry
  bloom : Filter
deriving DecidableEq, Repr

/-- `file.ReadAt` with a buffer of `len` bytes: an error when the file ends before the buffer is
full. -/
def readAt (file : Bytes) (off len : ℕ) : Option Bytes :=
  if len = 0 ∨ off + len ≤ file.length then some ((file.drop off).take len) else none

/-- `OpenReader`. -/
def openReader (file : Bytes) : Except TableErr Reader :=
  if file.length < footerSize then .error .corrupt
  else
    match decodeFooter (file.drop (file.length - footerSize)) with
    | none => .error .corrupt
    | some footer =>
      match readAt file footer.indexHandle.offset footer.indexHandle.size with
      | none => .error .shortRead
      | some indexBuf =>
        match parseIndex indexBuf.length indexBuf with
        | none => .error .corrupt
        | some indexEntries =>
          match readAt file footer.bloomHandle.offset footer.bloomHandle.size with
          | none => .error .shortRead
          | some bloomBuf => .ok ⟨file, indexEntries, decodeFilter bloomBuf⟩

/-- The contents of a data block, from its bytes in the file. -/
def Config.decodeBlock (cfg : Config) (buf : Bytes) : Except TableErr Bytes :=
  match buf with
  | [] => .error .corrupt
  | isCompressed :: data =>
    if isCompressed = 1 then
      match cfg.lz4.uncompressBlock data (8 * defaultBlockSize) with
      | none => .error .lz4
      | some blockData => .ok blockData
    else .ok data

namespace Reader

variable (cfg : Config)

/-- `readBlock`; `cached` is what the block cache has for this file, by offset. -/
def readBlock (cached : ℕ → Option Bytes) (r : Reader) (h : BlockHandle) :
    Except TableErr Bytes :=
  match cached h.offset with
  | some data => .ok data
  | none =>
    match readAt r.file h.offset h.size with
    | none => .error .shortRead
    | some buf => cfg.decodeBlock buf

/-- `findBlockIndex`. -/
def findBlockIndex (r : Reader) (key : Bytes) : ℕ :=
  BinarySearch.search r.indexEntries.length fun i =>
    match r.indexEntries[i]? with
    | some ie => compareKeys ie.key key != .lt
    | none => false

/-- The scan loop of `Reader.Get`; each round takes at least 8 bytes. -/
def scanBlock (key : Bytes) : ℕ → Bytes → Except TableErr (Option (Option Bytes))
  | 0, _ => .ok none
  | fuel + 1, data =>
    if data = [] then .ok none
    else
      match parseEntry data with
      | none => .error .corrupt
      | some (e, rest) =>
        match compareKeys e.1 key with
        | .eq => .ok (some e.2)
        | .gt => .ok none
        | .lt => scanBlock key fuel rest

/-- `Reader.Get`. -/
def get (cached : ℕ → Option Bytes) (r : Reader) (key : Bytes) :
    Except TableErr (Option (Option Bytes)) :=
  if r.bloom.mayContain cfg.sum128 key then
    match r.indexEntries[r.findBlockIndex key]? with
    | none => .ok none
    | some ie =>
      match r.readBlock cfg cached ie.handle with
      | .error e => .error e
      | .ok blockData => scanBlock key blockData.length blockData
  else .ok none

/-- The entries an iterator passes inside one block, and whether it comes to its end. -/
def iterateBlock : ℕ → Bytes → List Entry × Bool
  | 0, _ => ([], true)
  | fuel + 1, data =>
    if data = [] then ([], true)
    else
      match parseEntry data with
      | none => ([], false)
      | some (e, rest) => ((e :: (iterateBlock fuel rest).1), (iterateBlock fuel rest).2)

/-- The entries an iterator passes from a block on: `loadBlock` and `parseCurrent` stop for good
at the first error. -/
def iterateBlocks (cached : ℕ → Option Bytes) (r : Reader) : List IndexEntry → List Entry
  | [] => []
  | ie :: ies =>
    match r.readBlock cfg cached ie.handle with
    | .error _ => []
    | .ok data =>
      let (es, complete) := iterateBlock data.length data
      es ++ if complete then iterateBlocks cached r ies else []

/-- `NewIterator` followed by `Next` until the iterator is no longer valid. -/
def iterate (cached : ℕ → Option Bytes) (r : Reader) : List Entry :=
  r.iterateBlocks cfg cached r.indexEntries

end Reader

/-- The table format of the repository. -/
def Config.format (cfg : Config) : TableFormat where
  File := Bytes
  Reader := Reader
  Err := TableErr
  created := []
  write := cfg.write
  size := List.length
  openReader := openReader
  get := Reader.get cfg fun _ => none
  iterate := Reader.iterate cfg fun _ => none

/-! ### To run the model with -/

instance decidableEqExcept {ε α : Type*} [DecidableEq ε] [DecidableEq α] :
    DecidableEq (Except ε α)
  | .ok a, .ok b => decidable_of_iff (a = b) (by simp)
  | .error a, .error b => decidable_of_iff (a = b) (by simp)
  | .ok _, .error _ => isFalse nofun
  | .error _, .ok _ => isFalse nofun

instance (cfg : Config) : DecidableEq cfg.format.Err := inferInstanceAs (DecidableEq TableErr)

instance (cfg : Config) : DecidableEq cfg.format.File := inferInstanceAs (DecidableEq Bytes)

/-- A configuration to run the model with: the defaults of the repository, and libraries that meet
their contracts. -/
def Config.plain : Config := ⟨defaultBlockSize, 10, .zeroTail, fun _ => (0, 0)⟩

/-- The same without bits for the Bloom filters, to run longer runs with. -/
def Config.noFilter : Config := { Config.plain with bloomBits := 0 }

end Stratum.Sstable
