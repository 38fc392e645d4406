import Stratum.Sstable.Iterator

/-!
# Reading back what the writer flushed

`Writer.flushes` lists the data blocks that a writer flushes while entries are added and the table
is closed, each with its handle and the bytes it has before compression. They are the blocks of the
index (`handle_flushes`), and each handle leads to the block (`mem_flushes`).

The two sides size their buffers by different rules. A block has at least `blockSize` bytes when
`Add` flushes it, but one entry can make it as long as it likes; the reader decompresses into
`8 * defaultBlockSize` bytes. So a block is read back **exactly when** it fits that buffer, or was
not compressed (`readBlock_flushes_iff`).
-/

namespace Stratum.Sstable

open ByteCodec Memtable Mvcc

/-! ### What the writer flushes -/

namespace Writer

variable (cfg : Config)

/-- The block that `flushDataBlock` writes, if it writes one: its handle, and its bytes before
compression. -/
def flushed (w : Writer) : List (BlockHandle × Bytes) :=
  if w.blockBuf = [] then []
  else [(⟨w.offset, (cfg.diskBlock w.blockBuf).length⟩, w.blockBuf)]

/-- The blocks that are flushed by an `Add` of each entry, and by `Close`. -/
def flushes (w : Writer) : List Entry → List (BlockHandle × Bytes)
  | [] => w.flushed cfg
  | e :: es =>
    let w' := w.append cfg e
    (if cfg.blockSize ≤ w'.blockBuf.length then w'.flushed cfg else []) ++
      flushes (w.add cfg e) es

end Writer

variable {cfg : Config} {es : List Entry}

/-- `flushDataBlock` enters what it writes into the index. -/
private theorem handle_flushed (w : Writer) :
    (w.flushDataBlock cfg).indexEntries.map IndexEntry.handle
      = w.indexEntries.map IndexEntry.handle ++ (w.flushed cfg).map Prod.fst := by
  rw [Writer.flushDataBlock, Writer.flushed]
  split <;> simp

/-- **The blocks that were flushed are those of the index**, in its order. -/
theorem handle_flushes (w : Writer) :
    ((es.foldl (Writer.add cfg) w).flushDataBlock cfg).indexEntries.map IndexEntry.handle
      = w.indexEntries.map IndexEntry.handle ++ (w.flushes cfg es).map Prod.fst := by
  induction es generalizing w with
  | nil => exact handle_flushed w
  | cons e es ih =>
    rw [List.foldl_cons, ih, Writer.flushes, Writer.add]
    split
    · rw [handle_flushed, List.map_append, List.append_assoc, Writer.append_indexEntries]
    · rw [List.nil_append, Writer.append_indexEntries]

variable {gs : List (List Entry)} {cur : List Entry} {w : Writer} {b : BlockHandle × Bytes} {n : ℕ}

/-- What is flushed while the block `cur` is open is that block, behind the earlier ones. -/
private theorem WriterInv.mem_flushed (h : WriterInv cfg gs cur w) (hb : b ∈ w.flushed cfg) :
    cur ≠ [] ∧ b = (⟨(gs.flatMap cfg.blockBytes).length, (cfg.blockBytes cur).length⟩,
      encodeEntries cur) := by
  simp only [Writer.flushed, h.blockBuf_eq, h.offset_eq, h.file_eq, encodeEntries_eq_nil_iff] at hb
  split at hb
  · exact absurd hb List.not_mem_nil
  · rename_i hcur
    exact ⟨hcur, List.mem_singleton.1 hb⟩

/-- Each block that is flushed is one of the table, with a handle that leads to it. -/
theorem WriterInv.mem_flushes (h : WriterInv cfg gs cur w) (hb : b ∈ w.flushes cfg es) :
    ∃ pre g post, gs ++ cfg.blocksFrom cur es = pre ++ g :: post ∧
      b = (⟨(pre.flatMap cfg.blockBytes).length, (cfg.blockBytes g).length⟩, encodeEntries g) := by
  induction es generalizing gs cur w with
  | nil =>
    obtain ⟨hcur, rfl⟩ := h.mem_flushed hb
    exact ⟨gs, cur, [], by rw [Config.blocksFrom, if_neg hcur], rfl⟩
  | cons e es ih =>
    have happend := h.append e
    rw [Writer.flushes, Writer.add] at hb
    rw [Config.blocksFrom, ← happend.blockBuf_eq]
    split at hb
    · rename_i hfull
      rw [if_pos hfull]
      rcases List.mem_append.1 hb with hb | hb
      · obtain ⟨-, rfl⟩ := happend.mem_flushed hb
        exact ⟨gs, cur ++ [e], cfg.blocksFrom [] es, rfl, rfl⟩
      · obtain ⟨pre, g, post, hsplit, rfl⟩ := ih (happend.flushDataBlock (by simp)) hb
        exact ⟨pre, g, post, by rw [← hsplit, List.append_assoc, List.singleton_append], rfl⟩
    · rename_i hfull
      rw [if_neg hfull]
      exact ih happend hb

/-! ### What the reader reads -/

/-- The block is stored compressed. -/
def Config.Compresses (cfg : Config) (raw : Bytes) : Prop :=
  0 < (cfg.lz4.compressBlock raw).length ∧ (cfg.lz4.compressBlock raw).length < raw.length

/-- What comes out of the decompression. -/
theorem decodeBlock_diskBlock_iff (raw : Bytes) :
    cfg.decodeBlock (cfg.diskBlock raw) = .ok raw ↔
      raw.length ≤ 8 * defaultBlockSize ∨ ¬ cfg.Compresses raw := by
  by_cases hfit : raw.length ≤ 8 * defaultBlockSize
  · simp only [decodeBlock_diskBlock hfit, hfit, true_or]
  by_cases hc : cfg.Compresses raw
  · rw [decodeBlock_diskBlock_of_lt (Nat.lt_of_not_le hfit) (List.length_pos_iff.1 hc.1) hc.2]
    simp [hfit, hc]
  · simp only [decodeBlock_diskBlock_of_not_compressed hc, hc, not_false_eq_true, or_true]

/-- A handle that the writer recorded leads to the bytes it wrote. -/
theorem readBlock_flushes {h : BlockHandle} {raw : Bytes}
    (hb : (h, raw) ∈ (Writer.new cfg).flushes cfg es) :
    (cfg.readerOf es).readBlock cfg (fun _ => none) h = cfg.decodeBlock (cfg.diskBlock raw) := by
  obtain ⟨pre, g, post, hsplit, ⟨⟩⟩ := WriterInv.new.mem_flushes hb
  rw [List.nil_append] at hsplit
  exact readBlock_readerOf hsplit

/-- The handles that were recorded while the table was written are those of its reader. -/
theorem handle_readerOf :
    (cfg.readerOf es).indexEntries.map IndexEntry.handle
      = ((Writer.new cfg).flushes cfg es).map Prod.fst := by
  have hindex := (@WriterInv.foldl_add cfg [] [] es _ WriterInv.new).index_eq
  have hhandle := @handle_flushes cfg es (Writer.new cfg)
  rw [hindex] at hhandle
  exact hhandle

/-- **A block that was flushed is read back exactly when it fits the buffer of the reader, or was
not compressed.** Any entries are added, whose keys fit their length fields, and the table is
closed without an error. Then it can be opened, its index has the blocks that were flushed, and with
any cache that the reader may meet, or none, `readBlock` returns the bytes of a block under this
condition and no other. -/
theorem Config.readBlock_flushes_iff {file : Bytes} (hkeys : ∀ e ∈ es, e.1.length < 2 ^ 32)
    (hfile : cfg.create es = some file) :
    ∃ r, openReader file = .ok r ∧
      r.indexEntries.map IndexEntry.handle = ((Writer.new cfg).flushes cfg es).map Prod.fst ∧
      ∀ h raw, (h, raw) ∈ (Writer.new cfg).flushes cfg es →
        ∀ fileID cache, r.Shared cfg fileID cache →
          ((r.readBlockVia cfg fileID cache h).2 = .ok raw ↔
            raw.length ≤ 8 * defaultBlockSize ∨ ¬ cfg.Compresses raw) := by
  refine ⟨cfg.readerOf es, openReader_create_of_keys hkeys hfile, handle_readerOf, ?_⟩
  intro h raw hb fileID cache hcache
  obtain ⟨ie, hie, hhandle⟩ : ∃ ie ∈ (cfg.readerOf es).indexEntries, ie.handle = h := by
    rw [← List.mem_map, handle_readerOf]
    exact List.mem_map_of_mem hb
  have hvia := (Reader.readBlockVia_eq (offsetsApart_readerOf es) hcache hie).1
  rw [hhandle, readBlock_flushes hb] at hvia
  rw [hvia]
  exact decodeBlock_diskBlock_iff raw

/-- The block of a table of one entry is read back through a new cache. -/
theorem Config.readBlock_flushes_one :
    ∃ file r h, Config.plain.create [([1], some [7])] = some file ∧ openReader file = .ok r ∧
      (Writer.new Config.plain).flushes Config.plain [([1], some [7])]
        = [(h, encodeEntry ([1], some [7]))] ∧
      (r.readBlockVia Config.plain 7 (some (newBlockCache 4096)) h).2
        = .ok (encodeEntry ([1], some [7])) := by
  have hcreate := @Config.create_eq Config.plain [([1], some [7])] (by decide)
  obtain ⟨r, hopen, -, hall⟩ := Config.readBlock_flushes_iff (by decide) hcreate
  have hflushes : (Writer.new Config.plain).flushes Config.plain [([1], some [7])]
      = [(⟨0, 11⟩, encodeEntry ([1], some [7]))] := by decide +kernel
  have hmem : ((⟨0, 11⟩ : BlockHandle), encodeEntry ([1], some [7])) ∈
      (Writer.new Config.plain).flushes Config.plain [([1], some [7])] := by
    rw [hflushes]
    exact List.mem_singleton_self _
  have hshared : r.Shared Config.plain 7 (some (newBlockCache 4096)) := ⟨4096, [], rfl, by simp⟩
  exact ⟨_, r, _, hcreate, hopen, hflushes, (hall _ _ hmem 7 _ hshared).2 (.inl (by decide))⟩

/-! ### A block that compresses and does not fit -/

/-- An entry whose value is `n` zero bytes. -/
abbrev zeroEntry (n : ℕ) : Entry := ([107], some (List.replicate n 0))

theorem encodedLen_zeroEntry (n : ℕ) : encodedLen (zeroEntry n) = 9 + n := by
  simp [encodedLen]

/-- The block of such an entry ends in its zeros, and is stored as 17 bytes. -/
theorem length_zeroTailCompress_zeroEntry (h : 8 < n) (h' : n < 2 ^ 32) :
    (zeroTailCompress (encodeEntry (zeroEntry n))).length = 17 := by
  have henc : encodeEntry (zeroEntry n)
      = leBytes 4 1 ++ leBytes 4 n ++ [107] ++ List.replicate n 0 := by
    simp [encodeEntry, valueLen]
  have hstrip : stripZeros (encodeEntry (zeroEntry n)) = leBytes 4 1 ++ leBytes 4 n ++ [107] := by
    rw [henc]
    exact stripZeros_append_zeros (by decide) n
  have hlen : (encodeEntry (zeroEntry n)).length = 9 + n := by
    rw [length_encodeEntry, encodedLen_zeroEntry]
  have hbody : (stripZeros (encodeEntry (zeroEntry n))).length = 9 := by
    rw [hstrip]
    simp
  have hcond : 8 + (stripZeros (encodeEntry (zeroEntry n))).length
      < (encodeEntry (zeroEntry n)).length ∧ (encodeEntry (zeroEntry n)).length < 256 ^ 8 := by
    rw [hbody, hlen]
    omega
  rw [zeroTailCompress, if_pos hcond, List.length_append, length_leBytes, hbody]

/-- Such an entry with a long value: a block of its own, that cannot be read. -/
private theorem readBlock_zeroEntry (h : 8 * defaultBlockSize ≤ n) (h' : n < 2 ^ 32) :
    ∃ file r b, Config.plain.create [zeroEntry n] = some file ∧ openReader file = .ok r ∧
      (Writer.new Config.plain).flushes Config.plain [zeroEntry n]
        = [(b, encodeEntry (zeroEntry n))] ∧
      r.readBlock Config.plain (fun _ => none) b = .error .lz4 := by
  have hdef : 8 * defaultBlockSize = 32768 := rfl
  have hlen : (encodeEntry (zeroEntry n)).length = 9 + n := by
    rw [length_encodeEntry, encodedLen_zeroEntry]
  have htotal : totalLen [zeroEntry n] = 9 + n := by
    rw [totalLen, List.map_singleton, List.sum_singleton, encodedLen_zeroEntry]
  have hcreate := @Config.create_eq Config.plain [zeroEntry n] (by omega)
  have hopen := openReader_create_of_keys (by simp) hcreate
  have hflushes : (Writer.new Config.plain).flushes Config.plain [zeroEntry n]
      = [(⟨0, (Config.plain.diskBlock (encodeEntry (zeroEntry n))).length⟩,
        encodeEntry (zeroEntry n))] := by
    have hblock : ((Writer.new Config.plain).append Config.plain (zeroEntry n)).blockBuf
        = encodeEntry (zeroEntry n) := rfl
    have hfull : Config.plain.blockSize ≤ (encodeEntry (zeroEntry n)).length := by
      rw [hlen, show Config.plain.blockSize = 4096 from rfl]
      omega
    simp only [Writer.flushes, Writer.add, Writer.flushed, Writer.flushDataBlock, hblock,
      if_pos hfull, if_neg (encodeEntry_ne_nil (zeroEntry n)), if_true, List.append_nil]
    rfl
  have hcompress : (Config.plain.lz4.compressBlock (encodeEntry (zeroEntry n))).length = 17 := by
    rw [show Config.plain.lz4.compressBlock = zeroTailCompress from rfl]
    exact length_zeroTailCompress_zeroEntry (by omega) h'
  refine ⟨_, _, _, hcreate, hopen, hflushes, ?_⟩
  rw [readBlock_flushes (hflushes ▸ List.mem_singleton_self _)]
  refine decodeBlock_diskBlock_of_lt (by omega) ?_ (by omega)
  rw [← List.length_pos_iff, hcompress]
  decide

/-- **A block that cannot be read back.** With the default options one entry is added, a value of
40000 zero bytes. `Add` flushes its block, of 40009 bytes, compressed; `readBlock` on the handle of
the block fails in the decompression. -/
theorem Config.readBlock_fails_on_zeros :
    ∃ file r b, Config.plain.create [zeroEntry 40000] = some file ∧ openReader file = .ok r ∧
      (Writer.new Config.plain).flushes Config.plain [zeroEntry 40000]
        = [(b, encodeEntry (zeroEntry 40000))] ∧
      r.readBlock Config.plain (fun _ => none) b = .error .lz4 :=
  readBlock_zeroEntry (by decide) (by decide)

end Stratum.Sstable
