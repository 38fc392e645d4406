import Mathlib.Algebra.Order.BigOperators.Group.List
import Stratum.Sstable.Table

/-!
# What is written to a table can be read back

`Config.blocks` is the way the writer cuts a list of entries into data blocks, and
`Config.write_eq` the file it produces from them: the blocks, the index, the filter, the footer.
Along this layout the reader undoes each step: it opens the file (`openReader_write`), finds every
block again (`readBlock_write`), and the binary search over the last keys leads to the one block
that can hold the key.

`Config.readable_write` is the result: sorted entries survive, provided every block fits the
buffer that the reader decompresses into. `SmallEntries` is a condition on the single entries that
ensures it.
-/

namespace Stratum.Sstable

open ByteCodec Memtable Mvcc Bloom

/-! ### Entries -/

/-- The lengths of an entry fit their fields, and that of the value is not taken for the mark of a
tombstone. -/
structure EntryFits (e : Entry) : Prop where
  key_lt : e.1.length < 256 ^ 4
  value_lt : ∀ v, e.2 = some v → v.length < 0xFFFFFFFF

/-- The number of bytes of an encoded entry. -/
def encodedLen (e : Entry) : ℕ := 8 + e.1.length + (e.2.getD []).length

theorem length_encodeEntry (e : Entry) : (encodeEntry e).length = encodedLen e := by
  simp only [encodeEntry, encodedLen, List.length_append, length_leBytes]

theorem encodeEntries_append (es es' : List Entry) :
    encodeEntries (es ++ es') = encodeEntries es ++ encodeEntries es' :=
  List.flatMap_append

theorem encodeEntries_concat (es : List Entry) (e : Entry) :
    encodeEntries (es ++ [e]) = encodeEntries es ++ encodeEntry e := by
  rw [encodeEntries_append]
  simp [encodeEntries]

theorem encodeEntry_ne_nil (e : Entry) : encodeEntry e ≠ [] := by
  rw [← List.length_pos_iff, length_encodeEntry, encodedLen]
  omega

variable {es g : List Entry} {e : Entry} {fuel : ℕ} {key raw : Bytes}
  {gs pre post : List (List Entry)}

theorem encodeEntries_eq_nil_iff : encodeEntries es = [] ↔ es = [] := by
  constructor
  · intro h
    cases es with
    | nil => rfl
    | cons e es =>
      rw [encodeEntries, List.flatMap_cons, List.append_eq_nil_iff] at h
      exact absurd h.1 (encodeEntry_ne_nil e)
  · rintro rfl
    rfl

/-- The encoded size of a table's entries. -/
def totalLen (es : List Entry) : ℕ := (es.map encodedLen).sum

theorem length_encodeEntries (es : List Entry) : (encodeEntries es).length = totalLen es := by
  induction es with
  | nil => rfl
  | cons e es ih =>
    rw [encodeEntries] at ih
    rw [encodeEntries, List.flatMap_cons, List.length_append, ih, length_encodeEntry, totalLen,
      totalLen, List.map_cons, List.sum_cons]

theorem encodedLen_le_totalLen (he : e ∈ es) :
    encodedLen e ≤ totalLen es :=
  List.single_le_sum (fun _ _ => Nat.zero_le _) _ (List.mem_map.mpr ⟨e, he, rfl⟩)

/-- Every entry takes at least a byte, so the bytes are fuel enough for the entries. -/
theorem length_le_length_encodeEntries (es : List Entry) :
    es.length ≤ (encodeEntries es).length := by
  rw [length_encodeEntries, totalLen, ← List.length_map encodedLen]
  refine List.length_le_sum_of_one_le _ fun n hn => ?_
  obtain ⟨e, -, rfl⟩ := List.mem_map.1 hn
  rw [encodedLen]
  omega

/-- One encoded entry is read back, and the rest is left. -/
theorem parseEntry_encode (h : EntryFits e) (rest : Bytes) :
    parseEntry (encodeEntry e ++ rest) = some (e, rest) := by
  obtain ⟨key, value⟩ := e
  simp only [parseEntry, encodeEntry, List.append_assoc]
  rw [splitBytes_append (by simp)]
  simp only [Option.bind_eq_bind, Option.bind_some]
  rw [splitBytes_append (by simp)]
  simp only [Option.bind_some, leNat_leBytes_of_lt h.key_lt]
  rw [splitBytes_append rfl]
  simp only [Option.bind_some]
  cases value with
  | none =>
    have hlen : leNat (leBytes 4 (valueLen none)) = 0xFFFFFFFF := by decide
    simp [hlen]
  | some v =>
    have hv : v.length < 0xFFFFFFFF := h.value_lt v rfl
    have hlen : leNat (leBytes 4 (valueLen (some v))) = v.length :=
      leNat_leBytes_of_lt (by simp only [valueLen]; omega)
    rw [hlen, if_neg (by omega), Option.getD_some, splitBytes_append rfl]
    rfl

/-- Whatever is read, its lengths were read from the fields, so they fit them. -/
theorem entryFits_of_parseEntry {data rest : Bytes} (h : parseEntry data = some (e, rest)) :
    EntryFits e := by
  simp only [parseEntry, Option.bind_eq_bind, Option.bind_eq_some_iff, Prod.exists] at h
  obtain ⟨keyLen, data₁, hkeyLen, valLen, data₂, hvalLen, key, data₃, hkey, h⟩ := h
  have hkey_lt : key.length < 256 ^ 4 := by
    rw [length_of_splitBytes hkey, ← length_of_splitBytes hkeyLen]
    exact leNat_lt keyLen
  split at h
  · cases h
    exact ⟨hkey_lt, nofun⟩
  · rename_i hne
    rw [Option.bind_eq_some_iff] at h
    obtain ⟨⟨val, data₄⟩, hval, h⟩ := h
    cases h
    refine ⟨hkey_lt, ?_⟩
    rintro _ ⟨⟩
    have hlt := leNat_lt valLen
    rw [length_of_splitBytes hvalLen] at hlt
    rw [length_of_splitBytes hval]
    omega

/-- So do all entries that an iterator passes, over any file. -/
theorem entryFits_of_mem_iterateBlock {data : Bytes} (he : e ∈ (Reader.iterateBlock fuel data).1) :
    EntryFits e := by
  induction fuel generalizing data with
  | zero => cases he
  | succ fuel ih =>
    rw [Reader.iterateBlock] at he
    split at he
    · cases he
    · split at he
      · cases he
      · rename_i x rest hparse
        rcases List.mem_cons.mp he with rfl | he
        · exact entryFits_of_parseEntry hparse
        · exact ih he

theorem entryFits_of_mem_iterate {cfg : Config} {r : Reader} (he : e ∈ cfg.format.iterate r) :
    EntryFits e := by
  have hblocks : ∀ ies : List IndexEntry, e ∈ r.iterateBlocks cfg (fun _ => none) ies →
      EntryFits e := by
    intro ies
    induction ies with
    | nil => nofun
    | cons ie ies ih =>
      intro he
      rw [Reader.iterateBlocks] at he
      split at he
      · cases he
      · rcases List.mem_append.mp he with he | he
        · exact entryFits_of_mem_iterateBlock he
        · split at he
          · exact ih he
          · cases he
  exact hblocks r.indexEntries he

/-- A key below all keys is not found. -/
theorem lookup_eq_none_of_lt (h : ∀ e ∈ es, compareKeys key e.1 = .lt) : es.lookup key = none := by
  rw [List.lookup_eq_none_iff]
  intro e he
  simpa using compareKeys_ne_of_lt (h e he)

/-- A key above all keys is not found. -/
theorem lookup_eq_none_of_gt (h : ∀ e ∈ es, compareKeys e.1 key = .lt) : es.lookup key = none := by
  rw [List.lookup_eq_none_iff]
  intro e he
  simpa using (compareKeys_ne_of_lt (h e he)).symm

/-- A block that is not empty starts with its first entry. -/
theorem parseEntry_encodeEntries (h : EntryFits e) (es : List Entry) :
    encodeEntries (e :: es) ≠ [] ∧
      parseEntry (encodeEntries (e :: es)) = some (e, encodeEntries es) := by
  refine ⟨?_, parseEntry_encode h _⟩
  rw [Ne, encodeEntries_eq_nil_iff]
  simp

/-- **The scan of a block finds the key**, stopping at the first larger one. -/
theorem scanBlock_encodeEntries (hsorted : EntriesSorted es) (hfits : ∀ e ∈ es, EntryFits e)
    (key : Bytes) (hfuel : es.length ≤ fuel) :
    Reader.scanBlock key fuel (encodeEntries es) = .ok (es.lookup key) := by
  induction es generalizing fuel with
  | nil => cases fuel <;> simp [Reader.scanBlock, encodeEntries]
  | cons e es ih =>
    obtain ⟨hlt, hsorted⟩ := List.pairwise_cons.mp hsorted
    cases fuel with
    | zero => simp at hfuel
    | succ fuel =>
      obtain ⟨hne, hparse⟩ := parseEntry_encodeEntries (hfits e (by simp)) es
      rw [Reader.scanBlock, if_neg hne, hparse, List.lookup_cons]
      dsimp only
      split
      · rename_i heq
        obtain rfl : e.1 = key := compareKeys_eq_iff.mp heq
        simp
      · rename_i hgt
        have hkey : compareKeys key e.1 = .lt := compareKeys_gt_iff.mp hgt
        have hbeq : (key == e.1) = false := beq_eq_false_iff_ne.mpr (compareKeys_ne_of_lt hkey)
        rw [hbeq, lookup_eq_none_of_lt fun e' he' => compareKeys_lt_trans hkey (hlt e' he')]
      · rename_i hlt'
        have hbeq : (key == e.1) = false :=
          beq_eq_false_iff_ne.mpr (compareKeys_ne_of_lt hlt').symm
        rw [hbeq]
        exact ih hsorted (fun e' he' => hfits e' (by simp [he'])) (by simpa using hfuel)

/-- An iterator passes all entries of a block. -/
theorem iterateBlock_encodeEntries (hfits : ∀ e ∈ es, EntryFits e) (hfuel : es.length ≤ fuel) :
    Reader.iterateBlock fuel (encodeEntries es) = (es, true) := by
  induction es generalizing fuel with
  | nil => cases fuel <;> simp [Reader.iterateBlock, encodeEntries]
  | cons e es ih =>
    cases fuel with
    | zero => simp at hfuel
    | succ fuel =>
      obtain ⟨hne, hparse⟩ := parseEntry_encodeEntries (hfits e (by simp)) es
      rw [Reader.iterateBlock, if_neg hne, hparse]
      dsimp only
      rw [ih (fun e' he' => hfits e' (by simp [he'])) (by simpa using hfuel)]

/-! ### How the writer cuts the entries -/

/-- The last key of a block. -/
def lastKey (es : List Entry) : Bytes := (es.getLast?.map Prod.fst).getD []

/-- The data blocks of the entries to come, `cur` being those of the block that is open. -/
def Config.blocksFrom (cfg : Config) (cur : List Entry) : List Entry → List (List Entry)
  | [] => if cur = [] then [] else [cur]
  | e :: es =>
    if cfg.blockSize ≤ (encodeEntries (cur ++ [e])).length then
      (cur ++ [e]) :: cfg.blocksFrom [] es
    else cfg.blocksFrom (cur ++ [e]) es

/-- The data blocks of a table. -/
def Config.blocks (cfg : Config) (es : List Entry) : List (List Entry) := cfg.blocksFrom [] es

/-- A data block as it lies in the file. -/
def Config.blockBytes (cfg : Config) (g : List Entry) : Bytes := cfg.diskBlock (encodeEntries g)

/-- The index entries of blocks that lie one after the other from `off` on. -/
def Config.indexOf (cfg : Config) : ℕ → List (List Entry) → List IndexEntry
  | _, [] => []
  | off, g :: gs =>
    ⟨lastKey g, ⟨off, (cfg.blockBytes g).length⟩⟩ ::
      cfg.indexOf (off + (cfg.blockBytes g).length) gs

variable {cfg : Config}

theorem flatten_blocksFrom (cur es : List Entry) :
    (cfg.blocksFrom cur es).flatten = cur ++ es := by
  induction es generalizing cur with
  | nil =>
    rw [Config.blocksFrom]
    split <;> simp_all
  | cons e es ih =>
    rw [Config.blocksFrom]
    split <;> simp [ih]

theorem flatten_blocks (es : List Entry) : (cfg.blocks es).flatten = es :=
  flatten_blocksFrom [] es

theorem ne_nil_of_mem_blocksFrom {cur es g : List Entry} (h : g ∈ cfg.blocksFrom cur es) :
    g ≠ [] := by
  induction es generalizing cur with
  | nil =>
    rw [Config.blocksFrom] at h
    split at h
    · simp at h
    · simp_all
  | cons e es ih =>
    rw [Config.blocksFrom] at h
    split at h
    · rcases List.mem_cons.mp h with rfl | h
      · simp
      · exact ih h
    · exact ih h

theorem indexOf_append (off : ℕ) (gs gs' : List (List Entry)) :
    cfg.indexOf off (gs ++ gs') = cfg.indexOf off gs
      ++ cfg.indexOf (off + (gs.flatMap cfg.blockBytes).length) gs' := by
  induction gs generalizing off with
  | nil => simp [Config.indexOf]
  | cons g gs ih =>
    simp only [List.cons_append, Config.indexOf, ih, List.flatMap_cons, List.length_append,
      Nat.add_assoc]

@[simp] theorem length_indexOf (off : ℕ) (gs : List (List Entry)) :
    (cfg.indexOf off gs).length = gs.length := by
  induction gs generalizing off with
  | nil => rfl
  | cons g gs ih => simp [Config.indexOf, ih]

/-- The writer after the blocks `gs` and with the block `cur` open. -/
structure WriterInv (cfg : Config) (gs : List (List Entry)) (cur : List Entry) (w : Writer) :
    Prop where
  file_eq : w.file = gs.flatMap cfg.blockBytes
  offset_eq : w.offset = w.file.length
  index_eq : w.indexEntries = cfg.indexOf 0 gs
  blockBuf_eq : w.blockBuf = encodeEntries cur
  lastKey_eq : cur ≠ [] → w.lastKey = lastKey cur

theorem WriterInv.new : WriterInv cfg [] [] (Writer.new cfg) :=
  ⟨rfl, rfl, rfl, rfl, fun h => absurd rfl h⟩

/-- An entry goes to the open block. -/
theorem WriterInv.append {gs : List (List Entry)} {cur : List Entry} {w : Writer}
    (h : WriterInv cfg gs cur w) (e : Entry) : WriterInv cfg gs (cur ++ [e]) (w.append cfg e) where
  file_eq := h.file_eq
  offset_eq := h.offset_eq
  index_eq := h.index_eq
  blockBuf_eq := by simp [h.blockBuf_eq, encodeEntries_concat]
  lastKey_eq _ := by simp [lastKey]

/-- Closing the open block. -/
theorem WriterInv.flushDataBlock {cur : List Entry} {w : Writer} (h : WriterInv cfg gs cur w)
    (hcur : cur ≠ []) :
    WriterInv cfg (gs ++ [cur]) [] (w.flushDataBlock cfg) := by
  have hne : w.blockBuf ≠ [] := by
    rw [h.blockBuf_eq, Ne, encodeEntries_eq_nil_iff]
    exact hcur
  have hblock : cfg.diskBlock w.blockBuf = cfg.blockBytes cur := by
    rw [h.blockBuf_eq, Config.blockBytes]
  rw [Writer.flushDataBlock, if_neg hne]
  simp only [hblock]
  refine ⟨?_, ?_, ?_, rfl, fun hnil => absurd rfl hnil⟩
  · simp [h.file_eq]
  · simp [h.offset_eq]
  · rw [indexOf_append, h.index_eq, h.lastKey_eq hcur, h.offset_eq, h.file_eq, Nat.zero_add]
    rfl

/-- **Run lemma**: adding the entries and closing the last block lays the blocks out one after the
other. -/
theorem WriterInv.foldl_add {gs : List (List Entry)} {cur es : List Entry} {w : Writer}
    (h : WriterInv cfg gs cur w) :
    WriterInv cfg (gs ++ cfg.blocksFrom cur es) []
      ((es.foldl (Writer.add cfg) w).flushDataBlock cfg) := by
  induction es generalizing gs cur w with
  | nil =>
    rw [Config.blocksFrom, List.foldl_nil]
    split
    · rename_i hcur
      subst hcur
      have hnil : w.blockBuf = [] := h.blockBuf_eq
      rw [List.append_nil, Writer.flushDataBlock, if_pos hnil]
      exact h
    · rename_i hcur
      exact h.flushDataBlock hcur
  | cons e es ih =>
    have happend := h.append e
    rw [List.foldl_cons, Config.blocksFrom, Writer.add]
    simp only [happend.blockBuf_eq]
    split
    · have := ih (happend.flushDataBlock (by simp))
      rwa [List.append_assoc, List.singleton_append] at this
    · exact ih happend

/-- The filter of a table. -/
def Config.filterOf (cfg : Config) (es : List Entry) : Filter :=
  es.foldl (fun f e => f.add cfg.sum128 e.1) (newFilter 10000 cfg.bloomBits)

theorem flushDataBlock_bloom (w : Writer) : (w.flushDataBlock cfg).bloom = w.bloom := by
  rw [Writer.flushDataBlock]
  split <;> rfl

theorem flushDataBlock_entryCount (w : Writer) :
    (w.flushDataBlock cfg).entryCount = w.entryCount := by
  rw [Writer.flushDataBlock]
  split <;> rfl

private theorem foldl_add_bloom (es : List Entry) (w : Writer) :
    (es.foldl (Writer.add cfg) w).bloom
      = es.foldl (fun f e => f.add cfg.sum128 e.1) w.bloom := by
  induction es generalizing w with
  | nil => rfl
  | cons e es ih =>
    have hadd : (w.add cfg e).bloom = w.bloom.add cfg.sum128 e.1 := by
      rw [Writer.add]
      split
      · rw [flushDataBlock_bloom, Writer.append_bloom]
      · rfl
    rw [List.foldl_cons, List.foldl_cons, ih, hadd]

private theorem foldl_add_entryCount (es : List Entry) (w : Writer) :
    (es.foldl (Writer.add cfg) w).entryCount = w.entryCount + es.length := by
  induction es generalizing w with
  | nil => rfl
  | cons e es ih =>
    have hadd : (w.add cfg e).entryCount = w.entryCount + 1 := by
      rw [Writer.add]
      split
      · rw [flushDataBlock_entryCount, Writer.append_entryCount]
      · rfl
    rw [List.foldl_cons, ih, hadd, List.length_cons]
    omega

/-- The blocks of a table, as they lie in the file. -/
def Config.bodyOf (cfg : Config) (es : List Entry) : Bytes :=
  (cfg.blocks es).flatMap cfg.blockBytes

/-- The index block of a table. -/
def Config.indexBytes (cfg : Config) (es : List Entry) : Bytes :=
  (cfg.indexOf 0 (cfg.blocks es)).flatMap IndexEntry.encode

/-- The footer of a table. -/
def Config.footerOf (cfg : Config) (es : List Entry) : Footer :=
  ⟨⟨(cfg.bodyOf es).length, (cfg.indexBytes es).length⟩,
    ⟨(cfg.bodyOf es).length + (cfg.indexBytes es).length, (cfg.filterOf es).encode.length⟩,
    es.length⟩

/-- **The layout of a table.** -/
theorem Config.write_eq (cfg : Config) (es : List Entry) :
    cfg.write es = cfg.bodyOf es ++ cfg.indexBytes es ++ (cfg.filterOf es).encode
      ++ (cfg.footerOf es).encode := by
  have h := @WriterInv.foldl_add cfg [] [] es _ .new
  rw [List.nil_append] at h
  have hbloom : ((es.foldl (Writer.add cfg) (Writer.new cfg)).flushDataBlock cfg).bloom
      = cfg.filterOf es := by
    rw [flushDataBlock_bloom, foldl_add_bloom]
    rfl
  have hcount : ((es.foldl (Writer.add cfg) (Writer.new cfg)).flushDataBlock cfg).entryCount
      = es.length := by
    rw [flushDataBlock_entryCount, foldl_add_entryCount]
    exact Nat.zero_add _
  rw [Config.write, Writer.close]
  simp only [Writer.indexBlock, h.index_eq, h.offset_eq, h.file_eq, hbloom, hcount]
  rfl

/-- What a closed writer gives as its size is the size of its file. -/
theorem Config.size_closed (cfg : Config) (es : List Entry) :
    ((es.foldl (Writer.add cfg) (Writer.new cfg)).closed cfg).size = (cfg.write es).length := by
  have h := @WriterInv.foldl_add cfg [] [] es _ .new
  simp only [Writer.size, Writer.closed, Config.write, Writer.close, List.length_append,
    h.offset_eq]
  rfl

/-! ### Opening the file -/

theorem decodeBlockHandle_encode {h : BlockHandle} (ho : h.offset < 256 ^ 8)
    (hs : h.size < 256 ^ 8) (rest : Bytes) : decodeBlockHandle (h.encode ++ rest) = h := by
  have h₁ : (h.encode ++ rest).take 8 = leBytes 8 h.offset := by
    rw [BlockHandle.encode, List.append_assoc, List.take_left' (by simp)]
  have h₂ : ((h.encode ++ rest).drop 8).take 8 = leBytes 8 h.size := by
    rw [BlockHandle.encode, List.append_assoc, List.drop_left' (by simp),
      List.take_left' (by simp)]
  rw [decodeBlockHandle, h₁, h₂, leNat_leBytes_of_lt ho, leNat_leBytes_of_lt hs]

@[simp] theorem length_encode_blockHandle (h : BlockHandle) : h.encode.length = 16 := by
  simp [BlockHandle.encode]

@[simp] theorem length_encode_footer (f : Footer) : f.encode.length = footerSize := by
  simp [Footer.encode, footerSize]

/-- The handles survive; the count of the entries, which nobody reads, does modulo its width. -/
theorem decodeFooter_encode {f : Footer} (hi : f.indexHandle.offset < 256 ^ 8)
    (hi' : f.indexHandle.size < 256 ^ 8) (hb : f.bloomHandle.offset < 256 ^ 8)
    (hb' : f.bloomHandle.size < 256 ^ 8) :
    decodeFooter f.encode = some ⟨f.indexHandle, f.bloomHandle, f.numEntries % 256 ^ 8⟩ := by
  -- the four fields, each behind the bytes before it
  have h0 : decodeBlockHandle f.encode = f.indexHandle := by
    rw [Footer.encode, List.append_assoc, List.append_assoc, decodeBlockHandle_encode hi hi']
  have h16 : f.encode.drop 16 = f.bloomHandle.encode ++ (leBytes 8 f.numEntries
      ++ leBytes 8 magicNumber) := by
    rw [Footer.encode, List.append_assoc, List.append_assoc, List.drop_left' (by simp)]
  have h32 : (f.encode.drop 32).take 8 = leBytes 8 f.numEntries := by
    rw [Footer.encode, List.append_assoc, List.drop_left' (by simp), List.take_left' (by simp)]
  have h40 : (f.encode.drop 40).take 8 = leBytes 8 magicNumber := by
    rw [Footer.encode, List.drop_left' (by simp)]
    rfl
  have hmagic : leNat (leBytes 8 magicNumber) = magicNumber := by decide
  rw [decodeFooter, if_neg (by simp), h40, hmagic, if_neg (by simp), h0, h16,
    decodeBlockHandle_encode hb hb', h32, leNat_leBytes]

/-- The fields of an index entry fit their widths. -/
structure IndexEntryFits (ie : IndexEntry) : Prop where
  key_lt : ie.key.length < 256 ^ 4
  offset_lt : ie.handle.offset < 256 ^ 8
  size_lt : ie.handle.size < 256 ^ 8

theorem length_encode_indexEntry (ie : IndexEntry) :
    ie.encode.length = 20 + ie.key.length := by
  simp only [IndexEntry.encode, List.length_append, length_leBytes, length_encode_blockHandle]
  omega

/-- The index block is parsed back. -/
theorem parseIndex_encode {ies : List IndexEntry} (h : ∀ ie ∈ ies, IndexEntryFits ie)
    (hfuel : ies.length ≤ fuel) :
    parseIndex fuel (ies.flatMap IndexEntry.encode) = some ies := by
  induction ies generalizing fuel with
  | nil => cases fuel <;> simp [parseIndex]
  | cons ie ies ih =>
    cases fuel with
    | zero => simp at hfuel
    | succ fuel =>
      have hie := h ie (by simp)
      have hne : (ie :: ies).flatMap IndexEntry.encode ≠ [] := by
        rw [← List.length_pos_iff, List.flatMap_cons, List.length_append,
          length_encode_indexEntry]
        omega
      have hrest := ih (fun ie' h' => h ie' (by simp [h'])) (Nat.le_of_succ_le_succ hfuel)
      rw [parseIndex, if_neg hne]
      simp only [List.flatMap_cons, IndexEntry.encode, List.append_assoc]
      rw [splitBytes_append (by simp)]
      simp only [Option.bind_eq_bind, Option.bind_some, leNat_leBytes_of_lt hie.key_lt]
      rw [splitBytes_append rfl]
      simp only [Option.bind_some]
      rw [splitBytes_append (by simp)]
      have hhandle := decodeBlockHandle_encode hie.offset_lt hie.size_lt []
      rw [List.append_nil] at hhandle
      simp only [Option.bind_some, hrest, hhandle]
      rfl

theorem readAt_append (a b c : Bytes) : readAt (a ++ b ++ c) a.length b.length = some b := by
  rw [readAt, if_pos (.inr (by simp)), List.append_assoc, List.drop_left, List.take_left]

/-- An index entry names a block of the table and lies inside the body. -/
theorem of_mem_indexOf {off : ℕ} {ie : IndexEntry} (h : ie ∈ cfg.indexOf off gs) :
    (∃ g ∈ gs, ie.key = lastKey g) ∧
      ie.handle.offset + ie.handle.size ≤ off + (gs.flatMap cfg.blockBytes).length := by
  induction gs generalizing off with
  | nil => simp [Config.indexOf] at h
  | cons g gs ih =>
    rw [List.flatMap_cons, List.length_append]
    rcases List.mem_cons.mp h with rfl | h
    · refine ⟨⟨g, by simp, rfl⟩, ?_⟩
      dsimp only
      omega
    · obtain ⟨⟨g', hg', hkey⟩, hle⟩ := ih h
      exact ⟨⟨g', by simp [hg'], hkey⟩, by omega⟩

/-- The last key of a block that is not empty is a key of the block. -/
theorem lastKey_mem (h : g ≠ []) : ∃ e ∈ g, lastKey g = e.1 :=
  ⟨g.getLast h, List.getLast_mem h, by simp [lastKey, List.getLast?_eq_some_getLast h]⟩

/-- The filter of a table is a run of additions. -/
theorem filterOf_eq (es : List Entry) : cfg.filterOf es
    = (es.map Prod.fst).foldl (Filter.add cfg.sum128) (newFilter 10000 cfg.bloomBits) := by
  rw [Config.filterOf, List.foldl_map]

theorem wellFormed_filterOf (es : List Entry) : (cfg.filterOf es).WellFormed := by
  rw [filterOf_eq]
  exact (wellFormed_newFilter cfg.bloomBits).foldl_add _

/-- The filter denies no key of the table. -/
theorem mayContain_filterOf (he : e ∈ es) :
    (cfg.filterOf es).mayContain cfg.sum128 e.1 = true := by
  rw [filterOf_eq]
  exact mayContain_foldl_add_of_mem (wellFormed_newFilter cfg.bloomBits)
    (List.mem_map_of_mem he)

/-- **The file of a table can be opened**, when its length fits the 64-bit fields of the handles
and its keys fit their length fields. -/
theorem openReader_write (hlen : (cfg.write es).length < 256 ^ 8)
    (hkeys : ∀ e ∈ es, e.1.length < 256 ^ 4) :
    openReader (cfg.write es)
      = .ok ⟨cfg.write es, cfg.indexOf 0 (cfg.blocks es), cfg.filterOf es⟩ := by
  have hwrite := cfg.write_eq es
  have hlen' := congrArg List.length hwrite
  simp only [List.length_append, length_encode_footer] at hlen'
  -- the footer is the last 48 bytes
  have hfooter : (cfg.write es).drop ((cfg.write es).length - footerSize)
      = (cfg.footerOf es).encode := by
    rw [hlen', Nat.add_sub_cancel, hwrite]
    exact List.drop_left' (by simp [Nat.add_assoc])
  have hdecode : decodeFooter (cfg.footerOf es).encode = some ⟨(cfg.footerOf es).indexHandle,
      (cfg.footerOf es).bloomHandle, (cfg.footerOf es).numEntries % 256 ^ 8⟩ := by
    refine decodeFooter_encode ?_ ?_ ?_ ?_ <;> simp only [Config.footerOf] <;> omega
  have hindex : readAt (cfg.write es) (cfg.footerOf es).indexHandle.offset
      (cfg.footerOf es).indexHandle.size = some (cfg.indexBytes es) := by
    rw [hwrite, List.append_assoc _ (cfg.filterOf es).encode]
    exact readAt_append _ _ _
  have hparse : parseIndex (cfg.indexBytes es).length (cfg.indexBytes es)
      = some (cfg.indexOf 0 (cfg.blocks es)) := by
    refine parseIndex_encode (fun ie hie => ?_) ?_
    · obtain ⟨⟨g, hg, hkey⟩, hle⟩ := of_mem_indexOf hie
      have hbody : (cfg.bodyOf es).length < 256 ^ 8 := by omega
      rw [Config.bodyOf] at hbody
      obtain ⟨e, he, hlast⟩ := lastKey_mem (ne_nil_of_mem_blocksFrom hg)
      refine ⟨?_, by omega, by omega⟩
      rw [hkey, hlast]
      refine hkeys e ?_
      rw [← @flatten_blocks cfg es]
      exact List.mem_flatten.mpr ⟨g, hg, he⟩
    · rw [Config.indexBytes]
      generalize cfg.indexOf 0 (cfg.blocks es) = ies
      induction ies with
      | nil => simp
      | cons ie ies ih =>
        rw [List.flatMap_cons, List.length_append, length_encode_indexEntry, List.length_cons]
        omega
  have hbloom : readAt (cfg.write es) (cfg.footerOf es).bloomHandle.offset
      (cfg.footerOf es).bloomHandle.size = some (cfg.filterOf es).encode := by
    have := readAt_append (cfg.bodyOf es ++ cfg.indexBytes es) (cfg.filterOf es).encode
      (cfg.footerOf es).encode
    rw [List.length_append] at this
    rw [hwrite]
    exact this
  rw [openReader, if_neg (by omega), hfooter, hdecode]
  simp only [hindex, hparse, hbloom, decodeFilter_encode (wellFormed_filterOf es)]

/-! ### Reading the blocks -/

/-- A block that fits the buffer is decompressed, or was not compressed. -/
theorem decodeBlock_diskBlock (h : raw.length ≤ 8 * defaultBlockSize) :
    cfg.decodeBlock (cfg.diskBlock raw) = .ok raw := by
  simp only [Config.diskBlock]
  split
  · rename_i hc
    simp only [Config.decodeBlock, if_true]
    rw [cfg.lz4.uncompress_compress raw _ (List.length_pos_iff.mp hc.1) h]
  · rfl

/-- A block that was not compressed is read back whatever its length. -/
theorem decodeBlock_diskBlock_of_not_compressed
    (hc : ¬ (0 < (cfg.lz4.compressBlock raw).length ∧
      (cfg.lz4.compressBlock raw).length < raw.length)) :
    cfg.decodeBlock (cfg.diskBlock raw) = .ok raw := by
  simp only [Config.diskBlock]
  rw [if_neg hc]
  rfl

/-- A block that was compressed and does not fit the buffer **cannot be read**. -/
theorem decodeBlock_diskBlock_of_lt (h : 8 * defaultBlockSize < raw.length)
    (hc : cfg.lz4.compressBlock raw ≠ [])
    (hshort : (cfg.lz4.compressBlock raw).length < raw.length) :
    cfg.decodeBlock (cfg.diskBlock raw) = .error .lz4 := by
  simp only [Config.diskBlock]
  rw [if_pos ⟨List.length_pos_iff.mpr hc, hshort⟩]
  simp only [Config.decodeBlock, if_true]
  rw [cfg.lz4.uncompress_short raw _ hc h]

/-- The reader of a table. -/
def Config.readerOf (cfg : Config) (es : List Entry) : Reader :=
  ⟨cfg.write es, cfg.indexOf 0 (cfg.blocks es), cfg.filterOf es⟩

/-- The index entry of a block in the middle of a table leads to its bytes. -/
theorem readAt_block (h : cfg.blocks es = pre ++ g :: post) :
    (cfg.readerOf es).indexEntries[pre.length]? =
        some ⟨lastKey g, ⟨(pre.flatMap cfg.blockBytes).length, (cfg.blockBytes g).length⟩⟩ ∧
      readAt (cfg.readerOf es).file (pre.flatMap cfg.blockBytes).length (cfg.blockBytes g).length
        = some (cfg.blockBytes g) := by
  constructor
  · rw [Config.readerOf, h, indexOf_append,
      List.getElem?_append_right (by rw [length_indexOf]), length_indexOf, Nat.sub_self,
      Config.indexOf, List.getElem?_cons_zero, Nat.zero_add]
  · rw [Config.readerOf, cfg.write_eq, Config.bodyOf, h, List.flatMap_append, List.flatMap_cons]
    simp only [List.append_assoc]
    rw [← List.append_assoc (pre.flatMap cfg.blockBytes)]
    exact readAt_append _ _ _

/-- Every block fits the buffer it is decompressed into. -/
def Config.BlocksFit (cfg : Config) (es : List Entry) : Prop :=
  ∀ g ∈ cfg.blocks es, (encodeEntries g).length ≤ 8 * defaultBlockSize

/-- Entries of blocks that fit their buffer fit their fields. -/
theorem Config.BlocksFit.entryFits (h : cfg.BlocksFit es) : ∀ e ∈ es, EntryFits e := by
  intro e he
  rw [← @flatten_blocks cfg es] at he
  obtain ⟨g, hg, heg⟩ := List.mem_flatten.1 he
  have hle := (encodedLen_le_totalLen heg).trans
    ((length_encodeEntries g).symm.le.trans (h g hg))
  rw [encodedLen, defaultBlockSize] at hle
  refine ⟨by omega, fun v hv => ?_⟩
  rw [hv, Option.getD_some] at hle
  omega

/-- A block is read from the file and decompressed. -/
theorem readBlock_readerOf (h : cfg.blocks es = pre ++ g :: post) :
    (cfg.readerOf es).readBlock cfg (fun _ => none)
        ⟨(pre.flatMap cfg.blockBytes).length, (cfg.blockBytes g).length⟩
      = cfg.decodeBlock (cfg.diskBlock (encodeEntries g)) := by
  rw [Reader.readBlock]
  simp only [(readAt_block h).2]
  rfl

/-- A block that fits is read back. -/
theorem readBlock_write (hfit : cfg.BlocksFit es) (h : cfg.blocks es = pre ++ g :: post) :
    (cfg.readerOf es).readBlock cfg (fun _ => none)
        ⟨(pre.flatMap cfg.blockBytes).length, (cfg.blockBytes g).length⟩
      = .ok (encodeEntries g) := by
  rw [readBlock_readerOf h]
  exact decodeBlock_diskBlock (hfit g (by simp [h]))

theorem mem_of_mem_block (h : cfg.blocks es = pre ++ g :: post) (he : e ∈ g) : e ∈ es := by
  rw [← @flatten_blocks cfg es, h]
  exact List.mem_flatten.mpr ⟨g, by simp, he⟩

/-! ### Looking a key up -/

/-- No key of a sorted block is above its last one. -/
theorem not_lastKey_lt (hsorted : EntriesSorted g) (he : e ∈ g) :
    compareKeys (lastKey g) e.1 ≠ .lt := by
  rcases List.eq_nil_or_concat' g with rfl | ⟨g', x, rfl⟩
  · simp at he
  · have hlast : lastKey (g' ++ [x]) = x.1 := by simp [lastKey]
    rw [hlast]
    rcases List.mem_append.mp he with he | he
    · have hlt := (List.pairwise_append.mp hsorted).2.2 e he x (by simp)
      intro hgt
      have := compareKeys_lt_trans hlt hgt
      simp at this
    · obtain rfl : e = x := by simpa using he
      simp

/-- The first block whose last key is not below the key, if there is one. -/
private theorem exists_block (gs : List (List Entry)) (key : Bytes) :
    (∀ g ∈ gs, compareKeys (lastKey g) key = .lt) ∨
      ∃ pre g post, gs = pre ++ g :: post ∧ (∀ p ∈ pre, compareKeys (lastKey p) key = .lt) ∧
        compareKeys (lastKey g) key ≠ .lt := by
  induction gs with
  | nil => exact .inl (by simp)
  | cons g gs ih =>
    by_cases hg : compareKeys (lastKey g) key = .lt
    · rcases ih with hall | ⟨pre, g', post, rfl, hpre, hg'⟩
      · exact .inl (by simpa using ⟨hg, hall⟩)
      · exact .inr ⟨g :: pre, g', post, rfl, by simpa using ⟨hg, hpre⟩, hg'⟩
    · exact .inr ⟨[], g, gs, rfl, by simp, hg⟩

theorem indexOf_keys (off : ℕ) (gs : List (List Entry)) :
    (cfg.indexOf off gs).map IndexEntry.key = gs.map lastKey := by
  induction gs generalizing off with
  | nil => rfl
  | cons g gs ih => simp [Config.indexOf, ih]

/-- The test of the binary search, in terms of the last keys of the blocks. -/
private theorem findBlockIndex_test (gs : List (List Entry)) (key : Bytes) (j : ℕ) :
    (match (cfg.indexOf 0 gs)[j]? with
      | some ie => compareKeys ie.key key != Ordering.lt
      | none => false) =
    (match gs[j]? with
      | some g => compareKeys (lastKey g) key != Ordering.lt
      | none => false) := by
  have hkeys := congrArg (fun l => l[j]?) (@indexOf_keys cfg 0 gs)
  simp only [List.getElem?_map] at hkeys
  cases hi : (cfg.indexOf 0 gs)[j]? with
  | none =>
    rw [hi] at hkeys
    rw [Option.map_none, eq_comm, Option.map_eq_none_iff] at hkeys
    rw [hkeys]
  | some ie =>
    rw [hi] at hkeys
    rw [Option.map_some, eq_comm, Option.map_eq_some_iff] at hkeys
    obtain ⟨g, hg, hkey⟩ := hkeys
    rw [hg]
    simp [hkey]

/-- The binary search stops at the first block whose last key is not below the key. -/
theorem findBlockIndex_eq {i : ℕ} (hi : i ≤ (cfg.blocks es).length)
    (hbelow : ∀ j g, j < i → (cfg.blocks es)[j]? = some g → compareKeys (lastKey g) key = .lt)
    (habove : ∀ j g, i ≤ j → (cfg.blocks es)[j]? = some g → compareKeys (lastKey g) key ≠ .lt) :
    (cfg.readerOf es).findBlockIndex key = i := by
  rw [Reader.findBlockIndex, Config.readerOf]
  refine BinarySearch.search_eq (by simpa using hi) (fun j hj => ?_) fun j hj hlt => ?_
  · have hj' : (cfg.blocks es)[j]? = some (cfg.blocks es)[j] :=
      List.getElem?_eq_getElem (by omega)
    refine (findBlockIndex_test _ key j).trans ?_
    rw [hj']
    simp [hbelow j _ hj hj']
  · have hlt' : j < (cfg.blocks es).length := by simpa using hlt
    have hj' : (cfg.blocks es)[j]? = some (cfg.blocks es)[j] := List.getElem?_eq_getElem hlt'
    refine (findBlockIndex_test _ key j).trans ?_
    rw [hj']
    simpa using habove j _ hj hj'

/-- In a sorted table the keys of a block are above those of the blocks before it. -/
private theorem lastKey_lt_of_sorted (hsorted : EntriesSorted (pre ++ g :: post).flatten)
    (hg : g ≠ []) :
    ∀ p ∈ post, ∀ e ∈ p, compareKeys (lastKey g) e.1 = .lt := by
  intro p hp e he
  obtain ⟨x, hx, hlast⟩ := lastKey_mem hg
  rw [List.flatten_append, List.flatten_cons] at hsorted
  have hrest := (List.pairwise_append.mp hsorted).2.1
  rw [hlast]
  exact (List.pairwise_append.mp hrest).2.2 x hx e (List.mem_flatten.mpr ⟨p, hp, he⟩)

private theorem sorted_of_mem_flatten (h : EntriesSorted gs.flatten) (hg : g ∈ gs) :
    EntriesSorted g :=
  List.Pairwise.sublist (List.sublist_flatten_of_mem hg) h

/-- Blocks whose last key is below the key do not hold it. -/
private theorem lookup_flatten_eq_none (hsorted : EntriesSorted gs.flatten)
    (h : ∀ g ∈ gs, compareKeys (lastKey g) key = .lt) : gs.flatten.lookup key = none := by
  refine lookup_eq_none_of_gt fun e he => ?_
  obtain ⟨g, hg, he⟩ := List.mem_flatten.mp he
  exact compareKeys_lt_of_not_lt_of_lt (not_lastKey_lt (sorted_of_mem_flatten hsorted hg) he)
    (h g hg)

/-- **The block search** cuts the blocks of a sorted table in two: those whose last key is below the
key, and the others. -/
theorem findBlockIndex_readerOf {es : List Entry} (hsorted : EntriesSorted es) (key : Bytes) :
    ∃ pre post, cfg.blocks es = pre ++ post ∧
      (cfg.readerOf es).findBlockIndex key = pre.length ∧
      (∀ g ∈ pre, compareKeys (lastKey g) key = .lt) ∧
      ∀ g ∈ post, compareKeys (lastKey g) key ≠ .lt := by
  rcases exists_block (cfg.blocks es) key with hall | ⟨pre, g, post, hsplit, hpre, hg⟩
  · -- the key is above the whole table
    refine ⟨cfg.blocks es, [], (List.append_nil _).symm, ?_, hall, by simp⟩
    refine findBlockIndex_eq le_rfl (fun j g _ hj => hall g (List.mem_of_getElem? hj)) ?_
    intro j g hj hj'
    have := (List.getElem?_eq_some_iff.mp hj').1
    omega
  · have hne : ∀ p ∈ pre ++ g :: post, p ≠ [] := by
      intro p hp
      rw [← hsplit] at hp
      exact ne_nil_of_mem_blocksFrom hp
    have hpost : ∀ p ∈ g :: post, compareKeys (lastKey p) key ≠ .lt := by
      rw [← @flatten_blocks cfg es, hsplit] at hsorted
      intro p hp
      rcases List.mem_cons.1 hp with rfl | hp'
      · exact hg
      · obtain ⟨x, hx, hlast⟩ := lastKey_mem (hne p (by simp [hp']))
        rw [hlast]
        exact compareKeys_not_lt_of_not_lt hg
          (lastKey_lt_of_sorted hsorted (hne g (by simp)) p hp' x hx)
    refine ⟨pre, g :: post, hsplit, ?_, hpre, hpost⟩
    refine findBlockIndex_eq (by simp [hsplit]) (fun j p hj hj' => ?_) fun j p hj hj' => ?_
    · rw [hsplit, List.getElem?_append_left hj] at hj'
      exact hpre p (List.mem_of_getElem? hj')
    · rw [hsplit, List.getElem?_append_right hj] at hj'
      exact hpost p (List.mem_of_getElem? hj')

/-- **Lookups in a table are lookups in its entries.** -/
theorem get_readerOf (hsorted : EntriesSorted es) (hfit : cfg.BlocksFit es) (key : Bytes) :
    (cfg.readerOf es).get cfg (fun _ => none) key = .ok (es.lookup key) := by
  have hflat := @flatten_blocks cfg es
  rw [Reader.get]
  split
  · obtain ⟨pre, post, hsplit, hidx, hpre, hpost⟩ := @findBlockIndex_readerOf cfg es hsorted key
    have hsorted' : EntriesSorted (pre ++ post).flatten := by rwa [← hsplit, hflat]
    -- the blocks before do not hold the key
    have hpre' : pre.flatten.lookup key = none := by
      refine lookup_flatten_eq_none ?_ hpre
      rw [List.flatten_append] at hsorted'
      exact (List.pairwise_append.mp hsorted').1
    have hlookup : es.lookup key = post.flatten.lookup key := by
      rw [← hflat, hsplit, List.flatten_append, List.lookup_append, hpre', Option.none_or]
    rw [hidx, hlookup]
    rcases post with _ | ⟨g, post⟩
    · have hnone : (cfg.readerOf es).indexEntries[pre.length]? = none := by
        rw [List.getElem?_eq_none_iff]
        simp [Config.readerOf, hsplit]
      rw [hnone]
      rfl
    · have hgne : g ≠ [] := @ne_nil_of_mem_blocksFrom cfg [] es g
        (by rw [show cfg.blocksFrom [] es = _ from hsplit]; simp)
      have hsg : EntriesSorted g := sorted_of_mem_flatten hsorted' (by simp)
      rw [(readAt_block hsplit).1]
      simp only [readBlock_write hfit hsplit]
      rw [scanBlock_encodeEntries hsg (fun e he => hfit.entryFits e (mem_of_mem_block hsplit he))
        key (length_le_length_encodeEntries g)]
      -- nor do those after
      have hpost' : post.flatten.lookup key = none := by
        refine lookup_eq_none_of_lt fun e he => ?_
        obtain ⟨p, hp, he⟩ := List.mem_flatten.mp he
        exact compareKeys_lt_of_not_lt_of_lt (hpost g (by simp))
          (lastKey_lt_of_sorted hsorted' hgne p hp e he)
      rw [List.flatten_cons, List.lookup_append, hpost', Option.or_none]
  · rename_i hbloom
    have hnone : es.lookup key = none := by
      rw [List.lookup_eq_none_iff]
      intro e he
      have hne : key ≠ e.1 := by
        rintro rfl
        exact hbloom (mayContain_filterOf he)
      simpa using hne
    rw [hnone]

/-- The index entries from a block on. -/
theorem drop_indexEntries_readerOf (h : cfg.blocks es = pre ++ post) :
    (cfg.readerOf es).indexEntries.drop pre.length
      = cfg.indexOf (pre.flatMap cfg.blockBytes).length post := by
  rw [Config.readerOf, h, indexOf_append, Nat.zero_add]
  exact List.drop_left' (length_indexOf 0 pre)

/-- The index from a block on: its entry, and the index from the next one on. -/
theorem indexOf_split (pre : List (List Entry)) (g : List Entry) (post : List (List Entry)) :
    cfg.indexOf (pre.flatMap cfg.blockBytes).length (g :: post) =
      ⟨lastKey g, ⟨(pre.flatMap cfg.blockBytes).length, (cfg.blockBytes g).length⟩⟩ ::
        cfg.indexOf ((pre ++ [g]).flatMap cfg.blockBytes).length post := by
  rw [Config.indexOf, List.flatMap_append, List.flatMap_singleton, List.length_append]

/-- An iterator passes all entries of a block of the table. -/
theorem iterateBlock_of_split (hfits : ∀ e ∈ es, EntryFits e)
    (h : cfg.blocks es = pre ++ g :: post) :
    Reader.iterateBlock (encodeEntries g).length (encodeEntries g) = (g, true) :=
  iterateBlock_encodeEntries (fun e he => hfits e (mem_of_mem_block h he))
    (length_le_length_encodeEntries g)

/-- From a block on, an iterator passes the entries of the blocks to come. -/
theorem iterateBlocks_readerOf {es : List Entry} (hfit : cfg.BlocksFit es)
    {pre post : List (List Entry)} (hsplit : cfg.blocks es = pre ++ post) :
    (cfg.readerOf es).iterateBlocks cfg (fun _ => none)
      (cfg.indexOf (pre.flatMap cfg.blockBytes).length post) = post.flatten := by
  induction post generalizing pre with
  | nil => rfl
  | cons g post ih =>
    have hrest := @ih (pre ++ [g]) (by rw [hsplit]; simp)
    rw [indexOf_split, Reader.iterateBlocks]
    simp only [readBlock_write hfit hsplit, iterateBlock_of_split hfit.entryFits hsplit, if_true,
      hrest, List.flatten_cons]

/-- **An iterator passes all entries of a table.** -/
theorem iterate_readerOf (hfit : cfg.BlocksFit es) :
    (cfg.readerOf es).iterate cfg (fun _ => none) = es := by
  have := @iterateBlocks_readerOf cfg es hfit [] (cfg.blocks es) rfl
  rwa [flatten_blocks] at this

/-- **Round trip**: a sorted table whose blocks fit the buffer can be read back. -/
theorem Config.readable_write (hsorted : EntriesSorted es) (hfit : cfg.BlocksFit es)
    (hlen : (cfg.write es).length < 256 ^ 8) :
    cfg.format.Readable es (cfg.readerOf es) where
  opens := openReader_write hlen fun e he => (hfit.entryFits e he).key_lt
  get_eq := get_readerOf hsorted hfit
  iterate_eq := iterate_readerOf hfit

/-! ### Tables that can be read in part -/

/-- A block is read back as it was written, or not at all. -/
theorem decodeBlock_diskBlock_or (raw : Bytes) :
    cfg.decodeBlock (cfg.diskBlock raw) = .ok raw ∨
      cfg.decodeBlock (cfg.diskBlock raw) = .error .lz4 := by
  by_cases hfit : raw.length ≤ 8 * defaultBlockSize
  · exact .inl (decodeBlock_diskBlock hfit)
  · by_cases hc : 0 < (cfg.lz4.compressBlock raw).length ∧
        (cfg.lz4.compressBlock raw).length < raw.length
    · exact .inr (decodeBlock_diskBlock_of_lt (Nat.lt_of_not_le hfit)
        (List.length_pos_iff.mp hc.1) hc.2)
    · exact .inl (decodeBlock_diskBlock_of_not_compressed hc)

/-- **An iterator passes a part of a table from its beginning**, as long as the lengths of its
entries fit their fields; it stops at a block that cannot be read. -/
theorem iterate_readerOf_prefix (hfits : ∀ e ∈ es, EntryFits e) :
    (cfg.readerOf es).iterate cfg (fun _ => none) <+: es := by
  have key : ∀ post pre : List (List Entry), cfg.blocks es = pre ++ post →
      (cfg.readerOf es).iterateBlocks cfg (fun _ => none)
        (cfg.indexOf (pre.flatMap cfg.blockBytes).length post) <+: post.flatten := by
    intro post
    induction post with
    | nil => exact fun _ _ => List.prefix_rfl
    | cons g post ih =>
      intro pre hsplit
      have hrest := ih (pre ++ [g]) (by rw [hsplit]; simp)
      rw [indexOf_split, Reader.iterateBlocks]
      simp only [readBlock_readerOf hsplit]
      rcases @decodeBlock_diskBlock_or cfg (encodeEntries g) with hok | herr
      · simp only [hok, iterateBlock_of_split hfits hsplit, if_true, List.flatten_cons]
        exact (List.prefix_append_right_inj g).mpr hrest
      · simp only [herr]
        exact List.nil_prefix
  have := key (cfg.blocks es) [] rfl
  rwa [flatten_blocks] at this

/-- A value whose length is the mark of a tombstone is **taken for a tombstone**, and its bytes for
the entries that follow. -/
theorem parseEntry_of_mark {k v : Bytes} (hk : k.length < 256 ^ 4)
    (hv : v.length = 0xFFFFFFFF) : parseEntry (encodeEntry (k, some v)) = some ((k, none), v) := by
  have hmark : leNat (leBytes 4 (valueLen (some v))) = 0xFFFFFFFF := by
    rw [valueLen, hv, leNat_leBytes_of_lt (by norm_num)]
  rw [parseEntry, encodeEntry]
  simp only [List.append_assoc, splitBytes_append (length_leBytes 4 _), Option.bind_eq_bind,
    Option.bind_some, leNat_leBytes_of_lt hk, splitBytes_append rfl]
  rw [if_pos hmark]
  rfl

/-- An iterator over the table of such a value, if it was not compressed, passes what its bytes
happen to stand for. -/
theorem mem_iterate_of_mark {k v rest : Bytes} (hk : k.length < 256 ^ 4)
    (hv : v.length = 0xFFFFFFFF) (hsize : cfg.blockSize ≤ 0xFFFFFFFF)
    (hc : cfg.lz4.compressBlock (encodeEntry (k, some v)) = [])
    (hparse : parseEntry v = some (e, rest)) :
    e ∈ (cfg.readerOf [(k, some v)]).iterate cfg fun _ => none := by
  have henc : encodeEntries [(k, some v)] = encodeEntry (k, some v) := by simp [encodeEntries]
  have hlen : (encodeEntry (k, some v)).length = 8 + k.length + v.length :=
    length_encodeEntry (k, some v)
  have hblocks : cfg.blocks [(k, some v)] = [] ++ [(k, some v)] :: [] := by
    rw [Config.blocks, Config.blocksFrom, List.nil_append, henc, if_pos (by omega)]
    rfl
  have hread : (cfg.readerOf [(k, some v)]).readBlock cfg (fun _ => none)
      ⟨0, (cfg.blockBytes [(k, some v)]).length⟩ = .ok (encodeEntry (k, some v)) := by
    have hraw := readBlock_readerOf hblocks
    rw [henc, Config.diskBlock, hc] at hraw
    exact hraw
  have hindex : (cfg.readerOf [(k, some v)]).indexEntries
      = [⟨lastKey [(k, some v)], ⟨0, (cfg.blockBytes [(k, some v)]).length⟩⟩] := by
    rw [Config.readerOf, hblocks]
    rfl
  have hne : encodeEntry (k, some v) ≠ [] := encodeEntry_ne_nil _
  have hvne : v ≠ [] := by
    rintro rfl
    simp at hv
  -- the first round passes the tombstone, the second one the entry
  obtain ⟨n, hn⟩ : ∃ n, (encodeEntry (k, some v)).length = n + 2 := ⟨_, by rw [hlen, hv]⟩
  rw [Reader.iterate, hindex, Reader.iterateBlocks]
  simp only [hread, hn]
  rw [Reader.iterateBlock, if_neg hne]
  simp only [parseEntry_of_mark hk hv]
  rw [Reader.iterateBlock, if_neg hvne]
  simp only [hparse]
  simp

/-! ### Small entries -/

/-- A block of at most the block size and one more entry fits the buffer, whatever the entry. -/
def Config.SmallEntries (cfg : Config) (es : List Entry) : Prop :=
  ∀ e ∈ es, cfg.blockSize + encodedLen e ≤ 8 * defaultBlockSize

/-- Blocks are closed as soon as they reach the block size. -/
private theorem blocksFrom_le {cur : List Entry} {bound : ℕ}
    (hcur : cur ≠ [] → (encodeEntries cur).length ≤ bound)
    (hes : ∀ e ∈ es, cfg.blockSize + encodedLen e ≤ bound)
    (hopen : (encodeEntries cur).length < cfg.blockSize ∨ cur = []) :
    ∀ g ∈ cfg.blocksFrom cur es, (encodeEntries g).length ≤ bound := by
  induction es generalizing cur with
  | nil =>
    intro g hg
    rw [Config.blocksFrom] at hg
    split at hg
    · simp at hg
    · obtain rfl : g = cur := by simpa using hg
      exact hcur ‹_›
  | cons e es ih =>
    have he := hes e (by simp)
    have hlen : (encodeEntries (cur ++ [e])).length
        = (encodeEntries cur).length + encodedLen e := by
      rw [encodeEntries_concat, List.length_append, length_encodeEntry]
    have hle : (encodeEntries (cur ++ [e])).length ≤ bound := by
      rcases hopen with hlt | rfl
      · omega
      · simp only [encodeEntries, List.flatMap_nil, List.length_nil] at hlen
        rw [encodeEntries]
        omega
    intro g hg
    rw [Config.blocksFrom] at hg
    split at hg
    · rcases List.mem_cons.mp hg with rfl | hg
      · exact hle
      · exact ih (by simp) (fun e' he' => hes e' (by simp [he'])) (.inr rfl) g hg
    · exact ih (fun _ => hle) (fun e' he' => hes e' (by simp [he'])) (.inl (by omega)) g hg

theorem Config.SmallEntries.blocksFit (h : cfg.SmallEntries es) :
    cfg.BlocksFit es :=
  blocksFrom_le (by simp) h (.inr rfl)

theorem Config.SmallEntries.fits (h : cfg.SmallEntries es) : ∀ e ∈ es, EntryFits e :=
  h.blocksFit.entryFits

/-! ### The size of the file -/

theorem length_diskBlock_le (raw : Bytes) : (cfg.diskBlock raw).length ≤ raw.length + 1 := by
  simp only [Config.diskBlock]
  split
  · rw [List.length_cons]
    omega
  · simp

/-- Blocks take 8 bytes at least, and body and index together at most 21 for each block besides
twice the entries. -/
private theorem length_blocks_le (off : ℕ) (gs : List (List Entry)) (hne : ∀ g ∈ gs, g ≠ []) :
    8 * gs.length ≤ totalLen gs.flatten ∧
      (gs.flatMap cfg.blockBytes).length + ((cfg.indexOf off gs).flatMap IndexEntry.encode).length
        ≤ 21 * gs.length + 2 * totalLen gs.flatten := by
  induction gs generalizing off with
  | nil => simp [Config.indexOf]
  | cons g gs ih =>
    have hblock : (cfg.blockBytes g).length ≤ totalLen g + 1 := by
      rw [← length_encodeEntries]
      exact length_diskBlock_le _
    have hkey : 8 + (lastKey g).length ≤ totalLen g := by
      obtain ⟨e, he, hlast⟩ := lastKey_mem (hne g (by simp))
      have hmem := encodedLen_le_totalLen he
      rw [hlast]
      rw [encodedLen] at hmem
      omega
    have htotal : totalLen (g :: gs).flatten = totalLen g + totalLen gs.flatten := by
      simp [totalLen]
    have hrest := ih (off + (cfg.blockBytes g).length) fun g' hg' => hne g' (by simp [hg'])
    rw [List.flatMap_cons, List.length_append, Config.indexOf, List.flatMap_cons,
      List.length_append, length_encode_indexEntry, List.length_cons, htotal]
    dsimp only
    omega

/-- **The size of a table**: a small multiple of its entries, and the filter. -/
theorem length_write_le (es : List Entry) :
    (cfg.write es).length ≤ 5 * totalLen es + 2 ^ 29 + 49 := by
  have hne : ∀ g ∈ cfg.blocks es, g ≠ [] := fun g hg => ne_nil_of_mem_blocksFrom hg
  obtain ⟨hblocks, hbody⟩ := @length_blocks_le cfg 0 _ hne
  rw [flatten_blocks] at hblocks hbody
  have hfilter : (cfg.filterOf es).encode.length ≤ 2 ^ 29 + 1 := by
    have hwf := (@wellFormed_filterOf cfg es).numBits_eq
    have hlt := (cfg.filterOf es).numBits.toNat_lt
    rw [Filter.encode, List.length_cons]
    omega
  rw [cfg.write_eq]
  simp only [List.length_append, length_encode_footer, footerSize]
  rw [Config.bodyOf, Config.indexBytes]
  omega

/-- A table of less than `2 ^ 61` bytes stays within its 64-bit fields. -/
theorem length_write_lt (htotal : totalLen es < 2 ^ 61) :
    (cfg.write es).length < 256 ^ 8 := by
  have hlen := @length_write_le cfg es
  omega

/-- Such a table can be opened, when the keys fit their length fields. -/
theorem Config.opens {es : List Entry} (hkeys : ∀ e ∈ es, e.1.length < 256 ^ 4)
    (htotal : totalLen es < 2 ^ 61) :
    cfg.format.openReader (cfg.format.write es) = .ok (cfg.readerOf es) :=
  openReader_write (length_write_lt htotal) hkeys

/-- An iterator passes a part of such a table from its beginning. -/
theorem Config.passes (hfits : ∀ e ∈ es, EntryFits e) (htotal : totalLen es < 2 ^ 61) :
    cfg.format.Passes es := by
  intro r hr
  rw [Config.opens (fun e he => (hfits e he).key_lt) htotal] at hr
  cases hr
  exact iterate_readerOf_prefix hfits

/-- **Small entries can be read back**, in a table of less than `2 ^ 61` bytes. -/
theorem Config.SmallEntries.readable (h : cfg.SmallEntries es) (hsorted : EntriesSorted es)
    (htotal : totalLen es < 2 ^ 61) :
    cfg.format.Readable es (cfg.readerOf es) :=
  cfg.readable_write hsorted h.blocksFit (length_write_lt htotal)

end Stratum.Sstable
