import Stratum.Lib.Decoder
import Stratum.Sstable.Iterator

/-!
# Parsing a table, access by access

`Indexed` follows the index loop of `OpenReader`, the scan loop of `Reader.Get` and the iterator
with the offsets, slices and array accesses of the source: **every access that is out of range**
ends in `ParseFault.outOfRange`, which is a Go panic. The bytes are arbitrary, and so is what
`readBlock` returns: it is any function of a state that it may change, so that one block can be read
differently at different times.

* The loops check each length before they slice, so they are the loops of the table module
  (`Indexed.indexLoop_eq`, `Indexed.scanLoop_eq`).
* `loadBlock` and `parseCurrent` call each other, at the end of a block and at the start of the
  next. Between two calls of `loadBlock` the position in the index grows, so they come to an end;
  within a block it is the offset that grows (`Indexed.next_lt`).
* On the blocks of a reader the iterator is the one of the iterator module (`Indexed.Tracks`). Over
  a table it is therefore a **cursor** in the list of its entries, whatever is called in whatever
  order (`Indexed.iterator_is_cursor`).
-/

namespace Stratum.Sstable

open ByteCodec Memtable

/-- How parsing ends without a result: with `ErrCorrupt`, or in an access out of range. -/
inductive ParseFault
  | corrupt
  | outOfRange
deriving DecidableEq, Repr

namespace Indexed

/-! ### Keys -/

/-- `UserKey`. -/
def userKey (mvccKey : Bytes) : Except ParseFault Bytes :=
  if mvccKey.length < 8 then pure mvccKey
  else slice .outOfRange mvccKey 0 (mvccKey.length - 8)

/-- `CompareKeys`. -/
def compareKeys (a b : Bytes) : Except ParseFault Ordering := do
  let ukA ← userKey a
  let ukB ← userKey b
  pure ((compare ukA ukB).then (compare a b))

theorem userKey_eq (mvccKey : Bytes) : userKey mvccKey = .ok (Mvcc.userKey mvccKey) := by
  rw [userKey, Mvcc.userKey]
  split
  · rfl
  · rw [slice, if_pos ⟨Nat.zero_le _, Nat.sub_le _ _⟩, List.drop_zero]

theorem compareKeys_eq (a b : Bytes) : compareKeys a b = .ok (Mvcc.compareKeys a b) := by
  rw [compareKeys, userKey_eq, userKey_eq]
  rfl

/-! ### The index -/

/-- `DecodeBlockHandle`. -/
def decodeBlockHandle (data : Bytes) : Except ParseFault BlockHandle :=
  if data.length < 16 then pure ⟨0, 0⟩
  else do
    let offset ← uintAt .outOfRange data 0 8
    let size ← uintAt .outOfRange data 8 8
    pure ⟨offset, size⟩

/-- One round of the index loop. -/
def indexEntryAt (buf : Bytes) (offset : ℕ) : Except ParseFault (IndexEntry × ℕ) := do
  need .corrupt buf offset 4
  let keyLen ← uintAt .outOfRange buf offset 4
  need .corrupt buf (offset + 4) (keyLen + 16)
  let key ← slice .outOfRange buf (offset + 4) (offset + 4 + keyLen)
  let bytes ← slice .outOfRange buf (offset + 4 + keyLen) (offset + 4 + keyLen + 16)
  let handle ← decodeBlockHandle bytes
  pure (⟨key, handle⟩, offset + 4 + keyLen + 16)

/-- The round of the table module. -/
def readIndexEntry (buf : Bytes) : Option (IndexEntry × Bytes) := do
  let (keyLen, buf) ← splitBytes 4 buf
  let (key, buf) ← splitBytes (leNat keyLen) buf
  let (handle, buf) ← splitBytes 16 buf
  pure (⟨key, Sstable.decodeBlockHandle handle⟩, buf)

variable {data buf : Bytes} {offset fuel : ℕ}

theorem decodeBlockHandle_eq (h : data.length = 16) :
    decodeBlockHandle data = .ok (Sstable.decodeBlockHandle data) := by
  rw [decodeBlockHandle, if_neg (by omega), @uintAt_of_le _ _ _ 0 8 (by omega),
    @uintAt_of_le _ _ _ 8 8 (by omega)]
  rfl

theorem agrees_indexEntryAt (h : offset ≤ buf.length) :
    Agrees .corrupt buf (indexEntryAt buf offset) (readIndexEntry (buf.drop offset)) := by
  refine agrees_need_uintAt h 4 fun keyLen h => ?_
  refine agrees_need (fun hshort => ?_) (fun hlen => ?_) h
  · exact bind_splitBytes_eq_none (n := 16) hshort fun _ rest hrest =>
      bind_splitBytes_eq_none (n := 0) hrest fun _ _ h0 => absurd h0 (Nat.not_lt_zero _)
  · -- one check covers the key and the handle
    refine agrees_slice (by omega) fun key _ => agrees_slice (by omega) fun bytes hbytes => ?_
    rw [decodeBlockHandle_eq hbytes]
    exact ⟨_, by omega, rfl, rfl⟩

theorem length_lt_of_readIndexEntry {rest : Bytes} {ie : IndexEntry}
    (h : readIndexEntry buf = some (ie, rest)) : rest.length < buf.length := by
  simp only [readIndexEntry, Option.bind_eq_bind, Option.bind_eq_some_iff, Option.pure_def,
    Option.some.injEq, Prod.mk.injEq, Prod.exists] at h
  obtain ⟨a, _, h₁, b, _, h₂, c, _, h₃, -, rfl⟩ := h
  have hlen : a.length = 4 := length_of_splitBytes h₁
  rw [← append_of_splitBytes h₁, ← append_of_splitBytes h₂, ← append_of_splitBytes h₃]
  simp only [List.length_append]
  omega

/-- The index loop of `OpenReader`, from an offset on. -/
def indexLoop (buf : Bytes) (offset : ℕ) (indexEntries : List IndexEntry) :
    Except ParseFault (List IndexEntry) :=
  if _h : offset < buf.length then
    match _hround : indexEntryAt buf offset with
    | .error e => .error e
    | .ok (ie, offset') => indexLoop buf offset' (indexEntries ++ [ie])
  else .ok indexEntries
termination_by buf.length - offset
decreasing_by
  have hlt := (agrees_indexEntryAt _h.le).lt_of_ok length_lt_of_readIndexEntry _hround
  omega

theorem parseIndex_succ (fuel : ℕ) (buf : Bytes) :
    parseIndex (fuel + 1) buf = if buf = [] then some [] else
      (readIndexEntry buf).bind fun (ie, buf) => (parseIndex fuel buf).map (ie :: ·) := by
  rw [parseIndex, readIndexEntry]
  split
  · rfl
  · simp only [Option.bind_eq_bind, Option.bind_assoc, Option.pure_def, Option.bind_some,
      Option.map_eq_bind, Function.comp_def]

/-- **The index loop is never out of range**: it is the one of the table module. -/
theorem indexLoop_eq (buf : Bytes) (indexEntries : List IndexEntry) (hle : offset ≤ buf.length)
    (hfuel : buf.length ≤ offset + fuel) :
    indexLoop buf offset indexEntries = (parseIndex fuel (buf.drop offset)).elim (.error .corrupt)
      fun ies => .ok (indexEntries ++ ies) := by
  induction fuel generalizing offset indexEntries with
  | zero =>
    rw [indexLoop, dif_neg (by omega), parseIndex, Option.elim_some, List.append_nil]
  | succ fuel ih =>
    rw [indexLoop, parseIndex_succ]
    by_cases h : offset < buf.length
    · have hne : buf.drop offset ≠ [] := by
        rw [ne_eq, List.drop_eq_nil_iff]
        omega
      rw [dif_pos h, if_neg hne]
      obtain ⟨hr, hread⟩ | ⟨ie, offset', hle', hr, hread⟩ := (agrees_indexEntryAt hle).cases
      · rw [hr, hread]
        rfl
      · have hlt := (agrees_indexEntryAt hle).lt_of_ok length_lt_of_readIndexEntry hr
        rw [hr, hread]
        dsimp only
        rw [ih _ hle' (by omega), Option.bind_some]
        cases parseIndex fuel (buf.drop offset') <;> simp
    · rw [dif_neg h, if_pos (List.drop_eq_nil_iff.2 (by omega)), Option.elim_some, List.append_nil]

/-! ### The scan of a block -/

/-- The entry at an offset: the first half of a round of the scan loop of `Reader.Get`. -/
def entryAt (data : Bytes) (offset : ℕ) : Except ParseFault (Entry × ℕ) := do
  need .corrupt data offset 8
  let keyLen ← uintAt .outOfRange data offset 4
  let valLenRaw ← uintAt .outOfRange data (offset + 4) 4
  let isTombstone := valLenRaw == 0xFFFFFFFF
  let valLen := if isTombstone then 0 else valLenRaw
  need .corrupt data (offset + 8) (keyLen + valLen)
  let key ← slice .outOfRange data (offset + 8) (offset + 8 + keyLen)
  let val ← if isTombstone then pure none
    else some <$> slice .outOfRange data (offset + 8 + keyLen) (offset + 8 + keyLen + valLen)
  pure ((key, val), offset + 8 + keyLen + valLen)

/-- **The bytes of an entry are in the block**, or it is corrupt. -/
theorem agrees_entryAt (h : offset ≤ data.length) :
    Agrees .corrupt data (entryAt data offset) (parseEntry (data.drop offset)) := by
  refine agrees_need (fun hshort => ?_) (fun hlen => ?_) h
  · exact bind_splitBytes_eq_none (n := 4) hshort fun _ rest hrest =>
      bind_splitBytes_eq_none (n := 0) hrest fun _ _ h0 => absurd h0 (Nat.not_lt_zero _)
  · refine agrees_uintAt (by omega) fun keyLen => agrees_uintAt (by omega) fun valLen => ?_
    by_cases hmark : leNat valLen = 0xFFFFFFFF
    · simp only [hmark, beq_self_eq_true, if_true]
      refine agrees_need (fun hshort => ?_) (fun hall => ?_) hlen
      · exact bind_splitBytes_eq_none (n := 0) hshort fun _ _ h0 => absurd h0 (Nat.not_lt_zero _)
      · refine agrees_slice (by omega) fun key _ => ?_
        exact ⟨_, hall, rfl, rfl⟩
    · have hmark' : (leNat valLen == 0xFFFFFFFF) = false := by simpa using hmark
      simp only [hmark', hmark, if_false, map_eq_pure_bind, bind_assoc, pure_bind,
        Bool.false_eq_true]
      refine agrees_need (fun hshort => ?_) (fun hall => ?_) hlen
      · exact bind_splitBytes_eq_none hshort fun _ rest hrest =>
          bind_splitBytes_eq_none (n := 0) hrest fun _ _ h0 => absurd h0 (Nat.not_lt_zero _)
      · refine agrees_slice (by omega) fun key _ => agrees_slice (by omega) fun val _ => ?_
        exact ⟨_, by omega, rfl, rfl⟩

theorem lt_of_entryAt {offset' : ℕ} {e : Entry} (h : offset ≤ data.length)
    (he : entryAt data offset = .ok (e, offset')) : offset < offset' ∧ offset' ≤ data.length :=
  (agrees_entryAt h).lt_of_ok Iterator.length_lt_of_parseEntry he

/-- The scan loop of `Reader.Get`, from an offset on. -/
def scanLoop (key data : Bytes) (offset : ℕ) : Except ParseFault (Option (Option Bytes)) :=
  if _h : offset < data.length then
    match _he : entryAt data offset with
    | .error e => .error e
    | .ok (e, offset') =>
      match compareKeys e.1 key with
      | .error err => .error err
      | .ok .eq => .ok (some e.2)
      | .ok .gt => .ok none
      | .ok .lt => scanLoop key data offset'
  else .ok none
termination_by data.length - offset
decreasing_by
  have hlt := lt_of_entryAt _h.le _he
  omega

/-- **The scan loop is never out of range**: it is the one of the table module. -/
theorem scanLoop_eq (key data : Bytes) (hle : offset ≤ data.length)
    (hfuel : data.length ≤ offset + fuel) :
    scanLoop key data offset
      = (Reader.scanBlock key fuel (data.drop offset)).mapError fun _ => .corrupt := by
  induction fuel generalizing offset with
  | zero =>
    rw [scanLoop, dif_neg (by omega)]
    rfl
  | succ fuel ih =>
    rw [scanLoop, Reader.scanBlock]
    by_cases h : offset < data.length
    · have hne : data.drop offset ≠ [] := by
        rw [ne_eq, List.drop_eq_nil_iff]
        omega
      rw [dif_pos h, if_neg hne]
      obtain ⟨hr, hread⟩ | ⟨e, offset', hle', hr, hread⟩ := (agrees_entryAt hle).cases
      · rw [hr, hread]
        rfl
      · have hlt := lt_of_entryAt hle hr
        rw [hr, hread]
        dsimp only
        rw [compareKeys_eq]
        cases Mvcc.compareKeys e.1 key with
        | lt => exact ih hle' (by omega)
        | eq => rfl
        | gt => rfl
    · rw [dif_neg h, if_pos (List.drop_eq_nil_iff.2 (by omega))]
      rfl

/-! ### The iterator -/

/-- `Iterator`, without its reader. -/
structure Iterator where
  blockIdx : ℕ
  offset : ℕ
  err : Option TableErr
  blockData : Bytes
  currentKey : Bytes
  currentVal : Option Bytes
  isTombstone : Bool
  valid : Bool
deriving DecidableEq, Repr

namespace Iterator

/-- `Iterator.Valid`. -/
def isValid (it : Iterator) : Bool := it.valid && it.err.isNone

/-- `parseCurrent`, where the block has bytes left. -/
def parseHere (it : Iterator) : Except ParseFault Iterator :=
  if it.offset + 8 > it.blockData.length then
    .ok { it with err := some .corrupt, valid := false }
  else do
    let keyLen ← uintAt .outOfRange it.blockData it.offset 4
    let valLenRaw ← uintAt .outOfRange it.blockData (it.offset + 4) 4
    let offset := it.offset + 8
    let isTombstone := valLenRaw == 0xFFFFFFFF
    let valLen := if isTombstone then 0 else valLenRaw
    if offset + keyLen + valLen > it.blockData.length then
      pure { it with offset, isTombstone, err := some .corrupt, valid := false }
    else
      let currentKey ← slice .outOfRange it.blockData offset (offset + keyLen)
      let offset := offset + keyLen
      if isTombstone then
        pure { it with offset, isTombstone, currentKey, currentVal := none, valid := true }
      else
        let val ← slice .outOfRange it.blockData offset (offset + valLen)
        pure { it with
          offset := offset + valLen, isTombstone, currentKey, currentVal := some val,
          valid := true }

/-- An entry that the scan loop would find is parsed to its end; on a corrupt one the iterator
stops, with its offset at the entry or behind the lengths of it. -/
theorem parseHere_eq (it : Iterator) :
    (∀ e offset, entryAt it.blockData it.offset = .ok (e, offset) →
      it.parseHere = .ok { it with
        offset, isTombstone := e.2.isNone, currentKey := e.1, currentVal := e.2, valid := true }) ∧
    (entryAt it.blockData it.offset = .error .corrupt →
      ∃ offset isTombstone, it.parseHere = .ok { it with
        offset, isTombstone, err := some .corrupt, valid := false }) := by
  by_cases h8 : it.offset + 8 ≤ it.blockData.length
  · have hkey := @uintAt_of_le _ ParseFault.outOfRange it.blockData it.offset 4 (by omega)
    have hval := @uintAt_of_le _ ParseFault.outOfRange it.blockData (it.offset + 4) 4 (by omega)
    generalize leNat ((it.blockData.drop it.offset).take 4) = keyLen at hkey
    generalize leNat ((it.blockData.drop (it.offset + 4)).take 4) = valLenRaw at hval
    have hlens : ¬ it.offset + 8 > it.blockData.length := by omega
    simp only [entryAt, parseHere, need, if_neg hlens, hkey, hval, bind, Except.bind, pure,
      Except.pure]
    generalize hlen : (if (valLenRaw == 0xFFFFFFFF) = true then 0 else valLenRaw) = valLen
    by_cases hall : it.offset + 8 + (keyLen + valLen) ≤ it.blockData.length
    · have hall' : ¬ it.offset + 8 + (keyLen + valLen) > it.blockData.length := by omega
      have hall'' : ¬ it.offset + 8 + keyLen + valLen > it.blockData.length := by omega
      rw [if_neg hall', if_neg hall'', slice_of_le _ (by omega)]
      dsimp only
      by_cases hmark : (valLenRaw == 0xFFFFFFFF) = true
      · rw [if_pos hmark] at hlen
        subst hlen
        simp [hmark]
      · simp only [if_neg hmark]
        rw [slice_of_le _ (by omega)]
        simp [Functor.map, Except.map, hmark]
    · have hall' : it.offset + 8 + (keyLen + valLen) > it.blockData.length := by omega
      have hall'' : it.offset + 8 + keyLen + valLen > it.blockData.length := by omega
      rw [if_pos hall', if_pos hall'']
      refine ⟨?_, fun _ => ⟨_, _, rfl⟩⟩
      rintro _ _ ⟨⟩
  · have hlens : it.offset + 8 > it.blockData.length := by omega
    simp only [entryAt, parseHere, need, if_pos hlens, bind, Except.bind]
    refine ⟨?_, fun _ => ⟨it.offset, it.isTombstone, rfl⟩⟩
    rintro _ _ ⟨⟩

/-- **Parsing an entry is never out of range**, and goes forward in the block. -/
theorem parseHere_ok {it : Iterator} (h : it.offset ≤ it.blockData.length) :
    ∃ it', it.parseHere = .ok it' ∧ it'.blockIdx = it.blockIdx ∧ it'.blockData = it.blockData ∧
      (it'.valid = true → it.offset < it'.offset ∧ it'.offset ≤ it.blockData.length) := by
  obtain ⟨hr, -⟩ | ⟨e, offset, -, hr, -⟩ := (agrees_entryAt h).cases
  · obtain ⟨offset, isTombstone, hparse⟩ := it.parseHere_eq.2 hr
    exact ⟨_, hparse, rfl, rfl, fun hvalid => by cases hvalid⟩
  · exact ⟨_, it.parseHere_eq.1 e offset hr, rfl, rfl, fun _ => lt_of_entryAt h hr⟩

end Iterator

section Moves

variable {σ : Type} (read : σ → BlockHandle → σ × Except TableErr Bytes)
  (indexEntries : List IndexEntry)

/-- The array access `indexEntries[i]`. -/
def indexAt (i : ℕ) : Except ParseFault IndexEntry :=
  match indexEntries[i]? with
  | some ie => .ok ie
  | none => .error .outOfRange

mutual

/-- `loadBlock`. -/
def loadBlock (s : σ) (it : Iterator) : Except ParseFault (σ × Iterator) :=
  if it.blockIdx ≥ indexEntries.length then .ok (s, { it with valid := false })
  else
    match indexAt indexEntries it.blockIdx with
    | .error e => .error e
    | .ok ie =>
      match read s ie.handle with
      | (s, .error e) => .ok (s, { it with err := some e, valid := false })
      | (s, .ok data) =>
        parseCurrent s { it with blockData := data, offset := 0, valid := false }
termination_by 2 * (indexEntries.length - it.blockIdx)

/-- `parseCurrent`. -/
def parseCurrent (s : σ) (it : Iterator) : Except ParseFault (σ × Iterator) :=
  if it.offset ≥ it.blockData.length then
    loadBlock s { it with blockIdx := it.blockIdx + 1 }
  else
    match it.parseHere with
    | .error e => .error e
    | .ok it => .ok (s, it)
termination_by 2 * (indexEntries.length - (it.blockIdx + 1)) + 1

end

/-- `Iterator.SeekToFirst`. -/
def seekToFirst (s : σ) (it : Iterator) : Except ParseFault (σ × Iterator) :=
  loadBlock read indexEntries s { it with blockIdx := 0 }

/-- `Iterator.Next`. -/
def next (s : σ) (it : Iterator) : Except ParseFault (σ × Iterator) :=
  if it.valid = false then .ok (s, it)
  else if it.offset ≥ it.blockData.length then
    loadBlock read indexEntries s { it with blockIdx := it.blockIdx + 1 }
  else parseCurrent read indexEntries s it

/-- `Next`, called `k` times. -/
def nexts : ℕ → σ → Iterator → Except ParseFault (σ × Iterator)
  | 0, s, it => .ok (s, it)
  | k + 1, s, it =>
    match next read indexEntries s it with
    | .error e => .error e
    | .ok (s, it) => nexts k s it

/-- `findBlockIndex`. -/
def findBlockIndex (key : Bytes) : Except ParseFault ℕ :=
  BinarySearch.searchM indexEntries.length fun i => do
    let ie ← indexAt indexEntries i
    let cmp ← compareKeys ie.key key
    pure (cmp != .lt)

variable {read indexEntries}

theorem indexAt_of_lt {i : ℕ} (h : i < indexEntries.length) :
    indexAt indexEntries i = .ok indexEntries[i] := by
  rw [indexAt, List.getElem?_eq_getElem h]

/-- **Loading a block is never out of range**, and ends at a valid entry only in a block that
exists. -/
theorem loadBlock_ok (s : σ) (it : Iterator) :
    ∃ s' it', loadBlock read indexEntries s it = .ok (s', it') ∧
      (it'.valid = true → it.blockIdx ≤ it'.blockIdx ∧ it'.blockIdx < indexEntries.length) := by
  -- the induction is on the blocks that are left
  generalize hleft : indexEntries.length - it.blockIdx = left
  induction left generalizing s it with
  | zero =>
    rw [loadBlock, if_pos (by omega)]
    exact ⟨_, _, rfl, fun hvalid => by cases hvalid⟩
  | succ left ih =>
    have hlt : it.blockIdx < indexEntries.length := by omega
    rw [loadBlock, if_neg (by omega), indexAt_of_lt hlt]
    dsimp only
    rcases read s indexEntries[it.blockIdx].handle with ⟨s₁, e | data⟩
    · exact ⟨_, _, rfl, fun hvalid => by cases hvalid⟩
    · dsimp only
      rw [parseCurrent]
      dsimp only
      split
      · -- an empty block
        obtain ⟨s', it', hload, hvalid⟩ := ih s₁
          { it with blockIdx := it.blockIdx + 1, blockData := data, offset := 0, valid := false }
          (by dsimp only; omega)
        exact ⟨s', it', hload, fun h => ⟨Nat.le_of_succ_le (hvalid h).1, (hvalid h).2⟩⟩
      · obtain ⟨it', hparse, hidx, -, -⟩ := @Iterator.parseHere_ok
          { it with blockData := data, offset := 0, valid := false } (Nat.zero_le _)
        rw [hparse]
        exact ⟨s₁, it', rfl, fun _ => ⟨Nat.le_of_eq hidx.symm, hidx ▸ hlt⟩⟩

/-- **`Next` is never out of range**, and goes forward in the index or in the block. -/
theorem next_ok (s : σ) (it : Iterator) :
    ∃ s' it', next read indexEntries s it = .ok (s', it') ∧
      (it.valid = true → it'.valid = true →
        it.blockIdx < it'.blockIdx ∧ it'.blockIdx < indexEntries.length ∨
        it'.blockIdx = it.blockIdx ∧ it'.blockData = it.blockData ∧
          it.offset < it'.offset ∧ it'.offset ≤ it.blockData.length) := by
  rw [next]
  split
  · rename_i hinvalid
    exact ⟨s, it, rfl, fun hvalid => by rw [hinvalid] at hvalid; cases hvalid⟩
  · split
    · obtain ⟨s', it', hload, hvalid⟩ := @loadBlock_ok σ read indexEntries s
        { it with blockIdx := it.blockIdx + 1 }
      exact ⟨s', it', hload, fun _ h => .inl (hvalid h)⟩
    · rename_i hlt
      obtain ⟨it', hparse, hidx, hdata, hvalid⟩ := @Iterator.parseHere_ok it (by omega)
      rw [parseCurrent, if_neg hlt, hparse]
      exact ⟨s, it', rfl, fun _ h => .inr ⟨hidx, hdata, hvalid h⟩⟩

variable (indexEntries)

/-- The blocks to come, with the current one. -/
def blocksLeft (it : Iterator) : ℕ :=
  if it.valid = true then indexEntries.length - it.blockIdx + 1 else 0

/-- The bytes to come in the current block. -/
def bytesLeft (it : Iterator) : ℕ := it.blockData.length - it.offset

variable {indexEntries}

variable {it : Iterator}

/-- **`Next` uses up something**: a block, bytes of the block, or the validity of the iterator. -/
theorem next_lt {s s' : σ} {it' : Iterator} (hvalid : it.valid = true)
    (h : next read indexEntries s it = .ok (s', it')) :
    Prod.Lex (· < ·) (· < ·) (blocksLeft indexEntries it', bytesLeft it')
      (blocksLeft indexEntries it, bytesLeft it) := by
  obtain ⟨_, _, hok, hcases⟩ := @next_ok σ read indexEntries s it
  rw [h] at hok
  cases hok
  rw [Prod.lex_def, blocksLeft, blocksLeft, if_pos hvalid, bytesLeft, bytesLeft]
  by_cases hvalid' : it'.valid = true
  · rw [if_pos hvalid']
    obtain ⟨hlt, hle⟩ | ⟨hidx, hdata, hlt, hle⟩ := hcases hvalid hvalid'
    · exact .inl (by omega)
    · exact .inr ⟨by rw [hidx], by rw [hdata]; dsimp only; omega⟩
  · rw [if_neg hvalid']
    exact .inl (Nat.succ_pos _)

variable (read indexEntries)

/-- The loop of `Iterator.Seek`. -/
def seekLoop (target : Bytes) (s : σ) (it : Iterator) : Except ParseFault (σ × Iterator) :=
  if _h : it.isValid = true then
    match compareKeys it.currentKey target with
    | .error e => .error e
    | .ok .lt =>
      match _hnext : next read indexEntries s it with
      | .error e => .error e
      | .ok (s', it') => seekLoop target s' it'
    | .ok .eq => .ok (s, it)
    | .ok .gt => .ok (s, it)
  else .ok (s, it)
termination_by (blocksLeft indexEntries it, bytesLeft it)
decreasing_by
  exact next_lt (Bool.and_eq_true_iff.1 _h).1 _hnext

/-- `Iterator.Seek`. -/
def seek (target : Bytes) (s : σ) (it : Iterator) : Except ParseFault (σ × Iterator) :=
  match findBlockIndex indexEntries target with
  | .error e => .error e
  | .ok blockIdx =>
    match loadBlock read indexEntries s { it with blockIdx } with
    | .error e => .error e
    | .ok (s, it) => seekLoop read indexEntries target s it

variable {read indexEntries}

theorem findBlockIndex_eq (r : Reader) (key : Bytes) :
    findBlockIndex r.indexEntries key = .ok (r.findBlockIndex key) := by
  refine BinarySearch.searchM_eq fun i hi => ?_
  rw [indexAt_of_lt hi, List.getElem?_eq_getElem hi]
  change (compareKeys _ _ >>= _) = _
  rw [compareKeys_eq]
  rfl

/-- **`Seek` is never out of range**, and comes to an end. -/
theorem seekLoop_ok (target : Bytes) (s : σ) (it : Iterator) :
    ∃ x, seekLoop read indexEntries target s it = .ok x := by
  fun_induction seekLoop read indexEntries target s it with
  | case1 s it h e hcmp =>
    rw [compareKeys_eq] at hcmp
    cases hcmp
  | case2 s it h hcmp e hnext =>
    obtain ⟨_, _, hok, -⟩ := @next_ok σ read indexEntries s it
    rw [hnext] at hok
    cases hok
  | case3 s it h hcmp s' it' hnext ih => exact ih
  | case4 s it h hcmp | case5 s it h hcmp | case6 s it h => exact ⟨_, rfl⟩

theorem seek_ok (target : Bytes) (s : σ) (it : Iterator) :
    ∃ x, seek read indexEntries target s it = .ok x := by
  obtain ⟨s', it', hload, -⟩ := @loadBlock_ok σ read indexEntries s
    { it with blockIdx := (⟨[], indexEntries, ⟨[], 0, 0⟩⟩ : Reader).findBlockIndex target }
  rw [seek, findBlockIndex_eq ⟨[], indexEntries, ⟨[], 0, 0⟩⟩]
  dsimp only
  rw [hload]
  exact seekLoop_ok target s' it'

/-- An iterator that is not valid stays where it is. -/
theorem nexts_of_invalid (h : it.valid = false) (k : ℕ) (s : σ) :
    nexts read indexEntries k s it = .ok (s, it) := by
  induction k with
  | zero => rfl
  | succ k ih =>
    rw [nexts, next, if_pos h]
    exact ih

/-- **`Next` leads out of the table**, from wherever the iterator is. -/
theorem exists_nexts_invalid (s : σ) (it : Iterator) :
    ∃ k, ∀ m ≥ k, ∃ s' it', nexts read indexEntries m s it = .ok (s', it') ∧ it'.valid = false := by
  by_cases hvalid : it.valid = true
  · obtain ⟨s', it', hnext, -⟩ := @next_ok σ read indexEntries s it
    obtain ⟨k, hk⟩ := exists_nexts_invalid s' it'
    refine ⟨k + 1, fun m hm => ?_⟩
    cases m with
    | zero => omega
    | succ m =>
      rw [nexts, hnext]
      exact hk m (Nat.le_of_succ_le_succ hm)
  · rw [Bool.not_eq_true] at hvalid
    exact ⟨0, fun m _ => ⟨s, it, nexts_of_invalid hvalid m s, hvalid⟩⟩
termination_by (blocksLeft indexEntries it, bytesLeft it)
decreasing_by
  exact next_lt hvalid hnext

end Moves

/-! ### The iterator module -/

/-- The iterator is the one of the iterator module; `rest` is what is left of the block, as long as
the iterator is valid. -/
structure Tracks (it : Iterator) (it' : Sstable.Iterator) : Prop where
  blockIdx_eq : it.blockIdx = it'.blockIdx
  err_eq : it.err = it'.err
  current_eq : (it.currentKey, it.currentVal) = it'.current
  valid_eq : it.valid = it'.valid
  rest_eq : it.valid = true →
    it.offset ≤ it.blockData.length ∧ it'.rest = it.blockData.drop it.offset

section Tracks

variable {cfg : Config} {fileID : ℕ} {r : Reader} {it : Iterator} {it' : Sstable.Iterator}

theorem Tracks.isValid_eq (h : Tracks it it') : it.isValid = it'.isValid := by
  rw [Iterator.isValid, Sstable.Iterator.isValid, h.valid_eq, h.err_eq]

theorem Tracks.withBlockIdx (h : Tracks it it') (blockIdx : ℕ) :
    Tracks { it with blockIdx } { it' with blockIdx } :=
  ⟨rfl, h.err_eq, h.current_eq, h.valid_eq, h.rest_eq⟩

/-- Parsing an entry, in both models. -/
theorem Tracks.parseHere (h : Tracks it it') (hle : it.offset ≤ it.blockData.length)
    (hrest : it'.rest = it.blockData.drop it.offset) :
    ∃ it₁, it.parseHere = .ok it₁ ∧ Tracks it₁ it'.parseHere := by
  rw [Sstable.Iterator.parseHere, hrest]
  obtain ⟨hr, hread⟩ | ⟨e, offset, hle', hr, hread⟩ := (agrees_entryAt hle).cases
  · obtain ⟨offset, isTombstone, hparse⟩ := it.parseHere_eq.2 hr
    rw [hread]
    exact ⟨_, hparse, h.blockIdx_eq, rfl, h.current_eq, rfl, fun hvalid => by cases hvalid⟩
  · rw [hread]
    exact ⟨_, it.parseHere_eq.1 e offset hr, h.blockIdx_eq, h.err_eq, rfl, rfl,
      fun _ => ⟨hle', rfl⟩⟩

/-- Loading a block, in both models. -/
theorem Tracks.loadBlock (h : Tracks it it') (cache : Option BlockCache) :
    ∃ it₁, Indexed.loadBlock (r.readBlockVia cfg fileID) r.indexEntries cache it
        = .ok ((Sstable.Iterator.loadBlock cfg fileID r cache it').1, it₁) ∧
      Tracks it₁ (Sstable.Iterator.loadBlock cfg fileID r cache it').2 := by
  rw [Sstable.Iterator.loadBlock]
  generalize hies : r.indexEntries.drop it'.blockIdx = ies
  induction ies generalizing cache it it' with
  | nil =>
    have hend := List.drop_eq_nil_iff.1 hies
    rw [Indexed.loadBlock, if_pos (by rw [h.blockIdx_eq]; exact hend)]
    exact ⟨_, rfl, h.blockIdx_eq, h.err_eq, h.current_eq, rfl, fun hvalid => by cases hvalid⟩
  | cons ie ies ih =>
    have hlt : it.blockIdx < r.indexEntries.length := by
      rw [h.blockIdx_eq]
      by_contra hnot
      rw [List.drop_eq_nil_iff.2 (by omega)] at hies
      cases hies
    rw [← h.blockIdx_eq, List.drop_eq_getElem_cons hlt] at hies
    obtain ⟨hie, hies⟩ := List.cons.inj hies
    rw [Indexed.loadBlock, if_neg (by omega), indexAt_of_lt hlt, hie, Sstable.Iterator.loadBlocks]
    dsimp only
    rcases r.readBlockVia cfg fileID cache ie.handle with ⟨cache₁, e | data⟩
    · exact ⟨_, rfl, h.blockIdx_eq, rfl, h.current_eq, rfl, fun hvalid => by cases hvalid⟩
    · dsimp only
      rw [parseCurrent]
      dsimp only
      by_cases hdata : data = []
      · -- an empty block
        subst hdata
        rw [if_pos (show 0 ≥ ([] : Bytes).length from Nat.le_refl _), if_pos rfl]
        have htracks : Tracks
            { it with blockIdx := it.blockIdx + 1, blockData := [], offset := 0, valid := false }
            { it' with blockIdx := it'.blockIdx + 1, rest := [], valid := false } :=
          ⟨congrArg (· + 1) h.blockIdx_eq, h.err_eq, h.current_eq, rfl, by rintro ⟨⟩⟩
        exact ih htracks cache₁ (by rw [← h.blockIdx_eq]; exact hies)
      · have hpos := List.length_pos_iff.2 hdata
        rw [if_neg (by omega), if_neg hdata]
        have htracks : Tracks { it with blockData := data, offset := 0, valid := false }
            { it' with rest := data, valid := false } :=
          ⟨h.blockIdx_eq, h.err_eq, h.current_eq, rfl, by rintro ⟨⟩⟩
        obtain ⟨it₁, hparse, htracks₁⟩ := htracks.parseHere (Nat.zero_le _) rfl
        rw [hparse]
        exact ⟨it₁, rfl, htracks₁⟩

/-- **`SeekToFirst`**, in both models. -/
theorem Tracks.seekToFirst (h : Tracks it it') (cache : Option BlockCache) :
    ∃ it₁, Indexed.seekToFirst (r.readBlockVia cfg fileID) r.indexEntries cache it
        = .ok ((Sstable.Iterator.seekToFirst cfg fileID r cache it').1, it₁) ∧
      Tracks it₁ (Sstable.Iterator.seekToFirst cfg fileID r cache it').2 :=
  (h.withBlockIdx 0).loadBlock cache

/-- **`Next`**, in both models. -/
theorem Tracks.next (h : Tracks it it') (cache : Option BlockCache) :
    ∃ it₁, Indexed.next (r.readBlockVia cfg fileID) r.indexEntries cache it
        = .ok ((Sstable.Iterator.next cfg fileID r cache it').1, it₁) ∧
      Tracks it₁ (Sstable.Iterator.next cfg fileID r cache it').2 := by
  rw [Indexed.next, Sstable.Iterator.next]
  by_cases hvalid : it.valid = false
  · rw [if_pos hvalid, if_pos (h.valid_eq.symm.trans hvalid)]
    exact ⟨it, rfl, h⟩
  · obtain ⟨hle, hrest⟩ := h.rest_eq (by simpa using hvalid)
    have hend_iff : it'.rest = [] ↔ it.offset ≥ it.blockData.length := by
      rw [hrest, List.drop_eq_nil_iff]
    have hvalid' : ¬ it'.valid = false := by rwa [← h.valid_eq]
    rw [if_neg hvalid, if_neg hvalid']
    by_cases hend : it.offset ≥ it.blockData.length
    · rw [if_pos hend, if_pos (hend_iff.2 hend), ← h.blockIdx_eq]
      exact (h.withBlockIdx (it.blockIdx + 1)).loadBlock cache
    · obtain ⟨it₁, hparse, htracks⟩ := h.parseHere hle hrest
      rw [if_neg hend, if_neg (mt hend_iff.1 hend), parseCurrent, if_neg hend, hparse]
      exact ⟨it₁, rfl, htracks⟩

theorem Tracks.seekLoop (target : Bytes) (h : Tracks it it') (cache : Option BlockCache) :
    ∃ it₁, Indexed.seekLoop (r.readBlockVia cfg fileID) r.indexEntries target cache it
        = .ok ((Sstable.Iterator.seekLoop cfg fileID r target cache it').1, it₁) ∧
      Tracks it₁ (Sstable.Iterator.seekLoop cfg fileID r target cache it').2 := by
  fun_induction Sstable.Iterator.seekLoop cfg fileID r target cache it' generalizing it with
  | case1 cache it' hvalid hcmp =>
    rw [Indexed.seekLoop, dif_pos (h.isValid_eq.trans hvalid), compareKeys_eq,
      show it.currentKey = it'.current.1 from congrArg Prod.fst h.current_eq]
    revert hcmp
    cases Mvcc.compareKeys it'.current.1 target with
    | lt => exact fun hcmp => absurd rfl hcmp
    | eq | gt => exact fun _ => ⟨it, rfl, h⟩
  | case2 cache it' hvalid hcmp ih =>
    obtain ⟨it₁, hnext, htracks⟩ := h.next cache
    rw [Indexed.seekLoop, dif_pos (h.isValid_eq.trans hvalid), compareKeys_eq,
      show it.currentKey = it'.current.1 from congrArg Prod.fst h.current_eq,
      Decidable.not_not.1 hcmp]
    dsimp only
    rw [hnext]
    exact ih htracks
  | case3 cache it' hvalid =>
    rw [Indexed.seekLoop, dif_neg (by rw [h.isValid_eq]; exact hvalid)]
    exact ⟨it, rfl, h⟩

/-- **`Seek`**, in both models. -/
theorem Tracks.seek (h : Tracks it it') (target : Bytes) (cache : Option BlockCache) :
    ∃ it₁, Indexed.seek (r.readBlockVia cfg fileID) r.indexEntries target cache it
        = .ok ((Sstable.Iterator.seek cfg fileID r target cache it').1, it₁) ∧
      Tracks it₁ (Sstable.Iterator.seek cfg fileID r target cache it').2 := by
  obtain ⟨it₁, hload, htracks⟩ := (h.withBlockIdx (r.findBlockIndex target)).loadBlock cache
  rw [Indexed.seek, findBlockIndex_eq]
  dsimp only
  rw [hload]
  exact htracks.seekLoop target _

end Tracks

/-! ### The iterator as a cursor -/

/-- The methods that move an iterator. -/
inductive Call
  | seekToFirst
  | seek (target : Bytes)
  | next
deriving DecidableEq, Repr

section Cursor

variable {σ : Type} (read : σ → BlockHandle → σ × Except TableErr Bytes)
  (indexEntries : List IndexEntry)

/-- One call, in the state `s` of what is shared. -/
def call (s : σ) (it : Iterator) : Call → Except ParseFault (σ × Iterator)
  | .seekToFirst => seekToFirst read indexEntries s it
  | .seek target => seek read indexEntries target s it
  | .next => next read indexEntries s it

/-- Calls one after the other; before each of them others may have changed what is shared. -/
def calls : List (σ × Call) → Iterator → Except ParseFault Iterator
  | [], it => .ok it
  | (s, c) :: cs, it =>
    match call read indexEntries s it c with
    | .error e => .error e
    | .ok (_, it) => calls cs it

/-- What is ahead of a cursor in the sorted list `es` after a call; `rest` was ahead before it. -/
def ahead (es rest : List Entry) : Call → List Entry
  | .seekToFirst => es
  | .seek target => es.filter fun e => Mvcc.compareKeys e.1 target ≠ .lt
  | .next => rest.tail

end Cursor

/-- The iterator of `NewIterator`, before its call of `SeekToFirst`. -/
def Iterator.new : Iterator := ⟨0, 0, none, [], [], none, false, false⟩

/-- The iterator stands on the first of `rest`, with the others ahead. -/
def StandsOn (cfg : Config) (fileID : ℕ) (r : Reader) (rest : List Entry) (it : Iterator) : Prop :=
  ∃ it', Tracks it it' ∧ r.Yields cfg fileID none rest it'

section Table

variable {cfg : Config} {fileID : ℕ} {es rest : List Entry} {it : Iterator}

private theorem err_of_yields {r : Reader} {it : Sstable.Iterator}
    (h : r.Yields cfg fileID none rest it) : it.err = none := by
  cases rest with
  | nil => exact h.2
  | cons e rest =>
    have hvalid := h.1
    rw [Sstable.Iterator.isValid, Bool.and_eq_true, Option.isNone_iff_eq_none] at hvalid
    exact hvalid.2

/-- A call moves the iterator as it moves the cursor. -/
theorem StandsOn.call (hsorted : EntriesSorted es) (hfit : cfg.BlocksFit es)
    (h : StandsOn cfg fileID (cfg.readerOf es) rest it) {cache : Option BlockCache}
    (hcache : (cfg.readerOf es).Shared cfg fileID cache) (c : Call) :
    ∃ cache₁ it₁, Indexed.call ((cfg.readerOf es).readBlockVia cfg fileID)
        (cfg.readerOf es).indexEntries cache it c = .ok (cache₁, it₁) ∧
      StandsOn cfg fileID (cfg.readerOf es) (ahead es rest c) it₁ := by
  obtain ⟨it', htracks, hyields⟩ := h
  have herr := err_of_yields hyields
  cases c with
  | seekToFirst =>
    obtain ⟨it₁, hcall, htracks₁⟩ := htracks.seekToFirst cache
    exact ⟨_, it₁, hcall, _, htracks₁, yields_seekToFirst_readerOf hfit hcache herr⟩
  | seek target =>
    obtain ⟨it₁, hcall, htracks₁⟩ := htracks.seek target cache
    exact ⟨_, it₁, hcall, _, htracks₁, yields_seek_readerOf hsorted hfit hcache herr target⟩
  | next =>
    obtain ⟨it₁, hcall, htracks₁⟩ := htracks.next cache
    refine ⟨_, it₁, hcall, _, htracks₁, ?_⟩
    cases rest with
    | nil =>
      -- at the end nothing moves
      have hvalid : it'.valid = false := by
        simpa [Sstable.Iterator.isValid, herr] using hyields.1
      rw [Sstable.Iterator.next, if_pos hvalid]
      exact hyields
    | cons e rest => exact hyields.2.2 cache hcache

end Table

end Indexed

/-- **Parsing a table is bounded and ends**, for any bytes. No access is out of range in the index
loop of `OpenReader` on any index block, in the scan loop of `Reader.Get` on any data block, nor in
`SeekToFirst`, `Seek` and `Next` from any state of an iterator, whatever blocks it is given to read;
each of them returns. After `SeekToFirst` a finite number of calls of `Next` leads to an iterator
that is not valid, and it stays so. -/
theorem parsing_bounded {σ : Type} (read : σ → BlockHandle → σ × Except TableErr Bytes)
    (indexEntries : List IndexEntry) (s : σ) (it : Indexed.Iterator) :
    (∀ indexBuf, Indexed.indexLoop indexBuf 0 [] ≠ .error .outOfRange) ∧
    (∀ key blockData, Indexed.scanLoop key blockData 0 ≠ .error .outOfRange) ∧
    (∀ target, ∃ x, Indexed.seek read indexEntries target s it = .ok x) ∧
    (∃ x, Indexed.next read indexEntries s it = .ok x) ∧
    ∃ s₁ it₁, Indexed.seekToFirst read indexEntries s it = .ok (s₁, it₁) ∧
      ∃ k, ∀ m ≥ k, ∃ s₂ it₂, Indexed.nexts read indexEntries m s₁ it₁ = .ok (s₂, it₂) ∧
        it₂.isValid = false := by
  refine ⟨?_, ?_, fun target => Indexed.seek_ok target s it, ?_, ?_⟩
  · intro indexBuf h
    rw [Indexed.indexLoop_eq indexBuf [] (Nat.zero_le _) (Nat.le_add_left _ 0)] at h
    revert h
    cases parseIndex (indexBuf.length) (indexBuf.drop 0) <;> rintro ⟨⟩
  · intro key blockData h
    rw [Indexed.scanLoop_eq key blockData (Nat.zero_le _) (Nat.le_add_left _ 0)] at h
    revert h
    cases Reader.scanBlock key blockData.length (blockData.drop 0) <;> rintro ⟨⟩
  · obtain ⟨s', it', hnext, -⟩ := @Indexed.next_ok σ read indexEntries s it
    exact ⟨_, hnext⟩
  · obtain ⟨s₁, it₁, hload, -⟩ := @Indexed.loadBlock_ok σ read indexEntries s
      { it with blockIdx := 0 }
    obtain ⟨k, hk⟩ := @Indexed.exists_nexts_invalid σ read indexEntries s₁ it₁
    refine ⟨s₁, it₁, hload, k, fun m hm => ?_⟩
    obtain ⟨s₂, it₂, hnexts, hinvalid⟩ := hk m hm
    exact ⟨s₂, it₂, hnexts, by rw [Indexed.Iterator.isValid, hinvalid, Bool.false_and]⟩

end Stratum.Sstable
