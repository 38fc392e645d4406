import Mathlib.Data.List.Nodup
import Stratum.Sstable.Cache
import Stratum.Sstable.RoundTrip

/-!
# Iterators, and readers with a cache

`Reader.readBlockVia` is `readBlock` with the block cache, if the reader has one: the cache is asked
first, and a block that was read from the file is put there. The iterator is modelled field by
field, with its position in the index and in the block; `Seek`, `SeekToFirst` and `Next` move it.

A cache is used by the readers of all files. `Reader.Shared` says which caches a reader may meet:
those with **any history of calls** in which the blocks under its own file number were put by
itself. Whatever such a cache holds,

* a block comes back as the file has it (`readBlockVia_eq`), so lookups do not depend on the cache;
* an iterator yields what `Reader.iterate` says (`yields_loadBlocks`, `yields_seek`), with the error
  that stopped it, if any.

`Config.round_trip` puts it together for a table that was written.
-/

namespace Stratum.Sstable

open ByteCodec Memtable Mvcc

/-! ### Readers with a cache -/

namespace Reader

variable (cfg : Config) (fileID : ℕ)

/-- `readBlock`, for the reader of the file `fileID`. -/
def readBlockVia (r : Reader) (cache : Option BlockCache) (h : BlockHandle) :
    Option BlockCache × Except TableErr Bytes :=
  match cache with
  | none => (none, r.readBlock cfg (fun _ => none) h)
  | some c =>
    match c.get fileID h.offset with
    | (c, some data) => (some c, .ok data)
    | (c, none) =>
      match r.readBlock cfg (fun _ => none) h with
      | .error e => (some c, .error e)
      | .ok blockData => (some (c.put fileID h.offset blockData), .ok blockData)

/-- `Reader.Get`, for the reader of the file `fileID`. -/
def getVia (r : Reader) (cache : Option BlockCache) (key : Bytes) :
    Option BlockCache × Except TableErr (Option (Option Bytes)) :=
  if r.bloom.mayContain cfg.sum128 key then
    match r.indexEntries[r.findBlockIndex key]? with
    | none => (cache, .ok none)
    | some ie =>
      match r.readBlockVia cfg fileID cache ie.handle with
      | (cache, .error e) => (cache, .error e)
      | (cache, .ok blockData) => (cache, scanBlock key blockData.length blockData)
  else (cache, .ok none)

/-- The caches that a reader may meet: none at all, or one with any history in which the blocks
under its own file number are blocks of its file. -/
def Shared (r : Reader) : Option BlockCache → Prop
  | none => True
  | some c => ∃ capacityBytes calls, c = BlockCache.ofCalls capacityBytes calls ∧
      ∀ offset data, .put fileID offset data ∈ calls → ∃ ie ∈ r.indexEntries,
        ie.handle.offset = offset ∧ r.readBlock cfg (fun _ => none) ie.handle = .ok data

/-- Blocks at one offset are one block. -/
def OffsetsApart (r : Reader) : Prop :=
  ∀ ie ∈ r.indexEntries, ∀ ie' ∈ r.indexEntries, ie.handle.offset = ie'.handle.offset → ie = ie'

variable {cfg fileID} {r : Reader} {cache : Option BlockCache}

/-- The cache after a call that puts no wrong block under the number of the file. -/
private theorem Shared.after {c : BlockCache} (h : r.Shared cfg fileID (some c))
    {a : BlockCache.Call} (ha : ∀ offset data, a = .put fileID offset data →
      ∃ ie ∈ r.indexEntries, ie.handle.offset = offset ∧
        r.readBlock cfg (fun _ => none) ie.handle = .ok data) :
    r.Shared cfg fileID (some (c.after a)) := by
  obtain ⟨capacityBytes, calls, rfl, hcalls⟩ := h
  refine ⟨capacityBytes, calls ++ [a], ?_, fun offset data hput => ?_⟩
  · simp only [BlockCache.ofCalls, List.foldl_append, List.foldl_cons, List.foldl_nil]
  · rcases List.mem_append.1 hput with hput | hput
    · exact hcalls offset data hput
    · exact ha offset data (List.mem_singleton.1 hput).symm

/-- **The cache does not show** in what is read, and stays one that the reader may meet. -/
theorem readBlockVia_eq (hapart : r.OffsetsApart) (h : r.Shared cfg fileID cache) {ie : IndexEntry}
    (hie : ie ∈ r.indexEntries) :
    (r.readBlockVia cfg fileID cache ie.handle).2 = r.readBlock cfg (fun _ => none) ie.handle ∧
      r.Shared cfg fileID (r.readBlockVia cfg fileID cache ie.handle).1 := by
  rcases cache with _ | c
  · exact ⟨rfl, trivial⟩
  · have hget : r.Shared cfg fileID (some (c.get fileID ie.handle.offset).1) :=
      h.after (a := .get fileID ie.handle.offset) (by rintro _ _ ⟨⟩)
    rw [readBlockVia]
    rcases hc : c.get fileID ie.handle.offset with ⟨c', _ | data⟩
    · rw [hc] at hget
      rcases hread : r.readBlock cfg (fun _ => none) ie.handle with e | blockData
      · exact ⟨rfl, hget⟩
      · refine ⟨rfl, hget.after (a := .put fileID ie.handle.offset blockData) ?_⟩
        rintro offset data ⟨⟩
        exact ⟨ie, hie, rfl, hread⟩
    · rw [hc] at hget
      refine ⟨?_, hget⟩
      -- what the cache had is a block of the file
      obtain ⟨capacityBytes, calls, rfl, hcalls⟩ := h
      obtain ⟨ie', hie', hoffset, hread⟩ :=
        hcalls _ _ (BlockCache.put_of_get (by rw [hc]))
      rw [hapart ie hie ie' hie' hoffset.symm]
      exact hread.symm

/-- Lookups do not depend on the cache. -/
theorem getVia_eq (hapart : r.OffsetsApart) (h : r.Shared cfg fileID cache) (key : Bytes) :
    (r.getVia cfg fileID cache key).2 = r.get cfg (fun _ => none) key ∧
      r.Shared cfg fileID (r.getVia cfg fileID cache key).1 := by
  rw [getVia, get]
  split
  · rcases hidx : r.indexEntries[r.findBlockIndex key]? with _ | ie
    · exact ⟨rfl, h⟩
    · obtain ⟨hread, hshared⟩ := readBlockVia_eq hapart h (List.mem_of_getElem? hidx)
      simp only [← hread]
      rcases hvia : r.readBlockVia cfg fileID cache ie.handle with ⟨cache', e | blockData⟩ <;>
        rw [hvia] at hshared <;> exact ⟨rfl, hshared⟩
  · exact ⟨rfl, h⟩

end Reader

/-! ### The iterator -/

/-- `Iterator`; `rest` is `blockData[offset:]`, and an entry without a value is a tombstone. -/
structure Iterator where
  blockIdx : ℕ
  rest : Bytes
  err : Option TableErr
  current : Entry
  valid : Bool
deriving DecidableEq, Repr

namespace Iterator

/-- The iterator of `NewIterator`, before its call of `SeekToFirst`. -/
def new : Iterator := ⟨0, [], none, ([], none), false⟩

/-- `Iterator.Valid`. -/
def isValid (it : Iterator) : Bool := it.valid && it.err.isNone

/-- `parseCurrent`, where the block has bytes left. -/
def parseHere (it : Iterator) : Iterator :=
  match parseEntry it.rest with
  | none => { it with err := some .corrupt, valid := false }
  | some (e, rest) => { it with rest := rest, current := e, valid := true }

variable (cfg : Config) (fileID : ℕ) (r : Reader)

/-- `loadBlock`, when the index entries from `blockIdx` on are these. At the end of an empty block
`parseCurrent` goes on to the next one. -/
def loadBlocks : List IndexEntry → Option BlockCache → Iterator → Option BlockCache × Iterator
  | [], cache, it => (cache, { it with valid := false })
  | ie :: ies, cache, it =>
    match r.readBlockVia cfg fileID cache ie.handle with
    | (cache, .error e) => (cache, { it with err := some e, valid := false })
    | (cache, .ok data) =>
      if data = [] then
        loadBlocks ies cache { it with blockIdx := it.blockIdx + 1, rest := [], valid := false }
      else (cache, { it with rest := data, valid := false }.parseHere)

/-- `loadBlock`. -/
def loadBlock (cache : Option BlockCache) (it : Iterator) : Option BlockCache × Iterator :=
  loadBlocks cfg fileID r (r.indexEntries.drop it.blockIdx) cache it

/-- `Iterator.SeekToFirst`. -/
def seekToFirst (cache : Option BlockCache) (it : Iterator) : Option BlockCache × Iterator :=
  loadBlock cfg fileID r cache { it with blockIdx := 0 }

/-- `Iterator.Next`. -/
def next (cache : Option BlockCache) (it : Iterator) : Option BlockCache × Iterator :=
  if it.valid = false then (cache, it)
  else if it.rest = [] then loadBlock cfg fileID r cache { it with blockIdx := it.blockIdx + 1 }
  else (cache, it.parseHere)

/-- The blocks to come, with the current one. -/
def blocksLeft (it : Iterator) : ℕ :=
  if it.isValid then r.indexEntries.length - it.blockIdx + 1 else 0

variable {cfg fileID r} {it : Iterator} {cache : Option BlockCache}

@[simp] theorem blockIdx_parseHere (it : Iterator) : it.parseHere.blockIdx = it.blockIdx := by
  rw [parseHere]
  split <;> rfl

/-- An entry takes some bytes. -/
theorem length_lt_of_parseEntry {data rest : Bytes} {e : Entry}
    (h : parseEntry data = some (e, rest)) : rest.length < data.length := by
  simp only [parseEntry, Option.bind_eq_bind, Option.bind_eq_some_iff] at h
  obtain ⟨⟨a, data₁⟩, h₁, ⟨b, data₂⟩, h₂, ⟨c, data₃⟩, h₃, h⟩ := h
  dsimp only at h₂ h₃ h
  have hlen : 4 = a.length := (length_of_splitBytes h₁).symm
  rw [← append_of_splitBytes h₁, ← append_of_splitBytes h₂, ← append_of_splitBytes h₃]
  simp only [List.length_append]
  split at h
  · cases h
    omega
  · obtain ⟨⟨v, data₄⟩, h₄, h⟩ := Option.bind_eq_some_iff.1 h
    cases h
    have := congrArg List.length (append_of_splitBytes h₄)
    rw [List.length_append] at this
    dsimp only
    omega

/-- Where an iterator can be after a block was loaded. -/
theorem blockIdx_loadBlocks (ies : List IndexEntry) (cache : Option BlockCache) (it : Iterator)
    (h : (loadBlocks cfg fileID r ies cache it).2.isValid = true) :
    it.blockIdx ≤ (loadBlocks cfg fileID r ies cache it).2.blockIdx ∧
      (loadBlocks cfg fileID r ies cache it).2.blockIdx < it.blockIdx + ies.length := by
  induction ies generalizing cache it with
  | nil => simp [loadBlocks, isValid] at h
  | cons ie ies ih =>
    rw [loadBlocks] at h ⊢
    rcases hread : r.readBlockVia cfg fileID cache ie.handle with ⟨cache', e | data⟩
    · simp [hread, isValid] at h
    · simp only [hread] at h ⊢
      split at h
      · rename_i hdata
        rw [if_pos hdata]
        have := ih _ _ h
        simp only [List.length_cons] at this ⊢
        omega
      · rename_i hdata
        rw [if_neg hdata]
        simp

/-- **`Next` uses up something**: a block, bytes of the block, or the validity of the iterator. -/
theorem next_lt (h : it.isValid = true) :
    (blocksLeft r (next cfg fileID r cache it).2) < blocksLeft r it ∨
      blocksLeft r (next cfg fileID r cache it).2 = blocksLeft r it ∧
        (next cfg fileID r cache it).2.rest.length < it.rest.length := by
  have hvalid : it.valid = true := by
    rw [isValid, Bool.and_eq_true] at h
    exact h.1
  have hleft : blocksLeft r it = r.indexEntries.length - it.blockIdx + 1 := by
    rw [blocksLeft, if_pos h]
  by_cases hnext : (next cfg fileID r cache it).2.isValid = true
  · have hleft' : blocksLeft r (next cfg fileID r cache it).2
        = r.indexEntries.length - (next cfg fileID r cache it).2.blockIdx + 1 := by
      rw [blocksLeft, if_pos hnext]
    rw [hleft, hleft']
    rw [next, if_neg (by simp [hvalid])] at hnext ⊢
    split at hnext
    · rename_i hrest
      rw [if_pos hrest]
      have := blockIdx_loadBlocks _ _ _ hnext
      rw [List.length_drop] at this
      dsimp only at this
      left
      rw [loadBlock]
      dsimp only
      omega
    · rename_i hrest
      rw [if_neg hrest]
      right
      refine ⟨by rw [blockIdx_parseHere], ?_⟩
      simp only [parseHere] at hnext ⊢
      split at hnext
      · simp [isValid] at hnext
      · rename_i e rest hparse
        exact length_lt_of_parseEntry hparse
  · left
    rw [hleft, blocksLeft, if_neg hnext]
    omega

variable (cfg fileID r)

/-- The loop of `Iterator.Seek`. -/
def seekLoop (target : Bytes) (cache : Option BlockCache) (it : Iterator) :
    Option BlockCache × Iterator :=
  if _h : it.isValid = true then
    if compareKeys it.current.1 target ≠ .lt then (cache, it)
    else seekLoop target (next cfg fileID r cache it).1 (next cfg fileID r cache it).2
  else (cache, it)
termination_by (blocksLeft r it, it.rest.length)
decreasing_by
  exact Prod.lex_def.2 (next_lt _h)

/-- `Iterator.Seek`. -/
def seek (target : Bytes) (cache : Option BlockCache) (it : Iterator) :
    Option BlockCache × Iterator :=
  let (cache, it) :=
    loadBlock cfg fileID r cache { it with blockIdx := r.findBlockIndex target }
  seekLoop cfg fileID r target cache it

end Iterator

/-! ### What an iterator yields -/

namespace Reader

variable (cfg : Config) (fileID : ℕ)

/-- The error at which an iterator over these blocks stops, if there is one. -/
def iterateErr (r : Reader) : List IndexEntry → Option TableErr
  | [] => none
  | ie :: ies =>
    match r.readBlock cfg (fun _ => none) ie.handle with
    | .error e => some e
    | .ok data =>
      if (iterateBlock data.length data).2 then iterateErr r ies else some .corrupt

/-- The iterator is at the first of these entries and `Next` leads to the others, **whatever the
cache holds** when it is called; then the iterator is no longer valid, and `Err` is `err`. -/
def Yields (r : Reader) (err : Option TableErr) : List Entry → Iterator → Prop
  | [], it => it.isValid = false ∧ it.err = err
  | e :: es, it => it.isValid = true ∧ it.current = e ∧
      ∀ cache, r.Shared cfg fileID cache →
        Yields r err es (Iterator.next cfg fileID r cache it).2

variable {cfg fileID} {r : Reader} {cache : Option BlockCache} {err : Option TableErr}

theorem shared_loadBlocks (hapart : r.OffsetsApart) {ies : List IndexEntry}
    (hies : ∀ ie ∈ ies, ie ∈ r.indexEntries) (h : r.Shared cfg fileID cache) (it : Iterator) :
    r.Shared cfg fileID (Iterator.loadBlocks cfg fileID r ies cache it).1 := by
  induction ies generalizing cache it with
  | nil => exact h
  | cons ie ies ih =>
    have hshared := (readBlockVia_eq hapart h (hies ie (by simp))).2
    rw [Iterator.loadBlocks]
    rcases hread : r.readBlockVia cfg fileID cache ie.handle with ⟨cache', e | data⟩ <;>
      rw [hread] at hshared
    · exact hshared
    · dsimp only
      split
      · exact ih (fun ie' hie' => hies ie' (by simp [hie'])) hshared _
      · exact hshared

/-- `Next` leaves a cache that the reader may meet. -/
theorem shared_next (hapart : r.OffsetsApart) (h : r.Shared cfg fileID cache) (it : Iterator) :
    r.Shared cfg fileID (Iterator.next cfg fileID r cache it).1 := by
  rw [Iterator.next]
  split
  · exact h
  · split
    · exact shared_loadBlocks hapart (fun _ => List.mem_of_mem_drop) h _
    · exact h

/-- **Inside a block**: the entries that are left of it, and then what the next block yields. -/
private theorem yields_parseHere {tail : List Entry} {fuel : ℕ} {it : Iterator}
    (hne : it.rest ≠ []) (herr : it.err = none) (hfuel : it.rest.length ≤ fuel)
    (hnext : (iterateBlock fuel it.rest).2 = true → ∀ it' cache, it'.blockIdx = it.blockIdx + 1 →
      it'.err = none → r.Shared cfg fileID cache →
        r.Yields cfg fileID err tail (Iterator.loadBlock cfg fileID r cache it').2)
    (hstop : (iterateBlock fuel it.rest).2 = false → err = some .corrupt ∧ tail = []) :
    r.Yields cfg fileID err ((iterateBlock fuel it.rest).1 ++ tail) it.parseHere := by
  induction fuel generalizing it with
  | zero => exact absurd (List.length_eq_zero_iff.1 (Nat.le_zero.1 hfuel)) hne
  | succ fuel ih =>
    rw [iterateBlock, if_neg hne] at hnext hstop ⊢
    rw [Iterator.parseHere]
    rcases hparse : parseEntry it.rest with _ | ⟨e, rest⟩
    · rw [hparse] at hstop
      obtain ⟨rfl, rfl⟩ := hstop rfl
      exact ⟨rfl, rfl⟩
    · simp only [hparse] at hnext hstop ⊢
      have hlt := Iterator.length_lt_of_parseEntry hparse
      refine ⟨by simp [Iterator.isValid, herr], rfl, fun cache hcache => ?_⟩
      rw [Iterator.next, if_neg (by simp)]
      split
      · -- the block is at its end
        rename_i hrest
        have hdone : iterateBlock fuel rest = ([], true) := by
          obtain rfl : rest = [] := hrest
          cases fuel <;> rfl
        rw [hdone] at hnext ⊢
        exact hnext rfl _ cache rfl herr hcache
      · rename_i hrest
        exact ih hrest herr (by dsimp only; omega) hnext hstop

/-- **From a block on**, an iterator yields what `iterateBlocks` passes. -/
theorem yields_loadBlocks (hapart : r.OffsetsApart) {ies : List IndexEntry} {it : Iterator}
    (hies : r.indexEntries.drop it.blockIdx = ies) (herr : it.err = none)
    (h : r.Shared cfg fileID cache) :
    r.Yields cfg fileID (r.iterateErr cfg ies) (r.iterateBlocks cfg (fun _ => none) ies)
      (Iterator.loadBlocks cfg fileID r ies cache it).2 := by
  induction ies generalizing cache it with
  | nil => exact ⟨rfl, herr⟩
  | cons ie ies ih =>
    have hmem : ie ∈ r.indexEntries := List.mem_of_mem_drop (by rw [hies]; simp)
    have hdrop : r.indexEntries.drop (it.blockIdx + 1) = ies := by
      rw [← List.drop_drop, hies]
      rfl
    obtain ⟨hread, hshared⟩ := readBlockVia_eq hapart h hmem
    rw [Iterator.loadBlocks, iterateErr, iterateBlocks, ← hread]
    rcases hvia : r.readBlockVia cfg fileID cache ie.handle with ⟨cache', e | data⟩
    · exact ⟨by simp [Iterator.isValid], rfl⟩
    · rw [hvia] at hshared
      dsimp only
      by_cases hdata : data = []
      · subst hdata
        exact ih hdrop herr hshared
      · rw [if_neg hdata]
        refine @yields_parseHere cfg fileID r _ _ _ { it with rest := data, valid := false } hdata
          herr le_rfl ?_ ?_
        · intro hcomplete it' cache₁ hidx herr' hcache₁
          rw [if_pos hcomplete, if_pos hcomplete, Iterator.loadBlock, hidx, hdrop]
          exact ih (by rw [hidx, hdrop]) herr' hcache₁
        · intro hcomplete
          rw [if_neg (by rw [hcomplete]; simp), if_neg (by rw [hcomplete]; simp)]
          exact ⟨rfl, rfl⟩

/-- **`SeekToFirst`** leads to all entries that an iterator passes. -/
theorem yields_seekToFirst (hapart : r.OffsetsApart) {it : Iterator} (herr : it.err = none)
    (h : r.Shared cfg fileID cache) :
    r.Yields cfg fileID (r.iterateErr cfg r.indexEntries) (r.iterate cfg fun _ => none)
      (Iterator.seekToFirst cfg fileID r cache it).2 :=
  yields_loadBlocks hapart rfl herr h

/-- The loop of `Seek` skips the entries below the target. -/
private theorem yields_seekLoop (hapart : r.OffsetsApart) {target : Bytes} {es : List Entry}
    {it : Iterator} (hit : r.Yields cfg fileID err es it) (h : r.Shared cfg fileID cache) :
    r.Yields cfg fileID err (es.dropWhile fun e => compareKeys e.1 target = .lt)
      (Iterator.seekLoop cfg fileID r target cache it).2 := by
  induction es generalizing cache it with
  | nil =>
    rw [Iterator.seekLoop, dif_neg (by rw [hit.1]; simp)]
    exact hit
  | cons e es ih =>
    obtain ⟨hvalid, hcur, hnext⟩ := hit
    rw [Iterator.seekLoop, dif_pos hvalid, hcur]
    by_cases hlt : compareKeys e.1 target = .lt
    · rw [if_neg (by simpa using hlt), List.dropWhile_cons_of_pos (by simpa using hlt)]
      exact ih (hnext cache h) (shared_next hapart h it)
    · rw [if_pos hlt, List.dropWhile_cons_of_neg (by simpa using hlt)]
      exact ⟨hvalid, hcur, hnext⟩

/-- **`Seek`** leads to the entries from the block on that the search finds, without those below the
target at its beginning. -/
theorem yields_seek (hapart : r.OffsetsApart) {it : Iterator} (herr : it.err = none)
    (h : r.Shared cfg fileID cache) (target : Bytes) :
    r.Yields cfg fileID
      (r.iterateErr cfg (r.indexEntries.drop (r.findBlockIndex target)))
      ((r.iterateBlocks cfg (fun _ => none)
        (r.indexEntries.drop (r.findBlockIndex target))).dropWhile
          fun e => compareKeys e.1 target = .lt)
      (Iterator.seek cfg fileID r target cache it).2 := by
  have hload := @yields_loadBlocks cfg fileID r cache hapart _
    { it with blockIdx := r.findBlockIndex target } rfl herr h
  exact yields_seekLoop hapart hload
    (shared_loadBlocks hapart (fun _ => List.mem_of_mem_drop) h _)

end Reader

/-! ### Tables that were written -/

/-- The largest file: an offset is an `int64`. -/
def maxFileSize : ℕ := 2 ^ 63 - 1

/-- The file after `Add` of each entry and `Close`, when none of them fails; a write beyond the
largest file does. -/
def Config.create (cfg : Config) (es : List Entry) : Option Bytes :=
  if (cfg.write es).length ≤ maxFileSize then some (cfg.write es) else none

variable {cfg : Config} {es : List Entry}

/-- Tables of less than `2 ^ 60` bytes are not too large for a file. -/
theorem Config.create_eq (h : totalLen es < 2 ^ 60) : cfg.create es = some (cfg.write es) := by
  have hlen := @length_write_le cfg es
  rw [Config.create, if_pos]
  rw [maxFileSize]
  omega

private theorem blockBytes_length_pos (g : List Entry) : 0 < (cfg.blockBytes g).length := by
  rw [Config.blockBytes, Config.diskBlock]
  split <;> simp

private theorem indexOf_offsets (off : ℕ) (gs : List (List Entry)) :
    (∀ ie ∈ cfg.indexOf off gs, off ≤ ie.handle.offset) ∧
      (cfg.indexOf off gs).Pairwise fun ie ie' => ie.handle.offset < ie'.handle.offset := by
  induction gs generalizing off with
  | nil => exact ⟨fun _ h => absurd h List.not_mem_nil, .nil⟩
  | cons g gs ih =>
    obtain ⟨hle, hpair⟩ := ih (off + (cfg.blockBytes g).length)
    have hpos := @blockBytes_length_pos cfg g
    rw [Config.indexOf]
    refine ⟨fun ie hie => ?_, List.pairwise_cons.2 ⟨fun ie hie => ?_, hpair⟩⟩
    · rcases List.mem_cons.1 hie with rfl | hie
      · exact le_rfl
      · exact (Nat.le_add_right _ _).trans (hle ie hie)
    · have := hle ie hie
      dsimp only
      omega

theorem offsetsApart_readerOf (es : List Entry) : (cfg.readerOf es).OffsetsApart := by
  have hpair := (@indexOf_offsets cfg 0 (cfg.blocks es)).2
  have hnodup : ((cfg.indexOf 0 (cfg.blocks es)).map fun ie => ie.handle.offset).Nodup :=
    (List.pairwise_map.2 hpair).imp fun h => Nat.ne_of_lt h
  intro ie hie ie' hie' hoff
  exact List.inj_on_of_nodup_map hnodup hie hie' hoff

/-- An iterator over a table that was written meets no error. -/
theorem iterateErr_readerOf (hfit : cfg.BlocksFit es) {pre post : List (List Entry)}
    (hsplit : cfg.blocks es = pre ++ post) :
    (cfg.readerOf es).iterateErr cfg (cfg.indexOf (pre.flatMap cfg.blockBytes).length post)
      = none := by
  induction post generalizing pre with
  | nil => rfl
  | cons g post ih =>
    rw [indexOf_split, Reader.iterateErr]
    simp only [readBlock_write hfit hsplit, iterateBlock_of_split hfit.entryFits hsplit, if_true]
    exact @ih (pre ++ [g]) (by rw [hsplit]; simp)

/-- From the block on that the search finds, the entries that are not below the key are those of the
whole table. -/
private theorem dropWhile_found (hsorted : EntriesSorted es) {key : Bytes}
    {pre post : List (List Entry)} (hsplit : cfg.blocks es = pre ++ post)
    (hpre : ∀ g ∈ pre, compareKeys (lastKey g) key = .lt) :
    (post.flatten.dropWhile fun e => compareKeys e.1 key = .lt)
      = es.filter fun e => compareKeys e.1 key ≠ .lt := by
  have hes : es = pre.flatten ++ post.flatten := by
    rw [← List.flatten_append, ← hsplit, flatten_blocks]
  have hsorted' := hsorted
  rw [hes] at hsorted'
  obtain ⟨hspre, hspost, -⟩ := List.pairwise_append.1 hsorted'
  have hnone : (pre.flatten.filter fun e => compareKeys e.1 key ≠ .lt) = [] := by
    rw [List.filter_eq_nil_iff]
    intro e he
    obtain ⟨g, hg, heg⟩ := List.mem_flatten.1 he
    have hsg : EntriesSorted g := List.Pairwise.sublist (List.sublist_flatten_of_mem hg) hspre
    simpa using compareKeys_lt_of_not_lt_of_lt (not_lastKey_lt hsg heg) (hpre g hg)
  rw [EntriesSorted.dropWhile_eq_filter hspost, hes, List.filter_append, hnone, List.nil_append]

/-- A table whose keys fit their length fields and that was written without an error can be
opened. -/
theorem openReader_create_of_keys {file : Bytes} (hkeys : ∀ e ∈ es, e.1.length < 256 ^ 4)
    (hfile : cfg.create es = some file) : openReader file = .ok (cfg.readerOf es) := by
  rw [Config.create] at hfile
  split at hfile
  · rename_i hlen
    cases hfile
    refine openReader_write ?_ hkeys
    rw [maxFileSize] at hlen
    omega
  · cases hfile

theorem openReader_create {file : Bytes} (hfit : cfg.BlocksFit es)
    (hfile : cfg.create es = some file) : openReader file = .ok (cfg.readerOf es) :=
  openReader_create_of_keys (fun e he => (hfit.entryFits e he).key_lt) hfile

/-- **Lookups in a table**, through any cache that its reader may meet. -/
theorem getVia_readerOf (hsorted : EntriesSorted es) (hfit : cfg.BlocksFit es) {fileID : ℕ}
    {cache : Option BlockCache} (hcache : (cfg.readerOf es).Shared cfg fileID cache) (key : Bytes) :
    ((cfg.readerOf es).getVia cfg fileID cache key).2 = .ok (es.lookup key) ∧
      (cfg.readerOf es).Shared cfg fileID ((cfg.readerOf es).getVia cfg fileID cache key).1 := by
  obtain ⟨hget, hshared⟩ := Reader.getVia_eq (offsetsApart_readerOf es) hcache key
  exact ⟨hget.trans (get_readerOf hsorted hfit key), hshared⟩

/-- **`SeekToFirst` in a table** leads to all entries. -/
theorem yields_seekToFirst_readerOf (hfit : cfg.BlocksFit es) {fileID : ℕ}
    {cache : Option BlockCache} (hcache : (cfg.readerOf es).Shared cfg fileID cache)
    {it : Iterator} (herr : it.err = none) :
    (cfg.readerOf es).Yields cfg fileID none es
      (it.seekToFirst cfg fileID (cfg.readerOf es) cache).2 := by
  have hyields := Reader.yields_seekToFirst (offsetsApart_readerOf es) herr hcache
  have hnone : (cfg.readerOf es).iterateErr cfg (cfg.readerOf es).indexEntries = none :=
    @iterateErr_readerOf cfg es hfit [] (cfg.blocks es) rfl
  rwa [iterate_readerOf hfit, hnone] at hyields

/-- **`Seek` in a table** leads to the entries that are not below the target. -/
theorem yields_seek_readerOf (hsorted : EntriesSorted es) (hfit : cfg.BlocksFit es) {fileID : ℕ}
    {cache : Option BlockCache} (hcache : (cfg.readerOf es).Shared cfg fileID cache)
    {it : Iterator} (herr : it.err = none) (target : Bytes) :
    (cfg.readerOf es).Yields cfg fileID none
      (es.filter fun e => compareKeys e.1 target ≠ .lt)
      (it.seek cfg fileID (cfg.readerOf es) target cache).2 := by
  have hyields := Reader.yields_seek (offsetsApart_readerOf es) herr hcache target
  obtain ⟨pre, post, hsplit, hidx, hpre, -⟩ := @findBlockIndex_readerOf cfg es hsorted target
  rwa [hidx, drop_indexEntries_readerOf hsplit, iterateErr_readerOf hfit hsplit,
    iterateBlocks_readerOf hfit hsplit, dropWhile_found hsorted hsplit hpre]
    at hyields

/-- **Round trip.** A table of sorted entries whose blocks fit the buffer of the reader can be
opened. With any cache that the reader may meet, or none, lookups in it are lookups in the entries;
`SeekToFirst` and `Next` yield all entries, `Seek` and `Next` those that are not below the target,
and no error. -/
theorem Config.round_trip {file : Bytes} (hsorted : EntriesSorted es) (hfit : cfg.BlocksFit es)
    (hfile : cfg.create es = some file) :
    ∃ r, openReader file = .ok r ∧ ∀ fileID cache, r.Shared cfg fileID cache →
      (∀ key, (r.getVia cfg fileID cache key).2 = .ok (es.lookup key) ∧
        r.Shared cfg fileID (r.getVia cfg fileID cache key).1) ∧
      ∀ it : Iterator, it.err = none →
        r.Yields cfg fileID none es (it.seekToFirst cfg fileID r cache).2 ∧
        ∀ target, r.Yields cfg fileID none (es.filter fun e => compareKeys e.1 target ≠ .lt)
          (it.seek cfg fileID r target cache).2 := by
  refine ⟨cfg.readerOf es, openReader_create hfit hfile, fun fileID cache hcache => ?_⟩
  refine ⟨getVia_readerOf hsorted hfit hcache, fun it herr => ⟨?_, fun target => ?_⟩⟩
  · exact yields_seekToFirst_readerOf hfit hcache herr
  · exact yields_seek_readerOf hsorted hfit hcache herr target

/-- Two entries, a key with an empty value and a tombstone, through a new cache. -/
theorem Config.round_trip_two :
    ∃ file r, Config.plain.create [([1], some []), ([2], none)] = some file ∧
      openReader file = .ok r ∧
      (r.getVia Config.plain 7 (some (newBlockCache 4096)) [1]).2 = .ok (some (some [])) ∧
      (r.getVia Config.plain 7 (some (newBlockCache 4096)) [2]).2 = .ok (some none) ∧
      (r.getVia Config.plain 7 (some (newBlockCache 4096)) [3]).2 = .ok none ∧
      r.Yields Config.plain 7 none [([2], none)]
        (Iterator.seek Config.plain 7 r [2] (some (newBlockCache 4096)) .new).2 := by
  have hcreate := @Config.create_eq Config.plain [([1], some []), ([2], none)] (by decide)
  obtain ⟨r, hopen, hall⟩ := Config.round_trip (by unfold EntriesSorted; decide)
    (by unfold Config.BlocksFit; decide) hcreate
  obtain ⟨hget, hit⟩ := hall 7 (some (newBlockCache 4096)) ⟨4096, [], rfl, by simp⟩
  exact ⟨_, r, hcreate, hopen, (hget [1]).1, (hget [2]).1, (hget [3]).1, (hit .new rfl).2 [2]⟩

end Stratum.Sstable
