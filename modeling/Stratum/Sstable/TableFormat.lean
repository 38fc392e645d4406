import Stratum.Memtable.MemTable

/-!
# What the tree uses of a table file

The tree writes a sorted list of entries to a file, opens a reader on it, looks keys up through
the reader and walks over the entries. `TableFormat` is that interface, without the bytes behind
it; `Readable` is the contract between the two sides, for one list of entries: the file can be
opened and gives the entries back, one by one and all together.
-/

namespace Stratum.Sstable

open Mvcc Memtable

/-- A file format for sorted tables, with the outcomes its reader has. -/
structure TableFormat where
  File : Type
  Reader : Type
  Err : Type
  /-- the file as `NewWriter` leaves it, before its first block is written -/
  created : File
  /-- what the file holds after `Add` of each entry and `Close` -/
  write : List Entry → File
  /-- the number of bytes of a file -/
  size : File → ℕ
  /-- `OpenReader` -/
  openReader : File → Except Err Reader
  /-- `Reader.Get` -/
  get : Reader → Bytes → Except Err (Option (Option Bytes))
  /-- the entries an iterator passes until it is no longer valid -/
  iterate : Reader → List Entry

/-- The keys are strictly increasing. -/
def EntriesSorted (es : List Entry) : Prop :=
  es.Pairwise fun a b => compareKeys a.1 b.1 = .lt

/-- In a sorted list the entries below a key are the first ones. -/
theorem EntriesSorted.dropWhile_eq_filter {es : List Entry} (hsorted : EntriesSorted es)
    (key : Bytes) :
    (es.dropWhile fun e => compareKeys e.1 key = .lt)
      = es.filter fun e => compareKeys e.1 key ≠ .lt := by
  induction es with
  | nil => rfl
  | cons e es ih =>
    obtain ⟨hhead, htail⟩ := List.pairwise_cons.1 hsorted
    by_cases he : compareKeys e.1 key = .lt
    · rw [List.dropWhile_cons_of_pos (by simpa using he),
        List.filter_cons_of_neg (by simpa using he), ih htail]
    · rw [List.dropWhile_cons_of_neg (by simpa using he), eq_comm, List.filter_eq_self]
      intro e' he'
      rcases List.mem_cons.1 he' with rfl | he'
      · simpa using he
      · simpa using compareKeys_not_lt_of_not_lt he (hhead e' he')

/-- A memory table yields its entries in order. -/
theorem entriesSorted_entries (mt : MemTable) : EntriesSorted mt.entries :=
  List.pairwise_map.mpr mt.sl.sorted

/-- The entries survive being written to a file. -/
structure TableFormat.Readable (fmt : TableFormat) (es : List Entry) (r : fmt.Reader) : Prop where
  opens : fmt.openReader (fmt.write es) = .ok r
  get_eq : ∀ key, fmt.get r key = .ok (es.lookup key)
  iterate_eq : fmt.iterate r = es

/-- What an iterator over the file of these entries passes are the entries from the first on: all
of them, or those before an error. -/
def TableFormat.Passes (fmt : TableFormat) (es : List Entry) : Prop :=
  ∀ r, fmt.openReader (fmt.write es) = .ok r → fmt.iterate r <+: es

end Stratum.Sstable
