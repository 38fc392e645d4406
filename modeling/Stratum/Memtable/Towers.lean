import Stratum.Lib.Linked
import Stratum.Memtable.MemTable

/-!
# The skip list with its towers

`Towers` is the skip list as it lies in memory: nodes with their forward pointers, one for each
level of the tower, and a head node with a pointer for every level. A pointer is the address of a
node. Every access to `forward[i]` and `update[i]` **may fail**, as an index out of range does; what
a call returns is `none` then.

`Rep t ns` says what memory looks like when the nodes `ns` are the bottom level: the chain of level
`i` is what `ns` has of towers higher than `i`. The descent is `Rep.descent`: **wherever a level is
entered**, it is left behind the last node that is smaller than the key, and these nodes are what
`Put` keeps in `update`.
-/

namespace Stratum.Memtable

open Mvcc

/-- `MaxLevel`. -/
def maxLevel : ℕ := 16

/-- The address of a node. -/
abbrev Ptr := ℕ

/-- `node`. -/
structure TowerNode where
  key : Bytes
  value : Option Bytes
  forward : List (Option Ptr)
deriving DecidableEq, Repr

/-- `SkipList`: the memory, the next free address, and the fields `level`, `size` and `memSize`. -/
structure Towers where
  nodes : Ptr → TowerNode
  free : Ptr
  level : ℕ
  size : ℤ
  memSize : ℤ

/-- Assign to an index, which must be in range. -/
def setAt {α : Type} (l : List α) (i : ℕ) (a : α) : Option (List α) :=
  if i < l.length then some (l.set i a) else none

/-- The loop of `randomLevel`; the draw at a level is whether `rng.Float64() < Probability`. -/
def climb (draws : ℕ → Bool) : ℕ → ℕ → ℕ
  | 0, level => level
  | n + 1, level => if draws level then climb draws n (level + 1) else level

/-- `randomLevel`. -/
def randomLevel (draws : ℕ → Bool) : ℕ := climb draws (maxLevel - 1) 1

namespace Towers

/-- The head node has the first address. -/
def head : Ptr := 0

/-- `NewSkipList`. -/
def new : Towers where
  nodes p := ⟨[], none, if p = head then List.replicate maxLevel none else []⟩
  free := 1
  level := 0
  size := 0
  memSize := 0

variable (t : Towers)

/-- The number of forward pointers. -/
def height (p : Ptr) : ℕ := (t.nodes p).forward.length

/-- `current.forward[i]`. -/
def read (i : ℕ) (p : Ptr) : Option (Option Ptr) := (t.nodes p).forward[i]?

/-- The test of the loops: the key of the node is smaller. -/
def below (key : Bytes) (p : Ptr) : Bool := decide (compareKeys (t.nodes p).key key = .lt)

/-- The inner loop at a level. -/
def advance (key : Bytes) (i : ℕ) (current : Ptr) : Option Ptr :=
  Linked.walk (t.read i) (t.below key) t.free current

/-- The loops of `Get` and `Seek`, from the level below the given one down. -/
def descend (key : Bytes) : ℕ → Ptr → Option Ptr
  | 0, current => some current
  | i + 1, current => (t.advance key i current).bind (descend key i)

/-- The loops of `Put`, which keep where they went down. -/
def descendUpdate (key : Bytes) :
    ℕ → Ptr → List (Option Ptr) → Option (Ptr × List (Option Ptr))
  | 0, current, update => some (current, update)
  | i + 1, current, update =>
    (t.advance key i current).bind fun current =>
      (setAt update i (some current)).bind fun update => descendUpdate key i current update

/-- The node that the loops lead to, if it has the key. -/
def found (key : Bytes) (current : Option Ptr) : Option Ptr :=
  current.filter fun p => decide ((t.nodes p).key = key)

/-- `SkipList.Get`. -/
def get (key : Bytes) : Option (Option (Option Bytes)) :=
  (t.descend key t.level head).bind fun current =>
    (t.read 0 current).map fun current => (t.found key current).map fun p => (t.nodes p).value

/-- The key is there: the value is replaced. -/
def overwrite (p : Ptr) (value : Option Bytes) : Towers :=
  { t with
    nodes := Function.update t.nodes p { t.nodes p with value := value }
    memSize := t.memSize + (((value.getD []).length : ℤ) - ((t.nodes p).value.getD []).length) }

/-- The levels from `i` on that did not exist: they start at the head. -/
def raise : ℕ → ℕ → List (Option Ptr) → Option (List (Option Ptr))
  | 0, _, update => some update
  | n + 1, i, update => (setAt update i (some head)).bind (raise n (i + 1))

/-- The new node is linked at the levels from `i` on. -/
def link (new : Ptr) (update : List (Option Ptr)) :
    ℕ → ℕ → (Ptr → TowerNode) → Option (Ptr → TowerNode)
  | 0, _, nodes => some nodes
  | n + 1, i, nodes =>
    (update[i]?.join).bind fun u =>
      (nodes u).forward[i]?.bind fun next =>
        (setAt (nodes new).forward i next).bind fun forward =>
          let nodes := Function.update nodes new { nodes new with forward := forward }
          (setAt (nodes u).forward i (some new)).bind fun forward =>
            link new update n (i + 1) (Function.update nodes u { nodes u with forward := forward })

/-- The memory with a new node of this height, which is not linked yet. -/
def allocate (key : Bytes) (value : Option Bytes) (level : ℕ) : Ptr → TowerNode :=
  Function.update t.nodes t.free ⟨key, value, List.replicate level none⟩

/-- The key is not there: a node of this height is linked. -/
def insert (update : List (Option Ptr)) (key : Bytes) (value : Option Bytes) (level : ℕ) :
    Option Towers :=
  (raise (level - t.level) t.level update).bind fun update =>
    (link t.free update level 0 (t.allocate key value level)).map fun nodes =>
      { nodes := nodes
        free := t.free + 1
        level := max level t.level
        size := t.size + 1
        memSize := t.memSize + (32 + key.length + (value.getD []).length + 8 * level) }

/-- `SkipList.Put`. -/
def put (key : Bytes) (value : Option Bytes) (draws : ℕ → Bool) : Option Towers :=
  (t.descendUpdate key t.level head (List.replicate maxLevel none)).bind fun r =>
    (t.read 0 r.1).bind fun current =>
      match t.found key current with
      | some p => some (t.overwrite p value)
      | none => t.insert r.2 key value (randomLevel draws)

/-- `SkipList.Delete`. -/
def delete (key : Bytes) (draws : ℕ → Bool) : Option Towers := t.put key none draws

/-- `SkipListIterator.SeekToFirst`: where the iterator stands then. -/
def seekToFirst : Option (Option Ptr) := t.read 0 head

/-- `SkipListIterator.Seek`. -/
def seek (target : Bytes) : Option (Option Ptr) :=
  (t.descend target t.level head).bind fun current => t.read 0 current

/-- `Key`, `Value` and `Next` until the iterator is no longer valid. -/
def iterate (fuel : ℕ) (current : Option Ptr) : Option (List Entry) :=
  (Linked.collect (t.read 0) fuel current).map fun ps =>
    ps.map fun p => ((t.nodes p).key, (t.nodes p).value)

/-- The nodes of a level. -/
def levelNodes (i : ℕ) : Option (List Ptr) :=
  (t.read i head).bind (Linked.collect (t.read i) t.free)

end Towers

/-! ### Heights -/

private theorem le_climb (draws : ℕ → Bool) (n level : ℕ) :
    level ≤ climb draws n level ∧ climb draws n level ≤ level + n := by
  induction n generalizing level with
  | zero => exact ⟨le_rfl, le_rfl⟩
  | succ n ih =>
    rw [climb]
    split
    · have := ih (level + 1)
      omega
    · omega

private theorem climb_lt (n level : ℕ) {height : ℕ} (h₁ : level ≤ height)
    (h₂ : height ≤ level + n) : climb (fun l => decide (l < height)) n level = height := by
  induction n generalizing level with
  | zero => exact le_antisymm h₁ h₂
  | succ n ih =>
    rw [climb]
    split
    · rename_i hlt
      exact ih (level + 1) (of_decide_eq_true hlt) (by omega)
    · rename_i hge
      have hge : ¬ level < height := by simpa using hge
      omega

/-- `randomLevel` yields **every height** from `1` to `MaxLevel`, and no other. -/
theorem exists_randomLevel_iff {height : ℕ} :
    (∃ draws, randomLevel draws = height) ↔ 1 ≤ height ∧ height ≤ maxLevel := by
  constructor
  · rintro ⟨draws, rfl⟩
    exact le_climb draws (maxLevel - 1) 1
  · rintro ⟨h₁, h₂⟩
    exact ⟨_, climb_lt (maxLevel - 1) 1 h₁ h₂⟩

/-! ### The list of nodes, cut at a key -/

/-- In a sorted list the elements below a bound are the first ones. -/
theorem takeWhile_eq_filter {α : Type*} {below : α → Bool} {l : List α}
    (h : l.Pairwise fun a b => below b = true → below a = true) :
    l.takeWhile below = l.filter below := by
  induction l with
  | nil => rfl
  | cons a l ih =>
    obtain ⟨ha, hl⟩ := List.pairwise_cons.mp h
    by_cases hb : below a = true
    · rw [List.takeWhile_cons_of_pos hb, List.filter_cons_of_pos hb, ih hl]
    · have hnil : l.filter below = [] :=
        List.filter_eq_nil_iff.mpr fun b hbl hbelow => hb (ha b hbl hbelow)
      rw [List.takeWhile_cons_of_neg hb, List.filter_cons_of_neg hb, hnil]

private theorem getLastD_append_cons {α : Type*} (l r : List α) (a b : α) :
    (l ++ a :: r).getLastD b = r.getLastD a := by
  induction l generalizing b with
  | nil => exact List.getLastD_cons
  | cons c l ih => exact List.getLastD_cons.trans (ih c)

theorem getNode_eq (key : Bytes) (ms : List Node) :
    getNode key ms = ((ms.dropWhile fun m => compareKeys m.key key = .lt).head?.filter
      fun m => decide (m.key = key)).map Node.value := by
  induction ms with
  | nil => rfl
  | cons m ms ih =>
    rw [getNode]
    by_cases hlt : compareKeys m.key key = .lt
    · simp [hlt, ih]
    · by_cases heq : m.key = key
      · simp [heq, Option.filter]
      · simp [hlt, heq, Option.filter]

/-- The key is not there. -/
theorem insertNode_of_not_found {n : Node} {ms : List Node}
    (h : (ms.dropWhile fun m => compareKeys m.key n.key = .lt).head?.filter
      (fun m => decide (m.key = n.key)) = none) :
    insertNode n ms = (ms.takeWhile fun m => compareKeys m.key n.key = .lt) ++
      n :: ms.dropWhile fun m => compareKeys m.key n.key = .lt := by
  induction ms with
  | nil => rfl
  | cons m ms ih =>
    rw [insertNode]
    by_cases hlt : compareKeys m.key n.key = .lt
    · simp only [hlt, if_true, decide_true, List.takeWhile_cons_of_pos,
        List.dropWhile_cons_of_pos] at h ⊢
      rw [ih h]
      rfl
    · have hne : m.key ≠ n.key := by
        rintro heq
        simp [heq, Option.filter] at h
      simp [hlt, hne]

/-- The key is there. -/
theorem insertNode_of_found {n m : Node} {ms rest : List Node}
    (h : (ms.dropWhile fun m => compareKeys m.key n.key = .lt) = m :: rest)
    (hkey : m.key = n.key) :
    insertNode n ms = (ms.takeWhile fun m => compareKeys m.key n.key = .lt) ++
      { m with value := n.value } :: rest := by
  induction ms with
  | nil => simp at h
  | cons a ms ih =>
    rw [insertNode]
    by_cases hlt : compareKeys a.key n.key = .lt
    · simp only [hlt, if_true, decide_true, List.takeWhile_cons_of_pos,
        List.dropWhile_cons_of_pos] at h ⊢
      rw [ih h]
      rfl
    · rw [List.dropWhile_cons_of_neg (by simpa using hlt)] at h
      obtain ⟨rfl, rfl⟩ := List.cons.inj h
      simp [hkey]

/-! ### The nodes in memory -/

namespace Towers

variable {t t' : Towers} {ns : List Ptr} {key : Bytes} {value : Option Bytes} {i n level : ℕ}
  {c p : Ptr} {update update' : List (Option Ptr)}

/-- The nodes of the bottom level that reach above level `i`. -/
abbrev above (t : Towers) (ns : List Ptr) (i : ℕ) : List Ptr :=
  ns.filter fun p => decide (i < t.height p)

/-- **The representation**: the nodes `ns` are the bottom level. -/
structure Rep (t : Towers) (ns : List Ptr) : Prop where
  chain : ∀ i < maxLevel, Linked.Chain (t.read i) (some head) (head :: t.above ns i)
  sorted : ns.Pairwise fun p q => compareKeys (t.nodes p).key (t.nodes q).key = .lt
  head_notMem : head ∉ ns
  height_head : t.height head = maxLevel
  height_pos : ∀ p ∈ ns, 0 < t.height p
  height_le : ∀ p ∈ ns, t.height p ≤ t.level
  level_le : t.level ≤ maxLevel
  lt_free : ∀ p ∈ ns, p < t.free
  free_eq : t.free = ns.length + 1

theorem rep_new : new.Rep [] where
  chain i hi := by
    refine .cons (s := none) ?_ .nil
    simp [read, new, hi]
  sorted := .nil
  head_notMem := by simp
  height_head := by simp [height, new]
  height_pos := by simp
  height_le := by simp
  level_le := Nat.zero_le _
  lt_free := by simp
  free_eq := rfl

theorem Rep.nodup (h : t.Rep ns) : (head :: ns).Nodup := by
  refine List.nodup_cons.mpr ⟨h.head_notMem, h.sorted.imp fun hlt heq => ?_⟩
  exact compareKeys_ne_of_lt hlt (by rw [heq])

theorem Rep.above_zero (h : t.Rep ns) : t.above ns 0 = ns :=
  List.filter_eq_self.mpr fun p hp => by simpa using h.height_pos p hp

theorem Rep.above_eq_nil (h : t.Rep ns) (hi : t.level ≤ i) : t.above ns i = [] := by
  refine List.filter_eq_nil_iff.mpr fun p hp hlt => ?_
  have hle := h.height_le p hp
  have hlt : i < t.height p := of_decide_eq_true hlt
  omega

/-- What is below a key is below along the list. -/
theorem Rep.pairwise_below (h : t.Rep ns) (key : Bytes) {l : List Ptr} (hl : l.Sublist ns) :
    l.Pairwise fun p q => t.below key q = true → t.below key p = true := by
  refine (h.sorted.sublist hl).imp fun {p q} hlt hq => ?_
  rw [below, decide_eq_true_eq] at hq ⊢
  exact compareKeys_lt_trans hlt hq

/-! ### The descent -/

/-- The node of level `i` behind which a key belongs. -/
def lastBelow (t : Towers) (ns : List Ptr) (key : Bytes) (i : ℕ) : Ptr :=
  ((t.above ns i).filter (t.below key)).getLastD head

theorem lastBelow_mem (t : Towers) (ns : List Ptr) (key : Bytes) (i : ℕ) :
    t.lastBelow ns key i = head ∨ t.lastBelow ns key i ∈ (t.above ns i).filter (t.below key) :=
  List.mem_cons.mp List.getLastD_mem_cons

/-- The inner loop, from wherever the level above has led to. -/
theorem Rep.advance (h : t.Rep ns) (hi : i < maxLevel)
    (hc : c = head ∨ c ∈ (t.above ns i).filter (t.below key)) :
    t.advance key i c = some (t.lastBelow ns key i) := by
  have hlen : (t.above ns i).length < t.free := by
    have hle : (t.above ns i).length ≤ ns.length := List.length_filter_le _ _
    rw [h.free_eq]
    omega
  have hchain := h.chain i hi
  rcases hc with rfl | hc
  · rw [Towers.advance, hchain.walk_eq hlen,
      takeWhile_eq_filter (h.pairwise_below key List.filter_sublist), lastBelow]
  · obtain ⟨hmem, hbelow⟩ := List.mem_filter.mp hc
    obtain ⟨l, r, hlr⟩ := List.append_of_mem hmem
    have hsub : (t.above ns i).Sublist ns := List.filter_sublist
    rw [hlr] at hsub
    have hsub : r.Sublist ns :=
      ((List.sublist_cons_self c r).trans (List.sublist_append_right _ _)).trans hsub
    rw [hlr] at hchain hlen
    rw [List.length_append, List.length_cons] at hlen
    have hsuffix := @Linked.Chain.suffix _ _ _ _ (head :: l) _ hchain
    rw [Towers.advance, hsuffix.walk_eq (by omega),
      takeWhile_eq_filter (h.pairwise_below key hsub), lastBelow, hlr, List.filter_append,
      List.filter_cons_of_pos hbelow, getLastD_append_cons]

/-- **The loops of `Put`**: at each level they keep the node behind which the key belongs. -/
theorem Rep.descendUpdate (h : t.Rep ns) (hn : n ≤ maxLevel) (hlen : n ≤ update.length)
    (hc : c = head ∨ c ∈ ns ∧ n ≤ t.height c ∧ t.below key c = true) :
    ∃ update', t.descendUpdate key n c update =
        some (if n = 0 then c else t.lastBelow ns key 0, update') ∧
      update'.length = update.length ∧
      ∀ i, update'[i]? = if i < n then some (some (t.lastBelow ns key i)) else update[i]? := by
  induction n generalizing c update with
  | zero => exact ⟨update, rfl, rfl, fun i => by simp⟩
  | succ n ih =>
    have hadvance : t.advance key n c = some (t.lastBelow ns key n) := by
      refine h.advance hn (hc.imp_right fun ⟨hmem, hheight, hbelow⟩ => ?_)
      simp only [List.mem_filter, decide_eq_true_eq]
      exact ⟨⟨hmem, hheight⟩, hbelow⟩
    have hset : setAt update n (some (t.lastBelow ns key n))
        = some (update.set n (some (t.lastBelow ns key n))) := if_pos hlen
    have hnext : t.lastBelow ns key n = head ∨ t.lastBelow ns key n ∈ ns ∧
        n ≤ t.height (t.lastBelow ns key n) ∧ t.below key (t.lastBelow ns key n) = true := by
      refine (t.lastBelow_mem ns key n).imp_right fun hmem => ?_
      simp only [List.mem_filter, decide_eq_true_eq] at hmem
      exact ⟨hmem.1.1, hmem.1.2.le, hmem.2⟩
    obtain ⟨update', hrun, hlen', hget⟩ := @ih _ (update.set n (some (t.lastBelow ns key n)))
      (by omega) (by rw [List.length_set]; omega) hnext
    refine ⟨update', ?_, by rw [hlen', List.length_set], fun i => ?_⟩
    · rw [Towers.descendUpdate, hadvance, Option.bind_some, hset, Option.bind_some, hrun,
        if_neg (Nat.succ_ne_zero n)]
      split
      · rename_i hzero
        rw [hzero]
      · rfl
    · rw [hget, List.getElem?_set]
      rcases lt_trichotomy i n with hlt | rfl | hgt
      · rw [if_pos hlt, if_pos (by omega)]
      · rw [if_neg (lt_irrefl i), if_pos rfl, if_pos (by omega), if_pos (by omega)]
      · rw [if_neg (by omega), if_neg (by omega), if_neg (by omega)]

/-- `Get` and `Seek` go down as `Put` does. -/
theorem descend_eq (t : Towers) (key : Bytes) (hlen : n ≤ update.length) :
    t.descend key n c = (t.descendUpdate key n c update).map Prod.fst := by
  induction n generalizing c update with
  | zero => rfl
  | succ n ih =>
    rw [descend, Towers.descendUpdate]
    rcases t.advance key n c with _ | c'
    · rfl
    · have hset : setAt update n (some c') = some (update.set n (some c')) := if_pos hlen
      rw [Option.bind_some, Option.bind_some, hset, Option.bind_some]
      exact ih (by rw [List.length_set]; omega)

/-- **The whole descent**, from the head down. -/
theorem Rep.descent (h : t.Rep ns) (key : Bytes) :
    ∃ update, t.descendUpdate key t.level head (List.replicate maxLevel none) =
        some (t.lastBelow ns key 0, update) ∧ update.length = maxLevel ∧
      ∀ i < t.level, update[i]? = some (some (t.lastBelow ns key i)) := by
  have hspace : t.level ≤ (List.replicate maxLevel (none : Option Ptr)).length := by
    simpa using h.level_le
  obtain ⟨update, hrun, hlen, hget⟩ :=
    @Rep.descendUpdate t ns key t.level head _ h h.level_le hspace (.inl rfl)
  refine ⟨update, ?_, by simpa using hlen, fun i hi => by rw [hget, if_pos hi]⟩
  rw [hrun]
  split
  · -- without levels there are no nodes
    rename_i hzero
    rw [lastBelow, h.above_eq_nil hzero.le]
    rfl
  · rfl

theorem Rep.descend (h : t.Rep ns) (key : Bytes) :
    t.descend key t.level head = some (t.lastBelow ns key 0) := by
  obtain ⟨update, hrun, -⟩ := h.descent key
  have hspace : t.level ≤ (List.replicate maxLevel (none : Option Ptr)).length := by
    simpa using h.level_le
  rw [descend_eq t key hspace, hrun]
  rfl

/-- Behind the last smaller node comes the first that is not smaller. -/
theorem Rep.read_lastBelow (h : t.Rep ns) (key : Bytes) :
    t.read 0 (t.lastBelow ns key 0) = some (ns.dropWhile (t.below key)).head? := by
  have hchain := h.chain 0 (by decide)
  rw [h.above_zero, ← List.takeWhile_append_dropWhile (p := t.below key) (l := ns)] at hchain
  have hlast := hchain.read_last
  rw [takeWhile_eq_filter (h.pairwise_below key (.refl ns))] at hlast
  rwa [lastBelow, h.above_zero]

end Towers

end Stratum.Memtable
