import Mathlib.Data.Finset.Card
import Mathlib.Data.List.Dedup
import Stratum.Lib.KWayMerge
import Stratum.Lib.Run
import Stratum.Memtable.Towers

/-!
# The skip list is a sorted map

`Refines t ns sl` relates the skip list in memory to the list `sl` of `MemTable`: the same keys,
values and heights in the same order, and the same counters. `Put` refines `Put` in both its cases.

* A key that is there is overwritten; no pointer changes (`Refines.overwrite`).
* A new node is linked **at all its levels at once**, the levels that did not exist included:
  `link_eq` is the loop, and `Inserted.chain` the splice that it is on each level.

`towers_sorted_map` is what follows for every sequence of calls and all heights.
-/

namespace Stratum.Memtable

open Mvcc

/-! ### The list that the towers stand for -/

namespace Towers

variable {t t' : Towers} {ns : List Ptr} {sl : SkipList} {key : Bytes} {value : Option Bytes}
  {i n level : ℕ} {c p : Ptr} {update update' : List (Option Ptr)}

/-- A node without its pointers. -/
def toNode (t : Towers) (p : Ptr) : Node := ⟨(t.nodes p).key, (t.nodes p).value, t.height p⟩

/-- **Refinement**: the list of the nodes, and the two counters. -/
structure Refines (t : Towers) (ns : List Ptr) (sl : SkipList) : Prop extends t.Rep ns where
  nodes_eq : sl.nodes = ns.map t.toNode
  size_eq : t.size = ns.length
  memSize_eq : t.memSize = sl.memSize

private theorem nodes_put (sl : SkipList) (key : Bytes) (value : Option Bytes) (level : ℕ) :
    (sl.put key value level).nodes = insertNode ⟨key, value, level⟩ sl.nodes := rfl

theorem refines_new : new.Refines [] .empty := ⟨rep_new, rfl, rfl, rfl⟩

private theorem dropWhile_map_toNode (t : Towers) (ns : List Ptr) (key : Bytes) :
    ((ns.map t.toNode).dropWhile fun m => compareKeys m.key key = .lt) =
      (ns.dropWhile (t.below key)).map t.toNode :=
  List.dropWhile_map ..

private theorem takeWhile_map_toNode (t : Towers) (ns : List Ptr) (key : Bytes) :
    ((ns.map t.toNode).takeWhile fun m => compareKeys m.key key = .lt) =
      (ns.takeWhile (t.below key)).map t.toNode :=
  List.takeWhile_map ..

private theorem found_toNode (t : Towers) (key : Bytes) (current : Option Ptr) :
    (current.map t.toNode).filter (fun m => decide (m.key = key)) =
      (t.found key current).map t.toNode := by
  rcases current with _ | p
  · rfl
  · by_cases hkey : (t.nodes p).key = key
    · simp [found, Option.filter, toNode, hkey]
    · simp [found, Option.filter, toNode, hkey]

/-- The node that the descent finds is the one that the list has. -/
theorem Refines.get_eq_found (h : t.Refines ns sl) (key : Bytes) :
    sl.get key =
      (t.found key (ns.dropWhile (t.below key)).head?).map fun p => (t.nodes p).value := by
  rw [SkipList.get, h.nodes_eq, getNode_eq, dropWhile_map_toNode, List.head?_map, found_toNode,
    Option.map_map]
  rfl

/-- **`Get`** is `Get` of the list. -/
theorem Refines.get (h : t.Refines ns sl) (key : Bytes) : t.get key = some (sl.get key) := by
  rw [Towers.get, h.descend, Option.bind_some, h.read_lastBelow, Option.map_some,
    h.get_eq_found key]

/-! ### Overwriting -/

/-- The representation only looks at keys and pointers. -/
theorem Rep.congr (h : t.Rep ns) (hkey : ∀ p, (t'.nodes p).key = (t.nodes p).key)
    (hforward : ∀ p, (t'.nodes p).forward = (t.nodes p).forward) (hlevel : t'.level = t.level)
    (hfree : t'.free = t.free) : t'.Rep ns := by
  have hheight : t'.height = t.height := funext fun p => by rw [height, height, hforward]
  have hread : t'.read = t.read := funext₂ fun i p => by rw [read, read, hforward]
  refine ⟨?_, ?_, h.head_notMem, ?_, ?_, ?_, ?_, ?_, ?_⟩
  · rw [hread]
    simpa only [above, hheight] using h.chain
  · simpa only [hkey] using h.sorted
  · rw [hheight]
    exact h.height_head
  · rw [hheight]
    exact h.height_pos
  · rw [hheight, hlevel]
    exact h.height_le
  · rw [hlevel]
    exact h.level_le
  · rw [hfree]
    exact h.lt_free
  · rw [hfree]
    exact h.free_eq

private theorem map_update_of_notMem {f g : Ptr → Node} {l : List Ptr} (hp : p ∉ l)
    (hfg : ∀ q, q ≠ p → f q = g q) : l.map f = l.map g :=
  List.map_congr_left fun q hq => hfg q fun heq => hp (heq ▸ hq)

/-- **`Put` of a key that is there**. -/
theorem Refines.overwrite (h : t.Refines ns sl)
    (hfound : t.found key (ns.dropWhile (t.below key)).head? = some p) (level : ℕ) :
    (t.overwrite p value).Refines ns (sl.put key value level) := by
  obtain ⟨hhead, hkey⟩ := Option.filter_eq_some_iff.mp hfound
  have hkey : (t.nodes p).key = key := of_decide_eq_true hkey
  obtain ⟨rest, hdrop⟩ := List.head?_eq_some_iff.mp hhead
  have hns : ns = ns.takeWhile (t.below key) ++ p :: rest := by
    rw [← hdrop, List.takeWhile_append_dropWhile]
  have hnodup := (List.nodup_cons.mp h.nodup).2
  rw [hns, List.nodup_middle, List.nodup_cons, List.mem_append, not_or] at hnodup
  have hother : ∀ q, q ≠ p → (t.overwrite p value).nodes q = t.nodes q := fun q hq =>
    Function.update_of_ne hq _ _
  have hself : (t.overwrite p value).nodes p = { t.nodes p with value := value } :=
    Function.update_self ..
  have hsame : ∀ q, ((t.overwrite p value).nodes q).key = (t.nodes q).key ∧
      ((t.overwrite p value).nodes q).forward = (t.nodes q).forward := by
    intro q
    by_cases hq : q = p
    · rw [hq, hself]
      exact ⟨rfl, rfl⟩
    · rw [hother q hq]
      exact ⟨rfl, rfl⟩
  have hnode : ∀ q, q ≠ p → (t.overwrite p value).toNode q = t.toNode q := fun q hq => by
    rw [toNode, toNode, height, height, hother q hq]
  have hnodep : (t.overwrite p value).toNode p = { t.toNode p with value := value } := by
    rw [toNode, height, hself]
    rfl
  refine ⟨h.toRep.congr (fun q => (hsame q).1) (fun q => (hsame q).2) rfl rfl, ?_, h.size_eq, ?_⟩
  · have hinsert := @insertNode_of_found ⟨key, value, level⟩ (t.toNode p) (ns.map t.toNode)
      (rest.map t.toNode) (by rw [dropWhile_map_toNode, hdrop]; rfl) hkey
    rw [takeWhile_map_toNode] at hinsert
    rw [nodes_put, h.nodes_eq, hinsert]
    conv_rhs => rw [hns]
    rw [List.map_append, List.map_cons, hnodep, map_update_of_notMem hnodup.1.1 hnode,
      map_update_of_notMem hnodup.1.2 hnode]
  · have hget := h.get_eq_found key
    rw [hfound] at hget
    simp only [Towers.overwrite, SkipList.put, SkipList.putSize, hget, Option.map_some,
      h.memSize_eq]

/-! ### Linking a new node -/

theorem raise_eq (hlen : i + n ≤ update.length) : ∃ update', raise n i update = some update' ∧
    ∀ j, update'[j]? = if i ≤ j ∧ j < i + n then some (some head) else update[j]? := by
  induction n generalizing i update with
  | zero => exact ⟨update, rfl, fun j => by rw [if_neg (by omega)]⟩
  | succ n ih =>
    have hset : setAt update i (some head) = some (update.set i (some head)) :=
      if_pos (by omega)
    obtain ⟨update', hrun, hget⟩ := @ih (i + 1) (update.set i (some head))
      (by rw [List.length_set]; omega)
    refine ⟨update', by rw [raise, hset, Option.bind_some, hrun], fun j => ?_⟩
    rw [hget, List.getElem?_set]
    by_cases hj : i = j
    · rw [if_neg (by omega), if_pos hj, if_pos (by omega), if_pos (by omega)]
    · rw [if_neg hj]
      by_cases hin : i ≤ j ∧ j < i + (n + 1)
      · rw [if_pos hin, if_pos (by omega)]
      · rw [if_neg hin, if_neg (by omega)]

/-- What linking leaves of a node: all but its pointers. -/
structure SameNode (a b : TowerNode) : Prop where
  key : b.key = a.key
  value : b.value = a.value
  length : b.forward.length = a.forward.length

theorem SameNode.trans {a b c : TowerNode} (h : SameNode a b) (h' : SameNode b c) :
    SameNode a c :=
  ⟨h'.key.trans h.key, h'.value.trans h.value, h'.length.trans h.length⟩

/-- One level: the new node points to where `u` pointed, and `u` to the new node. -/
def linkAt (new u : Ptr) (i : ℕ) (next : Option Ptr) (nodes : Ptr → TowerNode) : Ptr → TowerNode :=
  Function.update
    (Function.update nodes new { nodes new with forward := (nodes new).forward.set i next })
    u { nodes u with forward := (nodes u).forward.set i (some new) }

section Link

variable {nodes : Ptr → TowerNode} {new u : Ptr} {next : Option Ptr}

theorem link_succ (hu : update[i]? = some (some u)) (hne : u ≠ new)
    (hnext : (nodes u).forward[i]? = some next) (hnew : i < (nodes new).forward.length) :
    link new update (n + 1) i nodes = link new update n (i + 1) (linkAt new u i next nodes) := by
  have hlt : i < (nodes u).forward.length := (List.getElem?_eq_some_iff.mp hnext).1
  have hset : setAt (nodes new).forward i next = some ((nodes new).forward.set i next) :=
    if_pos hnew
  have hset' : setAt (nodes u).forward i (some new) = some ((nodes u).forward.set i (some new)) :=
    if_pos hlt
  simp only [link, hu, Option.join_some, Option.bind_some, hnext, hset,
    Function.update_of_ne hne, hset', linkAt]

theorem sameNode_linkAt (p : Ptr) : SameNode (nodes p) (linkAt new u i next nodes p) := by
  rw [linkAt]
  by_cases hp : p = u
  · rw [hp, Function.update_self]
    exact ⟨rfl, rfl, List.length_set⟩
  · rw [Function.update_of_ne hp]
    by_cases hp' : p = new
    · rw [hp', Function.update_self]
      exact ⟨rfl, rfl, List.length_set⟩
    · rw [Function.update_of_ne hp']
      exact ⟨rfl, rfl, rfl⟩

theorem forward_linkAt (hne : u ≠ new) (hnext : (nodes u).forward[i]? = some next)
    (hnew : i < (nodes new).forward.length) (j : ℕ) (p : Ptr) :
    (linkAt new u i next nodes p).forward[j]? =
      if j = i then
        if p = new then some next else if p = u then some (some new) else (nodes p).forward[j]?
      else (nodes p).forward[j]? := by
  have hlt : i < (nodes u).forward.length := (List.getElem?_eq_some_iff.mp hnext).1
  rw [linkAt]
  by_cases hj : j = i
  · subst hj
    rw [if_pos rfl]
    by_cases hp : p = u
    · rw [hp, Function.update_self, if_neg hne, if_pos rfl]
      simp [hlt]
    · rw [Function.update_of_ne hp, if_neg hp]
      by_cases hp' : p = new
      · rw [hp', Function.update_self, if_pos rfl]
        simp [hnew]
      · rw [Function.update_of_ne hp', if_neg hp']
  · rw [if_neg hj]
    by_cases hp : p = u
    · rw [hp, Function.update_self]
      exact List.getElem?_set_ne (Ne.symm hj)
    · rw [Function.update_of_ne hp]
      by_cases hp' : p = new
      · rw [hp', Function.update_self]
        exact List.getElem?_set_ne (Ne.symm hj)
      · rw [Function.update_of_ne hp']

/-- **The linking loop**: at each of its levels `j` the new node comes behind `u j`. -/
theorem link_eq (u : ℕ → Ptr) (hupdate : ∀ j, i ≤ j → j < i + n → update[j]? = some (some (u j)))
    (hne : ∀ j, u j ≠ new) (hold : ∀ j, i ≤ j → j < i + n → j < (nodes (u j)).forward.length)
    (hnew : i + n ≤ (nodes new).forward.length) :
    ∃ nodes', link new update n i nodes = some nodes' ∧ (∀ p, SameNode (nodes p) (nodes' p)) ∧
      ∀ j p, (nodes' p).forward[j]? =
        if i ≤ j ∧ j < i + n then
          if p = new then (nodes (u j)).forward[j]?
          else if p = u j then some (some new) else (nodes p).forward[j]?
        else (nodes p).forward[j]? := by
  induction n generalizing i nodes with
  | zero =>
    exact ⟨nodes, rfl, fun p => ⟨rfl, rfl, rfl⟩, fun j p => by rw [if_neg (by omega)]⟩
  | succ n ih =>
    obtain ⟨next, hnext⟩ : ∃ next, (nodes (u i)).forward[i]? = some next :=
      ⟨_, List.getElem?_eq_getElem (hold i le_rfl (by omega))⟩
    have hnew' : i < (nodes new).forward.length := by omega
    have hsame := fun p => @sameNode_linkAt i nodes new (u i) next p
    have hforward := forward_linkAt (hne i) hnext hnew'
    obtain ⟨nodes', hrun, hsame', hforward'⟩ := @ih (i + 1) (linkAt new (u i) i next nodes)
      (fun j h₁ h₂ => hupdate j (by omega) (by omega))
      (fun j h₁ h₂ => by rw [(hsame (u j)).length]; exact hold j (by omega) (by omega))
      (by rw [(hsame new).length]; omega)
    refine ⟨nodes', ?_, fun p => (hsame p).trans (hsame' p), fun j p => ?_⟩
    · rw [link_succ (hupdate i le_rfl (by omega)) (hne i) hnext hnew', hrun]
    · rw [hforward', hforward, hforward]
      rcases lt_trichotomy j i with hlt | rfl | hgt
      · have h₁ : ¬ (i + 1 ≤ j ∧ j < i + 1 + n) := by omega
        have h₂ : ¬ (i ≤ j ∧ j < i + (n + 1)) := by omega
        simp only [if_neg h₁, if_neg h₂, if_neg hlt.ne]
      · have h₁ : ¬ (j + 1 ≤ j ∧ j < j + 1 + n) := by omega
        have h₂ : j ≤ j ∧ j < j + (n + 1) := by omega
        simp only [if_neg h₁, if_pos h₂, if_true, hnext]
      · have hiff : (i + 1 ≤ j ∧ j < i + 1 + n) ↔ (i ≤ j ∧ j < i + (n + 1)) := by omega
        simp only [hiff, if_neg hgt.ne']

end Link

/-! ### Inserting -/

theorem Rep.ne_free (h : t.Rep ns) : ∀ p ∈ head :: ns, p ≠ t.free := by
  intro p hp
  rcases List.mem_cons.mp hp with rfl | hp
  · rw [h.free_eq]
    exact (Nat.succ_ne_zero _).symm
  · exact (h.lt_free p hp).ne

theorem Rep.lastBelow_ne_free (h : t.Rep ns) (key : Bytes) (i : ℕ) :
    t.lastBelow ns key i ≠ t.free := by
  refine h.ne_free _ ?_
  rcases t.lastBelow_mem ns key i with hhead | hmem
  · rw [hhead]
    exact List.mem_cons_self
  · exact List.mem_cons_of_mem _ (List.mem_filter.mp (List.mem_filter.mp hmem).1).1

theorem Rep.lt_height_lastBelow (h : t.Rep ns) (key : Bytes) (hi : i < maxLevel) :
    i < t.height (t.lastBelow ns key i) := by
  rcases t.lastBelow_mem ns key i with hhead | hmem
  · rw [hhead, h.height_head]
    exact hi
  · exact of_decide_eq_true (List.mem_filter.mp (List.mem_filter.mp hmem).1).2

/-- What an insertion does to the memory. -/
structure Inserted (t t' : Towers) (ns : List Ptr) (key : Bytes) (value : Option Bytes)
    (level : ℕ) : Prop where
  old : ∀ p, p ≠ t.free → SameNode (t.nodes p) (t'.nodes p)
  new : SameNode ⟨key, value, List.replicate level none⟩ (t'.nodes t.free)
  read_new : ∀ i < level, t'.read i t.free = t.read i (t.lastBelow ns key i)
  read_last : ∀ i < level, t'.read i (t.lastBelow ns key i) = some (some t.free)
  read_old : ∀ i p, p ≠ t.free → (i < level → p ≠ t.lastBelow ns key i) → t'.read i p = t.read i p
  free_eq : t'.free = t.free + 1
  level_eq : t'.level = max level t.level
  size_eq : t'.size = t.size + 1
  memSize_eq : t'.memSize = t.memSize + (32 + key.length + (value.getD []).length + 8 * level)

/-- The insertion never fails. -/
theorem Rep.insert (h : t.Rep ns) (hlen : update.length = maxLevel)
    (hupdate : ∀ i < t.level, update[i]? = some (some (t.lastBelow ns key i)))
    (hlevel : level ≤ maxLevel) (value : Option Bytes) :
    ∃ t', t.insert update key value level = some t' ∧ t.Inserted t' ns key value level := by
  obtain ⟨update', hraise, hget⟩ := @raise_eq t.level (level - t.level) update (by
    have hle := h.level_le
    omega)
  have hupdate' : ∀ i < level, update'[i]? = some (some (t.lastBelow ns key i)) := by
    intro i hi
    rw [hget]
    split
    · rename_i hnew
      rw [lastBelow, h.above_eq_nil hnew.1]
      rfl
    · exact hupdate i (by omega)
  have hne := h.lastBelow_ne_free key
  have hold : ∀ p, p ≠ t.free → t.allocate key value level p = t.nodes p := fun p hp =>
    Function.update_of_ne hp _ _
  have hnew : t.allocate key value level t.free = ⟨key, value, List.replicate level none⟩ :=
    Function.update_self ..
  obtain ⟨nodes', hlink, hsame, hforward⟩ := @link_eq 0 level update'
    (t.allocate key value level) t.free (t.lastBelow ns key)
    (fun j _ hj => hupdate' j (by omega)) hne
    (fun j _ hj => by
      rw [hold _ (hne j)]
      exact h.lt_height_lastBelow key (by omega))
    (by rw [hnew]; simp)
  refine ⟨_, by rw [Towers.insert, hraise, Option.bind_some, hlink, Option.map_some], ?_⟩
  exact
    { old := fun p hp => hold p hp ▸ hsame p
      new := hnew ▸ hsame t.free
      read_new := fun i hi => by
        rw [read, hforward, if_pos (by omega), if_pos rfl, hold _ (hne i), read]
      read_last := fun i hi => by
        rw [read, hforward, if_pos (by omega), if_neg (hne i), if_pos rfl]
      read_old := fun i p hp hlast => by
        rw [read, hforward, read, ← hold p hp]
        split
        · rename_i hi
          rw [if_neg (hlast (by omega))]
        · rfl
      free_eq := rfl
      level_eq := rfl
      size_eq := rfl
      memSize_eq := rfl }

namespace Inserted

/-- The nodes after the insertion are the old ones and the new one. -/
theorem perm (t : Towers) (ns : List Ptr) (key : Bytes) :
    (ns.takeWhile (t.below key) ++ t.free :: ns.dropWhile (t.below key)).Perm (t.free :: ns) := by
  refine List.perm_middle.trans ?_
  rw [List.takeWhile_append_dropWhile]

variable (hins : t.Inserted t' ns key value level)

include hins

theorem height_old (hp : p ≠ t.free) : t'.height p = t.height p :=
  (hins.old p hp).length

theorem height_new : t'.height t.free = level :=
  hins.new.length.trans List.length_replicate

theorem toNode_old (hp : p ≠ t.free) : t'.toNode p = t.toNode p := by
  obtain ⟨hkey, hvalue, hlen⟩ := hins.old p hp
  rw [toNode, toNode, height, height, hkey, hvalue, hlen]

theorem toNode_new : t'.toNode t.free = ⟨key, value, level⟩ := by
  rw [toNode, hins.height_new, hins.new.key, hins.new.value]

/-- The levels: the new node is on those that its tower reaches. -/
theorem above_eq {l r : List Ptr} (hl : t.free ∉ l) (hr : t.free ∉ r) (i : ℕ) :
    t'.above (l ++ t.free :: r) i =
      t.above l i ++ (if i < level then t.free :: t.above r i else t.above r i) := by
  have hold : ∀ l : List Ptr, t.free ∉ l → t'.above l i = t.above l i := fun l hl =>
    List.filter_congr fun p hp => by rw [hins.height_old fun heq => hl (heq ▸ hp)]
  rw [above, List.filter_append]
  congr 1
  · exact hold l hl
  · split
    · rename_i hlt
      rw [List.filter_cons_of_pos (by simpa [hins.height_new] using hlt)]
      exact congrArg _ (hold r hr)
    · rename_i hge
      rw [List.filter_cons_of_neg (by simpa [hins.height_new] using hge)]
      exact hold r hr

/-- The chains after the insertion. -/
theorem chain (h : t.Rep ns) (hi : i < maxLevel) :
    Linked.Chain (t'.read i) (some head) (head ::
      t'.above (ns.takeWhile (t.below key) ++ t.free :: ns.dropWhile (t.below key)) i) := by
  have hfree : ∀ p ∈ ns, p ≠ t.free := fun p hp => h.ne_free p (List.mem_cons_of_mem _ hp)
  have hsplit : t.above ns i =
      t.above (ns.takeWhile (t.below key)) i ++ t.above (ns.dropWhile (t.below key)) i := by
    rw [← List.filter_append, List.takeWhile_append_dropWhile]
  have hlast : (t.above (ns.takeWhile (t.below key)) i).getLastD head
      = t.lastBelow ns key i := by
    rw [takeWhile_eq_filter (h.pairwise_below key (.refl ns)), above, List.filter_comm, lastBelow]
  have hmem : ∀ p ∈ head :: t.above ns i, p ≠ t.free := fun p hp =>
    h.ne_free p ((List.filter_sublist.cons_cons head).subset hp)
  have hchain := h.chain i hi
  have hnodup : (head :: t.above ns i).Nodup :=
    h.nodup.sublist (List.filter_sublist.cons_cons head)
  rw [hins.above_eq (fun hp => hfree _ ((List.takeWhile_sublist _).subset hp) rfl)
    (fun hp => hfree _ ((List.dropWhile_sublist _).subset hp) rfl)]
  split
  · rename_i hlt
    rw [hsplit] at hchain hnodup hmem
    refine hchain.splice hnodup (fun hp => hmem _ hp rfl) ?_ ?_ ?_
    · rw [hlast]
      exact hins.read_new i hlt
    · rw [hlast]
      exact hins.read_last i hlt
    · intro p hp hp'
      rw [hlast] at hp'
      exact hins.read_old i p hp fun _ => hp'
  · rename_i hge
    rw [← hsplit]
    exact hchain.congr fun p hp => hins.read_old i p (hmem p hp) fun hlt => absurd hlt hge

/-- The representation after the insertion, if the new node is where it belongs. -/
theorem rep (h : t.Rep ns) (hpos : 0 < level) (hlevel : level ≤ maxLevel)
    (hsorted : (ns.takeWhile (t.below key) ++ t.free :: ns.dropWhile (t.below key)).Pairwise
      fun p q => compareKeys (t'.nodes p).key (t'.nodes q).key = .lt) :
    t'.Rep (ns.takeWhile (t.below key) ++ t.free :: ns.dropWhile (t.below key)) := by
  have hhead : head ≠ t.free := h.ne_free head (by simp)
  have hcases : ∀ p ∈ ns.takeWhile (t.below key) ++ t.free :: ns.dropWhile (t.below key),
      p = t.free ∨ p ∈ ns ∧ p ≠ t.free := fun p hp =>
    (List.mem_cons.mp ((perm t ns key).mem_iff.mp hp)).imp_right fun hp =>
      ⟨hp, h.ne_free p (List.mem_cons_of_mem _ hp)⟩
  refine
    { chain := fun i hi => hins.chain h hi
      sorted := hsorted
      head_notMem := fun hp => (hcases _ hp).elim hhead fun hp => h.head_notMem hp.1
      height_head := (hins.height_old hhead).trans h.height_head
      height_pos := fun p hp => ?_
      height_le := fun p hp => ?_
      level_le := ?_
      lt_free := fun p hp => ?_
      free_eq := ?_ }
  · rcases hcases p hp with rfl | ⟨hp, hne⟩
    · rw [hins.height_new]
      exact hpos
    · rw [hins.height_old hne]
      exact h.height_pos p hp
  · rw [hins.level_eq]
    rcases hcases p hp with rfl | ⟨hp, hne⟩
    · rw [hins.height_new]
      exact le_max_left _ _
    · rw [hins.height_old hne]
      exact (h.height_le p hp).trans (le_max_right _ _)
  · rw [hins.level_eq]
    exact max_le hlevel h.level_le
  · rw [hins.free_eq]
    rcases hcases p hp with rfl | ⟨hp, -⟩
    · exact Nat.lt_succ_self _
    · exact (h.lt_free p hp).trans (Nat.lt_succ_self _)
  · rw [hins.free_eq, (perm t ns key).length_eq, h.free_eq, List.length_cons]

end Inserted

/-- **`Put` of a new key**. -/
theorem Refines.inserted (h : t.Refines ns sl)
    (hfound : t.found key (ns.dropWhile (t.below key)).head? = none)
    (hins : t.Inserted t' ns key value level) (hpos : 0 < level) (hlevel : level ≤ maxLevel) :
    t'.Refines (ns.takeWhile (t.below key) ++ t.free :: ns.dropWhile (t.below key))
      (sl.put key value level) := by
  have hold : ∀ l : List Ptr, l ⊆ ns → l.map t'.toNode = l.map t.toNode := fun l hl =>
    List.map_congr_left fun p hp => hins.toNode_old (h.ne_free p (List.mem_cons_of_mem _ (hl hp)))
  have hnodes : (sl.put key value level).nodes =
      (ns.takeWhile (t.below key) ++ t.free :: ns.dropWhile (t.below key)).map t'.toNode := by
    have hinsert := @insertNode_of_not_found ⟨key, value, level⟩ (ns.map t.toNode) (by
      rw [dropWhile_map_toNode, List.head?_map, found_toNode, hfound]
      rfl)
    rw [takeWhile_map_toNode, dropWhile_map_toNode] at hinsert
    rw [nodes_put, h.nodes_eq, hinsert, List.map_append, List.map_cons, hins.toNode_new,
      hold _ (List.takeWhile_sublist _).subset, hold _ (List.dropWhile_sublist _).subset]
  -- the order is that of the list
  have hsorted : ((ns.takeWhile (t.below key) ++ t.free :: ns.dropWhile (t.below key)).map
      t'.toNode).Pairwise fun a b => compareKeys a.key b.key = .lt := by
    rw [← hnodes]
    exact (sl.put key value level).sorted
  refine ⟨hins.rep h.toRep hpos hlevel (List.pairwise_map.mp hsorted), hnodes, ?_, ?_⟩
  · rw [hins.size_eq, (Inserted.perm t ns key).length_eq, h.size_eq, List.length_cons]
    push_cast
    rfl
  · have hget := h.get_eq_found key
    rw [hfound] at hget
    simp only [SkipList.put, SkipList.putSize, hget, Option.map_none, hins.memSize_eq,
      h.memSize_eq]

/-- **Step lemma**: `Put` never fails, and is `Put` of the list. -/
theorem Refines.put (h : t.Refines ns sl) (key : Bytes) (value : Option Bytes)
    (draws : ℕ → Bool) : ∃ t' ns', t.put key value draws = some t' ∧
      t'.Refines ns' (sl.put key value (randomLevel draws)) := by
  obtain ⟨update, hrun, hlen, hupdate⟩ := h.descent key
  rcases hfound : t.found key (ns.dropWhile (t.below key)).head? with _ | p
  · obtain ⟨hpos, hlevel⟩ := exists_randomLevel_iff.mp ⟨draws, rfl⟩
    obtain ⟨t', hins, hinserted⟩ := h.toRep.insert hlen hupdate hlevel value
    refine ⟨t', _, ?_, h.inserted hfound hinserted hpos hlevel⟩
    rw [Towers.put, hrun, Option.bind_some, h.read_lastBelow, Option.bind_some, hfound]
    exact hins
  · refine ⟨_, ns, ?_, h.overwrite hfound (randomLevel draws)⟩
    rw [Towers.put, hrun, Option.bind_some, h.read_lastBelow, Option.bind_some, hfound]

/-! ### Iterators and levels -/

/-- From a node of the bottom level on, the iterator yields the rest of the list. -/
private theorem Refines.iterate (h : t.Refines ns sl) {l r : List Ptr} (hns : ns = l ++ r)
    {fuel : ℕ} (hfuel : ns.length ≤ fuel) :
    t.iterate fuel r.head? = some (r.map fun p => ((t.nodes p).key, (t.nodes p).value)) := by
  have hchain := h.chain 0 (by decide)
  rw [h.above_zero, hns] at hchain
  have hlen : r.length ≤ fuel := by
    rw [hns, List.length_append] at hfuel
    omega
  rw [Towers.iterate, (hchain.drop (l := head :: l)).collect_eq hlen, Option.map_some]

theorem Refines.entries_eq (h : t.Refines ns sl) :
    sl.entries = ns.map fun p => ((t.nodes p).key, (t.nodes p).value) := by
  rw [SkipList.entries, h.nodes_eq, List.map_map]
  rfl

theorem Refines.seekToFirst (h : t.Refines ns sl) {fuel : ℕ} (hfuel : ns.length ≤ fuel) :
    t.seekToFirst.bind (t.iterate fuel) = some sl.entries := by
  have hchain := h.chain 0 (by decide)
  rw [h.above_zero] at hchain
  have hread : t.read 0 head = some ns.head? := hchain.read_last (l := [])
  rw [Towers.seekToFirst, hread, Option.bind_some, h.iterate (List.nil_append ns).symm hfuel,
    h.entries_eq]

theorem Refines.seek (h : t.Refines ns sl) (target : Bytes) {fuel : ℕ}
    (hfuel : ns.length ≤ fuel) : (t.seek target).bind (t.iterate fuel) =
      some (sl.entries.dropWhile fun e => compareKeys e.1 target = .lt) := by
  rw [Towers.seek, h.descend, Option.bind_some, h.read_lastBelow, Option.bind_some,
    h.iterate List.takeWhile_append_dropWhile.symm hfuel, h.entries_eq, List.dropWhile_map]
  rfl

theorem Rep.levelNodes (h : t.Rep ns) (hi : i < maxLevel) :
    t.levelNodes i = some (t.above ns i) := by
  have hread : t.read i head = some (t.above ns i).head? := (h.chain i hi).read_last (l := [])
  have hlen : (t.above ns i).length ≤ t.free := by
    have hle : (t.above ns i).length ≤ ns.length := List.length_filter_le _ _
    rw [h.free_eq]
    omega
  rw [Towers.levelNodes, hread, Option.bind_some,
    ((h.chain i hi).drop (l := [head])).collect_eq hlen]

theorem above_sublist (t : Towers) (ns : List Ptr) (i : ℕ) :
    (t.above ns (i + 1)).Sublist (t.above ns i) := by
  have hfilter : t.above ns (i + 1) =
      (t.above ns i).filter fun p => decide (i + 1 < t.height p) := by
    rw [above, above, List.filter_filter]
    refine List.filter_congr fun p _ => ?_
    rw [← Bool.decide_and, decide_eq_decide]
    omega
  rw [hfilter]
  exact List.filter_sublist

end Towers

/-! ### Runs -/

namespace Towers

variable {t t' : Towers} {ns : List Ptr} {sl : SkipList}

/-- A call of `Put` or `Delete`, with what `randomLevel` draws in it. -/
inductive Call
  | put (key : Bytes) (value : Option Bytes) (draws : ℕ → Bool)
  | delete (key : Bytes) (draws : ℕ → Bool)

/-- The key that a call writes. -/
def Call.key : Call → Bytes
  | .put key _ _ => key
  | .delete key _ => key

/-- What it writes: nothing for `Delete`. -/
def Call.value : Call → Option Bytes
  | .put _ value _ => value
  | .delete _ _ => none

/-- The height that a new node gets in it. -/
def Call.level : Call → ℕ
  | .put _ _ draws => randomLevel draws
  | .delete _ draws => randomLevel draws

/-- One call. -/
def step (t : Towers) : Call → Option Towers
  | .put key value draws => t.put key value draws
  | .delete key draws => t.delete key draws

/-- The last value that the calls wrote for a key. -/
def lastPut (calls : List Call) (key : Bytes) : Option (Option Bytes) :=
  (calls.reverse.find? fun call => decide (call.key = key)).map Call.value

/-- The calls on the list. -/
def perform (sl : SkipList) (call : Call) : SkipList := sl.put call.key call.value call.level

theorem Refines.step (h : t.Refines ns sl) (call : Call) :
    ∃ t' ns', t.step call = some t' ∧ t'.Refines ns' (perform sl call) := by
  rcases call with ⟨key, value, draws⟩ | ⟨key, draws⟩
  · exact h.put key value draws
  · exact h.put key none draws

/-- **Run lemma**: no run fails, and it ends with the list that the calls make. -/
theorem Refines.run (h : t.Refines ns sl) (calls : List Call) :
    ∃ t' ns', Machine.run Towers.step t calls = some t' ∧
      t'.Refines ns' (calls.foldl perform sl) := by
  induction calls generalizing t ns sl with
  | nil => exact ⟨t, ns, rfl, h⟩
  | cons call calls ih =>
    obtain ⟨u, ms, hs, hu⟩ := h.step call
    obtain ⟨t', ns', hr, ht'⟩ := ih hu
    exact ⟨t', ns', Machine.run_cons_eq_some.mpr ⟨u, hs, hr⟩, ht'⟩

theorem lastPut_concat (calls : List Call) (call : Call) (key : Bytes) :
    lastPut (calls ++ [call]) key =
      if call.key = key then some call.value else lastPut calls key := by
  rw [lastPut, List.reverse_append, List.reverse_singleton, List.singleton_append, List.find?_cons]
  by_cases hkey : call.key = key
  · simp [hkey]
  · simp [hkey, lastPut]

/-- **A map**: the list has for each key what was put last. -/
theorem get_foldl_perform (calls : List Call) (key : Bytes) :
    (calls.foldl perform .empty).get key = lastPut calls key := by
  induction calls using List.reverseRecOn with
  | nil => rfl
  | append_singleton calls call ih =>
    rw [List.foldl_append, List.foldl_cons, List.foldl_nil, perform, SkipList.get_put, ih,
      lastPut_concat]

theorem lastPut_isSome_iff (calls : List Call) (key : Bytes) :
    (lastPut calls key).isSome = true ↔ key ∈ calls.map Call.key := by
  simp [lastPut, List.find?_isSome]

theorem weighed_foldl_perform (calls : List Call) : (calls.foldl perform .empty).Weighed := by
  induction calls using List.reverseRecOn with
  | nil => rfl
  | append_singleton calls call ih =>
    rw [List.foldl_append]
    exact ih.put _ _ _

private theorem sorted_entries (sl : SkipList) : KWayMerge.Sorted compareKeys sl.entries :=
  List.pairwise_map.mpr sl.sorted

/-- There are as many nodes as keys that were written. -/
theorem length_nodes_foldl_perform (calls : List Call) :
    (calls.foldl perform .empty).nodes.length = (calls.map Call.key).dedup.length := by
  have hsorted := (calls.foldl perform .empty).sorted
  have hnodup : ((calls.foldl perform .empty).nodes.map Node.key).Nodup :=
    List.pairwise_map.mpr (hsorted.imp fun hlt => compareKeys_ne_of_lt hlt)
  have hmem : ∀ key, key ∈ (calls.foldl perform .empty).nodes.map Node.key ↔
      key ∈ calls.map Call.key := by
    intro key
    rw [← lastPut_isSome_iff, ← get_foldl_perform, ← SkipList.lookup_entries,
      Option.isSome_iff_exists]
    constructor
    · intro hkey
      obtain ⟨n, hn, rfl⟩ := List.mem_map.mp hkey
      exact ⟨n.value, (KWayMerge.lookup_eq_some_iff (sorted_entries _)).mpr
        (List.mem_map.mpr ⟨n, hn, rfl⟩)⟩
    · rintro ⟨value, hvalue⟩
      obtain ⟨n, hn, heq⟩ := List.mem_map.mp
        ((KWayMerge.lookup_eq_some_iff (sorted_entries _)).mp hvalue)
      exact List.mem_map.mpr ⟨n, hn, congrArg Prod.fst heq⟩
  rw [← List.length_map Node.key]
  exact ((List.perm_ext_iff_of_nodup hnodup (List.nodup_dedup _)).mpr fun key => by
    rw [hmem, List.mem_dedup]).length_eq

/-- **The skip list is a sorted map**, after any calls and whatever heights are drawn: no access
fails; the bottom level is sorted and each level a part of the one below; `Get` yields what was put
last; iterators run through the keys in order, from the first one or from the first one that is not
below a target; and the counters are the number of keys and the size of the nodes. -/
theorem towers_sorted_map (calls : List Call) :
    ∃ t, Machine.run step new calls = some t ∧ ∃ levels : ℕ → List Ptr,
      (∀ i < maxLevel, t.levelNodes i = some (levels i)) ∧
      (levels 0).Pairwise (fun p q => compareKeys (t.nodes p).key (t.nodes q).key = .lt) ∧
      (∀ i, (levels (i + 1)).Sublist (levels i)) ∧
      (∀ key, t.get key = some (lastPut calls key)) ∧
      (∃ es : List Entry, es.Pairwise (fun a b => compareKeys a.1 b.1 = .lt) ∧
        (∀ key value, (key, value) ∈ es ↔ lastPut calls key = some value) ∧
        ∀ fuel, es.length ≤ fuel → t.seekToFirst.bind (t.iterate fuel) = some es ∧
          ∀ target, (t.seek target).bind (t.iterate fuel) =
            some (es.dropWhile fun e => compareKeys e.1 target = .lt)) ∧
      t.size = (calls.map Call.key).dedup.length ∧
      t.memSize = ((levels 0).map fun p => (32 + (t.nodes p).key.length +
        ((t.nodes p).value.getD []).length + 8 * t.height p : ℤ)).sum := by
  obtain ⟨t, ns, hrun, h⟩ := refines_new.run calls
  have hlen : (calls.foldl perform .empty).entries.length = ns.length := by
    rw [h.entries_eq, List.length_map]
  have hsorted := sorted_entries (calls.foldl perform .empty)
  refine ⟨t, hrun, t.above ns, fun i hi => h.levelNodes hi, ?_, t.above_sublist ns, fun key => ?_,
    ⟨_, hsorted, fun key value => ?_, fun fuel hfuel => ⟨?_, fun target => ?_⟩⟩, ?_, ?_⟩
  · rw [h.above_zero]
    exact h.sorted
  · rw [h.get, get_foldl_perform]
  · rw [← KWayMerge.lookup_eq_some_iff hsorted, SkipList.lookup_entries, get_foldl_perform]
  · exact h.seekToFirst (by omega)
  · exact h.seek target (by omega)
  · rw [h.size_eq, ← length_nodes_foldl_perform, h.nodes_eq, List.length_map]
  · rw [h.memSize_eq, weighed_foldl_perform, h.nodes_eq, h.above_zero, nodesCost, List.map_map]
    rfl

end Towers

end Stratum.Memtable
