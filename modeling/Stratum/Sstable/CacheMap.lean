import Mathlib.Data.List.AList
import Stratum.Sstable.CacheHistory

/-!
# The block cache with its map

`MapShard` is a shard as it lies in memory. The items are the values of **list elements**, each with
an address; the list has them in order of use, and a map of maps leads from a file and an offset to
the element. `Get`, `Put`, the eviction loop and `RemoveFile` each update the list, the maps and the
byte counter on their own. Maps are visited in any order (`RangeOrder`).

`MapShard.Inv` says that list and maps name the same elements and that no map of a file is empty.
Every operation keeps it and computes what the operation of `CacheShard` does on the items
(`MapShard.abs`), so that `blockCache_correct` follows from the history of the calls.
-/

namespace Stratum.Sstable

/-- The order in which `range` visits the elements of a map. -/
structure RangeOrder where
  visit : List ℕ → List ℕ
  perm : ∀ es, (visit es).Perm es

/-- The map of a file, from offsets to elements. -/
abbrev FileMap := AList fun _ : ℕ => ℕ

/-- `items[fileID][offset]`. -/
def elementIn (items : AList fun _ : ℕ => FileMap) (fileID offset : ℕ) : Option ℕ :=
  (items.lookup fileID).bind fun fileMap => fileMap.lookup offset

/-- `cacheShard`: the maps, the values of the elements, the list with the front first, the next free
address, and the two counters. -/
structure MapShard where
  items : AList fun _ : ℕ => FileMap
  elems : ℕ → CacheItem
  order : List ℕ
  fresh : ℕ
  size : ℤ
  cap : ℤ

namespace MapShard

/-- The element of a block. -/
def element (sh : MapShard) (fileID offset : ℕ) : Option ℕ := elementIn sh.items fileID offset

/-- `MoveToFront`. -/
def moveToFront (order : List ℕ) (e : ℕ) : List ℕ :=
  if e ∈ order then e :: order.erase e else order

/-- `BlockCache.Get` in the shard. -/
def get (sh : MapShard) (fileID offset : ℕ) : MapShard × Option Bytes :=
  match sh.element fileID offset with
  | some e => ({ sh with order := moveToFront sh.order e }, some (sh.elems e).data)
  | none => (sh, none)

/-- One round of the eviction loop. -/
def evictOne (sh : MapShard) (back : ℕ) : MapShard :=
  let evicted := sh.elems back
  let fileMap := ((sh.items.lookup evicted.fileID).getD ∅).erase evicted.offset
  { sh with
    order := sh.order.erase back
    size := sh.size - evicted.data.length
    items := if fileMap.entries.length = 0 then sh.items.erase evicted.fileID
      else sh.items.insert evicted.fileID fileMap }

/-- The eviction loop, at most as many rounds as there are elements. -/
def evictLoop : ℕ → MapShard → MapShard
  | 0, sh => sh
  | n + 1, sh =>
    if sh.cap < sh.size then
      match sh.order.getLast? with
      | some back => evictLoop n (sh.evictOne back)
      | none => sh
    else sh

/-- Evict while the shard is over its capacity. -/
def evict (sh : MapShard) : MapShard := evictLoop sh.order.length sh

/-- `BlockCache.Put` in the shard. -/
def put (sh : MapShard) (fileID offset : ℕ) (data : Bytes) : MapShard :=
  let fileMap := (sh.items.lookup fileID).getD ∅
  let items := if (sh.items.lookup fileID).isSome then sh.items else sh.items.insert fileID ∅
  match fileMap.lookup offset with
  | some e =>
    evict { sh with
      items := items
      elems := Function.update sh.elems e { sh.elems e with data := data }
      size := sh.size + (data.length - (sh.elems e).data.length)
      order := moveToFront sh.order e }
  | none =>
    evict { sh with
      items := items.insert fileID (fileMap.insert offset sh.fresh)
      elems := Function.update sh.elems sh.fresh ⟨fileID, offset, data⟩
      order := sh.fresh :: sh.order
      fresh := sh.fresh + 1
      size := sh.size + data.length }

/-- An element of a file that is removed. -/
def remove (sh : MapShard) (e : ℕ) : MapShard :=
  { sh with order := sh.order.erase e, size := sh.size - (sh.elems e).data.length }

/-- `BlockCache.RemoveFile` in the shard. -/
def removeFile (sh : MapShard) (range : RangeOrder) (fileID : ℕ) : MapShard :=
  match sh.items.lookup fileID with
  | some fileMap =>
    let sh := (range.visit (fileMap.entries.map Sigma.snd)).foldl remove sh
    { sh with items := sh.items.erase fileID }
  | none => sh

/-! ### The items of a shard -/

/-- The shard without its maps and addresses. -/
def abs (sh : MapShard) : CacheShard := ⟨sh.order.map sh.elems, sh.size, sh.cap⟩

/-- **The invariant**: the maps lead to the elements of the list, and only to them. -/
structure Inv (sh : MapShard) : Prop where
  nodup : sh.order.Nodup
  lt_fresh : ∀ e ∈ sh.order, e < sh.fresh
  linked : ∀ f o e, sh.element f o = some e ↔ e ∈ sh.order ∧ (sh.elems e).key = (f, o)
  nonempty : ∀ f fileMap, sh.items.lookup f = some fileMap → fileMap ≠ ∅

variable {sh : MapShard} {fileID offset e : ℕ} {data : Bytes}

namespace Inv

theorem elems_inj (h : sh.Inv) {e e' : ℕ} (he : e ∈ sh.order) (he' : e' ∈ sh.order)
    (hkey : (sh.elems e).key = (sh.elems e').key) : e = e' := by
  have h₁ := (h.linked _ _ e).mpr ⟨he, rfl⟩
  have h₂ := (h.linked _ _ e').mpr ⟨he', hkey.symm⟩
  exact Option.some.inj (h₁.symm.trans h₂)

/-- The search in the list is what the maps know. -/
theorem item?_abs (h : sh.Inv) (fileID offset : ℕ) :
    sh.abs.item? fileID offset = (sh.element fileID offset).map sh.elems := by
  rw [CacheShard.item?, abs, List.find?_map]
  congr 1
  rcases he : sh.element fileID offset with _ | e
  · refine List.find?_eq_none.mpr fun e' he' hkey => ?_
    have hkey : (sh.elems e').key = (fileID, offset) := by
      simpa [CacheItem.key] using hkey
    exact Option.some_ne_none _ (((h.linked _ _ e').mpr ⟨he', hkey⟩).symm.trans he)
  · obtain ⟨hmem, hkey⟩ := (h.linked _ _ e).mp he
    rcases hfind : sh.order.find? _ with _ | e'
    · have hno := List.find?_eq_none.mp hfind e hmem
      simp only [CacheItem.key, Prod.mk.injEq] at hkey
      exact absurd (by simpa using hkey) hno
    · have hmem' := List.mem_of_find?_eq_some hfind
      have hkey' := List.find?_some hfind
      simp only [Function.comp_apply, decide_eq_true_eq] at hkey'
      exact congrArg some (h.elems_inj hmem' hmem (by rw [hkey]; exact Prod.ext_iff.mpr hkey'))

theorem map_erase (h : sh.Inv) (he : e ∈ sh.order) :
    (sh.order.map sh.elems).erase (sh.elems e) = (sh.order.erase e).map sh.elems := by
  have hnodup : (sh.order.map sh.elems).Nodup := h.nodup.map_on fun e₁ h₁ e₂ h₂ heq =>
    h.elems_inj h₁ h₂ (by rw [heq])
  rw [hnodup.erase_eq_filter, h.nodup.erase_eq_filter, List.filter_map]
  refine congrArg _ (List.filter_congr fun e' he' => ?_)
  rw [Bool.eq_iff_iff]
  simp only [Function.comp_apply, bne_iff_ne, ne_eq, not_iff_not]
  exact ⟨fun heq => h.elems_inj he' he (by rw [heq]), fun heq => by rw [heq]⟩

/-- Moving an element to the front changes nothing but the order. -/
theorem moveToFront_perm (order : List ℕ) (e : ℕ) : (moveToFront order e).Perm order := by
  rw [moveToFront]
  split
  · rename_i he
    exact (List.perm_cons_erase he).symm
  · rfl

/-- A shard with the same elements, in another order. -/
theorem reorder (h : sh.Inv) {order : List ℕ} (hperm : order.Perm sh.order) :
    { sh with order := order }.Inv where
  nodup := hperm.nodup_iff.mpr h.nodup
  lt_fresh e he := h.lt_fresh e (hperm.mem_iff.mp he)
  linked f o e := (h.linked f o e).trans (and_congr_left' hperm.mem_iff.symm)
  nonempty := h.nonempty

end Inv

/-! ### `Get` -/

theorem Inv.get (h : sh.Inv) (fileID offset : ℕ) : (sh.get fileID offset).1.Inv ∧
    (sh.get fileID offset).1.abs = (sh.abs.get fileID offset).1 ∧
      (sh.get fileID offset).2 = (sh.abs.get fileID offset).2 := by
  rw [MapShard.get, CacheShard.get, h.item?_abs]
  rcases he : sh.element fileID offset with _ | e
  · exact ⟨h, rfl, rfl⟩
  · have hmem := ((h.linked _ _ e).mp he).1
    refine ⟨h.reorder (Inv.moveToFront_perm _ _), ?_, rfl⟩
    simp only [Option.map_some, abs, moveToFront, if_pos hmem, List.map_cons, h.map_erase hmem]

/-! ### The maps -/

section Maps

variable {items : AList fun _ : ℕ => FileMap} {fileMap : FileMap}

theorem elementIn_insert (items : AList fun _ : ℕ => FileMap) (fileID : ℕ) (fileMap : FileMap)
    (f o : ℕ) : elementIn (items.insert fileID fileMap) f o =
      if f = fileID then fileMap.lookup o else elementIn items f o := by
  by_cases hf : f = fileID
  · subst hf
    simp [elementIn]
  · simp [elementIn, AList.lookup_insert_ne hf, hf]

theorem elementIn_erase (items : AList fun _ : ℕ => FileMap) (fileID f o : ℕ) :
    elementIn (items.erase fileID) f o = if f = fileID then none else elementIn items f o := by
  by_cases hf : f = fileID
  · subst hf
    simp [elementIn]
  · simp [elementIn, AList.lookup_erase_ne hf, hf]

/-- What the map of a file says, whether there is one or not. -/
theorem lookup_getD (items : AList fun _ : ℕ => FileMap) (fileID offset : ℕ) :
    ((items.lookup fileID).getD ∅).lookup offset = elementIn items fileID offset := by
  rw [elementIn]
  rcases items.lookup fileID with _ | fileMap
  · rfl
  · rfl

theorem length_entries_eq_zero : fileMap.entries.length = 0 ↔ fileMap = ∅ := by
  rw [List.length_eq_zero_iff]
  exact ⟨fun h => AList.ext h, fun h => by rw [h]; rfl⟩

end Maps

/-! ### Eviction -/

/-- The element goes from its map, and the map with it when it was the last one. -/
theorem element_evictOne (sh : MapShard) (back f o : ℕ) :
    (sh.evictOne back).element f o =
      if (sh.elems back).key = (f, o) then none else sh.element f o := by
  have hlookup : ∀ o, (((sh.items.lookup (sh.elems back).fileID).getD ∅).erase
      (sh.elems back).offset).lookup o =
        if o = (sh.elems back).offset then none else sh.element (sh.elems back).fileID o := by
    intro o
    by_cases ho : o = (sh.elems back).offset
    · rw [if_pos ho, ho, AList.lookup_erase]
    · rw [if_neg ho, AList.lookup_erase_ne ho, lookup_getD]
      rfl
  have hkey : (sh.elems back).key = (f, o) ↔
      f = (sh.elems back).fileID ∧ o = (sh.elems back).offset := by
    rw [CacheItem.key, Prod.mk.injEq, eq_comm, @eq_comm _ _ o]
  rw [element, MapShard.evictOne]
  dsimp only
  split
  · rename_i hempty
    rw [elementIn_erase]
    by_cases hf : f = (sh.elems back).fileID
    · rw [if_pos hf, hf]
      have hnone := hlookup o
      rw [length_entries_eq_zero.mp hempty, AList.lookup_empty] at hnone
      rw [hf] at hkey
      split
      · rfl
      · rename_i hne
        rwa [if_neg fun ho => hne (hkey.mpr ⟨rfl, ho⟩)] at hnone
    · rw [if_neg hf, if_neg fun heq => hf (hkey.mp heq).1]
      rfl
  · rw [elementIn_insert]
    by_cases hf : f = (sh.elems back).fileID
    · rw [hf] at hkey ⊢
      rw [if_pos rfl, hlookup]
      simp only [hkey, true_and]
    · rw [if_neg hf, if_neg fun heq => hf (hkey.mp heq).1]
      rfl

theorem Inv.evictOne (h : sh.Inv) {back : ℕ} (hback : back ∈ sh.order) :
    (sh.evictOne back).Inv where
  nodup := h.nodup.erase back
  lt_fresh e he := h.lt_fresh e (List.mem_of_mem_erase he)
  linked f o e := by
    rw [element_evictOne]
    have hmem : e ∈ (sh.evictOne back).order ↔ e ≠ back ∧ e ∈ sh.order := h.nodup.mem_erase_iff
    rw [hmem]
    change _ ↔ _ ∧ (sh.elems e).key = (f, o)
    split
    · rename_i hkey
      refine iff_of_false (by simp) ?_
      rintro ⟨⟨hne, he⟩, hkey'⟩
      exact hne (h.elems_inj he hback (hkey'.trans hkey.symm))
    · rename_i hkey
      rw [h.linked]
      refine ⟨fun ⟨he, hkey'⟩ => ⟨⟨?_, he⟩, hkey'⟩, fun ⟨⟨_, he⟩, hkey'⟩ => ⟨he, hkey'⟩⟩
      rintro rfl
      exact hkey hkey'
  nonempty f fileMap hf := by
    rw [MapShard.evictOne] at hf
    dsimp only at hf
    split at hf
    · by_cases hfile : f = (sh.elems back).fileID
      · rw [hfile, AList.lookup_erase] at hf
        cases hf
      · rw [AList.lookup_erase_ne hfile] at hf
        exact h.nonempty f fileMap hf
    · rename_i hempty
      by_cases hfile : f = (sh.elems back).fileID
      · rw [hfile, AList.lookup_insert] at hf
        obtain rfl := Option.some.inj hf
        exact fun heq => hempty (length_entries_eq_zero.mpr heq)
      · rw [AList.lookup_insert_ne hfile] at hf
        exact h.nonempty f fileMap hf

/-- **The eviction loop** on the maps is the one on the items. -/
theorem Inv.evictLoop (h : sh.Inv) {n : ℕ} (hn : sh.order.length ≤ n) :
    (evictLoop n sh).Inv ∧ (MapShard.evictLoop n sh).abs = sh.abs.evict := by
  induction n generalizing sh with
  | zero =>
    have hnil : sh.order = [] := List.eq_nil_of_length_eq_zero (Nat.le_zero.mp hn)
    refine ⟨h, ?_⟩
    simp [MapShard.evictLoop, abs, CacheShard.evict, hnil, CacheShard.evictFrom]
  | succ n ih =>
    rcases List.eq_nil_or_concat' sh.order with hnil | ⟨init, back, horder⟩
    · have hstop : MapShard.evictLoop (n + 1) sh = sh := by
        rw [MapShard.evictLoop, hnil]
        split <;> rfl
      rw [hstop]
      refine ⟨h, ?_⟩
      simp [abs, CacheShard.evict, hnil, CacheShard.evictFrom]
    · have hreverse : (sh.order.map sh.elems).reverse =
          sh.elems back :: (init.map sh.elems).reverse := by
        rw [horder]
        simp
      by_cases hover : sh.cap < sh.size
      · have hback : back ∈ sh.order := by
          rw [horder]
          simp
        have hnot : back ∉ init := by
          have hnodup := h.nodup
          rw [horder, List.nodup_append] at hnodup
          exact fun hmem => hnodup.2.2 back hmem back (by simp) rfl
        have herase : sh.order.erase back = init := by
          rw [horder, List.erase_append_right _ hnot]
          simp
        have hlen : (sh.evictOne back).order.length ≤ n := by
          rw [horder, List.length_append, List.length_singleton] at hn
          rw [show (sh.evictOne back).order = init from herase]
          omega
        obtain ⟨hinv, habs⟩ := ih (h.evictOne hback) hlen
        have hloop : MapShard.evictLoop (n + 1) sh =
            MapShard.evictLoop n (sh.evictOne back) := by
          rw [MapShard.evictLoop, if_pos hover, horder, List.getLast?_concat]
        rw [hloop]
        refine ⟨hinv, habs.trans ?_⟩
        simp only [abs, CacheShard.evict, hreverse, CacheShard.evictFrom, if_pos hover,
          MapShard.evictOne, herase]
      · have hloop : MapShard.evictLoop (n + 1) sh = sh := by
          rw [MapShard.evictLoop, if_neg hover]
        rw [hloop]
        refine ⟨h, ?_⟩
        simp only [abs, CacheShard.evict, hreverse, CacheShard.evictFrom, if_neg hover]
        rw [← hreverse, List.reverse_reverse]

theorem Inv.evict (h : sh.Inv) : sh.evict.Inv ∧ sh.evict.abs = sh.abs.evict :=
  h.evictLoop le_rfl

/-! ### `Put` -/

/-- New data for an element. -/
def replaced (sh : MapShard) (e : ℕ) (data : Bytes) : MapShard :=
  { sh with
    elems := Function.update sh.elems e { sh.elems e with data := data }
    size := sh.size + (data.length - (sh.elems e).data.length)
    order := moveToFront sh.order e }

/-- A new element, in the map of its file. -/
def added (sh : MapShard) (fileID offset : ℕ) (data : Bytes) : MapShard :=
  { sh with
    items := (if (sh.items.lookup fileID).isSome then sh.items
      else sh.items.insert fileID ∅).insert fileID
        (((sh.items.lookup fileID).getD ∅).insert offset sh.fresh)
    elems := Function.update sh.elems sh.fresh ⟨fileID, offset, data⟩
    order := sh.fresh :: sh.order
    fresh := sh.fresh + 1
    size := sh.size + data.length }

/-- The two cases of `Put`. -/
theorem put_eq (sh : MapShard) (fileID offset : ℕ) (data : Bytes) :
    sh.put fileID offset data =
      match sh.element fileID offset with
      | some e => (sh.replaced e data).evict
      | none => (sh.added fileID offset data).evict := by
  rw [MapShard.put]
  simp only [lookup_getD]
  rw [element]
  rcases he : elementIn sh.items fileID offset with _ | e
  · rfl
  · have hsome : (sh.items.lookup fileID).isSome = true := by
      rw [elementIn, Option.bind_eq_some_iff] at he
      obtain ⟨fileMap, hmap, -⟩ := he
      rw [hmap]
      rfl
    simp only [if_pos hsome]
    rfl

theorem Inv.replaced (h : sh.Inv) (he : sh.element fileID offset = some e) (data : Bytes) :
    (sh.replaced e data).Inv ∧ (sh.replaced e data).abs =
      { sh.abs with
        order := ⟨fileID, offset, data⟩ :: sh.abs.order.erase (sh.elems e)
        size := sh.size + (data.length - (sh.elems e).data.length) } := by
  obtain ⟨hmem, hkey⟩ := (h.linked _ _ e).mp he
  have hself : (sh.replaced e data).elems e = { sh.elems e with data := data } :=
    Function.update_self ..
  have hother : ∀ e', e' ≠ e → (sh.replaced e data).elems e' = sh.elems e' := fun e' hne =>
    Function.update_of_ne hne _ _
  have hkeys : ∀ e', ((sh.replaced e data).elems e').key = (sh.elems e').key := by
    intro e'
    by_cases hne : e' = e
    · rw [hne, hself]
      rfl
    · rw [hother e' hne]
  have hreorder := h.reorder (Inv.moveToFront_perm sh.order e)
  refine ⟨⟨hreorder.nodup, hreorder.lt_fresh, fun f o e' => ?_, h.nonempty⟩, ?_⟩
  · rw [hkeys]
    exact hreorder.linked f o e'
  · have hfirst : (sh.replaced e data).elems e = ⟨fileID, offset, data⟩ := by
      obtain ⟨hfile, hoffset⟩ := Prod.mk.inj hkey
      rw [hself, ← hfile, ← hoffset]
    have hrest : (sh.order.erase e).map (sh.replaced e data).elems =
        (sh.order.map sh.elems).erase (sh.elems e) := by
      rw [h.map_erase hmem]
      exact List.map_congr_left fun e' he' => hother e' (h.nodup.mem_erase_iff.mp he').1
    have horder : (sh.replaced e data).order = e :: sh.order.erase e := if_pos hmem
    rw [abs, horder, List.map_cons, hfirst, hrest]
    rfl

theorem element_added (sh : MapShard) (fileID offset : ℕ) (data : Bytes) (f o : ℕ) :
    (sh.added fileID offset data).element f o =
      if (f, o) = (fileID, offset) then some sh.fresh else sh.element f o := by
  have hitems : elementIn (if (sh.items.lookup fileID).isSome then sh.items
      else sh.items.insert fileID ∅) f o = sh.element f o := by
    split
    · rfl
    · rename_i hnone
      rw [elementIn_insert]
      split
      · rename_i hf
        rw [AList.lookup_empty, hf, element, elementIn,
          Option.not_isSome_iff_eq_none.mp hnone, Option.bind_none]
      · rfl
  rw [element, MapShard.added, elementIn_insert, hitems]
  by_cases hf : f = fileID
  · by_cases ho : o = offset
    · rw [if_pos hf, ho, AList.lookup_insert, if_pos (by rw [hf])]
    · rw [if_pos hf, AList.lookup_insert_ne ho, lookup_getD,
        if_neg fun heq => ho (Prod.mk.inj heq).2, hf]
      rfl
  · rw [if_neg hf, if_neg fun heq => hf (Prod.mk.inj heq).1]

theorem Inv.fresh_notMem (h : sh.Inv) : sh.fresh ∉ sh.order := fun hmem =>
  lt_irrefl _ (h.lt_fresh _ hmem)

theorem elems_added_fresh (sh : MapShard) (fileID offset : ℕ) (data : Bytes) :
    (sh.added fileID offset data).elems sh.fresh = ⟨fileID, offset, data⟩ :=
  Function.update_self ..

theorem Inv.elems_added (h : sh.Inv) (data : Bytes) (he : e ∈ sh.order) :
    (sh.added fileID offset data).elems e = sh.elems e := by
  have hne : e ≠ sh.fresh := fun heq => h.fresh_notMem (heq ▸ he)
  exact Function.update_of_ne hne _ _

theorem Inv.linked_added (h : sh.Inv) (hnone : sh.element fileID offset = none) (data : Bytes)
    (f o e : ℕ) : (sh.added fileID offset data).element f o = some e ↔
      (e = sh.fresh ∨ e ∈ sh.order) ∧
        ((sh.added fileID offset data).elems e).key = (f, o) := by
  rw [element_added]
  split
  · rename_i hkey
    rw [Option.some.injEq, hkey]
    constructor
    · rintro rfl
      exact ⟨.inl rfl, by rw [elems_added_fresh]; rfl⟩
    · rintro ⟨rfl | hold, hkey'⟩
      · rfl
      · rw [h.elems_added data hold] at hkey'
        exact absurd (((h.linked _ _ e).mpr ⟨hold, hkey'⟩).symm.trans hnone) (by simp)
  · rename_i hkey
    rw [h.linked]
    constructor
    · rintro ⟨hold, hkey'⟩
      exact ⟨.inr hold, by rw [h.elems_added data hold]; exact hkey'⟩
    · rintro ⟨rfl | hold, hkey'⟩
      · rw [elems_added_fresh] at hkey'
        exact absurd hkey'.symm hkey
      · rw [h.elems_added data hold] at hkey'
        exact ⟨hold, hkey'⟩

theorem Inv.nonempty_added (h : sh.Inv) (data : Bytes) {f : ℕ} {fileMap : FileMap}
    (hf : (sh.added fileID offset data).items.lookup f = some fileMap) : fileMap ≠ ∅ := by
  rw [MapShard.added] at hf
  dsimp only at hf
  by_cases hfile : f = fileID
  · rw [hfile, AList.lookup_insert] at hf
    obtain rfl := Option.some.inj hf
    intro hempty
    have hlookup := AList.lookup_insert (a := offset) (b := sh.fresh)
      ((sh.items.lookup fileID).getD ∅)
    rw [hempty] at hlookup
    exact Option.some_ne_none _ hlookup.symm
  · rw [AList.lookup_insert_ne hfile] at hf
    split at hf
    · exact h.nonempty f fileMap hf
    · rw [AList.lookup_insert_ne hfile] at hf
      exact h.nonempty f fileMap hf

theorem Inv.added (h : sh.Inv) (he : sh.element fileID offset = none) (data : Bytes) :
    (sh.added fileID offset data).Inv ∧ (sh.added fileID offset data).abs =
      { sh.abs with
        order := ⟨fileID, offset, data⟩ :: sh.abs.order
        size := sh.size + data.length } := by
  refine ⟨⟨?_, fun e hmem => ?_, fun f o e => ?_, fun f fileMap hf => h.nonempty_added data hf⟩, ?_⟩
  · exact List.nodup_cons.mpr ⟨h.fresh_notMem, h.nodup⟩
  · rcases List.mem_cons.mp hmem with rfl | hmem
    · exact Nat.lt_succ_self _
    · exact Nat.lt_succ_of_lt (h.lt_fresh e hmem)
  · rw [h.linked_added he]
    exact and_congr_left' List.mem_cons.symm
  · have hrest : sh.order.map (sh.added fileID offset data).elems = sh.order.map sh.elems :=
      List.map_congr_left fun e => h.elems_added data
    have horder : (sh.added fileID offset data).order = sh.fresh :: sh.order := rfl
    rw [abs, horder, List.map_cons, elems_added_fresh, hrest]
    rfl

/-- **`Put`** on the maps is `Put` on the items. -/
theorem Inv.put (h : sh.Inv) (fileID offset : ℕ) (data : Bytes) :
    (sh.put fileID offset data).Inv ∧
      (sh.put fileID offset data).abs = sh.abs.put fileID offset data := by
  rw [put_eq, CacheShard.put, h.item?_abs]
  rcases he : sh.element fileID offset with _ | e
  · obtain ⟨hinv, habs⟩ := h.added he data
    exact ⟨hinv.evict.1, by rw [hinv.evict.2, habs]; rfl⟩
  · obtain ⟨hinv, habs⟩ := h.replaced he data
    exact ⟨hinv.evict.1, by rw [hinv.evict.2, habs]; rfl⟩

/-! ### `RemoveFile` -/

theorem foldl_remove (sh : MapShard) (es : List ℕ) : es.foldl remove sh =
    { sh with
      order := sh.order.diff es
      size := sh.size - (es.map fun e => ((sh.elems e).data.length : ℤ)).sum } := by
  induction es generalizing sh with
  | nil => simp
  | cons e es ih =>
    rw [List.foldl_cons, ih, List.diff_cons, List.map_cons, List.sum_cons, ← sub_sub]
    rfl

/-- The elements of a file are those that its map leads to. -/
theorem Inv.perm_entries (h : sh.Inv) {fileMap : FileMap}
    (hmap : sh.items.lookup fileID = some fileMap) : (fileMap.entries.map Sigma.snd).Perm
      (sh.order.filter fun e => decide ((sh.elems e).fileID = fileID)) := by
  have hlookup : ∀ o e, (⟨o, e⟩ : Sigma fun _ : ℕ => ℕ) ∈ fileMap.entries ↔
      e ∈ sh.order ∧ (sh.elems e).key = (fileID, o) := by
    intro o e
    rw [← h.linked, ← AList.mem_lookup_iff, element, elementIn, hmap, Option.bind_some,
      Option.mem_def]
  have hentries : fileMap.entries.Nodup := .of_map _ fileMap.keys_nodup
  refine (List.perm_ext_iff_of_nodup (hentries.map_on ?_) (h.nodup.filter _)).mpr fun e => ?_
  · rintro ⟨o, e⟩ ho ⟨o', e'⟩ ho' heq
    obtain rfl : e = e' := heq
    have hkey := ((hlookup o e).mp ho).2.symm.trans ((hlookup o' e).mp ho').2
    obtain rfl : o = o' := (Prod.mk.inj hkey).2
    rfl
  · rw [List.mem_filter, decide_eq_true_eq, List.mem_map]
    constructor
    · rintro ⟨⟨o, e⟩, ho, rfl⟩
      obtain ⟨he, hkey⟩ := (hlookup o e).mp ho
      exact ⟨he, (Prod.mk.inj hkey).1⟩
    · rintro ⟨he, rfl⟩
      exact ⟨⟨_, e⟩, (hlookup _ e).mpr ⟨he, rfl⟩, rfl⟩

/-- The shard without the elements of a file. -/
def without (sh : MapShard) (fileID : ℕ) : MapShard :=
  { sh with
    order := sh.order.filter fun e => decide ((sh.elems e).fileID ≠ fileID)
    size := sh.size - ((sh.order.filter fun e => decide ((sh.elems e).fileID = fileID)).map
      fun e => ((sh.elems e).data.length : ℤ)).sum
    items := sh.items.erase fileID }

theorem abs_without (sh : MapShard) (fileID : ℕ) :
    (sh.without fileID).abs = sh.abs.removeFile fileID := by
  rw [CacheShard.removeFile_eq, abs, abs, without]
  simp only [List.filter_map, CacheShard.total, List.map_map]
  rfl

theorem Inv.without (h : sh.Inv) (fileID : ℕ) : (sh.without fileID).Inv where
  nodup := h.nodup.filter _
  lt_fresh e he := h.lt_fresh e (List.mem_filter.mp he).1
  linked f o e := by
    have hmem : e ∈ (sh.without fileID).order ↔ e ∈ sh.order ∧ (sh.elems e).fileID ≠ fileID := by
      rw [MapShard.without, List.mem_filter, decide_eq_true_eq]
    rw [hmem, element, MapShard.without, elementIn_erase]
    change _ ↔ _ ∧ (sh.elems e).key = (f, o)
    split
    · rename_i hf
      refine iff_of_false (by simp) ?_
      rintro ⟨⟨-, hne⟩, hkey⟩
      exact hne ((Prod.mk.inj hkey).1.trans hf)
    · rename_i hf
      rw [show elementIn sh.items f o = sh.element f o from rfl, h.linked]
      refine ⟨fun ⟨he, hkey⟩ => ⟨⟨he, ?_⟩, hkey⟩, fun ⟨⟨he, _⟩, hkey⟩ => ⟨he, hkey⟩⟩
      rw [(Prod.mk.inj hkey).1]
      exact hf
  nonempty f fileMap hf := by
    by_cases hfile : f = fileID
    · rw [hfile, MapShard.without, AList.lookup_erase] at hf
      cases hf
    · rw [MapShard.without, AList.lookup_erase_ne hfile] at hf
      exact h.nonempty f fileMap hf

/-- **`RemoveFile`** on the maps is `RemoveFile` on the items, whatever order the map is visited
in. -/
theorem Inv.removeFile (h : sh.Inv) (range : RangeOrder) (fileID : ℕ) :
    (sh.removeFile range fileID).Inv ∧
      (sh.removeFile range fileID).abs = sh.abs.removeFile fileID := by
  rw [MapShard.removeFile]
  rcases hmap : sh.items.lookup fileID with _ | fileMap
  · have hno : ∀ e ∈ sh.order, (sh.elems e).fileID ≠ fileID := by
      intro e he hfile
      have helem := (h.linked _ _ e).mpr ⟨he, rfl⟩
      rw [hfile, element, elementIn, hmap] at helem
      cases helem
    have hkept : (sh.order.filter fun e => decide ((sh.elems e).fileID ≠ fileID)) = sh.order :=
      List.filter_eq_self.mpr fun e he => decide_eq_true (hno e he)
    have hgone : (sh.order.filter fun e => decide ((sh.elems e).fileID = fileID)) = [] :=
      List.filter_eq_nil_iff.mpr fun e he hfile => hno e he (of_decide_eq_true hfile)
    refine ⟨h, ?_⟩
    rw [← abs_without, abs, abs, MapShard.without]
    simp only [hkept, hgone, List.map_nil, List.sum_nil, sub_zero]
  · have hperm := (range.perm _).trans (h.perm_entries hmap)
    have hwithout : { (range.visit (fileMap.entries.map Sigma.snd)).foldl remove sh with
        items := sh.items.erase fileID } = sh.without fileID := by
      rw [foldl_remove, MapShard.without, h.nodup.sdiff_eq_filter, (hperm.map _).sum_eq]
      dsimp only
      congr 1
      refine List.filter_congr fun e he => ?_
      rw [decide_eq_decide, hperm.mem_iff, List.mem_filter, decide_eq_true_eq]
      exact not_congr (and_iff_right he)
    have hitems : ((range.visit (fileMap.entries.map Sigma.snd)).foldl remove sh).items
        = sh.items := by
      rw [foldl_remove]
    simp only [hitems, hwithout]
    exact ⟨h.without fileID, sh.abs_without fileID⟩

end MapShard

/-! ### The cache -/

/-- `BlockCache`. -/
structure MapCache where
  shards : Fin numShards → MapShard

namespace MapCache

open BlockCache (getShard)

/-- `NewBlockCache`. -/
def new (capacityBytes : ℤ) : MapCache :=
  let shardCap := capacityBytes.tdiv numShards
  ⟨fun _ => ⟨∅, fun _ => ⟨0, 0, []⟩, [], 0, 0, if shardCap < 1 then 1 else shardCap⟩⟩

/-- `BlockCache.Get`. -/
def get (c : MapCache) (fileID offset : ℕ) : MapCache × Option Bytes :=
  let i := getShard fileID offset
  let (sh, data) := (c.shards i).get fileID offset
  (⟨Function.update c.shards i sh⟩, data)

/-- `BlockCache.Put`. -/
def put (c : MapCache) (fileID offset : ℕ) (data : Bytes) : MapCache :=
  let i := getShard fileID offset
  ⟨Function.update c.shards i ((c.shards i).put fileID offset data)⟩

/-- `BlockCache.RemoveFile`, with the order in which each shard visits its map. -/
def removeFile (c : MapCache) (range : Fin numShards → RangeOrder) (fileID : ℕ) : MapCache :=
  ⟨fun i => (c.shards i).removeFile (range i) fileID⟩

/-- A call of one of the methods. -/
inductive Call
  | get (fileID offset : ℕ)
  | put (fileID offset : ℕ) (data : Bytes)
  | removeFile (range : Fin numShards → RangeOrder) (fileID : ℕ)

/-- The call without the order of the maps. -/
def Call.plain : Call → BlockCache.Call
  | .get fileID offset => .get fileID offset
  | .put fileID offset data => .put fileID offset data
  | .removeFile _ fileID => .removeFile fileID

/-- The cache after a call. -/
def after (c : MapCache) : Call → MapCache
  | .get fileID offset => (c.get fileID offset).1
  | .put fileID offset data => c.put fileID offset data
  | .removeFile range fileID => c.removeFile range fileID

/-- The cache after a history of calls, from when it was new. -/
def ofCalls (capacityBytes : ℤ) (calls : List Call) : MapCache :=
  calls.foldl after (new capacityBytes)

/-- The cache without its maps and addresses. -/
def abs (c : MapCache) : BlockCache := ⟨fun i => (c.shards i).abs⟩

variable {c : MapCache}

private theorem abs_update (c : MapCache) (i : Fin numShards) (sh : MapShard) :
    abs ⟨Function.update c.shards i sh⟩ = ⟨Function.update c.abs.shards i sh.abs⟩ := by
  refine congrArg BlockCache.mk (funext fun j => ?_)
  by_cases hj : j = i
  · subst hj
    simp
  · simp [hj, abs]

private theorem inv_update {i : Fin numShards} {sh : MapShard} (h : ∀ i, (c.shards i).Inv)
    (hsh : sh.Inv) (j : Fin numShards) : (Function.update c.shards i sh j).Inv := by
  by_cases hj : j = i
  · subst hj
    rwa [Function.update_self]
  · rw [Function.update_of_ne hj]
    exact h j

/-- **Step lemma**: a call keeps the invariant, and is the call on the items. -/
theorem inv_after (h : ∀ i, (c.shards i).Inv) (a : Call) :
    (∀ i, ((c.after a).shards i).Inv) ∧ (c.after a).abs = c.abs.after a.plain := by
  cases a with
  | get fileID offset =>
    obtain ⟨hinv, habs, -⟩ := (h (getShard fileID offset)).get fileID offset
    have hstep := abs_update c (getShard fileID offset)
      ((c.shards (getShard fileID offset)).get fileID offset).1
    rw [habs] at hstep
    exact ⟨inv_update h hinv, hstep⟩
  | put fileID offset data =>
    obtain ⟨hinv, habs⟩ := (h (getShard fileID offset)).put fileID offset data
    have hstep := abs_update c (getShard fileID offset)
      ((c.shards (getShard fileID offset)).put fileID offset data)
    rw [habs] at hstep
    exact ⟨inv_update h hinv, hstep⟩
  | removeFile range fileID =>
    refine ⟨fun i => ((h i).removeFile (range i) fileID).1, ?_⟩
    exact congrArg BlockCache.mk (funext fun i => ((h i).removeFile (range i) fileID).2)

/-- **Run lemma**. -/
theorem inv_ofCalls (capacityBytes : ℤ) (calls : List Call) :
    (∀ i, ((ofCalls capacityBytes calls).shards i).Inv) ∧
      (ofCalls capacityBytes calls).abs =
        BlockCache.ofCalls capacityBytes (calls.map Call.plain) := by
  induction calls using List.reverseRecOn with
  | nil =>
    refine ⟨fun i => ⟨.nil, by simp [ofCalls, new], fun f o e => ?_, fun f fileMap hf => ?_⟩, rfl⟩
    · simp [ofCalls, new, MapShard.element, elementIn]
    · simp [ofCalls, new] at hf
  | append_singleton calls a ih =>
    obtain ⟨hinv, habs⟩ := inv_after ih.1 a
    rw [ofCalls, List.foldl_append, List.foldl_cons, List.foldl_nil]
    refine ⟨hinv, habs.trans ?_⟩
    rw [ih.2, List.map_append, BlockCache.ofCalls, BlockCache.ofCalls, List.foldl_append]
    rfl

/-- A shard after these calls: the maps lead to the elements of the list and only to them, and no
map of a file is empty; the bytes are counted right and within the capacity; and the list is in the
order of the last use. -/
structure ShardCorrect (calls : List Call) (sh : MapShard) : Prop where
  nodup : sh.order.Nodup
  linked : ∀ f o e, sh.element f o = some e ↔ e ∈ sh.order ∧ (sh.elems e).key = (f, o)
  nonempty : ∀ f fileMap, sh.items.lookup f = some fileMap → fileMap ≠ ∅
  size_eq : sh.size = (sh.order.map fun e => ((sh.elems e).data.length : ℤ)).sum
  size_le : sh.size ≤ sh.cap
  byUse : BlockCache.ByUse (calls.map Call.plain) (sh.order.map sh.elems)

/-- **The block cache is correct**, for every capacity and after any calls: `Get` misses or returns
what was put last and not removed, and the shards are correct. What `Put` throws out are the
elements at the end of the list, until the bytes are within the capacity. -/
theorem blockCache_correct (capacityBytes : ℤ) (calls : List Call) :
    (∀ f o data, ((ofCalls capacityBytes calls).get f o).2 = some data →
      BlockCache.latest (calls.map Call.plain) f o = some data) ∧
    (∀ i, ShardCorrect calls ((ofCalls capacityBytes calls).shards i) ∧
      ((ofCalls capacityBytes calls).shards i).cap =
        if capacityBytes.tdiv numShards < 1 then 1 else capacityBytes.tdiv numShards) ∧
    ∀ f o data, CacheShard.KeepsRecent
      ((ofCalls capacityBytes calls).shards (getShard f o)).cap
      (⟨f, o, data⟩ :: ((ofCalls capacityBytes calls).shards (getShard f o)).abs.others f o)
      (((ofCalls capacityBytes calls).put f o data).shards (getShard f o)).abs.order := by
  obtain ⟨hinv, habs⟩ := inv_ofCalls capacityBytes calls
  have hremembers := BlockCache.remembers_ofCalls capacityBytes (calls.map Call.plain)
  have hcap := BlockCache.cap_ofCalls capacityBytes (calls.map Call.plain)
  rw [← habs] at hremembers hcap
  generalize ofCalls capacityBytes calls = c at hinv hremembers hcap ⊢
  refine ⟨fun f o data hget => ?_, fun i => ⟨?_, hcap i⟩, fun f o data => ?_⟩
  · obtain ⟨-, -, hdata⟩ := (hinv (getShard f o)).get f o
    have hget : ((c.shards (getShard f o)).abs.get f o).2 = some data := hdata.symm.trans hget
    rw [CacheShard.get] at hget
    split at hget
    · rename_i x hx
      obtain ⟨hmem, rfl, rfl⟩ := CacheShard.item?_eq_some hx
      obtain rfl := Option.some.inj hget
      exact (hremembers _).latest x hmem
    · cases hget
  · have hwf := (hremembers i).wf
    have hsize : (c.shards i).size =
        CacheShard.total ((c.shards i).order.map (c.shards i).elems) := hwf.size_eq
    rw [CacheShard.total, List.map_map] at hsize
    exact ⟨(hinv i).nodup, (hinv i).linked, (hinv i).nonempty, hsize, hwf.size_le,
      (hremembers i).byUse⟩
  · have hput := ((hremembers (getShard f o)).wf.put f o data).2.2
    have habs := ((hinv (getShard f o)).put f o data).2
    rw [MapCache.put]
    dsimp only
    rw [Function.update_self, habs]
    exact hput

end MapCache

end Stratum.Sstable
