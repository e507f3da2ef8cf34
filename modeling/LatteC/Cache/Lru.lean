import LatteC.Dict.Refinement
import LatteC.List.Basic

/-!
# The LRU cache

`src/cache/lru_cache.c`: a linked list of key-value pairs, most recently used first, and a dictionary
from keys to list nodes.

## The specification

A cache is specified as a set of entries that each remember when they were last put or got. The
calls are the clock. Nothing in `lruSpecStep` depends on the order of that set: `pop` drops the entry
with the oldest time. That the list keeps the entries in the order of these times is
what the invariant `LruCache.Represents` adds.

## Modelling

A node's value is a pointer to a pair that no other node shares, so the pair is stored in the node.
The caller gets the contents of the pair.
-/

namespace LatteC

open DoublyLinked

variable {K V : Type}

/-- `lru_cache_t`, with the heap its list lives in. -/
structure LruCache (K V : Type) where
  heap : Heap (K × V)
  list : LList
  searcher : Dict K ℕ

/-- `lru_cache_new`. -/
def lruCacheNew : LruCache K V := ⟨Heap.empty, listNew, dictNew⟩

/-- `lru_cache_get`. -/
def lruCacheGet (F : DictFunc K) (c : LruCache K V) (key : K) :
    Option (LruCache K V × Option (K × V)) := do
  let (searcher, entry) ← dictFind F c.searcher key
  match entry with
  | none => return ({ c with searcher := searcher }, none)
  | some entry =>
    let node ← entry.v
    let (heap, list) ← listMoveHead c.heap c.list node
    let n ← heap.cells node
    return (⟨heap, list, searcher⟩, some n.value)

/-- `lru_cache_put`. -/
def lruCachePut (F : DictFunc K) (c : LruCache K V) (key : K) (val : V) :
    Option (LruCache K V × ℤ) := do
  let (searcher, entry) ← dictFind F c.searcher key
  match entry with
  | some entry =>
    let node ← entry.v
    let heap ← c.heap.modify node fun n ↦ { n with value := (n.value.1, val) }
    let (heap, list) ← listMoveHead heap c.list node
    return (⟨heap, list, searcher⟩, 0)
  | none =>
    let (heap, list) ← listAddNodeHead c.heap c.list (key, val)
    let head ← list.head
    let (searcher, status) ← dictAdd F searcher key head
    return (⟨heap, list, searcher⟩, if status = .ok then 1 else -1)

/-- `lru_cache_remove`. -/
def lruCacheRemove (F : DictFunc K) (c : LruCache K V) (key : K) : Option (LruCache K V) := do
  let (searcher, entry) ← dictFind F c.searcher key
  match entry with
  | none => return { c with searcher := searcher }
  | some entry =>
    let node ← entry.v
    let (heap, list) ← listDelNode c.heap c.list node
    let (searcher, _) ← dictDeleteKey F searcher key
    return ⟨heap, list, searcher⟩

/-- `lru_cache_pop`. The call of `dict_delete_key` stands inside an assertion. -/
def lruCachePop (F : DictFunc K) (c : LruCache K V) : Option (LruCache K V) := do
  let tail ← c.list.tail
  let n ← c.heap.cells tail
  let (searcher, status) ← dictDeleteKey F c.searcher n.value.1
  if status = .ok then
    let (heap, list) ← listDelNode c.heap c.list tail
    return ⟨heap, list, searcher⟩
  else none

/-- `lru_cache_get_iterator`. -/
def lruCacheGetIterator (c : LruCache K V) : LatteListIterator :=
  listGetLatteIterator c.list .startHead

/-- A call of the cache interface. -/
inductive LruCall (K V : Type) where
  | put (key : K) (val : V)
  | get (key : K)
  | remove (key : K)
  | pop

/-- What a call returns. -/
inductive LruReply (K V : Type) where
  | status (s : ℤ)
  | pair (p : Option (K × V))
  | done

/-- One call of the cache. -/
def lruStep (F : DictFunc K) (c : LruCache K V) : LruCall K V → Option (LruCache K V × LruReply K V)
  | .put key val => (lruCachePut F c key val).map fun r ↦ (r.1, .status r.2)
  | .get key => (lruCacheGet F c key).map fun r ↦ (r.1, .pair r.2)
  | .remove key => (lruCacheRemove F c key).map fun c ↦ (c, .done)
  | .pop => (lruCachePop F c).map fun c ↦ (c, .done)

/-! ## The specification -/

/-- An entry, with the time at which it was last put or got. -/
structure LruEntry (K V : Type) where
  key : K
  value : V
  used : ℕ

/-- What the caller sees of an entry. -/
def LruEntry.pair (e : LruEntry K V) : K × V := (e.key, e.value)

/-- The entries of a cache, and the number of calls made so far. -/
structure LruSpec (K V : Type) where
  entries : List (LruEntry K V)
  clock : ℕ

/-- One call of the specification. It is defined where the contract is: a new entry can be
allocated, and `pop` is called on a cache that is not empty. -/
def lruSpecStep (F : DictFunc K) (s : LruSpec K V) : LruCall K V → Option (LruSpec K V × LruReply K V)
  | .put key val =>
    match s.entries.find? fun e ↦ F.keyCompare key e.key with
    | some e =>
      some (⟨⟨e.key, val, s.clock⟩ :: s.entries.eraseP fun e ↦ F.keyCompare key e.key,
        s.clock + 1⟩, .status 0)
    | none =>
      if DictFits (s.entries.length + 1) then
        some (⟨⟨key, val, s.clock⟩ :: s.entries, s.clock + 1⟩, .status 1)
      else none
  | .get key =>
    match s.entries.find? fun e ↦ F.keyCompare key e.key with
    | some e =>
      some (⟨⟨e.key, e.value, s.clock⟩ :: s.entries.eraseP fun e ↦ F.keyCompare key e.key,
        s.clock + 1⟩, .pair (some e.pair))
    | none => some (⟨s.entries, s.clock + 1⟩, .pair none)
  | .remove key =>
    some (⟨s.entries.eraseP fun e ↦ F.keyCompare key e.key, s.clock + 1⟩, .done)
  | .pop =>
    if s.entries = [] then none
    else
      -- all but the one that was used before all others
      some (⟨s.entries.filter fun e ↦ s.entries.any fun e' ↦ e'.used < e.used, s.clock + 1⟩, .done)

/-! ## The invariant

A cache and its specification are related through one list of nodes, each with the entry it
carries. Reading off the pairs gives the linked list, reading off the addresses the dictionary,
reading off the entries the specification. -/

/-- An address in the heap together with the entry stored there. -/
abbrev LruNode (K V : Type) : Type := ℕ × LruEntry K V

/-- The node as the linked list has it. -/
def LruNode.cell (z : LruNode K V) : ℕ × (K × V) := (z.1, z.2.pair)

/-- The node as the dictionary has it. -/
def LruNode.dictEntry (z : LruNode K V) : DictEntry K ℕ := ⟨z.2.key, some z.1⟩

/-- The cache consists of the nodes `zs`, the most recently used one first. -/
structure LruCache.Nodes (F : DictFunc K) (c : LruCache K V) (zs : List (LruNode K V)) : Prop where
  list : c.list.Holds c.heap (zs.map LruNode.cell)
  inv : c.searcher.Inv F
  map : c.searcher.toMap F =
    KeyedList.toMap (fun e ↦ F.cls e.key) (zs.map LruNode.dictEntry)
  distinct : (zs.map fun z ↦ F.cls z.2.key).Nodup
  recent : (zs.map Prod.snd).Pairwise fun e e' ↦ e'.used < e.used
  fits : DictFits zs.length

/-- The cache holds the entries of `s`, in the order of their last use. -/
def LruCache.Represents (F : DictFunc K) (c : LruCache K V) (s : LruSpec K V) : Prop :=
  ∃ zs : List (LruNode K V), c.Nodes F zs ∧ s.entries = zs.map Prod.snd ∧
    ∀ z ∈ zs, z.2.used < s.clock

theorem represents_lruCacheNew (F : DictFunc K) :
    (lruCacheNew : LruCache K V).Represents F ⟨[], 0⟩ := by
  refine ⟨[], ⟨holds_listNew _, inv_dictNew F, toMap_dictNew F, List.nodup_nil, ?_, ?_⟩, rfl, ?_⟩
  · exact List.Pairwise.nil
  · simp [DictFits]
  · simp

/-- A key is on no node, or on exactly one. -/
theorem LruNode.absent_or_split (F : DictFunc K) (key : K) (zs : List (LruNode K V)) :
    (∀ z ∈ zs, F.keyCompare key z.2.key ≠ true) ∨
      ∃ A z B, zs = A ++ z :: B ∧ F.keyCompare key z.2.key = true ∧
        ∀ a ∈ A, F.keyCompare key a.2.key ≠ true := by
  cases hf : zs.find? fun z ↦ F.keyCompare key z.2.key with
  | none => exact Or.inl (List.find?_eq_none.mp hf)
  | some z =>
    obtain ⟨hz, A, B, hzs, hA⟩ := List.find?_eq_some_iff_append.mp hf
    exact Or.inr ⟨A, z, B, hzs, hz, fun a ha ↦ by simpa using hA a ha⟩

namespace LruCache.Nodes

variable {F : DictFunc K} {c : LruCache K V} {zs A B : List (LruNode K V)} {z : LruNode K V}
  {key : K}

theorem distinct_dictEntry (h : c.Nodes F zs) :
    ((zs.map LruNode.dictEntry).map fun e ↦ F.cls e.key).Nodup := by
  rw [List.map_map]
  exact h.distinct

theorem lookup_eq_none (h : c.Nodes F zs) (hkey : ∀ z ∈ zs, F.keyCompare key z.2.key ≠ true) :
    (c.searcher.toMap F).lookup (F.cls key) = none := by
  rw [h.map]
  refine KeyedList.lookup_toMap_eq_none fun e he hcls ↦ ?_
  obtain ⟨z, hz, rfl⟩ := List.mem_map.mp he
  exact hkey z hz (F.cls_eq_cls_iff.mp hcls.symm)

theorem lookup_eq_some (h : c.Nodes F (A ++ z :: B)) (hkey : F.keyCompare key z.2.key = true) :
    (c.searcher.toMap F).lookup (F.cls key) = some z.dictEntry := by
  rw [h.map, F.cls_eq_cls_iff.mpr hkey]
  exact KeyedList.lookup_toMap_of_mem h.distinct_dictEntry
    (List.mem_map_of_mem (List.mem_append_right A List.mem_cons_self))

/-- The list, cut at the node. -/
theorem holds_split (h : c.Nodes F (A ++ z :: B)) :
    c.list.Holds c.heap (A.map LruNode.cell ++ z.cell :: B.map LruNode.cell) := by
  have hlist := h.list
  rwa [List.map_append, List.map_cons] at hlist

/-- Using a node makes it the first one. Only its value and its time may change. -/
theorem touch (h : c.Nodes F (A ++ z :: B)) {clock : ℕ} (hclock : ∀ w ∈ A ++ z :: B, w.2.used < clock)
    (val : V) {heap : Heap (K × V)} {list : LList} {searcher : Dict K ℕ}
    (hlist : list.Holds heap ((z.1, (z.2.key, val)) :: (A ++ B).map LruNode.cell))
    (hinv : searcher.Inv F) (hmap : searcher.toMap F = c.searcher.toMap F) :
    Nodes F ⟨heap, list, searcher⟩ ((z.1, ⟨z.2.key, val, clock⟩) :: (A ++ B)) := by
  have hperm : ((A ++ z :: B).map LruNode.dictEntry).Perm
      (z.dictEntry :: (A ++ B).map LruNode.dictEntry) :=
    (List.perm_middle.map LruNode.dictEntry).trans (by rw [List.map_cons])
  refine ⟨hlist, hinv, ?_, ?_, ?_, ?_⟩
  · rw [hmap, h.map, KeyedList.toMap_perm h.distinct_dictEntry hperm]
    rfl
  · have hmid : (A ++ z :: B).Perm (z :: (A ++ B)) := List.perm_middle
    exact ((hmid.map fun z ↦ F.cls z.2.key).nodup_iff).mp h.distinct
  · have hsub : (A ++ B).Sublist (A ++ z :: B) :=
      (List.Sublist.refl A).append (List.sublist_cons_self z B)
    rw [List.map_cons, List.pairwise_cons]
    refine ⟨fun e he ↦ ?_, h.recent.sublist (hsub.map _)⟩
    obtain ⟨w, hw, rfl⟩ := List.mem_map.mp he
    exact hclock w (hsub.mem hw)
  · have hfits := h.fits
    rw [List.length_append, List.length_cons] at hfits
    rw [List.length_cons, List.length_append]
    exact hfits

/-- Taking a node out of both structures. -/
theorem drop (h : c.Nodes F (A ++ z :: B)) {heap : Heap (K × V)} {list : LList}
    {searcher : Dict K ℕ} (hlist : list.Holds heap ((A ++ B).map LruNode.cell))
    (hinv : searcher.Inv F)
    (hmap : searcher.toMap F = (c.searcher.toMap F).erase (F.cls z.2.key)) :
    Nodes F ⟨heap, list, searcher⟩ (A ++ B) := by
  have hperm : ((A ++ z :: B).map LruNode.dictEntry).Perm
      (z.dictEntry :: (A ++ B).map LruNode.dictEntry) :=
    (List.perm_middle.map LruNode.dictEntry).trans (by rw [List.map_cons])
  have hsub : (A ++ B).Sublist (A ++ z :: B) :=
    (List.Sublist.refl A).append (List.sublist_cons_self z B)
  refine ⟨hlist, hinv, ?_, h.distinct.sublist (hsub.map _), h.recent.sublist (hsub.map _), ?_⟩
  · rw [hmap, h.map]
    exact (KeyedList.toMap_erase h.distinct_dictEntry hperm).symm
  · have hfits := h.fits
    have hlen := hsub.length_le
    rw [DictFits] at hfits ⊢
    omega

theorem dictSize_lt (h : c.Nodes F zs) : dictSize c.searcher < 2 ^ 60 := by
  have hcard := h.inv.dictSize_eq_card
  rw [h.map, KeyedList.card_keys_toMap h.distinct_dictEntry, List.length_map] at hcard
  have hfits := h.fits
  rw [DictFits] at hfits
  omega

/-- The oldest node is the last one of the list, so `pop` drops exactly that. -/
theorem filter_older (h : c.Nodes F (A ++ [z])) :
    ((A ++ [z]).map Prod.snd).filter
        (fun e ↦ ((A ++ [z]).map Prod.snd).any fun e' ↦ e'.used < e.used) = A.map Prod.snd := by
  have hrecent := h.recent
  rw [List.map_append, List.pairwise_append] at hrecent
  obtain ⟨hA, -, hlast⟩ := hrecent
  rw [List.map_append, List.filter_append]
  have hkeep : ∀ e ∈ A.map Prod.snd,
      (List.any (A.map Prod.snd ++ [z].map Prod.snd) fun e' ↦ e'.used < e.used) = true := by
    intro e he
    rw [List.any_eq_true]
    exact ⟨z.2, by simp, by simpa using hlast e he z.2 (by simp)⟩
  have hdrop : ∀ e ∈ [z].map Prod.snd,
      ¬(List.any (A.map Prod.snd ++ [z].map Prod.snd) fun e' ↦ e'.used < e.used) = true := by
    intro e he hany
    obtain ⟨e', he', hlt⟩ := List.any_eq_true.mp hany
    rw [decide_eq_true_iff] at hlt
    obtain rfl : e = z.2 := by simpa using he
    rcases List.mem_append.mp he' with he' | he'
    · exact absurd (hlast e' he' z.2 he) hlt.not_gt
    · obtain rfl : e' = z.2 := by simpa using he'
      exact lt_irrefl _ hlt
  rw [List.filter_eq_self.mpr hkeep, List.filter_eq_nil_iff.mpr hdrop, List.append_nil]

end LruCache.Nodes

/-! ### Searching the specification's entries -/

section Search

variable {F : DictFunc K} {zs A B : List (LruNode K V)} {z : LruNode K V} {key : K}

theorem find?_of_absent (h : ∀ z ∈ zs, F.keyCompare key z.2.key ≠ true) :
    (zs.map Prod.snd).find? (fun e ↦ F.keyCompare key e.key) = none := by
  rw [List.find?_eq_none]
  intro e he
  obtain ⟨z, hz, rfl⟩ := List.mem_map.mp he
  exact h z hz

theorem eraseP_of_absent (h : ∀ z ∈ zs, F.keyCompare key z.2.key ≠ true) :
    (zs.map Prod.snd).eraseP (fun e ↦ F.keyCompare key e.key) = zs.map Prod.snd := by
  refine List.eraseP_of_forall_not fun e he ↦ ?_
  obtain ⟨z, hz, rfl⟩ := List.mem_map.mp he
  exact h z hz

theorem find?_of_split (hz : F.keyCompare key z.2.key = true)
    (hA : ∀ a ∈ A, F.keyCompare key a.2.key ≠ true) :
    ((A ++ z :: B).map Prod.snd).find? (fun e ↦ F.keyCompare key e.key) = some z.2 := by
  rw [List.map_append, List.find?_append, find?_of_absent hA, Option.none_or, List.map_cons]
  exact List.find?_cons_of_pos hz

theorem eraseP_of_split (hz : F.keyCompare key z.2.key = true)
    (hA : ∀ a ∈ A, F.keyCompare key a.2.key ≠ true) :
    ((A ++ z :: B).map Prod.snd).eraseP (fun e ↦ F.keyCompare key e.key) =
      (A ++ B).map Prod.snd := by
  have hA' : ∀ e ∈ A.map Prod.snd, ¬F.keyCompare key e.key = true := by
    intro e he
    obtain ⟨a, ha, rfl⟩ := List.mem_map.mp he
    exact hA a ha
  rw [List.map_append, List.eraseP_append_right _ hA', List.map_cons, List.map_append]
  rw [List.eraseP_cons_of_pos (p := fun e : LruEntry K V ↦ F.keyCompare key e.key) hz]

end Search

/-! ## One call -/

section Calls

variable {F : DictFunc K} {c : LruCache K V} {zs A B : List (LruNode K V)} {z : LruNode K V}
  {key : K} {clock : ℕ}

theorem lruCacheGet_absent (h : c.Nodes F zs)
    (hkey : ∀ z ∈ zs, F.keyCompare key z.2.key ≠ true) :
    ∃ c', lruCacheGet F c key = some (c', none) ∧ c'.Nodes F zs := by
  obtain ⟨d, hfind, hinv, hmap⟩ := dictFind_spec h.inv key
  rw [h.lookup_eq_none hkey] at hfind
  refine ⟨{ c with searcher := d }, ?_, h.list, hinv, hmap.trans h.map, h.distinct, h.recent,
    h.fits⟩
  rw [lruCacheGet, hfind]
  rfl

theorem lruCacheGet_present (h : c.Nodes F (A ++ z :: B))
    (hclock : ∀ w ∈ A ++ z :: B, w.2.used < clock) (hkey : F.keyCompare key z.2.key = true) :
    ∃ c', lruCacheGet F c key = some (c', some z.2.pair) ∧
      c'.Nodes F ((z.1, ⟨z.2.key, z.2.value, clock⟩) :: (A ++ B)) := by
  obtain ⟨d, hfind, hinv, hmap⟩ := dictFind_spec h.inv key
  rw [h.lookup_eq_some hkey] at hfind
  obtain ⟨heap, list, hmove, hlist, -⟩ := h.holds_split.listMoveHead
  rw [← List.map_append] at hlist
  have hcell : heap.cells z.1 = _ := hlist.seg.1
  refine ⟨⟨heap, list, d⟩, ?_, h.touch hclock z.2.value hlist hinv hmap⟩
  have hmove' : listMoveHead c.heap c.list z.1 = some (heap, list) := hmove
  rw [lruCacheGet, hfind]
  simp only [Option.bind_eq_bind, Option.bind_some, LruNode.dictEntry]
  rw [hmove']
  simp only [Option.bind_some]
  rw [hcell]
  rfl

theorem lruCachePut_present (h : c.Nodes F (A ++ z :: B))
    (hclock : ∀ w ∈ A ++ z :: B, w.2.used < clock) (hkey : F.keyCompare key z.2.key = true)
    (val : V) :
    ∃ c', lruCachePut F c key val = some (c', 0) ∧
      c'.Nodes F ((z.1, ⟨z.2.key, val, clock⟩) :: (A ++ B)) := by
  obtain ⟨d, hfind, hinv, hmap⟩ := dictFind_spec h.inv key
  rw [h.lookup_eq_some hkey] at hfind
  obtain ⟨heap₁, hmod, hlist₁⟩ := LList.Holds.setValue (a := z.1) (v := z.2.pair) h.holds_split
    fun p ↦ (p.1, val)
  obtain ⟨heap, list, hmove, hlist, -⟩ := hlist₁.listMoveHead
  rw [← List.map_append] at hlist
  refine ⟨⟨heap, list, d⟩, ?_, h.touch hclock val hlist hinv hmap⟩
  have hmove' : listMoveHead heap₁ c.list z.1 = some (heap, list) := hmove
  rw [lruCachePut, hfind]
  simp only [Option.bind_eq_bind, Option.bind_some, LruNode.dictEntry]
  rw [hmod]
  simp only [Option.bind_some]
  rw [hmove']
  rfl

theorem lruCachePut_absent (h : c.Nodes F zs) (hclock : ∀ w ∈ zs, w.2.used < clock)
    (hkey : ∀ z ∈ zs, F.keyCompare key z.2.key ≠ true) (hfits : DictFits (zs.length + 1))
    (val : V) :
    ∃ c' a, lruCachePut F c key val = some (c', 1) ∧
      c'.Nodes F ((a, ⟨key, val, clock⟩) :: zs) := by
  obtain ⟨d, hfind, hinv, hmap⟩ := dictFind_spec h.inv key
  rw [h.lookup_eq_none hkey] at hfind
  obtain ⟨heap, list, hadd, hlist, -⟩ := h.list.listAddNodeHead (key, val)
  have hsize : dictSize d < 2 ^ 60 := by
    have hlt := h.dictSize_lt
    rwa [hinv.dictSize_eq_card, hmap, ← h.inv.dictSize_eq_card]
  obtain ⟨d', s, hdict, hinv', hres⟩ := dictAdd_spec hinv hsize key c.heap.brk
  rw [hmap, h.lookup_eq_none hkey] at hres
  obtain ⟨rfl, hmap'⟩ := hres
  have hhead : list.head = some c.heap.brk := hlist.head
  refine ⟨⟨heap, list, d'⟩, c.heap.brk, ?_, hlist, hinv', ?_, ?_, ?_, hfits⟩
  · rw [lruCachePut, hfind]
    simp only [Option.bind_eq_bind, Option.bind_some]
    rw [hadd]
    simp only [Option.bind_some, hhead]
    rw [hdict]
    rfl
  · rw [hmap', h.map, List.map_cons, KeyedList.toMap_cons]
    rfl
  · rw [List.map_cons, List.nodup_cons]
    refine ⟨fun hmem ↦ ?_, h.distinct⟩
    obtain ⟨z, hz, hcls⟩ := List.mem_map.mp hmem
    exact hkey z hz (F.cls_eq_cls_iff.mp hcls.symm)
  · rw [List.map_cons, List.pairwise_cons]
    refine ⟨fun e he ↦ ?_, h.recent⟩
    obtain ⟨w, hw, rfl⟩ := List.mem_map.mp he
    exact hclock w hw

theorem lruCacheRemove_absent (h : c.Nodes F zs)
    (hkey : ∀ z ∈ zs, F.keyCompare key z.2.key ≠ true) :
    ∃ c', lruCacheRemove F c key = some c' ∧ c'.Nodes F zs := by
  obtain ⟨d, hfind, hinv, hmap⟩ := dictFind_spec h.inv key
  rw [h.lookup_eq_none hkey] at hfind
  refine ⟨{ c with searcher := d }, ?_, h.list, hinv, hmap.trans h.map, h.distinct, h.recent,
    h.fits⟩
  rw [lruCacheRemove, hfind]
  rfl

theorem lruCacheRemove_present (h : c.Nodes F (A ++ z :: B))
    (hkey : F.keyCompare key z.2.key = true) :
    ∃ c', lruCacheRemove F c key = some c' ∧ c'.Nodes F (A ++ B) := by
  obtain ⟨d, hfind, hinv, hmap⟩ := dictFind_spec h.inv key
  rw [h.lookup_eq_some hkey] at hfind
  obtain ⟨heap, list, hdel, hlist, -⟩ := h.holds_split.listDelNode
  rw [← List.map_append] at hlist
  obtain ⟨d', hdict, hinv', hmap'⟩ := dictGenericDelete_spec hinv key
  rw [hmap, F.cls_eq_cls_iff.mpr hkey] at hmap'
  refine ⟨⟨heap, list, d'⟩, ?_, h.drop hlist hinv' hmap'⟩
  have hdel' : listDelNode c.heap c.list z.1 = some (heap, list) := hdel
  rw [lruCacheRemove, hfind]
  simp only [Option.bind_eq_bind, Option.bind_some, LruNode.dictEntry]
  rw [hdel']
  simp only [Option.bind_some]
  rw [dictDeleteKey, hdict]
  rfl

theorem lruCachePop_last (h : c.Nodes F (A ++ [z])) :
    ∃ c', lruCachePop F c = some c' ∧ c'.Nodes F A := by
  have hsplit := h.holds_split
  have htail : c.list.tail = some z.1 := by
    rw [hsplit.tail, last_append]
    rfl
  have hcell := hsplit.cells
  obtain ⟨d, hdict, hinv, hmap⟩ := dictGenericDelete_spec h.inv z.2.key
  rw [h.lookup_eq_some (F.keyCompare_equivalence.refl _)] at hdict
  obtain ⟨heap, list, hdel, hlist, -⟩ := hsplit.listDelNode
  rw [← List.map_append] at hlist
  have hnodes := h.drop hlist hinv hmap
  rw [List.append_nil] at hnodes
  refine ⟨⟨heap, list, d⟩, ?_, hnodes⟩
  have hcell' : c.heap.cells z.1 = _ := hcell
  have hdel' : listDelNode c.heap c.list z.1 = some (heap, list) := hdel
  rw [lruCachePop, htail]
  simp only [Option.bind_eq_bind, Option.bind_some]
  rw [hcell']
  simp only [Option.bind_some, LruNode.cell, LruEntry.pair]
  rw [dictDeleteKey, hdict]
  simp only [Option.map_some, Option.isSome_some, if_true, Option.bind_some]
  rw [hdel']
  rfl

end Calls

/-- Time goes on. -/
private theorem used_lt_succ {zs : List (LruNode K V)} {clock : ℕ}
    (h : ∀ z ∈ zs, z.2.used < clock) : ∀ z ∈ zs, z.2.used < clock + 1 :=
  fun z hz ↦ Nat.lt_succ_of_lt (h z hz)

/-- The entry just used is the newest. -/
private theorem used_lt_succ_cons {zs : List (LruNode K V)} {clock a : ℕ} {k : K} {v : V}
    (h : ∀ z ∈ zs, z.2.used < clock) :
    ∀ z ∈ (a, (⟨k, v, clock⟩ : LruEntry K V)) :: zs, z.2.used < clock + 1 := by
  intro z hz
  rcases List.mem_cons.mp hz with rfl | hz
  · exact Nat.lt_succ_self clock
  · exact Nat.lt_succ_of_lt (h z hz)

private theorem forall_mem_remove {p : LruNode K V → Prop} {A B : List (LruNode K V)}
    {z : LruNode K V} (h : ∀ w ∈ A ++ z :: B, p w) : ∀ w ∈ A ++ B, p w :=
  fun w hw ↦ h w (((List.Sublist.refl A).append (List.sublist_cons_self z B)).mem hw)

theorem lruStep_refines (F : DictFunc K) (c : LruCache K V) (s : LruSpec K V) (i : LruCall K V)
    (s' : LruSpec K V) (o : LruReply K V) (h : c.Represents F s)
    (hs : lruSpecStep F s i = some (s', o)) :
    ∃ c', lruStep F c i = some (c', o) ∧ c'.Represents F s' := by
  obtain ⟨entries, clock⟩ := s
  obtain ⟨zs, hn, rfl, hclock⟩ := h
  simp only at hclock
  cases i with
  | put key val =>
    rw [lruSpecStep] at hs
    rcases LruNode.absent_or_split F key zs with habsent | ⟨A, z, B, rfl, hz, hA⟩
    · simp only [find?_of_absent habsent, List.length_map] at hs
      split_ifs at hs with hfits
      obtain ⟨rfl, rfl⟩ := Prod.mk.inj (Option.some.inj hs)
      obtain ⟨c', a, hput, hn'⟩ := lruCachePut_absent hn hclock habsent hfits val
      exact ⟨c', by rw [lruStep, hput]; rfl, _, hn', rfl, used_lt_succ_cons hclock⟩
    · simp only [find?_of_split hz hA, eraseP_of_split hz hA] at hs
      obtain ⟨rfl, rfl⟩ := Prod.mk.inj (Option.some.inj hs)
      obtain ⟨c', hput, hn'⟩ := lruCachePut_present hn hclock hz val
      exact ⟨c', by rw [lruStep, hput]; rfl, _, hn', rfl,
        used_lt_succ_cons (forall_mem_remove hclock)⟩
  | get key =>
    rw [lruSpecStep] at hs
    rcases LruNode.absent_or_split F key zs with habsent | ⟨A, z, B, rfl, hz, hA⟩
    · simp only [find?_of_absent habsent] at hs
      obtain ⟨rfl, rfl⟩ := Prod.mk.inj (Option.some.inj hs)
      obtain ⟨c', hget, hn'⟩ := lruCacheGet_absent hn habsent
      exact ⟨c', by rw [lruStep, hget]; rfl, zs, hn', rfl, used_lt_succ hclock⟩
    · simp only [find?_of_split hz hA, eraseP_of_split hz hA] at hs
      obtain ⟨rfl, rfl⟩ := Prod.mk.inj (Option.some.inj hs)
      obtain ⟨c', hget, hn'⟩ := lruCacheGet_present hn hclock hz
      exact ⟨c', by rw [lruStep, hget]; rfl, _, hn', rfl,
        used_lt_succ_cons (forall_mem_remove hclock)⟩
  | remove key =>
    rw [lruSpecStep] at hs
    rcases LruNode.absent_or_split F key zs with habsent | ⟨A, z, B, rfl, hz, hA⟩
    · simp only [eraseP_of_absent habsent] at hs
      obtain ⟨rfl, rfl⟩ := Prod.mk.inj (Option.some.inj hs)
      obtain ⟨c', hrem, hn'⟩ := lruCacheRemove_absent hn habsent
      exact ⟨c', by rw [lruStep, hrem]; rfl, zs, hn', rfl, used_lt_succ hclock⟩
    · simp only [eraseP_of_split hz hA] at hs
      obtain ⟨rfl, rfl⟩ := Prod.mk.inj (Option.some.inj hs)
      obtain ⟨c', hrem, hn'⟩ := lruCacheRemove_present hn hz
      exact ⟨c', by rw [lruStep, hrem]; rfl, A ++ B, hn', rfl,
        used_lt_succ (forall_mem_remove hclock)⟩
  | pop =>
    rw [lruSpecStep] at hs
    split_ifs at hs with hempty
    have hzs : zs ≠ [] := fun hnil ↦ hempty (by rw [hnil]; rfl)
    obtain ⟨A, z, rfl⟩ : ∃ A z, zs = A ++ [z] :=
      ⟨zs.dropLast, zs.getLast hzs, (List.dropLast_append_getLast hzs).symm⟩
    rw [hn.filter_older] at hs
    obtain ⟨rfl, rfl⟩ := Prod.mk.inj (Option.some.inj hs)
    obtain ⟨c', hpop, hn'⟩ := lruCachePop_last hn
    exact ⟨c', by rw [lruStep, hpop]; rfl, A, hn', rfl,
      used_lt_succ fun w hw ↦ hclock w (List.mem_append_left _ hw)⟩

/-! ## Runs -/

/-- **The LRU law.** Every sequence of calls is answered as the specification answers it. Afterwards
list and dictionary have the same keys, each once, with every dictionary entry pointing at the node
that carries its key; and the iterator yields exactly the entries, in the order of their last use
from the newest to the oldest. -/
theorem lru_cache_run_refines (F : DictFunc K) (calls : List (LruCall K V)) (s : LruSpec K V)
    (replies : List (LruReply K V))
    (hrun : CallMachine.run (lruSpecStep F) ⟨[], 0⟩ calls = some (s, replies)) :
    ∃ c nodes, CallMachine.run (lruStep F) lruCacheNew calls = some (c, replies) ∧
      c.list.Holds c.heap nodes ∧
      c.searcher.entries.Perm (nodes.map fun n ↦ ⟨n.2.1, some n.1⟩) ∧
      (nodes.map fun n ↦ F.cls n.2.1).Nodup ∧
      latteListIteratorDrain c.heap (c.list.len + 1) (lruCacheGetIterator c) =
        some (s.entries.map LruEntry.pair) ∧
      s.entries.Pairwise fun e e' ↦ e'.used < e.used := by
  obtain ⟨c, hc, zs, hn, hentries, -⟩ :=
    CallMachine.run_refines (lruStep_refines F) (represents_lruCacheNew F) hrun
  refine ⟨c, zs.map LruNode.cell, hc, hn.list, ?_, ?_, ?_, hentries ▸ hn.recent⟩
  · rw [List.map_map]
    exact KeyedList.perm_of_toMap_eq hn.inv.distinct hn.distinct_dictEntry hn.map
  · rw [List.map_map]
    exact hn.distinct
  · have hdrain := latteListIteratorDrain_spec (zs.map LruNode.cell) none (c.list.len + 1) none
      hn.list.seg (by rw [hn.list.len]; exact Nat.lt_succ_self _)
    rw [lruCacheGetIterator, listGetLatteIterator, listGetIterator, hn.list.head, hdrain, hentries,
      List.map_map, List.map_map]
    rfl

/-- The run of the repository's own test, up to its last iteration. -/
theorem lru_cache_run_refines_test :
    ∃ c : LruCache ℕ ℕ, CallMachine.run (lruStep natDictFunc) lruCacheNew
        [.put 1 1, .put 1 2, .put 2 2, .get 2, .put 3 3, .put 2 3, .pop] =
        some (c, [.status 1, .status 0, .status 1, .pair (some (2, 2)), .status 1, .status 0,
          .done]) ∧
      latteListIteratorDrain c.heap (c.list.len + 1) (lruCacheGetIterator c) =
        some [(2, 3), (3, 3)] := by
  obtain ⟨c, -, hc, -, -, -, hdrain, -⟩ := lru_cache_run_refines natDictFunc
    [.put 1 1, .put 1 2, .put 2 2, .get 2, .put 3 3, .put 2 3, .pop] _ _ rfl
  exact ⟨c, hc, hdrain⟩

end LatteC
