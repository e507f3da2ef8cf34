import LatteC.Dict.Refinement
import LatteC.Dict.SipHash

/-!
# The memory pool

`src/pool/mem.c`: blocks of memory cut into items of one size. An item is in the list `frees` or in
the hash set `used`, which is keyed by the address of the item.

The hash function of that set is `dict_ptr_hash`, and it hashes what the address points to, the
first `sizeof(long)` bytes of the item, not the address. A user who writes to an item
moves it to another bucket as far as a later search is concerned. As long as the hashes stay as
they are the pool keeps its books (`mem_pool_run`); the last section has a run in which
an item is lost.

A linked list is modelled by the sequence of its values. Memory is a function on all addresses, so
that reading is never a fault. Not modelled: the lock, the name, and the counter `size`, which only
`mem_pool_delete` reads.
-/

namespace LatteC

/-- `mem_pool_t`. -/
structure MemPool where
  dynamic : Bool
  itemSize : ℕ
  itemNumPerPool : ℕ
  pools : List ℕ
  used : Dict ℕ Unit
  frees : List ℕ

/-- `dict_ptr_hash`, with `sizeof(long)` = 8. -/
def dictPtrHash (seed : List UInt8) (mem : ℕ → UInt8) (key : ℕ) : UInt64 :=
  siphash ((List.range 8).map fun i ↦ mem (key + i)) seed

/-- `used_set_func`: `dict_ptr_hash` and `dict_ptr_key_compare`. -/
def usedSetFunc (seed : List UInt8) (mem : ℕ → UInt8) : DictFunc ℕ where
  hashFunction := dictPtrHash seed mem
  keyCompare key1 key2 := key1 = key2
  expandAllowed _ _ _ := true
  keyCompare_equivalence := by
    simp only [decide_eq_true_eq]
    exact eq_equivalence
  hash_eq_of_keyCompare a b h := by rw [decide_eq_true_eq.mp h]

section Model

variable (seed : List UInt8) (mem : ℕ → UInt8)

/-- `set_add` of a hash set over `used_set_func`. -/
def usedSetAdd (used : Dict ℕ Unit) (element : ℕ) : Option (Dict ℕ Unit × ℤ) :=
  (dictAddRaw (usedSetFunc seed mem) used element).bind fun r ↦
    match r with
    | (d, some de, _) => (dictSetVal d de ()).map fun d ↦ (d, 1)
    | (d, none, _) => some (d, 0)

/-- `set_remove` of a hash set over `used_set_func`. -/
def usedSetRemove (used : Dict ℕ Unit) (element : ℕ) : Option (Dict ℕ Unit × ℤ) :=
  (dictDeleteKey (usedSetFunc seed mem) used element).map fun r ↦
    match r with
    | (d, .ok) => (if htNeedsResize d then (dictResize d).1 else d, 1)
    | (d, .err) => (d, 0)

/-- The items of a block. -/
def blockItems (itemSize itemNumPerPool block : ℕ) : List ℕ :=
  (List.range itemNumPerPool).map fun i ↦ block + i * itemSize

/-- `mem_pool_extend`. The block is what `zmalloc` returns; its size is computed as an `int`, and an
overflow is a fault. -/
def memPoolExtend (pool : MemPool) (block : Option ℕ) : Option (MemPool × ℤ) :=
  if pool.dynamic = false then some (pool, -1)
  else if 2 ^ 31 ≤ pool.itemNumPerPool * pool.itemSize then none
  else
    match block with
    | none => some (pool, -1)
    | some block =>
      some ({ pool with
        pools := pool.pools ++ [block]
        frees := pool.frees ++ blockItems pool.itemSize pool.itemNumPerPool block }, 0)

/-- The end of `mem_pool_alloc`: `list_rpop`, and `set_add` under an assertion. The set would
dereference a NULL. -/
def memPoolTake (pool : MemPool) : Option (MemPool × Option ℕ) :=
  pool.frees.getLast?.bind fun result ↦
    (usedSetAdd seed mem pool.used result).bind fun r ↦
      if r.2 = 1 then
        some ({ pool with used := r.1, frees := pool.frees.dropLast }, some result)
      else none

/-- `mem_pool_alloc`: the item, or NULL. -/
def memPoolAlloc (pool : MemPool) (block : Option ℕ) : Option (MemPool × Option ℕ) :=
  if pool.frees.length = 0 then
    if pool.dynamic = false then some (pool, none)
    else
      (memPoolExtend pool block).bind fun r ↦
        if r.2 < 0 then some (r.1, none) else memPoolTake seed mem r.1
  else memPoolTake seed mem pool

/-- `mem_pool_free`. -/
def memPoolFree (pool : MemPool) (result : ℕ) : Option MemPool :=
  (usedSetRemove seed mem pool.used result).map fun r ↦
    if r.2 = 0 then { pool with used := r.1 }
    else { pool with used := r.1, frees := pool.frees ++ [result] }

/-- The loop of `mem_pool_init` over the blocks it allocates. -/
def memPoolInitLoop (pool : MemPool) : List (Option ℕ) → Option MemPool
  | [] => some pool
  | block :: blocks =>
    (memPoolExtend pool block).bind fun r ↦
      if r.2 < 0 then none else memPoolInitLoop r.1 blocks

/-- `mem_pool_init` with a `pool_num` of `blocks.length`: the pool, if it returns 0. -/
def memPoolInit (itemSize : ℤ) (dynamic : Bool) (blocks : List (Option ℕ)) (itemNumPerPool : ℤ) :
    Option MemPool :=
  if itemSize ≤ 0 ∨ blocks.length = 0 ∨ itemNumPerPool ≤ 0 then none
  else
    (memPoolInitLoop ⟨true, itemSize.toNat, itemNumPerPool.toNat, [], dictNew, []⟩ blocks).map
      fun pool ↦ { pool with dynamic := dynamic }

end Model

/-! ## Runs -/

/-- The keys of a dictionary. -/
def Dict.keyList {K V : Type} (d : Dict K V) : List K := d.entries.map DictEntry.key

/-- The pool, and the memory it lives in. -/
structure MemPoolState where
  mem : ℕ → UInt8
  pool : MemPool

/-- A call, with the block `zmalloc` has for it, or a write of one byte. -/
inductive MemPoolCall where
  | alloc (block : Option ℕ)
  | free (item : ℕ)
  | write (addr : ℕ) (byte : UInt8)

/-- One step: the state afterwards, and the item `mem_pool_alloc` returns. -/
def MemPoolState.exec (seed : List UInt8) (st : MemPoolState) :
    MemPoolCall → Option (MemPoolState × Option ℕ)
  | .alloc block =>
    (memPoolAlloc seed st.mem st.pool block).map fun r ↦ ({ st with pool := r.1 }, r.2)
  | .free item => (memPoolFree seed st.mem st.pool item).map fun pool ↦ ({ st with pool }, none)
  | .write addr byte => some ({ st with mem := Function.update st.mem addr byte }, none)

namespace MemPool

/-- The items cut from all blocks. -/
def items (pool : MemPool) : List ℕ :=
  pool.pools.flatMap (blockItems pool.itemSize pool.itemNumPerPool)

/-- The members of the set `used`. -/
abbrev usedItems (pool : MemPool) : List ℕ := pool.used.keyList

/-- Two blocks do not overlap. -/
def Apart (pool : MemPool) (p q : ℕ) : Prop :=
  p + pool.itemNumPerPool * pool.itemSize ≤ q ∨ q + pool.itemNumPerPool * pool.itemSize ≤ p

end MemPool

/-- What the allocator guarantees: a new block overlaps no other, and an entry of the set that
has been allocated fits into the address space. -/
def MemPoolCall.Allocates (st : MemPoolState) : MemPoolCall → Prop
  | .alloc block => (∀ p, block = some p → ∀ q ∈ st.pool.pools, st.pool.Apart q p) ∧
      DictFits (dictSize st.pool.used + 1)
  | _ => True

/-- The items handed out and not given back, after a call. -/
def MemPoolCall.held (out : Finset ℕ) : MemPoolCall → Option ℕ → Finset ℕ
  | .alloc _, some item => insert item out
  | .free item, _ => out.erase item
  | _, _ => out

/-- The states that calls allowed by `P` lead to, with the items that the user holds. -/
inductive MemPoolRun (seed : List UInt8) (P : MemPoolState → MemPoolCall → Prop) :
    MemPoolState → Finset ℕ → Prop
  | init {mem : ℕ → UInt8} {itemSize itemNumPerPool : ℤ} {dynamic : Bool}
      {blocks : List (Option ℕ)} {pool : MemPool} :
      memPoolInit itemSize dynamic blocks itemNumPerPool = some pool →
      pool.pools.Pairwise pool.Apart → MemPoolRun seed P ⟨mem, pool⟩ ∅
  | call {st st' : MemPoolState} {out : Finset ℕ} {c : MemPoolCall} {r : Option ℕ} :
      MemPoolRun seed P st out → c.Allocates st → P st c → st.exec seed c = some (st', r) →
      MemPoolRun seed P st' (c.held out r)

/-- What the pool promises in a state in which the user holds the items `out`. -/
structure MemPoolSound (seed : List UInt8) (st : MemPoolState) (out : Finset ℕ) : Prop where
  /-- No item is on both sides, or twice on one. -/
  nodup : (st.pool.frees ++ st.pool.usedItems).Nodup
  /-- Every item is there. -/
  perm : (st.pool.frees ++ st.pool.usedItems).Perm st.pool.items
  /-- Allocation goes through, and does not hand out an item in use. -/
  alloc : ∀ block, (MemPoolCall.alloc block).Allocates st →
    ∃ st' r, st.exec seed (.alloc block) = some (st', r) ∧ ∀ x, r = some x → x ∉ st.pool.usedItems
  /-- What the user holds can be given back. -/
  free : ∀ x ∈ out, ∃ st', st.exec seed (.free x) = some (st', none) ∧
    x ∈ st'.pool.frees ∧ x ∉ st'.pool.usedItems

/-- A write leaves the hash of every item in use as it is. -/
def KeepsHashes (seed : List UInt8) (st : MemPoolState) : MemPoolCall → Prop
  | .write addr byte => ∀ x ∈ st.pool.usedItems,
      dictPtrHash seed (Function.update st.mem addr byte) x = dictPtrHash seed st.mem x
  | _ => True

/-- A write goes to the contents of an item in use. -/
def WritesUsed (st : MemPoolState) : MemPoolCall → Prop
  | .write addr _ => ∃ x ∈ st.pool.usedItems, x ≤ addr ∧ addr < x + st.pool.itemSize
  | _ => True

/-! ## The set of used items -/

section UsedSet

variable {seed : List UInt8} {mem : ℕ → UInt8} {d : Dict ℕ Unit}

theorem Dict.Inv.nodup_keys (h : d.Inv (usedSetFunc seed mem)) : d.keyList.Nodup := by
  have hd := h.distinct
  rw [show (fun e : DictEntry ℕ Unit ↦ (usedSetFunc seed mem).cls e.key) =
    (usedSetFunc seed mem).cls ∘ DictEntry.key from rfl, ← List.map_map] at hd
  exact hd.of_map

theorem Dict.Inv.mem_keys_iff (h : d.Inv (usedSetFunc seed mem)) (x : ℕ) :
    x ∈ d.keyList ↔
      ((d.toMap (usedSetFunc seed mem)).lookup ((usedSetFunc seed mem).cls x)).isSome := by
  constructor
  · intro hx
    obtain ⟨e, he, rfl⟩ := List.mem_map.mp hx
    rw [h.lookup_of_mem he (decide_eq_true rfl), Option.isSome_some]
  · intro hx
    by_contra hnot
    rw [Dict.Inv.lookup_eq_none fun e he hcmp ↦
      hnot (List.mem_map.mpr ⟨e, he, (decide_eq_true_eq.mp hcmp).symm⟩)] at hx
    cases hx

/-- The classes of `dict_ptr_key_compare` are single addresses. -/
theorem usedSetFunc_cls_eq_iff {a b : ℕ} :
    (usedSetFunc seed mem).cls a = (usedSetFunc seed mem).cls b ↔ a = b := by
  rw [DictFunc.cls_eq_cls_iff]
  exact decide_eq_true_iff

theorem usedSetAdd_spec (h : d.Inv (usedSetFunc seed mem)) (hfit : dictSize d < 2 ^ 60) {x : ℕ}
    (hx : x ∉ d.keyList) :
    ∃ d', usedSetAdd seed mem d x = some (d', 1) ∧ d'.Inv (usedSetFunc seed mem) ∧
      d'.keyList.Perm (x :: d.keyList) := by
  have hraw := dictAddRaw_spec h hfit x
  rw [h.mem_keys_iff, Bool.not_eq_true, Option.isSome_eq_false_iff, Option.isNone_iff_eq_none] at hx
  rw [hx] at hraw
  obtain ⟨d₁, pos, hadd, -, -, hset⟩ := hraw
  obtain ⟨d', hval, hinv, hmap⟩ := hset ()
  refine ⟨d', by simp [usedSetAdd, hadd, hval], hinv, ?_⟩
  have hx' : x ∉ d.keyList := by simp [h.mem_keys_iff, hx]
  rw [List.perm_ext_iff_of_nodup hinv.nodup_keys (List.nodup_cons.mpr ⟨hx', h.nodup_keys⟩)]
  intro y
  rw [hinv.mem_keys_iff, hmap, List.mem_cons, h.mem_keys_iff]
  by_cases hyx : y = x
  · rw [hyx, Finmap.lookup_insert]
    simp
  · rw [Finmap.lookup_insert_of_ne _ (mt usedSetFunc_cls_eq_iff.mp hyx)]
    simp [hyx]

theorem usedSetRemove_spec (h : d.Inv (usedSetFunc seed mem)) (x : ℕ) :
    ∃ d', usedSetRemove seed mem d x = some (d', if x ∈ d.keyList then 1 else 0) ∧
      d'.Inv (usedSetFunc seed mem) ∧ d'.keyList.Perm (d.keyList.erase x) := by
  obtain ⟨d', hdel, hinv, hmap⟩ := dictGenericDelete_spec h x
  refine ⟨d', ?_, hinv, ?_⟩
  · by_cases hx : x ∈ d.keyList
    · rw [if_pos hx]
      rw [h.mem_keys_iff] at hx
      simp [usedSetRemove, dictDeleteKey, hdel, hx, dictResize_eq]
    · rw [if_neg hx]
      rw [h.mem_keys_iff] at hx
      simp [usedSetRemove, dictDeleteKey, hdel, hx]
  · rw [List.perm_ext_iff_of_nodup hinv.nodup_keys (h.nodup_keys.erase x)]
    intro y
    rw [hinv.mem_keys_iff, hmap, h.nodup_keys.mem_erase_iff, h.mem_keys_iff]
    by_cases hyx : y = x
    · rw [hyx, Finmap.lookup_erase]
      simp
    · rw [Finmap.lookup_erase_ne (mt usedSetFunc_cls_eq_iff.mp hyx)]
      simp [hyx]

end UsedSet

/-! ## The invariant -/

theorem mem_blockItems {itemSize itemNumPerPool block x : ℕ} (hpos : 0 < itemSize)
    (hx : x ∈ blockItems itemSize itemNumPerPool block) :
    block ≤ x ∧ x < block + itemNumPerPool * itemSize := by
  obtain ⟨i, hi, rfl⟩ := List.mem_map.mp hx
  have hlt : i * itemSize < itemNumPerPool * itemSize :=
    Nat.mul_lt_mul_of_pos_right (List.mem_range.mp hi) hpos
  exact ⟨Nat.le_add_right _ _, Nat.add_lt_add_left hlt _⟩

theorem nodup_blockItems {itemSize : ℕ} (hpos : 0 < itemSize) (itemNumPerPool block : ℕ) :
    (blockItems itemSize itemNumPerPool block).Nodup := by
  refine List.nodup_range.map fun i j hij ↦ ?_
  exact Nat.eq_of_mul_eq_mul_right hpos (Nat.add_left_cancel hij)

namespace MemPool

/-- Items of blocks that do not overlap are different. -/
theorem nodup_items {pool : MemPool} (hpos : 0 < pool.itemSize)
    (hapart : pool.pools.Pairwise pool.Apart) : pool.items.Nodup := by
  rw [items, List.nodup_flatMap]
  refine ⟨fun p _ ↦ nodup_blockItems hpos _ p, hapart.imp fun {p q} hpq x hp hq ↦ ?_⟩
  have hxp := mem_blockItems hpos hp
  have hxq := mem_blockItems hpos hq
  rcases hpq with hpq | hpq
  · exact absurd (hxp.2.trans_le (hpq.trans hxq.1)) (lt_irrefl x)
  · exact absurd (hxq.2.trans_le (hpq.trans hxp.1)) (lt_irrefl x)

/-- The pool keeps its books: every item is free or in use, and those in use are the items that the
user holds. -/
structure Inv (seed : List UInt8) (mem : ℕ → UInt8) (pool : MemPool) (out : Finset ℕ) : Prop where
  used : pool.used.Inv (usedSetFunc seed mem)
  itemSize_pos : 0 < pool.itemSize
  itemNum_pos : 0 < pool.itemNumPerPool
  fits : pool.itemNumPerPool * pool.itemSize < 2 ^ 31
  apart : pool.pools.Pairwise pool.Apart
  perm : (pool.frees ++ pool.usedItems).Perm pool.items
  held : ∀ x, x ∈ pool.usedItems ↔ x ∈ out

namespace Inv

variable {seed : List UInt8} {mem : ℕ → UInt8} {pool : MemPool} {out : Finset ℕ}

theorem nodup (h : pool.Inv seed mem out) : (pool.frees ++ pool.usedItems).Nodup :=
  h.perm.nodup_iff.mpr (nodup_items h.itemSize_pos h.apart)

theorem extend (h : pool.Inv seed mem out) {block : ℕ}
    (hblock : ∀ q ∈ pool.pools, pool.Apart q block) :
    Inv seed mem { pool with
      pools := pool.pools ++ [block]
      frees := pool.frees ++ blockItems pool.itemSize pool.itemNumPerPool block } out where
  used := h.used
  itemSize_pos := h.itemSize_pos
  itemNum_pos := h.itemNum_pos
  fits := h.fits
  apart := by
    refine List.pairwise_append.mpr ⟨h.apart, List.pairwise_singleton _ _, fun q hq p hp ↦ ?_⟩
    rw [List.mem_singleton.mp hp]
    exact hblock q hq
  perm := by
    change ((pool.frees ++ blockItems pool.itemSize pool.itemNumPerPool block) ++
      pool.usedItems).Perm ((pool.pools ++ [block]).flatMap _)
    rw [List.flatMap_append, List.flatMap_singleton, List.append_assoc]
    calc pool.frees ++ (blockItems pool.itemSize pool.itemNumPerPool block ++ pool.usedItems)
      _ |>.Perm (pool.frees ++ (pool.usedItems ++
          blockItems pool.itemSize pool.itemNumPerPool block)) :=
        List.perm_append_comm.append_left _
      _ |>.Perm ((pool.frees ++ pool.usedItems) ++
          blockItems pool.itemSize pool.itemNumPerPool block) := by rw [List.append_assoc]
      _ |>.Perm (pool.items ++ blockItems pool.itemSize pool.itemNumPerPool block) :=
        h.perm.append_right _
  held := h.held

/-- `mem_pool_alloc` with an item at hand. -/
theorem take (h : pool.Inv seed mem out) (hfree : pool.frees ≠ [])
    (hfits : DictFits (dictSize pool.used + 1)) :
    ∃ pool' x, memPoolTake seed mem pool = some (pool', some x) ∧
      pool'.Inv seed mem (insert x out) ∧ x ∉ pool.usedItems := by
  obtain ⟨frees, x, hx⟩ := List.eq_nil_or_concat pool.frees |>.resolve_left hfree
  rw [List.concat_eq_append] at hx
  have hnd := h.nodup
  rw [hx, List.append_assoc, List.singleton_append, List.nodup_middle, List.nodup_cons] at hnd
  have hused : x ∉ pool.usedItems := fun hmem ↦ hnd.1 (List.mem_append_right _ hmem)
  have hsize : dictSize pool.used < 2 ^ 60 := by
    rw [DictFits] at hfits
    omega
  obtain ⟨d', hadd, hinv, hperm⟩ := usedSetAdd_spec h.used hsize hused
  refine ⟨{ pool with used := d', frees := frees }, x, ?_, ⟨hinv, h.itemSize_pos, h.itemNum_pos,
    h.fits, h.apart, ?_, fun y ↦ ?_⟩, hused⟩
  · rw [memPoolTake, hx, List.getLast?_concat, Option.bind_some, hadd, Option.bind_some, if_pos rfl,
      List.dropLast_concat]
  · refine List.Perm.trans ?_ h.perm
    rw [hx, List.append_assoc]
    exact hperm.append_left frees
  · rw [Finset.mem_insert, ← h.held y, ← List.mem_cons]
    exact hperm.mem_iff

/-- `mem_pool_alloc`. -/
theorem alloc (h : pool.Inv seed mem out) {block : Option ℕ}
    (hblock : ∀ p, block = some p → ∀ q ∈ pool.pools, pool.Apart q p)
    (hfits : DictFits (dictSize pool.used + 1)) :
    ∃ pool' r, memPoolAlloc seed mem pool block = some (pool', r) ∧
      pool'.Inv seed mem ((MemPoolCall.alloc block).held out r) ∧
      ∀ x, r = some x → x ∉ pool.usedItems := by
  rw [memPoolAlloc]
  split_ifs with hlen hdyn
  · exact ⟨pool, none, rfl, h, fun x hx ↦ by cases hx⟩
  · rw [memPoolExtend.eq_def, if_neg hdyn, if_neg (not_le.mpr h.fits)]
    cases block with
    | none => exact ⟨pool, none, rfl, h, fun x hx ↦ by cases hx⟩
    | some p =>
      have h' := h.extend (hblock p rfl)
      have hne : pool.frees ++ blockItems pool.itemSize pool.itemNumPerPool p ≠ [] := by
        intro hnil
        have hitems := (List.append_eq_nil_iff.mp hnil).2
        rw [blockItems, List.map_eq_nil_iff, List.range_eq_nil] at hitems
        exact h.itemNum_pos.ne' hitems
      obtain ⟨pool', x, htake, hinv, hx⟩ := h'.take hne hfits
      refine ⟨pool', some x, ?_, hinv, ?_⟩
      · rw [Option.bind_some, if_neg (lt_irrefl (0 : ℤ))]
        exact htake
      · rintro y hy
        rw [← Option.some.inj hy]
        exact hx
  · obtain ⟨pool', x, htake, hinv, hx⟩ := h.take (mt List.length_eq_zero_iff.mpr hlen) hfits
    refine ⟨pool', some x, htake, hinv, ?_⟩
    rintro y hy
    rw [← Option.some.inj hy]
    exact hx

/-- `mem_pool_free`, of any address. -/
theorem free (h : pool.Inv seed mem out) (x : ℕ) :
    ∃ pool', memPoolFree seed mem pool x = some pool' ∧ pool'.Inv seed mem (out.erase x) ∧
      (x ∈ out → x ∈ pool'.frees ∧ x ∉ pool'.usedItems) := by
  obtain ⟨d', hrem, hinv, hperm⟩ := usedSetRemove_spec h.used x
  have hheld : ∀ y, y ∈ pool.usedItems.erase x ↔ y ∈ out.erase x := by
    intro y
    rw [h.used.nodup_keys.mem_erase_iff, Finset.mem_erase]
    exact and_congr_right fun _ ↦ h.held y
  rw [memPoolFree, hrem, Option.map_some]
  by_cases hx : x ∈ pool.usedItems
  · rw [if_pos hx]
    simp only [one_ne_zero, if_false]
    refine ⟨_, rfl, ⟨hinv, h.itemSize_pos, h.itemNum_pos, h.fits, h.apart, ?_,
      fun y ↦ hperm.mem_iff.trans (hheld y)⟩, fun _ ↦ ⟨by simp, fun hmem ↦ ?_⟩⟩
    · refine List.Perm.trans ?_ h.perm
      rw [List.append_assoc, List.singleton_append]
      refine List.Perm.append_left _ ((hperm.cons x).trans ?_)
      exact (List.perm_cons_erase hx).symm
    · exact h.used.nodup_keys.not_mem_erase (hperm.mem_iff.mp hmem)
  · rw [if_neg hx]
    simp only [if_true]
    refine ⟨_, rfl, ⟨hinv, h.itemSize_pos, h.itemNum_pos, h.fits, h.apart, ?_,
      fun y ↦ hperm.mem_iff.trans (hheld y)⟩, fun hout ↦ absurd ((h.held x).mpr hout) hx⟩
    rw [List.erase_of_not_mem hx] at hperm
    exact (hperm.append_left _).trans h.perm

/-- A write that keeps the hashes. -/
theorem write (h : pool.Inv seed mem out) {mem' : ℕ → UInt8}
    (hkeep : ∀ x ∈ pool.usedItems, dictPtrHash seed mem' x = dictPtrHash seed mem x) :
    pool.Inv seed mem' out where
  used := h.used.congr rfl fun x hx ↦ hkeep x.key (List.mem_map_of_mem hx)
  itemSize_pos := h.itemSize_pos
  itemNum_pos := h.itemNum_pos
  fits := h.fits
  apart := h.apart
  perm := h.perm
  held := h.held

end Inv

/-! ## Initialisation -/

/-- What `mem_pool_init` has built after some blocks: nothing is in use. -/
theorem memPoolInitLoop_spec {pool pool' : MemPool} {blocks : List (Option ℕ)}
    (hitems : pool.frees = pool.items) (hinit : memPoolInitLoop pool blocks = some pool') :
    pool'.frees = pool'.items ∧ pool'.used = pool.used ∧ pool'.itemSize = pool.itemSize ∧
      pool'.itemNumPerPool = pool.itemNumPerPool ∧
      (blocks ≠ [] → pool.itemNumPerPool * pool.itemSize < 2 ^ 31) := by
  induction blocks generalizing pool with
  | nil =>
    rw [memPoolInitLoop, Option.some.injEq] at hinit
    subst hinit
    exact ⟨hitems, rfl, rfl, rfl, fun h ↦ absurd rfl h⟩
  | cons block blocks ih =>
    rw [memPoolInitLoop, Option.bind_eq_some_iff] at hinit
    obtain ⟨r, hext, hinit⟩ := hinit
    rw [memPoolExtend.eq_def] at hext
    split_ifs at hext with hdyn hfits
    · obtain rfl := Option.some.inj hext
      cases hinit
    · cases block with
      | none =>
        obtain rfl := Option.some.inj hext
        cases hinit
      | some p =>
        obtain rfl := Option.some.inj hext
        rw [if_neg (by simp)] at hinit
        obtain ⟨hfrees, hused, hsize, hnum, -⟩ := ih (by
          rw [hitems, items, items, List.flatMap_append, List.flatMap_singleton]) hinit
        exact ⟨hfrees, hused, hsize, hnum, fun _ ↦ not_le.mp hfits⟩

theorem inv_memPoolInit {seed : List UInt8} {mem : ℕ → UInt8} {itemSize itemNumPerPool : ℤ}
    {dynamic : Bool} {blocks : List (Option ℕ)} {pool : MemPool}
    (hinit : memPoolInit itemSize dynamic blocks itemNumPerPool = some pool)
    (hapart : pool.pools.Pairwise pool.Apart) : pool.Inv seed mem ∅ := by
  rw [memPoolInit] at hinit
  split_ifs at hinit with hargs
  rw [not_or, not_or, not_le, not_le] at hargs
  obtain ⟨pool₁, hloop, rfl⟩ := Option.map_eq_some_iff.mp hinit
  obtain ⟨hfrees, hused, hsize, hnum, hfits⟩ := memPoolInitLoop_spec rfl hloop
  have hfits := hfits (mt List.length_eq_zero_iff.mpr hargs.2.1)
  have hnone : pool₁.usedItems = [] := by rw [usedItems, hused]; rfl
  refine ⟨?_, ?_, ?_, ?_, hapart, ?_, fun x ↦ ?_⟩
  · exact hused ▸ inv_dictNew _
  · rw [hsize]
    exact Int.lt_toNat.mpr hargs.1
  · rw [hnum]
    exact Int.lt_toNat.mpr hargs.2.2
  · rwa [hsize, hnum]
  · change (pool₁.frees ++ pool₁.usedItems).Perm pool₁.items
    rw [hnone, List.append_nil, hfrees]
  · change x ∈ pool₁.usedItems ↔ _
    rw [hnone]
    simp

end MemPool

/-- One step keeps the books. -/
theorem MemPool.Inv.exec {seed : List UInt8} {st st' : MemPoolState} {out : Finset ℕ}
    {c : MemPoolCall} {r : Option ℕ} (h : st.pool.Inv seed st.mem out) (halloc : c.Allocates st)
    (hkeep : KeepsHashes seed st c) (hexec : st.exec seed c = some (st', r)) :
    st'.pool.Inv seed st'.mem (c.held out r) := by
  cases c with
  | alloc block =>
    obtain ⟨pool', r', hop, hinv, -⟩ := h.alloc halloc.1 halloc.2
    rw [MemPoolState.exec, hop, Option.map_some, Option.some.injEq, Prod.mk.injEq] at hexec
    obtain ⟨rfl, rfl⟩ := hexec
    exact hinv
  | free item =>
    obtain ⟨pool', hop, hinv, -⟩ := h.free item
    rw [MemPoolState.exec, hop, Option.map_some, Option.some.injEq, Prod.mk.injEq] at hexec
    obtain ⟨rfl, rfl⟩ := hexec
    exact hinv
  | write addr byte =>
    rw [MemPoolState.exec, Option.some.injEq, Prod.mk.injEq] at hexec
    obtain ⟨rfl, rfl⟩ := hexec
    exact h.write hkeep

/-- **The pool keeps its promises in every run whose writes keep the hashes** of the items in use. -/
theorem mem_pool_run {seed : List UInt8} {st : MemPoolState} {out : Finset ℕ}
    (hrun : MemPoolRun seed (KeepsHashes seed) st out) : MemPoolSound seed st out := by
  have hinv : st.pool.Inv seed st.mem out := by
    induction hrun with
    | init hinit hapart => exact MemPool.inv_memPoolInit hinit hapart
    | call _ halloc hkeep hexec ih => exact ih.exec halloc hkeep hexec
  refine ⟨hinv.nodup, hinv.perm, fun block halloc ↦ ?_, fun x hx ↦ ?_⟩
  · obtain ⟨pool', r, hop, -, hr⟩ := hinv.alloc halloc.1 halloc.2
    exact ⟨{ st with pool := pool' }, r, by rw [MemPoolState.exec, hop]; rfl, hr⟩
  · obtain ⟨pool', hop, -, hout⟩ := hinv.free x
    exact ⟨{ st with pool := pool' }, by rw [MemPoolState.exec, hop]; rfl, hout hx⟩

/-! ## A write that loses an item -/

/-- One block of one item of sixteen bytes, at address 64. -/
def smallPool : MemPool := ⟨false, 16, 1, [64], dictNew, [64]⟩

/-- The seed that is used if none is set. -/
def zeroSeed : List UInt8 := List.replicate 16 0

/-- The pool with its item handed out: in a table of four buckets it is in the first. -/
def smallPoolUsed : MemPool :=
  ⟨false, 16, 1, [64], ⟨⟨some [[⟨64, some ()⟩], [], [], []], 1, some 2⟩, dictReset, none, 0⟩, []⟩

theorem memPoolInit_small : memPoolInit 16 false [some 64] 1 = some smallPool := rfl

private theorem hash_zero : dictPtrHash zeroSeed (fun _ ↦ 0) 64 = 9881915912075311088 := by
  decide +kernel

private theorem hash_one :
    dictPtrHash zeroSeed (Function.update (fun _ ↦ 0) 64 1) 64 = 6501680627547266375 := by
  decide +kernel

private theorem slot_zero : (usedSetFunc zeroSeed fun _ ↦ 0).slot (some 2) 64 = 0 := by
  change (dictPtrHash zeroSeed (fun _ ↦ 0) 64).toNat &&& dicthtSizeMask (some 2) = 0
  rw [hash_zero]
  rfl

private theorem slot_one :
    (usedSetFunc zeroSeed (Function.update (fun _ ↦ 0) 64 1)).slot (some 2) 64 = 3 := by
  change (dictPtrHash zeroSeed (Function.update (fun _ ↦ 0) 64 1) 64).toNat &&&
    dicthtSizeMask (some 2) = 3
  rw [hash_one]
  rfl

private theorem alloc_small : (⟨fun _ ↦ 0, smallPool⟩ : MemPoolState).exec zeroSeed (.alloc none) =
    some (⟨fun _ ↦ 0, smallPoolUsed⟩, some 64) := by
  simp [MemPoolState.exec, memPoolAlloc, smallPool, memPoolTake, usedSetAdd, dictAddRaw,
    dictRehashStep, dictIsRehashing, dictNew, dictKeyIndex, dictExpandIfNeeded, dicthtSize,
    dictReset, dictExpand, dictNextExp, dictNextExpFrom, DictTable.bucket?, dictChainFind,
    DictTable.link, DictTable.setBucket, dictSetVal, DictTable.setHeadVal, slot_zero,
    smallPoolUsed]

/-- The search for the written item looks into an empty bucket. -/
private theorem free_small :
    (⟨Function.update (fun _ ↦ 0) 64 1, smallPoolUsed⟩ : MemPoolState).exec zeroSeed (.free 64) =
      some (⟨Function.update (fun _ ↦ 0) 64 1, smallPoolUsed⟩, none) := by
  simp [MemPoolState.exec, memPoolFree, usedSetRemove, dictDeleteKey, dictGenericDelete,
    smallPoolUsed, dictSize, dictRehashStep, dictIsRehashing, DictTable.bucket?, dictChainFind,
    slot_one]

private theorem run_small {P : MemPoolState → MemPoolCall → Prop}
    (hP : ∀ st block, P st (.alloc block)) :
    MemPoolRun zeroSeed P ⟨fun _ ↦ 0, smallPoolUsed⟩ {64} := by
  have h₀ : MemPoolRun zeroSeed P ⟨fun _ ↦ 0, smallPool⟩ ∅ :=
    .init memPoolInit_small (List.pairwise_singleton _ _)
  exact .call (c := .alloc none) h₀ ⟨(fun p hp ↦ by cases hp), by decide⟩ (hP _ _) alloc_small

/-- An item can be given back after a write to its second half, which is not hashed. -/
theorem mem_pool_run_small : ∃ st, 64 ∈ st.pool.frees ∧ MemPoolSound zeroSeed st ∅ := by
  have hused : MemPoolRun zeroSeed (KeepsHashes zeroSeed) ⟨fun _ ↦ 0, smallPoolUsed⟩ {64} :=
    run_small fun _ _ ↦ trivial
  have hkeep : KeepsHashes zeroSeed ⟨fun _ ↦ 0, smallPoolUsed⟩ (.write 72 7) := by
    intro x hx
    obtain rfl : x = 64 := List.mem_singleton.mp hx
    exact congrArg (siphash · zeroSeed) (by decide)
  have hwritten := MemPoolRun.call (c := .write 72 7) hused trivial hkeep rfl
  obtain ⟨st, hfree, hmem, -⟩ := (mem_pool_run hwritten).free 64 (Finset.mem_singleton_self 64)
  have hgiven := MemPoolRun.call (c := .free 64) hwritten trivial trivial hfree
  exact ⟨st, hmem, mem_pool_run hgiven⟩

/-- Its user writes to the first byte of the item; then `mem_pool_free` does not find it. -/
theorem mem_pool_loses_item : ∃ st out, MemPoolRun zeroSeed WritesUsed st out ∧
    ¬MemPoolSound zeroSeed st out := by
  refine ⟨_, _, .call (c := .write 64 1) (run_small fun _ _ ↦ trivial) trivial
    ⟨64, List.mem_singleton_self 64, le_rfl, by decide⟩ rfl, fun hsound ↦ ?_⟩
  obtain ⟨st', hexec, hfree, -⟩ := hsound.free 64 (Finset.mem_singleton_self 64)
  rw [free_small, Option.some.injEq, Prod.mk.injEq] at hexec
  obtain ⟨rfl, -⟩ := hexec
  cases hfree

end LatteC
