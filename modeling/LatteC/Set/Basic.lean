import LatteC.Dict.Refinement
import LatteC.Sds.Basic
import LatteC.Tree.Avl

/-!
# Sets of strings

`src/set/set.c` and its two implementations over `sds` keys, `avl_set.c` and `hash_set.c`. Both are
compared with the finite sets of the keys.

The hash set is right on everything but `set_clear`, which hands the `set_t` itself to
`dict_destroy`. The AVL set inherits what `avl_tree.c` gets wrong: of its members it only finds the
one at the root, and it cannot take a member away unless that is the only one.
-/

namespace LatteC

open SortedAssoc

/-- The value of an `int` that a length is assigned to. -/
def sdsLenInt (s : List UInt8) : ℤ := ((s.length : ℤ) + 2 ^ 31) % 2 ^ 32 - 2 ^ 31

theorem sdsLenInt_eq_length {s : List UInt8} (h : s.length < 2 ^ 31) : sdsLenInt s = s.length := by
  rw [sdsLenInt]
  omega

/-- `dict_sds_key_compare`. It keeps the lengths in variables of type `int`; one that comes out
negative would be a `memcmp` over most of the address space. -/
def dictSdsKeyCompare (key1 key2 : List UInt8) : Bool :=
  let l1 := sdsLenInt key1
  let l2 := sdsLenInt key2
  if l1 ≠ l2 then false else memcmp l1.toNat key1 key2 = 0

/-- A key of a set: a string whose length is an `int`, as `dict_sds_key_compare` needs it. -/
def SdsKey : Type := { s : List UInt8 // s.length < 2 ^ 31 }

namespace SdsKey

/-- The bytes of a key. -/
def bytes (k : SdsKey) : List UInt8 := k.1

theorem bytes_injective : Function.Injective bytes := Subtype.val_injective

theorem sdsLenInt_bytes (k : SdsKey) : sdsLenInt k.bytes = k.bytes.length := sdsLenInt_eq_length k.2

/-- The keys in the order of `sds_cmp`. -/
instance : LinearOrder SdsKey :=
  LinearOrder.lift' (fun k ↦ sdsBytes k.bytes) (sdsBytes_injective.comp bytes_injective)

end SdsKey

theorem dictSdsKeyCompare_iff (a b : SdsKey) :
    dictSdsKeyCompare a.bytes b.bytes = true ↔ a = b := by
  rw [dictSdsKeyCompare, a.sdsLenInt_bytes, b.sdsLenInt_bytes]
  simp only [Int.toNat_natCast]
  split_ifs with hlen
  · refine iff_of_false not_false ?_
    rintro rfl
    exact hlen rfl
  · rw [decide_eq_true_iff, memcmp_eq_zero_iff (by omega), SdsKey.bytes_injective.eq_iff]

/-- `avl_set_sds_func`. -/
def avlSetSdsFunc : AvlTreeType SdsKey where
  operator a b := sdsCmp a.bytes b.bytes
  ownsKeys := true
  operator_neg_iff a b := sdsCmp_neg_iff a.bytes b.bytes
  operator_pos_iff a b := sdsCmp_pos_iff a.bytes b.bytes

/-- `sds_hash_set_dict_func`. `dict_sds_hash` is a function of the bytes, which stays open. -/
def sdsHashSetDictFunc (hash : List UInt8 → UInt64) : DictFunc SdsKey where
  hashFunction k := hash k.bytes
  keyCompare a b := dictSdsKeyCompare a.bytes b.bytes
  expandAllowed _ _ _ := true
  keyCompare_equivalence := by
    simp only [dictSdsKeyCompare_iff]
    exact eq_equivalence
  hash_eq_of_keyCompare a b h := by rw [(dictSdsKeyCompare_iff a b).mp h]

/-! ## The two implementations -/

/-- A call of the set interface. -/
inductive SetCall where
  | add (key : SdsKey)
  | contains (key : SdsKey)
  | remove (key : SdsKey)
  | size
  | clear

/-- What a call returns. -/
inductive SetReply where
  | int (n : ℤ)
  | size (n : ℤ)
  | done
  deriving DecidableEq

/-- The calls through `avl_set_func`. -/
def avlSetStep (set : AvlTree SdsKey Unit) : SetCall → Option (AvlTree SdsKey Unit × SetReply)
  | .add key => (avlTreePut avlSetSdsFunc set key ()).map fun r ↦ (r.1, .int r.2)
  | .contains key =>
    (avlTreeGet avlSetSdsFunc set key).map fun node ↦ (set, .int (if node.isNone then 0 else 1))
  | .remove key => (avlTreeRemove avlSetSdsFunc set key).map fun r ↦ (r.1, .int r.2)
  | .size => (avlTreeSize set).map fun n ↦ (set, .size n)
  | .clear => (avlTreeClear avlSetSdsFunc set).map fun set ↦ (set, .done)

section HashSet

variable (hash : List UInt8 → UInt64) (set : Dict SdsKey Unit)

/-- `private_hash_set_add`. -/
def privateHashSetAdd (element : SdsKey) : Option (Dict SdsKey Unit × ℤ) :=
  (dictAddRaw (sdsHashSetDictFunc hash) set element).bind fun r ↦
    match r with
    | (d, some de, _) => (dictSetVal d de ()).map fun d ↦ (d, 1)
    | (d, none, _) => some (d, 0)

/-- `private_hash_set_remove`. -/
def privateHashSetRemove (element : SdsKey) : Option (Dict SdsKey Unit × ℤ) :=
  (dictDeleteKey (sdsHashSetDictFunc hash) set element).map fun r ↦
    match r with
    | (d, .ok) => (if htNeedsResize d then (dictResize d).1 else d, 1)
    | (d, .err) => (d, 0)

/-- `private_hash_set_contains`. -/
def privateHashSetContains (element : SdsKey) : Option (Dict SdsKey Unit × ℤ) :=
  (dictFind (sdsHashSetDictFunc hash) set element).map fun r ↦ (r.1, if r.2.isSome then 1 else 0)

/-- The calls through `hash_set_func`. Its `clear` is `private_hash_set_destroy`, which takes the
`set_t` for the dictionary: `ht_size_exp`, the first field it reads, lies behind the end of it. -/
def hashSetStep : SetCall → Option (Dict SdsKey Unit × SetReply)
  | .add key => (privateHashSetAdd hash set key).map fun r ↦ (r.1, .int r.2)
  | .contains key => (privateHashSetContains hash set key).map fun r ↦ (r.1, .int r.2)
  | .remove key => (privateHashSetRemove hash set key).map fun r ↦ (r.1, .int r.2)
  | .size => some (set, .size (dictSize set))
  | .clear => none

end HashSet

/-- One call made on both. -/
def setPairStep (hash : List UInt8 → UInt64) (sets : AvlTree SdsKey Unit × Dict SdsKey Unit)
    (c : SetCall) :
    Option ((AvlTree SdsKey Unit × Dict SdsKey Unit) × SetReply × SetReply) :=
  (avlSetStep sets.1 c).bind fun r ↦
    (hashSetStep hash sets.2 c).map fun r' ↦ ((r.1, r'.1), r.2, r'.2)

/-- One call of a finite set. A member can be added while the entries fit into the address space. -/
def finsetStep (s : Finset SdsKey) : SetCall → Option (Finset SdsKey × SetReply)
  | .add key =>
    if key ∈ s then some (s, .int 0)
    else if DictFits (s.card + 1) then some (insert key s, .int 1) else none
  | .contains key => some (s, .int (if key ∈ s then 1 else 0))
  | .remove key => some (s.erase key, .int (if key ∈ s then 1 else 0))
  | .size => some (s, .size s.card)
  | .clear => some (∅, .done)

/-! ## The AVL set -/

/-- The tree is well formed and its keys are the members of `s`. -/
structure AvlTree.Holds (set : AvlTree SdsKey Unit) (s : Finset SdsKey) : Prop where
  low : set.root.Low
  sorted : Sorted set.root.inorder
  alive : set.root.Alive set.heap
  freed : ∀ i ∈ set.heap.freed, i < set.heap.fresh
  members : (set.root.inorder.map Prod.fst).toFinset = s

/-- Where both sets give the right answer and stay in order. The AVL set looks for no member but the
one at the root, removes none but the only one, and its size is an `int`; no set is cleared. -/
def SetSafe (set : AvlTree SdsKey Unit) : SetCall → Prop
  | .add _ => True
  | .contains key => key ∈ set.root.inorder.map Prod.fst →
      set.root.key?.map AvlKey.content = some key
  | .remove key => key ∈ set.root.inorder.map Prod.fst → nodeLength set.root = 1
  | .size => nodeLength set.root < 2 ^ 31
  | .clear => False

instance (set : AvlTree SdsKey Unit) : ∀ c, Decidable (SetSafe set c)
  | .add _ => inferInstanceAs (Decidable True)
  | .contains key => inferInstanceAs (Decidable (key ∈ set.root.inorder.map Prod.fst →
      set.root.key?.map AvlKey.content = some key))
  | .remove key => inferInstanceAs (Decidable (key ∈ set.root.inorder.map Prod.fst →
      nodeLength set.root = 1))
  | .size => inferInstanceAs (Decidable (nodeLength set.root < 2 ^ 31))
  | .clear => inferInstanceAs (Decidable False)

namespace AvlTree.Holds

variable {set : AvlTree SdsKey Unit} {s : Finset SdsKey} (h : set.Holds s)

include h

theorem mem_iff (key : SdsKey) : key ∈ set.root.inorder.map Prod.fst ↔ key ∈ s := by
  rw [← h.members, List.mem_toFinset]

theorem card_eq : s.card = nodeLength set.root := by
  rw [← h.members, List.toFinset_card_of_nodup (nodup_keys h.sorted), List.length_map,
    AvlNode.length_inorder]

theorem add (key : SdsKey) : ∃ set', avlSetStep set (.add key) =
    some (set', .int (if key ∈ s then 0 else 1)) ∧ set'.Holds (insert key s) := by
  obtain ⟨root, fresh, hins, hfresh, hlow, hin, halive⟩ :=
    avlNodeInsert_spec avlSetSdsFunc key () h.freed h.low h.sorted h.alive
  refine ⟨⟨root, fresh, set.heap.freed⟩, ?_, hlow, ?_, halive,
    fun i hi ↦ (h.freed i hi).trans_le hfresh, ?_⟩
  · simp only [avlSetStep, avlTreePut, hins, Option.map_some, h.mem_iff]
  · rw [hin]
    exact sorted_put h.sorted
  · ext a
    rw [hin, List.mem_toFinset, mem_keys_put, Finset.mem_insert, h.mem_iff]

theorem contains {key : SdsKey} (hsafe : SetSafe set (.contains key)) :
    avlSetStep set (.contains key) = some (set, .int (if key ∈ s then 1 else 0)) := by
  obtain ⟨root, heap⟩ := set
  cases root with
  | nil =>
    have hmem : key ∉ s := by
      rw [← h.mem_iff]
      simp [AvlNode.inorder]
    simp [avlSetStep, avlTreeGet, avlNodeSearch, hmem]
  | node l k v ht r =>
    have hiff : key = k.content ↔ key ∈ s := by
      rw [← h.mem_iff]
      constructor
      · rintro rfl
        simp [AvlNode.inorder]
      · exact fun hmem ↦ (Option.some.inj (hsafe hmem)).symm
    simp only [avlSetStep, avlTreeGet, avlNodeSearch_node avlSetSdsFunc key h.sorted h.alive,
      Option.map_some, hiff]
    by_cases hmem : key ∈ s <;> simp [hmem]

/-- What a removal that finds nothing leaves. -/
private theorem of_untouched {r : Option (AvlNode SdsKey Unit × AvlHeap × Bool)}
    (hr : AvlUntouched set.heap set.root r) :
    ∃ root, r = some (root, set.heap, false) ∧ AvlTree.Holds ⟨root, set.heap⟩ s := by
  obtain ⟨root, rfl, hlow, hin, hkeys⟩ := hr.run
  refine ⟨root, rfl, hlow, by rw [hin]; exact h.sorted, fun k hk ↦ h.alive k (hkeys ▸ hk), h.freed,
    by rw [hin]; exact h.members⟩

theorem remove {key : SdsKey} (hsafe : SetSafe set (.remove key)) :
    ∃ set', avlSetStep set (.remove key) = some (set', .int (if key ∈ s then 1 else 0)) ∧
      set'.Holds (s.erase key) := by
  by_cases hmem : key ∈ s
  · -- the tree is a single node
    obtain ⟨root, heap⟩ := set
    have hone : nodeLength root = 1 := hsafe ((h.mem_iff key).mpr hmem)
    have hcard : s.card = 1 := h.card_eq.trans hone
    cases root with
    | nil => simp [nodeLength] at hone
    | node l k v ht r =>
      cases l with
      | node =>
        simp only [nodeLength] at hone
        omega
      | nil =>
        cases r with
        | node =>
          simp only [nodeLength] at hone
          omega
        | nil =>
          have hkey : key = k.content := by simpa [AvlNode.inorder] using (h.mem_iff key).mpr hmem
          obtain ⟨freed, hdel, hfreed⟩ := deleteChildNode_single avlSetSdsFunc h.alive
          refine ⟨⟨.nil, heap.fresh, freed⟩, ?_, trivial, sorted_nil, ?_, ?_, ?_⟩
          · simp [avlSetStep, avlTreeRemove, hkey, hdel, hkey ▸ hmem]
          · exact fun k hk ↦ absurd hk List.not_mem_nil
          · intro i hi
            rcases hfreed i hi with hi | hi
            · exact h.freed i hi
            · exact hi
          · symm
            rw [Finset.card_eq_one] at hcard
            obtain ⟨a, rfl⟩ := hcard
            rw [Finset.mem_singleton.mp hmem, Finset.erase_singleton]
            rfl
  · have hfound : ∃ root, deleteChildNode avlSetSdsFunc key set.root set.heap =
        some (root, set.heap, false) ∧ AvlTree.Holds ⟨root, set.heap⟩ s := by
      obtain ⟨root, heap⟩ := set
      cases root with
      | nil => exact ⟨.nil, rfl, h⟩
      | node l k v ht r =>
        refine h.of_untouched (deleteChildNode_of_ne avlSetSdsFunc h.low h.sorted h.alive ?_)
        rintro rfl
        exact hmem ((h.mem_iff _).mp (by simp [AvlNode.inorder]))
    obtain ⟨root, hdel, hholds⟩ := hfound
    refine ⟨⟨root, set.heap⟩, ?_, by rwa [Finset.erase_eq_of_notMem hmem]⟩
    simp [avlSetStep, avlTreeRemove, hdel, hmem]

theorem size (hsafe : SetSafe set .size) : avlSetStep set .size = some (set, .size s.card) := by
  have hlt : nodeLength set.root < 2 ^ 31 := hsafe
  rw [avlSetStep, avlTreeSize, if_pos hlt, Option.map_some, h.card_eq]

end AvlTree.Holds

/-! ## The hash set -/

section HashSet

variable {hash : List UInt8 → UInt64}

/-- The class of a key under `dict_sds_key_compare`, which holds that key alone. -/
def sdsKeyClass (hash : List UInt8 → UInt64) : SdsKey ↪ (sdsHashSetDictFunc hash).Key where
  toFun := (sdsHashSetDictFunc hash).cls
  inj' := by
    intro a b hab
    rw [DictFunc.cls_eq_cls_iff, sdsHashSetDictFunc] at hab
    simpa only [dictSdsKeyCompare_iff] using hab

/-- The dictionary is well formed and its keys are the members of `s`. -/
structure Dict.Holds (hash : List UInt8 → UInt64) (set : Dict SdsKey Unit) (s : Finset SdsKey) :
    Prop where
  inv : set.Inv (sdsHashSetDictFunc hash)
  members : (set.toMap (sdsHashSetDictFunc hash)).keys = s.map (sdsKeyClass hash)
  fits : DictFits s.card

namespace Dict.Holds

variable {set : Dict SdsKey Unit} {s : Finset SdsKey} (h : set.Holds hash s)

include h

theorem dictSize_eq : dictSize set = s.card := by
  rw [h.inv.dictSize_eq_card, h.members, Finset.card_map]

theorem dictSize_lt : dictSize set < 2 ^ 60 := by
  have hfits := h.fits
  rw [DictFits, ← h.dictSize_eq] at hfits
  omega

theorem lookup_isSome (key : SdsKey) :
    ((set.toMap (sdsHashSetDictFunc hash)).lookup ((sdsHashSetDictFunc hash).cls key)).isSome =
      decide (key ∈ s) := by
  rw [Bool.eq_iff_iff, Finmap.lookup_isSome, ← Finmap.mem_keys, h.members, decide_eq_true_iff]
  exact Finset.mem_map' (sdsKeyClass hash)

/-- A dictionary of the same entries. -/
private theorem of_toMap_eq {set' : Dict SdsKey Unit} (hinv : set'.Inv (sdsHashSetDictFunc hash))
    (hmap : set'.toMap (sdsHashSetDictFunc hash) = set.toMap (sdsHashSetDictFunc hash)) :
    set'.Holds hash s :=
  ⟨hinv, by rw [hmap, h.members], h.fits⟩

theorem contains (key : SdsKey) :
    ∃ set', hashSetStep hash set (.contains key) = some (set', .int (if key ∈ s then 1 else 0)) ∧
      set'.Holds hash s := by
  obtain ⟨set', hfind, hinv, hmap⟩ := dictFind_spec h.inv key
  refine ⟨set', ?_, h.of_toMap_eq hinv hmap⟩
  simp only [hashSetStep, privateHashSetContains, hfind, Option.map_some, h.lookup_isSome,
    decide_eq_true_iff]

theorem remove (key : SdsKey) :
    ∃ set', hashSetStep hash set (.remove key) = some (set', .int (if key ∈ s then 1 else 0)) ∧
      set'.Holds hash (s.erase key) := by
  obtain ⟨set', hdel, hinv, hmap⟩ := dictGenericDelete_spec h.inv key
  refine ⟨set', ?_, hinv, ?_, ?_⟩
  · by_cases hmem : key ∈ s
    · simp [hashSetStep, privateHashSetRemove, dictDeleteKey, hdel, h.lookup_isSome, hmem,
        dictResize_eq]
    · simp [hashSetStep, privateHashSetRemove, dictDeleteKey, hdel, h.lookup_isSome, hmem]
  · ext k
    rw [hmap, Finset.map_erase, ← h.members, Finset.mem_erase, Finmap.mem_keys, Finmap.mem_keys,
      Finmap.mem_erase]
    rfl
  · have hle : (s.erase key).card ≤ s.card := Finset.card_erase_le
    have hfits := h.fits
    rw [DictFits] at hfits ⊢
    omega

theorem add {key : SdsKey} (hfits : key ∉ s → DictFits (s.card + 1)) :
    ∃ set', hashSetStep hash set (.add key) = some (set', .int (if key ∈ s then 0 else 1)) ∧
      set'.Holds hash (insert key s) := by
  have hraw := dictAddRaw_spec h.inv h.dictSize_lt key
  have hsome := h.lookup_isSome key
  cases hlook : (set.toMap (sdsHashSetDictFunc hash)).lookup
      ((sdsHashSetDictFunc hash).cls key) with
  | some he =>
    rw [hlook] at hraw hsome
    have hmem : key ∈ s := by simpa using hsome
    obtain ⟨set', hadd, hinv, hmap⟩ := hraw
    refine ⟨set', ?_, by rw [Finset.insert_eq_of_mem hmem]; exact h.of_toMap_eq hinv hmap⟩
    simp [hashSetStep, privateHashSetAdd, hadd, hmem]
  | none =>
    rw [hlook] at hraw hsome
    have hmem : key ∉ s := by simpa using hsome
    obtain ⟨d, pos, hadd, -, -, hset⟩ := hraw
    obtain ⟨set', hval, hinv, hmap⟩ := hset ()
    refine ⟨set', ?_, hinv, ?_, by rw [Finset.card_insert_of_notMem hmem]; exact hfits hmem⟩
    · simp [hashSetStep, privateHashSetAdd, hadd, hval, hmem]
    · ext k
      rw [hmap, Finset.map_insert, ← h.members, Finset.mem_insert, Finmap.mem_keys,
        Finmap.mem_keys, Finmap.mem_insert]
      rfl

end Dict.Holds

theorem holds_dictNew (hash : List UInt8 → UInt64) : (dictNew : Dict SdsKey Unit).Holds hash ∅ :=
  ⟨inv_dictNew _, by rw [toMap_dictNew, Finset.map_empty]; rfl, by simp [DictFits]⟩

end HashSet

/-! ## Runs -/

theorem holds_avlTreeNew : (avlTreeNew : AvlTree SdsKey Unit).Holds ∅ :=
  ⟨trivial, sorted_nil, fun _ hk ↦ absurd hk List.not_mem_nil,
    fun _ hi ↦ absurd hi List.not_mem_nil, rfl⟩

/-- One call on both sets answers twice what a finite set answers. -/
theorem setPairStep_refines (hash : List UInt8 → UInt64)
    (sets : AvlTree SdsKey Unit × Dict SdsKey Unit) (s : Finset SdsKey) (c : SetCall)
    (s' : Finset SdsKey) (o : SetReply × SetReply) (h : sets.1.Holds s ∧ sets.2.Holds hash s)
    (hsafe : SetSafe sets.1 c)
    (hspec : (finsetStep s c).map (fun r ↦ (r.1, r.2, r.2)) = some (s', o)) :
    ∃ sets', setPairStep hash sets c = some (sets', o) ∧
      sets'.1.Holds s' ∧ sets'.2.Holds hash s' := by
  obtain ⟨havl, hhash⟩ := h
  obtain ⟨⟨s'', r⟩, hstep, heq⟩ := Option.map_eq_some_iff.mp hspec
  obtain ⟨rfl, rfl⟩ := Prod.mk.inj heq
  -- it is enough that each set gives the reply of the finite set
  suffices hboth : (∃ a, avlSetStep sets.1 c = some (a, r) ∧ a.Holds s'') ∧
      ∃ d, hashSetStep hash sets.2 c = some (d, r) ∧ d.Holds hash s'' by
    obtain ⟨⟨a, ha, haH⟩, d, hd, hdH⟩ := hboth
    exact ⟨(a, d), by rw [setPairStep, ha, Option.bind_some, hd, Option.map_some], haH, hdH⟩
  cases c with
  | add key =>
    have hfits : key ∉ s → DictFits (s.card + 1) := by
      intro hmem
      rw [finsetStep, if_neg hmem] at hstep
      split_ifs at hstep with hfits
      exact hfits
    obtain ⟨rfl, rfl⟩ : insert key s = s'' ∧ SetReply.int (if key ∈ s then 0 else 1) = r := by
      by_cases hmem : key ∈ s
      · simpa [finsetStep, hmem] using hstep
      · simpa [finsetStep, hmem, hfits hmem] using hstep
    exact ⟨havl.add key, hhash.add hfits⟩
  | contains key =>
    obtain ⟨rfl, rfl⟩ := Prod.mk.inj (Option.some.inj hstep)
    exact ⟨⟨sets.1, havl.contains hsafe, havl⟩, hhash.contains key⟩
  | remove key =>
    obtain ⟨rfl, rfl⟩ := Prod.mk.inj (Option.some.inj hstep)
    exact ⟨havl.remove hsafe, hhash.remove key⟩
  | size =>
    obtain ⟨rfl, rfl⟩ := Prod.mk.inj (Option.some.inj hstep)
    exact ⟨⟨sets.1, havl.size hsafe, havl⟩, sets.2, by rw [hashSetStep, hhash.dictSize_eq], hhash⟩
  | clear => exact hsafe.elim

/-- **The two sets agree with each other and with the finite sets** on every sequence of calls in
which no set is cleared and the AVL set is only asked about strangers and its root, and only made
to remove strangers and an only member. -/
theorem set_run_agrees (hash : List UInt8 → UInt64) (calls : List SetCall) (s : Finset SdsKey)
    (replies : List SetReply) (hrun : CallMachine.run finsetStep ∅ calls = some (s, replies))
    (hsafe : CallMachine.Guarded (fun sets c ↦ SetSafe sets.1 c) (setPairStep hash)
      (avlTreeNew, dictNew) calls) :
    ∃ sets, CallMachine.run (setPairStep hash) (avlTreeNew, dictNew) calls =
      some (sets, replies.map fun r ↦ (r, r)) := by
  have hpair : CallMachine.run (fun s c ↦ (finsetStep s c).map fun r ↦ (r.1, r.2, r.2)) ∅ calls =
      some (s, replies.map fun r ↦ (r, r)) := by
    rw [CallMachine.run_map_reply (fun r ↦ (r, r)), hrun, Option.map_some]
  obtain ⟨sets, hsets, -⟩ := CallMachine.run_refines_of_guarded (setPairStep_refines hash)
    ⟨holds_avlTreeNew, holds_dictNew hash⟩ hsafe hpair
  exact ⟨sets, hsets⟩

/-- The calls of the test up to its iteration, with the strings `a`, `b` and `c`. -/
theorem set_run_agrees_test : ∃ sets, CallMachine.run (setPairStep fun _ ↦ 0) (avlTreeNew, dictNew)
    [.contains ⟨[97], by decide⟩, .size, .add ⟨[97], by decide⟩, .contains ⟨[97], by decide⟩,
      .add ⟨[97], by decide⟩, .size, .remove ⟨[97], by decide⟩, .remove ⟨[97], by decide⟩, .size,
      .add ⟨[97], by decide⟩, .add ⟨[98], by decide⟩, .add ⟨[99], by decide⟩, .size] =
    some (sets, [.int 0, .size 0, .int 1, .int 1, .int 0, .size 1, .int 1, .int 0, .size 0,
      .int 1, .int 1, .int 1, .size 3].map fun r ↦ (r, r)) :=
  set_run_agrees (fun _ ↦ 0) _ _ _ rfl (by decide)

/-- After `b` and `a` are added, the AVL set does not find `a`. -/
theorem set_run_misses_member :
    (CallMachine.run avlSetStep avlTreeNew [.add ⟨[98], by decide⟩, .add ⟨[97], by decide⟩,
      .contains ⟨[97], by decide⟩]).map Prod.snd = some [.int 1, .int 1, .int 0] ∧
    (CallMachine.run finsetStep ∅ [.add ⟨[98], by decide⟩, .add ⟨[97], by decide⟩,
      .contains ⟨[97], by decide⟩]).map Prod.snd = some [.int 1, .int 1, .int 1] := by
  decide

end LatteC
