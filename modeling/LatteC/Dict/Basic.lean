import LatteC.Foundation.Buckets
import Mathlib.Data.Nat.Bitwise
import Mathlib.Data.Quot

/-!
# The dictionary

`src/dict/dict.c`: a chained hash table that grows by *incremental rehashing*. While a rehash is in
progress two tables are live; every operation first moves a bucket from table 0 to table 1, then
does its own work on both.

Pointers that the source dereferences without a check (a bucket of a table, the table itself) are
read through `bucket?`, so a NULL or out-of-range access is `none`, and so is a failed assertion.
A chain of entries is the list of its entries from the head on. The value of an entry is `none`
until it is first written: `dict_add_raw` leaves it to the caller.

Not modelled: the metadata bytes behind an entry, and the destructors, which do not touch the table.
-/

namespace LatteC

/-- `DICT_OK` and `DICT_ERR`. -/
inductive DictStatus where
  | ok
  | err
  deriving DecidableEq

/-- `dict_func_t`, with the contract its two key functions have to meet. The comparison returns true
on equal keys; `key == he->key` in the source is a shortcut for its reflexivity. A NULL
`expandAllowed` is the function that always allows. Its `usedRatio` argument is passed here as
the two numbers the source divides. -/
structure DictFunc (K : Type) where
  hashFunction : K → UInt64
  keyCompare : K → K → Bool
  expandAllowed : (moreMem used size : ℕ) → Bool
  keyCompare_equivalence : Equivalence fun a b ↦ keyCompare a b = true
  /-- Keys that compare equal have equal hashes. -/
  hash_eq_of_keyCompare : ∀ a b, keyCompare a b = true → hashFunction a = hashFunction b

/-- `dict_entry_t`. -/
@[ext] structure DictEntry (K V : Type) where
  key : K
  v : Option V

/-- `ht_table[i]`, `ht_used[i]` and `ht_size_exp[i]`. The exponent `none` is the source's `-1`. -/
structure DictTable (K V : Type) where
  table : Option (List (List (DictEntry K V)))
  used : ℕ
  sizeExp : Option ℕ

/-- `dict_t`. The index `none` is the source's `-1`: no rehash in progress. -/
structure Dict (K V : Type) where
  ht0 : DictTable K V
  ht1 : DictTable K V
  rehashidx : Option ℕ
  pauserehash : ℤ

section Model

variable {K V : Type}

/-- `DICTHT_SIZE`. -/
def dicthtSize : Option ℕ → ℕ
  | none => 0
  | some e => 2 ^ e

/-- `DICTHT_SIZE_MASK`. -/
def dicthtSizeMask : Option ℕ → ℕ
  | none => 0
  | some e => 2 ^ e - 1

/-- `_dict_reset`. -/
def dictReset : DictTable K V := ⟨none, 0, none⟩

/-- `dict_new` and `_dict_init`. -/
def dictNew : Dict K V := ⟨dictReset, dictReset, none, 0⟩

/-- `dict_size`. -/
def dictSize (d : Dict K V) : ℕ := d.ht0.used + d.ht1.used

/-- `dict_is_rehashing`. -/
def dictIsRehashing (d : Dict K V) : Bool := d.rehashidx.isSome

namespace DictTable

/-- `ht_table[t][i]`, a fault if there is no such slot. -/
def bucket? (t : DictTable K V) (i : ℕ) : Option (List (DictEntry K V)) := t.table.bind (·[i]?)

/-- `ht_table[t][i] = b`. -/
def setBucket (t : DictTable K V) (i : ℕ) (b : List (DictEntry K V)) : DictTable K V :=
  { t with table := t.table.map fun bs ↦ bs.set i b }

/-- Link an entry in at the head of bucket `i` and count it. -/
def link (t : DictTable K V) (i : ℕ) (e : DictEntry K V) : Option (DictTable K V) :=
  (t.bucket? i).map fun b ↦ { t.setBucket i (e :: b) with used := t.used + 1 }

end DictTable

/-- The slot of a key in a table: `hash & DICTHT_SIZE_MASK(exp)`. -/
def DictFunc.slot (F : DictFunc K) (exp : Option ℕ) (key : K) : ℕ :=
  (F.hashFunction key).toNat &&& dicthtSizeMask exp

/-! ## Growing -/

/-- The loop of `_dict_next_exp`; `fuel` is the number of exponents a word still has. -/
def dictNextExpFrom (size : ℕ) : (fuel e : ℕ) → ℕ
  | 0, e => e
  | fuel + 1, e => if size ≤ 2 ^ e then e else dictNextExpFrom size fuel (e + 1)

/-- `_dict_next_exp`, with `DICT_HT_INITIAL_EXP` = 2 and `LONG_MAX` = 2⁶³ - 1. -/
def dictNextExp (size : ℕ) : ℕ :=
  if 2 ^ 63 - 1 ≤ size then 63 else dictNextExpFrom size 61 2

/-- `_dict_expand` (and `dict_expand`). Allocation succeeds. -/
def dictExpand (d : Dict K V) (size : ℕ) : Dict K V × DictStatus :=
  if dictIsRehashing d ∨ size < d.ht0.used then (d, .err)
  else
    let exp := dictNextExp size
    let newsize := 2 ^ exp
    -- detect overflows: `sizeof(dict_entry_t*)` is 8 and the product wraps
    if newsize < size ∨ newsize * 8 % 2 ^ 64 < newsize then (d, .err)
    else if some exp = d.ht0.sizeExp then (d, .err)
    else
      let t : DictTable K V := ⟨some (List.replicate newsize []), 0, some exp⟩
      match d.ht0.table with
      | none => ({ d with ht0 := t }, .ok)
      | some _ => ({ d with ht1 := t, rehashidx := some 0 }, .ok)

/-- `dict_can_resize`; nothing in the repository sets it. -/
def dictCanResize : ℕ := 1

/-- `dict_force_resize_ratio`. -/
def dictForceResizeRatio : ℕ := 5

/-- `dict_expand_allowed`. -/
def dictExpandAllowed (F : DictFunc K) (d : Dict K V) : Bool :=
  F.expandAllowed (dicthtSize (some (dictNextExp (d.ht0.used + 1))) * 8) d.ht0.used
    (dicthtSize d.ht0.sizeExp)

/-- `_dict_expand_if_needed`. -/
def dictExpandIfNeeded (F : DictFunc K) (d : Dict K V) : Dict K V × DictStatus :=
  if dictIsRehashing d then (d, .ok)
  else if dicthtSize d.ht0.sizeExp = 0 then dictExpand d 4
  else if dicthtSize d.ht0.sizeExp ≤ d.ht0.used ∧
      (dictCanResize ≠ 0 ∨ dictForceResizeRatio < d.ht0.used / dicthtSize d.ht0.sizeExp) ∧
      dictExpandAllowed F d then
    dictExpand d (d.ht0.used + 1)
  else (d, .ok)

/-! ## Incremental rehashing -/

/-- How the inner loop of `dict_rehash` ends. -/
inductive DictSkip (K V : Type) where
  /-- A chain was found, with this many empty visits left. -/
  | found (idx : ℕ) (chain : List (DictEntry K V)) (emptyVisits : ℕ)
  /-- The visits are used up. -/
  | exhausted (idx : ℕ)

/-- The inner loop `while (ht_table[0][rehashidx] == NULL)`. It is entered with at least one visit
left, since using up the last one returns from `dict_rehash`. -/
def dictSkipEmpty (t : DictTable K V) : (emptyVisits idx : ℕ) → Option (DictSkip K V)
  | 0, _ => none
  | ev + 1, idx =>
    match t.bucket? idx with
    | none => none
    | some (e :: es) => some (.found idx (e :: es) (ev + 1))
    | some [] => if ev = 0 then some (.exhausted (idx + 1)) else dictSkipEmpty t ev (idx + 1)

/-- The loop `while (de)`: every entry of the chain goes to the head of its bucket in table 1. -/
def dictMoveChain (F : DictFunc K) : List (DictEntry K V) → DictTable K V → Option (DictTable K V)
  | [], t => some t
  | e :: es, t => (t.link (F.slot t.sizeExp e.key) e).bind (dictMoveChain F es)

/-- The outer loop `while (n-- && ht_used[0] != 0)`. The flag is set when the function has
returned from inside the loop. -/
def dictRehashLoop (F : DictFunc K) : (n emptyVisits : ℕ) → Dict K V → Option (Dict K V × Bool)
  | 0, _, d => some (d, false)
  | n + 1, ev, d =>
    if d.ht0.used = 0 then some (d, false)
    else
      match d.rehashidx with
      | none => none
      | some r =>
        -- `assert(DICTHT_SIZE(d->ht_size_exp[0]) > (unsigned long)d->rehashidx)`
        if dicthtSize d.ht0.sizeExp ≤ r then none
        else
          match dictSkipEmpty d.ht0 ev r with
          | none => none
          | some (.exhausted r') => some ({ d with rehashidx := some r' }, true)
          | some (.found r' chain ev') =>
            match dictMoveChain F chain d.ht1 with
            | none => none
            | some t =>
              dictRehashLoop F n ev'
                { d with
                  ht0 := { d.ht0.setBucket r' [] with used := d.ht0.used - chain.length }
                  ht1 := t
                  rehashidx := some (r' + 1) }

/-- `dict_rehash`. The number is what it returns. -/
def dictRehash (F : DictFunc K) (d : Dict K V) (n : ℕ) : Option (Dict K V × ℕ) :=
  if dictIsRehashing d then
    match dictRehashLoop F n (n * 10) d with
    | none => none
    | some (d', true) => some (d', 1)
    | some (d', false) =>
      if d'.ht0.used = 0 then
        some ({ d' with ht0 := d'.ht1, ht1 := dictReset, rehashidx := none }, 0)
      else some (d', 1)
  else some (d, 0)

/-- `_dict_rehash_step`, guarded as its callers guard it. -/
def dictRehashStep (F : DictFunc K) (d : Dict K V) : Option (Dict K V) :=
  if dictIsRehashing d then
    if d.pauserehash = 0 then (dictRehash F d 1).map Prod.fst else some d
  else some d

/-! ## The operations -/

/-- Walk a chain for `key`. -/
def dictChainFind (F : DictFunc K) (key : K) (chain : List (DictEntry K V)) :
    Option (DictEntry K V) :=
  chain.find? fun he ↦ F.keyCompare key he.key

/-- What `_dict_key_index` returns: the index of a slot, or -1 with the entry it put in
`*existing`. -/
inductive DictKeyIndex (K V : Type) where
  | free (index : ℕ)
  | taken (existing : Option (DictEntry K V))

/-- `_dict_key_index`. -/
def dictKeyIndex (F : DictFunc K) (d : Dict K V) (key : K) :
    Option (Dict K V × DictKeyIndex K V) :=
  match dictExpandIfNeeded F d with
  | (d, .err) => some (d, .taken none)
  | (d, .ok) =>
    let idx := F.slot d.ht0.sizeExp key
    (d.ht0.bucket? idx).bind fun chain ↦
      match dictChainFind F key chain with
      | some he => some (d, .taken (some he))
      | none =>
        if dictIsRehashing d then
          let idx := F.slot d.ht1.sizeExp key
          (d.ht1.bucket? idx).map fun chain ↦
            match dictChainFind F key chain with
            | some he => (d, .taken (some he))
            | none => (d, .free idx)
        else some (d, .free idx)

/-- Where `dict_add_raw` has linked the entry it returns: at the head of this bucket. -/
structure DictPos where
  table : Bool
  index : ℕ

/-- `dict_add_raw`: the entry it added, or NULL, and `*existing`. -/
def dictAddRaw (F : DictFunc K) (d : Dict K V) (key : K) :
    Option (Dict K V × Option DictPos × Option (DictEntry K V)) :=
  (dictRehashStep F d).bind fun d ↦
    (dictKeyIndex F d key).bind fun r ↦
      match r with
      | (d, .taken existing) => some (d, none, existing)
      | (d, .free index) =>
        let entry : DictEntry K V := ⟨key, none⟩
        if dictIsRehashing d then
          (d.ht1.link index entry).map fun t ↦ ({ d with ht1 := t }, some ⟨true, index⟩, none)
        else
          (d.ht0.link index entry).map fun t ↦ ({ d with ht0 := t }, some ⟨false, index⟩, none)

/-- `dict_set_val` on the entry at the head of bucket `i`. -/
def DictTable.setHeadVal (t : DictTable K V) (i : ℕ) (val : V) : Option (DictTable K V) :=
  (t.bucket? i).bind fun b ↦
    match b with
    | [] => none
    | e :: es => some (t.setBucket i ({ e with v := some val } :: es))

/-- `dict_set_val` on the entry `dict_add_raw` has just returned. -/
def dictSetVal (d : Dict K V) (pos : DictPos) (val : V) : Option (Dict K V) :=
  if pos.table then (d.ht1.setHeadVal pos.index val).map fun t ↦ { d with ht1 := t }
  else (d.ht0.setHeadVal pos.index val).map fun t ↦ { d with ht0 := t }

/-- `dict_add`, through `dict_add_get`. -/
def dictAdd (F : DictFunc K) (d : Dict K V) (key : K) (val : V) :
    Option (Dict K V × DictStatus) :=
  (dictAddRaw F d key).bind fun r ↦
    match r with
    | (d, none, _) => some (d, .err)
    | (d, some pos, _) => (dictSetVal d pos val).map fun d ↦ (d, .ok)

/-- `dict_find`. -/
def dictFind (F : DictFunc K) (d : Dict K V) (key : K) :
    Option (Dict K V × Option (DictEntry K V)) :=
  if dictSize d = 0 then some (d, none)
  else
    (dictRehashStep F d).bind fun d ↦
      (d.ht0.bucket? (F.slot d.ht0.sizeExp key)).bind fun chain ↦
        match dictChainFind F key chain with
        | some he => some (d, some he)
        | none =>
          if dictIsRehashing d then
            (d.ht1.bucket? (F.slot d.ht1.sizeExp key)).map fun chain ↦
              (d, dictChainFind F key chain)
          else some (d, none)

/-- `dict_fetch_value`. -/
def dictFetchValue (F : DictFunc K) (d : Dict K V) (key : K) :
    Option (Dict K V × Option V) :=
  (dictFind F d key).map fun r ↦ (r.1, r.2.bind DictEntry.v)

/-- The inner loop of `dict_generic_delete`: unlink the first entry of the chain whose key compares
equal, and count it out. -/
def DictTable.unlink (F : DictFunc K) (t : DictTable K V) (i : ℕ) (chain : List (DictEntry K V))
    (key : K) : DictTable K V :=
  { t.setBucket i (chain.eraseP fun he ↦ F.keyCompare key he.key) with used := t.used - 1 }

/-- `dict_generic_delete`. -/
def dictGenericDelete (F : DictFunc K) (d : Dict K V) (key : K) :
    Option (Dict K V × Option (DictEntry K V)) :=
  if dictSize d = 0 then some (d, none)
  else
    (dictRehashStep F d).bind fun d ↦
      let idx := F.slot d.ht0.sizeExp key
      (d.ht0.bucket? idx).bind fun chain ↦
        match dictChainFind F key chain with
        | some he => some ({ d with ht0 := d.ht0.unlink F idx chain key }, some he)
        | none =>
          if dictIsRehashing d then
            let idx := F.slot d.ht1.sizeExp key
            (d.ht1.bucket? idx).map fun chain ↦
              match dictChainFind F key chain with
              | some he => ({ d with ht1 := d.ht1.unlink F idx chain key }, some he)
              | none => (d, none)
          else some (d, none)

/-- `dict_delete_key`. -/
def dictDeleteKey (F : DictFunc K) (d : Dict K V) (key : K) : Option (Dict K V × DictStatus) :=
  (dictGenericDelete F d key).map fun r ↦ (r.1, if r.2.isSome then .ok else .err)

/-- `dict_slots`. -/
def dictSlots (d : Dict K V) : ℕ := dicthtSize d.ht0.sizeExp + dicthtSize d.ht1.sizeExp

/-- `ht_needs_resize`, with `hashTable_min_fill` = 10. -/
def htNeedsResize (d : Dict K V) : Bool :=
  4 < dictSlots d ∧ dictSize d * 100 / dictSlots d < 10

/-- `dict_resize`. `DICT_RESIZE_ENABLE` is 0. -/
def dictResize (d : Dict K V) : Dict K V × DictStatus :=
  if dictCanResize ≠ 0 ∨ dictIsRehashing d then (d, .err)
  else dictExpand d (if d.ht0.used < 4 then 4 else d.ht0.used)

/-- `dict_can_resize` is 1, which `dict_resize` does not take for enabled. -/
theorem dictResize_eq (d : Dict K V) : dictResize d = (d, .err) :=
  if_pos (Or.inl Nat.one_ne_zero)

end Model

end LatteC
