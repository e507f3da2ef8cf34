import LatteC.Foundation.Block
import LatteC.Foundation.CallMachine
import Mathlib.Data.Finset.Sort
import Mathlib.Data.Int.ConditionallyCompleteOrder

/-!
# Sets of integers

`src/set/int_set.c`: a set of 64 bit integers as a sorted array. All elements have the same width, two,
four or eight bytes, and the array is rewritten with a larger one when an element does not fit.

## Modelling

The machine is little endian. `contents` is the block behind the header, which may be longer than the
elements in it; what a new part of it holds is up to the allocator. An index of type `int` is an
integer, `cInt` the conversion to it, and an access outside of the block is a fault, `none`.
`int_set_move_tail` counts the bytes it moves in 32 bits.

## The argument

`IntSet.Holds` says that the block begins with the elements of a sorted list. Adding and removing
then splits this list at the position that `int_set_search` finds (`intSetSearch_spec`). In an upgrade
the invariant of the loop is that the first elements are still there in the old width, and the others
already in the new one (`intSetUpgradeLoop_spec`).
-/

namespace LatteC

open Block

/-- `int_set_t`. -/
structure IntSet where
  encoding : ℕ
  length : ℕ
  contents : List UInt8

/-- The conversion of an unsigned number of 32 bits to `int`. -/
def cInt (n : ℕ) : ℤ := ((n : ℤ) + 2 ^ 31) % 2 ^ 32 - 2 ^ 31

/-- `int_set_new`. -/
def intSetNew (M : Allocator UInt8) : IntSet := ⟨2, 0, M.block 0⟩

/-- The size of an element: the three branches on the encoding. -/
def intSetWidth (enc : ℕ) : ℕ := if enc = 8 then 8 else if enc = 4 then 4 else 2

/-- `_int_set_get_encoded`. -/
def intSetGetEncoded (is : IntSet) (pos : ℤ) (enc : ℕ) : Option ℤ :=
  if pos < 0 then none
  else (read is.contents (pos.toNat * intSetWidth enc) (intSetWidth enc)).map leIntValue

/-- `_int_set_value_encoding`. -/
def intSetValueEncoding (v : ℤ) : ℕ :=
  if v < -2 ^ 31 ∨ 2 ^ 31 - 1 < v then 8 else if v < -2 ^ 15 ∨ 2 ^ 15 - 1 < v then 4 else 2

/-- `int_set_resize`. The assertion on the size holds, as the size is counted in 64 bits. -/
def intSetResize (M : Allocator UInt8) (is : IntSet) (len : ℕ) : IntSet :=
  let size := len % 2 ^ 32 * is.encoding
  { is with contents := M.resize is.contents size }

/-- `_int_set_set`. -/
def intSetSet (is : IntSet) (pos : ℤ) (value : ℤ) : Option IntSet :=
  if pos < 0 then none
  else (write is.contents (pos.toNat * intSetWidth is.encoding)
    (leIntBytes (intSetWidth is.encoding) value)).map fun contents ↦ { is with contents := contents }

/-- One element more: `is->length = is->length + 1`, in 32 bits. -/
def IntSet.incrLength (is : IntSet) : IntSet := { is with length := (is.length + 1) % 2 ^ 32 }

/-- The loop of `int_set_upgrade_and_add`, with `length` elements to go. -/
def intSetUpgradeLoop (curenc : ℕ) (prepend : ℤ) : (length : ℕ) → IntSet → Option IntSet
  | 0, is => some is
  | length + 1, is => (intSetGetEncoded is length curenc).bind fun v ↦
      (intSetSet is (length + prepend) v).bind (intSetUpgradeLoop curenc prepend length)

/-- `int_set_upgrade_and_add`. -/
def intSetUpgradeAndAdd (M : Allocator UInt8) (is : IntSet) (value : ℤ) : Option IntSet :=
  let curenc := is.encoding
  let newenc := intSetValueEncoding value
  let length := cInt is.length
  let prepend := if value < 0 then 1 else 0
  if length < 0 then none
  else (intSetUpgradeLoop curenc prepend length.toNat
      (intSetResize M { is with encoding := newenc } (is.length + 1))).bind fun is ↦
    (if prepend = 1 then intSetSet is 0 value else intSetSet is (cInt is.length) value).map
      IntSet.incrLength

/-- `_int_set_get`. -/
def privateIntSetGet (is : IntSet) (pos : ℤ) : Option ℤ := intSetGetEncoded is pos is.encoding

/-- `int_set_move_tail`. -/
def intSetMoveTail (is : IntSet) (src dst : ℕ) : Option IntSet :=
  let count := (is.length + 2 ^ 32 - src) % 2 ^ 32
  let bytes := count * intSetWidth is.encoding % 2 ^ 32
  (move is.contents (dst * intSetWidth is.encoding) (src * intSetWidth is.encoding) bytes).map
    fun contents ↦ { is with contents := contents }

/-- The loop of `int_set_search`: `min`, `mid` and `cur` when it is left. The range of the search gets
shorter with every turn, so `fuel` can be the length of the set and one. -/
def intSetSearchLoop (is : IntSet) (value : ℤ) :
    (fuel : ℕ) → (min max mid cur : ℤ) → Option (ℤ × ℤ × ℤ)
  | 0, _, _, _, _ => none
  | fuel + 1, min, max, mid, cur =>
    if min ≤ max then
      let mid := (min + max) / 2
      (privateIntSetGet is mid).bind fun cur ↦
        if cur < value then intSetSearchLoop is value fuel (mid + 1) max mid cur
        else if value < cur then intSetSearchLoop is value fuel min (mid - 1) mid cur
        else some (min, mid, cur)
    else some (min, mid, cur)

/-- `int_set_search`: whether the value was found, and `*pos`. -/
def intSetSearch (is : IntSet) (value : ℤ) : Option (Bool × ℕ) :=
  if is.length = 0 then some (false, 0)
  else
    let max := cInt (is.length - 1)
    (privateIntSetGet is max).bind fun last ↦
      if last < value then some (false, is.length)
      else (privateIntSetGet is 0).bind fun first ↦
        if value < first then some (false, 0)
        else (intSetSearchLoop is value (is.length + 1) 0 max (-1) (-1)).map fun r ↦
          if value = r.2.2 then (true, r.2.1.toNat) else (false, r.1.toNat)

/-- The end of `int_set_add`: put the value at `pos`, for which there is room. -/
def intSetInsertAt (is : IntSet) (pos : ℕ) (value : ℤ) : Option IntSet :=
  (if pos < is.length then intSetMoveTail is pos (pos + 1) else some is).bind fun is ↦
    (intSetSet is (cInt pos) value).map IntSet.incrLength

/-- `int_set_add`: the set and `*success`. -/
def intSetAdd (M : Allocator UInt8) (is : IntSet) (value : ℤ) : Option (IntSet × Bool) :=
  let valenc := intSetValueEncoding value
  if is.encoding < valenc then (intSetUpgradeAndAdd M is value).map fun is ↦ (is, true)
  else (intSetSearch is value).bind fun (found, pos) ↦
    if found then some (is, false)
    else (intSetInsertAt (intSetResize M is (is.length + 1)) pos value).map fun is ↦ (is, true)

/-- `int_set_remove`: the set and `*success`. -/
def intSetRemove (M : Allocator UInt8) (is : IntSet) (value : ℤ) : Option (IntSet × Bool) :=
  let valenc := intSetValueEncoding value
  if valenc ≤ is.encoding then (intSetSearch is value).bind fun (found, pos) ↦
    if found then
      let len := is.length
      (if pos < len - 1 then intSetMoveTail is (pos + 1) pos else some is).map fun is ↦
        ({ intSetResize M is (len - 1) with length := len - 1 }, true)
    else some (is, false)
  else some (is, false)

/-- `int_set_find`. -/
def intSetFind (is : IntSet) (value : ℤ) : Option Bool :=
  let valenc := intSetValueEncoding value
  if valenc ≤ is.encoding then (intSetSearch is value).map Prod.fst else some false

/-- `int_set_get`, for a position in range. -/
def intSetGet (is : IntSet) (pos : ℕ) : Option ℤ := privateIntSetGet is (cInt pos)

/-- `sizeof(int_set_t)`. -/
def sizeofIntSet : ℕ := 8

/-- `int_set_blob_len`. -/
def intSetBlobLen (is : IntSet) : ℕ := sizeofIntSet + is.length * is.encoding

/-- The loop of `int_set_validate_integrity`, over the `todo` elements from `i` on. -/
def intSetInOrder (is : IntSet) : (todo i : ℕ) → (prev : ℤ) → Option Bool
  | 0, _, _ => some true
  | todo + 1, i, prev => (privateIntSetGet is (cInt i)).bind fun cur ↦
      if cur ≤ prev then some false else intSetInOrder is todo (i + 1) cur

/-- `int_set_validate_integrity`. -/
def intSetValidateIntegrity (is : IntSet) (size : ℕ) (deep : Bool) : Option Bool :=
  if size < sizeofIntSet then some false
  else if is.encoding = 8 ∨ is.encoding = 4 ∨ is.encoding = 2 then
    let recordSize := is.encoding
    let count := is.length
    if sizeofIntSet + count * recordSize ≠ size then some false
    else if count = 0 then some false
    else if deep = false then some true
    else (privateIntSetGet is 0).bind (intSetInOrder is (count - 1) 1)
  else some false

/-- The elements of the set, in the order of the array. -/
def intSetDecode (is : IntSet) : Option (List ℤ) := (List.range is.length).mapM (intSetGet is)

/-- A call of the API, with an `int64_t`. -/
inductive IntSetCall where
  | add (value : Int64)
  | remove (value : Int64)
  | find (value : Int64)

/-- One call: the new set, and the success flag or the result. -/
def intSetStep (M : Allocator UInt8) (is : IntSet) : IntSetCall → Option (IntSet × Bool)
  | .add value => intSetAdd M is value.toInt
  | .remove value => intSetRemove M is value.toInt
  | .find value => (intSetFind is value.toInt).map fun found ↦ (is, found)

/-- What the calls mean for a finite set of integers. -/
def intFinsetStep (s : Finset ℤ) : IntSetCall → Option (Finset ℤ × Bool)
  | .add value => some (insert value.toInt s, decide (value.toInt ∉ s))
  | .remove value => some (s.erase value.toInt, decide (value.toInt ∈ s))
  | .find value => some (s, decide (value.toInt ∈ s))

/-! ## Widths -/

/-- The widths that elements can have. -/
def IsWidth (w : ℕ) : Prop := w = 2 ∨ w = 4 ∨ w = 8

theorem IsWidth.intSetWidth_eq {w : ℕ} (h : IsWidth w) : intSetWidth w = w := by
  rcases h with rfl | rfl | rfl <;> rfl

theorem IsWidth.pos {w : ℕ} (h : IsWidth w) : 0 < w := by
  rcases h with rfl | rfl | rfl <;> decide

theorem isWidth_intSetValueEncoding (v : ℤ) : IsWidth (intSetValueEncoding v) := by
  unfold intSetValueEncoding IsWidth
  split_ifs <;> decide

/-- `_int_set_value_encoding` is the smallest width that the value fits into. -/
theorem intSetValueEncoding_le_iff {w : ℕ} {v : ℤ} (hw : IsWidth w) (hv : FitsBytes 8 v) :
    intSetValueEncoding v ≤ w ↔ FitsBytes w v := by
  unfold intSetValueEncoding
  rcases hw with rfl | rfl | rfl <;> simp only [FitsBytes] at hv ⊢ <;> norm_num at hv ⊢ <;>
    split_ifs <;> omega

theorem fitsBytes_toInt (value : Int64) : FitsBytes 8 value.toInt :=
  ⟨Int64.le_toInt value, Int64.toInt_lt value⟩

theorem cInt_eq {n : ℕ} (h : n < 2 ^ 31) : cInt n = n := by
  rw [cInt]
  omega

/-! ## The array -/

/-- The block begins with the elements `xs`, in ascending order. -/
structure IntSet.Holds (is : IntSet) (xs : List ℤ) : Prop where
  sorted : xs.Pairwise (· < ·)
  width : IsWidth is.encoding
  fits : ∀ x ∈ xs, FitsBytes is.encoding x
  length_eq : is.length = xs.length
  contents_eq : ∃ S, is.contents = xs.flatMap (leIntBytes is.encoding) ++ S

theorem IntSet.Holds.eq_mk {is : IntSet} {xs : List ℤ} (h : is.Holds xs) : ∃ w S,
    is = ⟨w, xs.length, xs.flatMap (leIntBytes w) ++ S⟩ ∧ IsWidth w ∧ ∀ x ∈ xs, FitsBytes w x := by
  obtain ⟨w, n, c⟩ := is
  obtain ⟨-, hw, hfits, hlen, S, hS⟩ := h
  exact ⟨w, S, by rw [← hlen, ← hS], hw, hfits⟩

theorem intSetGetEncoded_eq {is : IntSet} {w : ℕ} (xs : List ℤ) {S : List UInt8} (hw : IsWidth w)
    (hfits : ∀ x ∈ xs, FitsBytes w x) (hcontents : is.contents = xs.flatMap (leIntBytes w) ++ S)
    {i : ℕ} {x : ℤ} (hx : xs[i]? = some x) : intSetGetEncoded is i w = some x := by
  rw [intSetGetEncoded, if_neg (by omega), hw.intSetWidth_eq, Int.toNat_natCast, hcontents,
    read_flatMap_records (length_leIntBytes w) hx, Option.map_some,
    leIntValue_leIntBytes hw.pos (hfits x (List.mem_of_getElem? hx))]

section Search

variable {is : IntSet} {xs L R : List ℤ} {v : ℤ}

theorem IntSet.Holds.get (h : is.Holds xs) {i : ℕ} {x : ℤ} (hx : xs[i]? = some x) :
    privateIntSetGet is i = some x := by
  obtain ⟨S, hS⟩ := h.contents_eq
  exact intSetGetEncoded_eq xs h.width h.fits hS hx

/-- A list that is split at the place of `v`. -/
structure SplitAt (v : ℤ) (L R : List ℤ) : Prop where
  sorted : (L ++ R).Pairwise (· < ·)
  left : ∀ x ∈ L, x < v
  right : ∀ x ∈ R, v ≤ x

theorem SplitAt.lt_iff (h : SplitAt v L R) {i : ℕ} {x : ℤ} (hx : (L ++ R)[i]? = some x) :
    x < v ↔ i < L.length := by
  rw [List.getElem?_append] at hx
  split_ifs at hx with hi
  · exact iff_of_true (h.left x (List.mem_of_getElem? hx)) hi
  · have hle := h.right x (List.mem_of_getElem? hx)
    exact iff_of_false (by omega) hi

/-- The value is at the place where the list is split, and nowhere else. -/
theorem SplitAt.eq_iff (h : SplitAt v L R) {i : ℕ} {x : ℤ} (hx : (L ++ R)[i]? = some x) :
    x = v ↔ i = L.length ∧ R.head? = some v := by
  constructor
  · rintro rfl
    have hi : L.length ≤ i := by
      have := (h.lt_iff hx).not
      omega
    rw [List.getElem?_append_right hi] at hx
    obtain ⟨k, rfl⟩ := Nat.exists_eq_add_of_le hi
    rw [Nat.add_sub_cancel_left] at hx
    cases R with
    | nil => simp at hx
    | cons r R =>
      cases k with
      | zero => exact ⟨by omega, by simpa using hx⟩
      | succ k =>
        -- an element in front of it would be smaller
        rw [List.getElem?_cons_succ] at hx
        have hlt := (List.pairwise_cons.mp (List.pairwise_append.mp h.sorted).2.1).1 x
          (List.mem_of_getElem? hx)
        have hle := h.right r (by simp)
        omega
  · rintro ⟨rfl, hhead⟩
    rw [List.getElem?_append_right (Nat.le_refl _), Nat.sub_self, ← List.head?_eq_getElem?,
      hhead, Option.some.injEq] at hx
    exact hx.symm

theorem intSetSearchLoop_spec (h : is.Holds (L ++ R)) (hs : SplitAt v L R) (fuel : ℕ)
    (min max mid cur : ℤ) (hfuel : max + 1 - min < fuel) (hmin : 0 ≤ min)
    (hmax : max < (L ++ R).length) (hlow : min ≤ L.length) (hhigh : L.length ≤ max + 1)
    (hfound : R.head? = some v → L.length ≤ max) (hcur : max < min → cur ≠ v) :
    ∃ r, intSetSearchLoop is v fuel min max mid cur = some r ∧
      (r.2.2 = v ↔ R.head? = some v) ∧ (R.head? = some v → r.2.1 = L.length) ∧
      (R.head? ≠ some v → r.1 = L.length) := by
  induction fuel generalizing min max mid cur with
  | zero => omega
  | succ fuel ih =>
    rw [intSetSearchLoop]
    by_cases hle : min ≤ max
    · rw [if_pos hle]
      obtain ⟨m, hm⟩ : ∃ m : ℕ, (min + max) / 2 = m := ⟨((min + max) / 2).toNat, by omega⟩
      obtain ⟨x, hx⟩ : ∃ x, (L ++ R)[m]? = some x :=
        ⟨_, List.getElem?_eq_getElem (by omega)⟩
      simp only [hm, h.get hx, Option.bind_some]
      have hlt := hs.lt_iff hx
      have heq := hs.eq_iff hx
      split_ifs with hless hgreater
      · exact ih _ _ _ _ (by omega) (by omega) hmax (by omega) hhigh hfound (fun _ ↦ by omega)
      · have hne : ¬(m = L.length ∧ R.head? = some v) := by
          rw [← heq]
          omega
        refine ih _ _ _ _ (by omega) hmin (by omega) hlow (by omega) ?_ (fun _ ↦ by omega)
        intro hhead
        have : m ≠ L.length := fun hmL ↦ hne ⟨hmL, hhead⟩
        omega
      · have hxv : x = v := by omega
        obtain ⟨hmL, hhead⟩ := heq.mp hxv
        exact ⟨_, rfl, iff_of_true hxv hhead, fun _ ↦ by simp [hmL], fun hne ↦ absurd hhead hne⟩
    · rw [if_neg hle]
      have hnot : R.head? ≠ some v := fun hhead ↦ by
        have := hfound hhead
        omega
      exact ⟨_, rfl, iff_of_false (hcur (by omega)) hnot, fun hhead ↦ absurd hhead hnot,
        fun _ ↦ by simp only; omega⟩

/-- `int_set_search` finds the place at which the list is split. -/
theorem intSetSearch_spec (h : is.Holds (L ++ R)) (hs : SplitAt v L R)
    (hlen : (L ++ R).length < 2 ^ 31) :
    intSetSearch is v = some (decide (R.head? = some v), L.length) := by
  rw [intSetSearch, h.length_eq]
  by_cases hzero : (L ++ R).length = 0
  · obtain ⟨rfl, rfl⟩ := List.append_eq_nil_iff.mp (List.length_eq_zero_iff.mp hzero)
    rfl
  · have hmax : cInt ((L ++ R).length - 1) = ((L ++ R).length - 1 : ℕ) := cInt_eq (by omega)
    obtain ⟨last, hlast⟩ : ∃ x, (L ++ R)[(L ++ R).length - 1]? = some x :=
      ⟨_, List.getElem?_eq_getElem (by omega)⟩
    obtain ⟨first, hfirst⟩ : ∃ x, (L ++ R)[0]? = some x := ⟨_, List.getElem?_eq_getElem (by omega)⟩
    have hlastlt := hs.lt_iff hlast
    have hfirstlt := hs.lt_iff hfirst
    have hfirsteq := hs.eq_iff hfirst
    rw [List.length_append] at hlastlt
    have hget0 : privateIntSetGet is 0 = some first := h.get hfirst
    rw [if_neg hzero]
    simp only [hmax, h.get hlast, hget0, Option.bind_some]
    split_ifs with hless hgreater
    · have hR : R = [] := by
        rw [List.length_append] at hzero
        exact List.length_eq_zero_iff.mp (by omega)
      simp [hR]
    · have hL : L.length = 0 := by omega
      have hnot : R.head? ≠ some v := fun hhead ↦ by
        have := hfirsteq.mpr ⟨hL.symm, hhead⟩
        omega
      simp [hL, hnot]
    · have hLle : L.length < (L ++ R).length := by
        rw [List.length_append] at hzero ⊢
        omega
      obtain ⟨r, hr, hcur, hmid, hmin⟩ := intSetSearchLoop_spec h hs
        ((L ++ R).length + 1) 0 ((L ++ R).length - 1 : ℕ) (-1) (-1) (by omega) le_rfl
        (by omega) (by omega) (by omega) (fun _ ↦ by omega) (fun _ ↦ by omega)
      rw [hr, Option.map_some]
      by_cases hhead : R.head? = some v
      · rw [if_pos (hcur.mpr hhead).symm, hmid hhead, decide_eq_true hhead, Int.toNat_natCast]
      · have hne : v ≠ r.2.2 := fun heq ↦ hhead (hcur.mp heq.symm)
        rw [if_neg hne, hmin hhead, decide_eq_false hhead, Int.toNat_natCast]

end Search

/-! ## Adding and removing -/

theorem exists_splitAt {xs : List ℤ} (h : xs.Pairwise (· < ·)) (v : ℤ) :
    ∃ L R, xs = L ++ R ∧ SplitAt v L R := by
  induction xs with
  | nil => exact ⟨[], [], rfl, .nil, by simp, by simp⟩
  | cons x xs ih =>
    obtain ⟨hx, hxs⟩ := List.pairwise_cons.mp h
    by_cases hlt : x < v
    · obtain ⟨L, R, rfl, hs⟩ := ih hxs
      refine ⟨x :: L, R, rfl, h, ?_, hs.right⟩
      rintro y (_ | ⟨_, hy⟩)
      · exact hlt
      · exact hs.left y hy
    · refine ⟨[], x :: xs, rfl, h, by simp, ?_⟩
      rintro y (_ | ⟨_, hy⟩)
      · omega
      · have := hx y hy
        omega

section Changes

variable {M : Allocator UInt8} {is : IntSet} {L R : List ℤ} {v : ℤ}

/-- A value that is not in the list is smaller than all behind its place. -/
theorem SplitAt.lt_right (h : SplitAt v L R) (hR : R.head? ≠ some v) : ∀ x ∈ R, v < x := by
  intro x hx
  refine lt_of_le_of_ne (h.right x hx) ?_
  rintro rfl
  obtain ⟨i, hi⟩ := List.getElem?_of_mem hx
  have hget : (L ++ R)[L.length + i]? = some v := by
    rw [List.getElem?_append_right (Nat.le_add_right _ _), Nat.add_sub_cancel_left, hi]
  exact hR ((h.eq_iff hget).mp rfl).2

/-- The value takes its place in the list. -/
theorem SplitAt.insert (h : SplitAt v L R) (hR : R.head? ≠ some v) :
    (L ++ v :: R).Pairwise (· < ·) := by
  obtain ⟨hL, hR', hLR⟩ := List.pairwise_append.mp h.sorted
  refine List.pairwise_append.mpr ⟨hL, List.pairwise_cons.mpr ⟨h.lt_right hR, hR'⟩, ?_⟩
  rintro x hx y (_ | ⟨_, hy⟩)
  · exact h.left x hx
  · exact hLR x hx y hy

theorem SplitAt.erase (h : SplitAt v L (v :: R)) : (L ++ R).Pairwise (· < ·) :=
  h.sorted.sublist (List.Sublist.append_left (List.sublist_cons_self v R) L)

/-- The elements, as they stand in the block. -/
theorem length_elements (w : ℕ) (xs : List ℤ) :
    (xs.flatMap (leIntBytes w)).length = xs.length * w :=
  length_flatMap_records (length_leIntBytes w) xs

/-- `int_set_resize` to a size in which the elements have room. -/
theorem intSetResize_spec (xs : List ℤ) (len : ℕ) {w w' n : ℕ} {S : List UInt8} (hlen : len < 2 ^ 32)
    (hle : xs.length ≤ len) (hw : w ≤ w') :
    ∃ S', intSetResize M ⟨w', n, xs.flatMap (leIntBytes w) ++ S⟩ len =
        ⟨w', n, xs.flatMap (leIntBytes w) ++ S'⟩ ∧ len * w' ≤ xs.length * w + S'.length := by
  obtain ⟨S', hS', hsize⟩ := M.resize_append (xs.flatMap (leIntBytes w)) S (n := len * w') (by
    rw [length_elements]
    exact Nat.mul_le_mul hle hw)
  rw [List.length_append, length_elements] at hsize
  exact ⟨S', by rw [intSetResize, Nat.mod_eq_of_lt hlen, hS'], hsize⟩

section MoveTail

variable {w : ℕ} {S : List UInt8}

/-- `int_set_move_tail` opens a gap in front of the elements `R`. -/
theorem intSetMoveTail_open (hw : IsWidth w) (hlen : (L ++ R).length < 2 ^ 31)
    (hsafe : R.length * w < 2 ^ 32) (hroom : w ≤ S.length) :
    ∃ X S', X.length = w ∧
      intSetMoveTail ⟨w, (L ++ R).length, (L ++ R).flatMap (leIntBytes w) ++ S⟩ L.length
          (L.length + 1) =
        some ⟨w, (L ++ R).length, L.flatMap (leIntBytes w) ++ X ++ (R.flatMap (leIntBytes w) ++ S')⟩ := by
  obtain ⟨X, S', hX, -, hmove⟩ := move_tail (L.flatMap (leIntBytes w)) []
    (R.flatMap (leIntBytes w)) S (k := w) (by simpa using hroom)
  have hcount : ((L ++ R).length + 2 ^ 32 - L.length) % 2 ^ 32 = R.length := by
    rw [List.length_append] at hlen ⊢
    omega
  rw [length_elements, length_elements, List.length_nil, Nat.add_zero, List.append_nil,
    ← List.flatMap_append, List.append_assoc _ _ S'] at hmove
  refine ⟨X, S', hX, ?_⟩
  rw [intSetMoveTail, hcount, hw.intSetWidth_eq, Nat.mod_eq_of_lt hsafe, Nat.add_mul, Nat.one_mul,
    hmove, Option.map_some]

/-- `int_set_move_tail` closes the gap that the element `v` leaves. -/
theorem intSetMoveTail_close (hw : IsWidth w) (hlen : (L ++ v :: R).length < 2 ^ 31)
    (hsafe : R.length * w < 2 ^ 32) :
    ∃ S', intSetMoveTail ⟨w, (L ++ v :: R).length, (L ++ v :: R).flatMap (leIntBytes w) ++ S⟩
        (L.length + 1) L.length =
      some ⟨w, (L ++ v :: R).length, (L ++ R).flatMap (leIntBytes w) ++ S'⟩ := by
  obtain ⟨X, S', hX, -, hmove⟩ := move_tail (L.flatMap (leIntBytes w)) (leIntBytes w v)
    (R.flatMap (leIntBytes w)) S (k := 0) (Nat.zero_le _)
  obtain rfl := List.length_eq_zero_iff.mp hX
  have hcount : ((L ++ v :: R).length + 2 ^ 32 - (L.length + 1)) % 2 ^ 32 = R.length := by
    rw [List.length_append, List.length_cons] at hlen ⊢
    omega
  rw [length_elements, length_elements, length_leIntBytes, Nat.add_zero, List.append_nil] at hmove
  refine ⟨S', ?_⟩
  rw [intSetMoveTail, hcount, hw.intSetWidth_eq, Nat.mod_eq_of_lt hsafe, Nat.add_mul, Nat.one_mul,
    List.flatMap_append, List.flatMap_cons, ← List.append_assoc, hmove, Option.map_some,
    List.flatMap_append]

end MoveTail

/-- `_int_set_set` into the gap between `L` and what stands behind it. -/
theorem intSetSet_gap {w n : ℕ} {X T : List UInt8} (hw : IsWidth w) (hX : X.length = w) :
    intSetSet ⟨w, n, L.flatMap (leIntBytes w) ++ X ++ T⟩ L.length v =
      some ⟨w, n, (L ++ [v]).flatMap (leIntBytes w) ++ T⟩ := by
  have hwrite := write_append (L.flatMap (leIntBytes w)) T (X := X) (Y := leIntBytes w v)
    (by rw [length_leIntBytes, hX])
  rw [length_elements] at hwrite
  rw [intSetSet, if_neg (by omega), hw.intSetWidth_eq, Int.toNat_natCast, hwrite, Option.map_some]
  simp

theorem incrLength_eq {w n : ℕ} {c : List UInt8} (hn : n + 1 < 2 ^ 32) :
    IntSet.incrLength ⟨w, n, c⟩ = ⟨w, n + 1, c⟩ := by
  rw [IntSet.incrLength, Nat.mod_eq_of_lt hn]

/-- Adding without an upgrade. -/
theorem IntSet.Holds.add (h : is.Holds (L ++ R)) (hs : SplitAt v L R)
    (hv : FitsBytes is.encoding v) (hv8 : FitsBytes 8 v) (hlen : (L ++ R).length < 2 ^ 31)
    (hR : R.head? ≠ some v) (hsafe : R.length * is.encoding < 2 ^ 32) :
    ∃ is', intSetAdd M is v = some (is', true) ∧ is'.Holds (L ++ v :: R) := by
  have hsearch := intSetSearch_spec h hs hlen
  obtain ⟨w, S, rfl, hw, hfits⟩ := h.eq_mk
  have henc : ¬w < intSetValueEncoding v := not_lt.mpr ((intSetValueEncoding_le_iff hw hv8).mpr hv)
  have hL : L.length ≤ (L ++ R).length := by simp
  obtain ⟨S', hresize, hroom⟩ := intSetResize_spec (M := M) (n := (L ++ R).length) (S := S)
    (L ++ R) ((L ++ R).length + 1) (by omega) (Nat.le_succ _) (Nat.le_refl w)
  rw [Nat.add_mul, Nat.one_mul, Nat.add_le_add_iff_left] at hroom
  obtain ⟨X, S'', hX, hgap⟩ : ∃ X S'', X.length = w ∧
      (if L.length < (L ++ R).length then intSetMoveTail
          ⟨w, (L ++ R).length, (L ++ R).flatMap (leIntBytes w) ++ S'⟩ L.length (L.length + 1)
        else some ⟨w, (L ++ R).length, (L ++ R).flatMap (leIntBytes w) ++ S'⟩) =
      some ⟨w, (L ++ R).length,
        L.flatMap (leIntBytes w) ++ X ++ (R.flatMap (leIntBytes w) ++ S'')⟩ := by
    split_ifs with hlt
    · exact intSetMoveTail_open hw hlen hsafe hroom
    · have hR : R = [] := by
        rw [List.length_append] at hlt
        exact List.length_eq_zero_iff.mp (by omega)
      refine ⟨S'.take w, S'.drop w, by rw [List.length_take]; omega, ?_⟩
      simp [hR]
  refine ⟨⟨w, (L ++ v :: R).length, (L ++ v :: R).flatMap (leIntBytes w) ++ S''⟩, ?_, ?_⟩
  · rw [intSetAdd, if_neg henc, hsearch, Option.bind_some]
    simp only [hR, decide_false, Bool.false_eq_true, if_false]
    rw [hresize, intSetInsertAt, hgap, Option.bind_some, cInt_eq (hL.trans_lt hlen),
      intSetSet_gap hw hX, Option.map_some, incrLength_eq (by omega)]
    simp [Nat.add_assoc]
  · refine ⟨hs.insert hR, hw, ?_, rfl, S'', rfl⟩
    intro x hx
    rcases List.mem_append.mp hx with hx | hx
    · exact hfits x (List.mem_append_left _ hx)
    · rcases List.mem_cons.mp hx with rfl | hx
      · exact hv
      · exact hfits x (List.mem_append_right _ hx)

/-- The loop of an upgrade: the elements `A` are still in the old width `w`, the elements `B` already in
the new one. Between them there is a gap `G`, which ends where the elements of `A` are going to end. -/
theorem intSetUpgradeLoop_spec {w w' p n : ℕ} {A B : List ℤ} {G Z : List UInt8} (hw : IsWidth w)
    (hw' : IsWidth w') (hle : w ≤ w') (hfits : ∀ x ∈ A, FitsBytes w x)
    (hgap : A.length * w + G.length = (A.length + p) * w') :
    ∃ X, X.length = p * w' ∧ intSetUpgradeLoop w p A.length
        ⟨w', n, A.flatMap (leIntBytes w) ++ G ++ B.flatMap (leIntBytes w') ++ Z⟩ =
      some ⟨w', n, X ++ (A ++ B).flatMap (leIntBytes w') ++ Z⟩ := by
  induction A using List.reverseRecOn generalizing B G with
  | nil => exact ⟨G, by simpa using hgap, by simp [intSetUpgradeLoop]⟩
  | append_singleton A x ih =>
    rw [List.length_append, List.length_singleton] at hgap ⊢
    have hget : intSetGetEncoded ⟨w', n, (A ++ [x]).flatMap (leIntBytes w) ++ G ++
        B.flatMap (leIntBytes w') ++ Z⟩ A.length w = some x :=
      intSetGetEncoded_eq (A ++ [x]) (S := G ++ B.flatMap (leIntBytes w') ++ Z) hw hfits
        (by simp) (by simp)
    -- the element goes to the end of the gap, which begins with its old bytes
    have hmul : A.length * w ≤ (A.length + p) * w' :=
      Nat.mul_le_mul (Nat.le_add_right _ _) hle
    have hsucc : (A.length + 1 + p) * w' = (A.length + p) * w' + w' := by ring
    have hcur : (A.length + 1) * w = A.length * w + w := by ring
    obtain ⟨G', W, hG', hW, hgap'⟩ : ∃ G' W, leIntBytes w x ++ G = G' ++ W ∧ W.length = w' ∧
        A.length * w + G'.length = (A.length + p) * w' := by
      refine ⟨(leIntBytes w x ++ G).take ((A.length + p) * w' - A.length * w),
        (leIntBytes w x ++ G).drop ((A.length + p) * w' - A.length * w),
        (List.take_append_drop _ _).symm, ?_, ?_⟩
      · rw [List.length_drop, List.length_append, length_leIntBytes]
        omega
      · rw [List.length_take, List.length_append, length_leIntBytes]
        omega
    have hset : intSetSet ⟨w', n, (A ++ [x]).flatMap (leIntBytes w) ++ G ++
        B.flatMap (leIntBytes w') ++ Z⟩ (A.length + p) x =
        some ⟨w', n, A.flatMap (leIntBytes w) ++ G' ++ (x :: B).flatMap (leIntBytes w') ++ Z⟩ := by
      have hwrite := write_append (A.flatMap (leIntBytes w) ++ G') (B.flatMap (leIntBytes w') ++ Z)
        (X := W) (Y := leIntBytes w' x) (by rw [length_leIntBytes, hW])
      rw [List.length_append, length_elements, hgap'] at hwrite
      have hcontents : (A ++ [x]).flatMap (leIntBytes w) ++ G ++ B.flatMap (leIntBytes w') ++ Z =
          A.flatMap (leIntBytes w) ++ G' ++ W ++ (B.flatMap (leIntBytes w') ++ Z) := by
        rw [List.flatMap_append, List.flatMap_singleton, List.append_assoc _ (leIntBytes w x) G, hG']
        simp
      rw [intSetSet, if_neg (by omega), hw'.intSetWidth_eq, ← Nat.cast_add, Int.toNat_natCast,
        hcontents, hwrite, Option.map_some]
      simp
    obtain ⟨X, hX, hloop⟩ := ih (B := x :: B) (fun y hy ↦ hfits y (by simp [hy])) hgap'
    refine ⟨X, hX, ?_⟩
    rw [intSetUpgradeLoop, hget, Option.bind_some, hset, Option.bind_some, hloop]
    simp

/-- An upgrade up to the loop: the elements in the new width, behind a gap for `p` elements. -/
theorem intSetUpgradeLoop_resize {w w' p : ℕ} {xs : List ℤ} {S : List UInt8} (hw : IsWidth w)
    (hw' : IsWidth w') (hlt : w < w') (hp : p ≤ 1) (hfits : ∀ x ∈ xs, FitsBytes w x)
    (hlen : xs.length < 2 ^ 31) :
    ∃ X Z, X.length = p * w' ∧ w' ≤ p * w' + Z.length ∧
      intSetUpgradeLoop w p xs.length
          (intSetResize M ⟨w', xs.length, xs.flatMap (leIntBytes w) ++ S⟩ (xs.length + 1)) =
        some ⟨w', xs.length, X ++ (xs.flatMap (leIntBytes w') ++ Z)⟩ := by
  obtain ⟨S', hresize, hroom⟩ := intSetResize_spec (M := M) (n := xs.length) (S := S)
    xs (xs.length + 1) (by omega) (Nat.le_succ _) hlt.le
  have hmul : xs.length * w ≤ xs.length * w' := Nat.mul_le_mul_left _ hlt.le
  have hpw : p * w' ≤ w' := by simpa using Nat.mul_le_mul_right w' hp
  rw [Nat.add_mul, Nat.one_mul] at hroom
  obtain ⟨X, hX, hloop⟩ := intSetUpgradeLoop_spec (p := p) (n := xs.length) (B := [])
    (G := S'.take (xs.length * w' + p * w' - xs.length * w))
    (Z := S'.drop (xs.length * w' + p * w' - xs.length * w)) hw hw' hlt.le hfits (by
      rw [List.length_take, Nat.add_mul]
      omega)
  refine ⟨X, S'.drop (xs.length * w' + p * w' - xs.length * w), hX, ?_, ?_⟩
  · rw [List.length_drop]
    omega
  · rw [List.flatMap_nil, List.append_nil, List.append_nil, List.append_assoc _ (List.take _ _),
      List.take_append_drop] at hloop
    rw [hresize, hloop, List.append_assoc]

theorem intSetAdd_upgrade (h : is.encoding < intSetValueEncoding v) :
    intSetAdd M is v = (intSetUpgradeAndAdd M is v).map fun is ↦ (is, true) := by
  rw [intSetAdd, if_pos h]

/-- Adding with an upgrade: a value that does not fit is smaller or larger than all elements. -/
theorem IntSet.Holds.upgrade {xs : List ℤ} (h : is.Holds xs) (hv8 : FitsBytes 8 v)
    (hv : ¬FitsBytes is.encoding v) (hlen : xs.length < 2 ^ 31) :
    ∃ is', intSetAdd M is v = some (is', true) ∧
      ((v < 0 ∧ is'.Holds (v :: xs)) ∨ (0 ≤ v ∧ is'.Holds (xs ++ [v]))) := by
  have hsorted := h.sorted
  obtain ⟨w, S, rfl, hw, hfits⟩ := h.eq_mk
  obtain ⟨w', hw'eq⟩ : ∃ w', intSetValueEncoding v = w' := ⟨_, rfl⟩
  have hw' : IsWidth w' := hw'eq ▸ isWidth_intSetValueEncoding v
  have hlt : w < w' := by
    rw [← hw'eq, ← not_le, intSetValueEncoding_le_iff hw hv8]
    exact hv
  have hvfits : FitsBytes w' v := (intSetValueEncoding_le_iff hw' hv8).mp hw'eq.le
  have hxsfits : ∀ x ∈ xs, FitsBytes w' x := fun x hx ↦ (hfits x hx).mono hlt.le
  rw [intSetAdd_upgrade (hw'eq.symm ▸ hlt), intSetUpgradeAndAdd, hw'eq, cInt_eq hlen,
    if_neg (by omega), Int.toNat_natCast]
  by_cases hneg : v < 0
  · obtain ⟨X, Z, hX, -, hloop⟩ := intSetUpgradeLoop_resize (M := M) (p := 1) (S := S) hw hw' hlt
      le_rfl hfits hlen
    have hset := intSetSet_gap (L := []) (v := v) (n := xs.length) (T := xs.flatMap (leIntBytes w') ++ Z)
      hw' (by rw [hX, Nat.one_mul])
    rw [List.flatMap_nil, List.nil_append, List.nil_append, List.length_nil, Nat.cast_zero] at hset
    rw [Nat.cast_one] at hloop
    rw [if_pos hneg, hloop, Option.bind_some, if_pos rfl, hset, Option.map_some, Option.map_some,
      incrLength_eq (by omega)]
    refine ⟨_, rfl, Or.inl ⟨hneg, List.pairwise_cons.mpr ⟨?_, hsorted⟩, hw', ?_, rfl, Z, by simp⟩⟩
    · intro x hx
      have hx' := hfits x hx
      have hv' : ¬FitsBytes w v := hv
      rw [FitsBytes] at hx' hv'
      omega
    · exact List.forall_mem_cons.mpr ⟨hvfits, hxsfits⟩
  · obtain ⟨X, Z, hX, hroom, hloop⟩ := intSetUpgradeLoop_resize (M := M) (p := 0) (S := S) hw hw' hlt
      (Nat.zero_le 1) hfits hlen
    rw [Nat.zero_mul, List.length_eq_zero_iff] at hX
    rw [Nat.zero_mul, Nat.zero_add] at hroom
    subst hX
    have hset := intSetSet_gap (L := xs) (v := v) (n := xs.length) (X := Z.take w') (T := Z.drop w')
      hw' (by rw [List.length_take]; omega)
    rw [List.append_assoc, List.take_append_drop] at hset
    rw [Nat.cast_zero, List.nil_append] at hloop
    rw [if_neg hneg, hloop, Option.bind_some, if_neg (by decide), cInt_eq hlen, hset,
      Option.map_some, Option.map_some, incrLength_eq (by omega)]
    refine ⟨_, rfl, Or.inr ⟨not_lt.mp hneg, List.pairwise_append.mpr
      ⟨hsorted, List.pairwise_singleton _ _, ?_⟩, hw', ?_, by simp, _, rfl⟩⟩
    · intro x hx y hy
      have hx' := hfits x hx
      have hv' : ¬FitsBytes w v := hv
      rw [List.mem_singleton.mp hy]
      rw [FitsBytes] at hx' hv'
      omega
    · intro x hx
      rcases List.mem_append.mp hx with hx | hx
      · exact hxsfits x hx
      · rwa [List.mem_singleton.mp hx]

/-- Removing an element. -/
theorem IntSet.Holds.remove (h : is.Holds (L ++ v :: R)) (hs : SplitAt v L (v :: R))
    (hv8 : FitsBytes 8 v) (hlen : (L ++ v :: R).length < 2 ^ 31)
    (hsafe : R.length * is.encoding < 2 ^ 32) :
    ∃ is', intSetRemove M is v = some (is', true) ∧ is'.Holds (L ++ R) := by
  have hsearch := intSetSearch_spec h hs hlen
  have henc : intSetValueEncoding v ≤ is.encoding :=
    (intSetValueEncoding_le_iff h.width hv8).mpr (h.fits v (by simp))
  obtain ⟨w, S, rfl, hw, hfits⟩ := h.eq_mk
  have hlen' : (L ++ v :: R).length - 1 = (L ++ R).length := by simp
  obtain ⟨S', hgap⟩ : ∃ S', (if L.length < (L ++ R).length then intSetMoveTail
        ⟨w, (L ++ v :: R).length, (L ++ v :: R).flatMap (leIntBytes w) ++ S⟩ (L.length + 1) L.length
      else some ⟨w, (L ++ v :: R).length, (L ++ v :: R).flatMap (leIntBytes w) ++ S⟩) =
      some ⟨w, (L ++ v :: R).length, (L ++ R).flatMap (leIntBytes w) ++ S'⟩ := by
    split_ifs with hlt
    · exact intSetMoveTail_close hw hlen hsafe
    · have hR : R = [] := by
        rw [List.length_append] at hlt
        exact List.length_eq_zero_iff.mp (by omega)
      exact ⟨leIntBytes w v ++ S, by simp [hR]⟩
  obtain ⟨S'', hresize, -⟩ := intSetResize_spec (M := M) (n := (L ++ v :: R).length) (S := S')
    (L ++ R) (L ++ R).length (by omega) (Nat.le_refl _) (Nat.le_refl w)
  refine ⟨⟨w, (L ++ R).length, (L ++ R).flatMap (leIntBytes w) ++ S''⟩, ?_, hs.erase, hw, ?_, rfl,
    S'', rfl⟩
  · rw [intSetRemove, if_pos henc, hsearch, Option.bind_some]
    simp only [List.head?_cons, decide_true, if_true, hlen', hgap, Option.map_some, hresize]
  · intro x hx
    refine hfits x ?_
    rw [List.mem_append, List.mem_cons]
    rw [List.mem_append] at hx
    exact hx.imp id Or.inr

end Changes

end LatteC
