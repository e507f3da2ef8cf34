import LatteC.Set.IntSet.Basic
import Mathlib

/-!
# An intset is a finite set

The replies of an intset are those of a finite set of integers, as long as the part of the array that a
call moves is smaller than four gigabytes (`intSet_run_refines`). `int_set_move_tail` counts these bytes in
32 bits; `int_set_resize`, next to it, uses 64. The last section has the run in which this
goes wrong.
-/

namespace LatteC

open Block

/-! ## Calls -/

/-- What a call needs: an index of type `int` can reach every element, and the elements behind the
value's place, which move if there is to be a change there, are less than `2 ^ 32` bytes. -/
def IntSetSafe (is : IntSet) : IntSetCall → Prop
  | .add value => is.length < 2 ^ 31 ∧ (intSetValueEncoding value.toInt ≤ is.encoding →
      ((intSetDecode is).getD []).countP (value.toInt < ·) * is.encoding < 2 ^ 32)
  | .remove value => is.length < 2 ^ 31 ∧
      ((intSetDecode is).getD []).countP (value.toInt < ·) * is.encoding < 2 ^ 32
  | .find _ => is.length < 2 ^ 31

instance (is : IntSet) : DecidablePred (IntSetSafe is)
  | .add value => inferInstanceAs (Decidable (is.length < 2 ^ 31 ∧
      (intSetValueEncoding value.toInt ≤ is.encoding →
        ((intSetDecode is).getD []).countP (value.toInt < ·) * is.encoding < 2 ^ 32)))
  | .remove value => inferInstanceAs (Decidable (is.length < 2 ^ 31 ∧
      ((intSetDecode is).getD []).countP (value.toInt < ·) * is.encoding < 2 ^ 32))
  | .find _ => inferInstanceAs (Decidable (is.length < 2 ^ 31))

section Calls

variable {M : Allocator UInt8} {is : IntSet} {xs : List ℤ}

private theorem mapM_eq_some_map {α β : Type} {f : α → Option β} {g : α → β} {l : List α}
    (h : ∀ a ∈ l, f a = some (g a)) : l.mapM f = some (l.map g) := by
  induction l with
  | nil => rfl
  | cons a l ih =>
    rw [List.mapM_cons, h a (by simp), ih fun b hb ↦ h b (by simp [hb])]
    rfl

theorem IntSet.Holds.decode (h : is.Holds xs) (hlen : xs.length ≤ 2 ^ 31) :
    intSetDecode is = some xs := by
  have hget : ∀ i ∈ List.range xs.length, intSetGet is i = some (xs[i]?.getD 0) := by
    intro i hi
    rw [List.mem_range] at hi
    have hx := List.getElem?_eq_getElem hi
    rw [intSetGet, cInt_eq (hi.trans_le hlen), h.get hx, hx, Option.getD_some]
  rw [intSetDecode, h.length_eq, mapM_eq_some_map hget, Option.some.injEq]
  refine List.ext_getElem (by simp) fun i h₁ h₂ ↦ ?_
  rw [List.getElem_map, List.getElem_range, List.getElem?_eq_getElem h₂, Option.getD_some]

/-- The elements behind the value's place. -/
theorem SplitAt.countP_lt {L R : List ℤ} {v : ℤ} (h : SplitAt v L R) (hR : R.head? ≠ some v) :
    (L ++ R).countP (v < ·) = R.length := by
  rw [List.countP_append, List.countP_eq_zero.mpr, List.countP_eq_length.mpr, Nat.zero_add]
  · intro x hx
    exact decide_eq_true (h.lt_right hR x hx)
  · intro x hx
    have := h.left x hx
    simp only [decide_eq_true_eq, not_lt]
    omega

/-- The elements behind the value itself. -/
theorem SplitAt.countP_lt_cons {L R : List ℤ} {v : ℤ} (h : SplitAt v L (v :: R)) :
    (L ++ v :: R).countP (v < ·) = R.length := by
  have hR : ∀ x ∈ R, v < x := (List.pairwise_cons.mp (List.pairwise_append.mp h.sorted).2.1).1
  rw [List.countP_append, List.countP_cons_of_neg (by simp), List.countP_eq_zero.mpr,
    List.countP_eq_length.mpr, Nat.zero_add]
  · intro x hx
    exact decide_eq_true (hR x hx)
  · intro x hx
    have := h.left x hx
    simp only [decide_eq_true_eq, not_lt]
    omega

theorem SplitAt.mem_iff {L R : List ℤ} {v : ℤ} (h : SplitAt v L R) :
    v ∈ L ++ R ↔ R.head? = some v := by
  constructor
  · intro hv
    obtain ⟨i, hi⟩ := List.getElem?_of_mem hv
    exact ((h.eq_iff hi).mp rfl).2
  · intro hhead
    exact List.mem_append_right _ (List.mem_of_mem_head? hhead)

/-- The loop of the integrity check, from the element `x` on. -/
theorem intSetInOrder_spec {A B : List ℤ} {x : ℤ} (h : is.Holds (A ++ x :: B))
    (hlen : (A ++ x :: B).length ≤ 2 ^ 31) :
    intSetInOrder is B.length (A.length + 1) x = some true := by
  induction B generalizing A x with
  | nil => rfl
  | cons y B ih =>
    have hget : (A ++ x :: y :: B)[A.length + 1]? = some y := by
      rw [List.getElem?_append_right (Nat.le_add_right _ _), Nat.add_sub_cancel_left]
      rfl
    have hlt : x < y := (List.pairwise_cons.mp (List.pairwise_append.mp h.sorted).2.1).1 y (by simp)
    have hrest := ih (A := A ++ [x]) (x := y) (by simpa using h) (by simpa using hlen)
    rw [List.length_append, List.length_singleton] at hrest
    simp only [List.length_append, List.length_cons] at hlen
    rw [List.length_cons, intSetInOrder, cInt_eq (by omega), h.get hget, Option.bind_some,
      if_neg (not_le.mpr hlt), hrest]

theorem IntSet.Holds.validateIntegrity (h : is.Holds xs) (hne : xs ≠ [])
    (hlen : xs.length ≤ 2 ^ 31) :
    intSetValidateIntegrity is (intSetBlobLen is) true = some true := by
  obtain ⟨x, B, rfl⟩ := List.exists_cons_of_ne_nil hne
  have hwidth : is.encoding = 8 ∨ is.encoding = 4 ∨ is.encoding = 2 := by
    rcases h.width with hw | hw | hw <;> simp [hw]
  have hget : privateIntSetGet is 0 = some x := h.get (i := 0) rfl
  have horder := intSetInOrder_spec (A := []) h hlen
  rw [intSetValidateIntegrity, if_neg (by rw [intSetBlobLen]; omega), if_pos hwidth, intSetBlobLen,
    if_neg (by simp), h.length_eq, List.length_cons, if_neg (by omega),
    if_neg (by simp), hget, Option.bind_some, Nat.add_sub_cancel]
  exact horder

/-- The set holds the elements of `s`. -/
structure IntSet.Represents (is : IntSet) (s : Finset ℤ) : Prop where
  holds : is.Holds (s.sort (· ≤ ·))
  card_le : s.card ≤ 2 ^ 31

/-- A sorted list is the list of its elements, sorted. -/
theorem IntSet.Holds.represents {s : Finset ℤ} (h : is.Holds xs) (hlen : xs.length ≤ 2 ^ 31)
    (hs : ∀ x, x ∈ xs ↔ x ∈ s) : is.Represents s := by
  have hnodup : xs.Nodup := h.sorted.imp fun hlt ↦ hlt.ne
  have hs' : xs.toFinset = s := Finset.ext fun x ↦ by rw [List.mem_toFinset, hs]
  have hsort : s.sort (· ≤ ·) = xs := by
    rw [← hs']
    exact (List.toFinset_sort (· ≤ ·) hnodup).mpr (h.sorted.imp le_of_lt)
  refine ⟨hsort.symm ▸ h, ?_⟩
  rwa [← hs', List.toFinset_card_of_nodup hnodup]

section Steps

variable {s : Finset ℤ} (h : is.Represents s)

include h

theorem IntSet.Represents.find {value : Int64} (hsafe : IntSetSafe is (.find value)) :
    intSetFind is value.toInt = some (decide (value.toInt ∈ s)) := by
  obtain ⟨L, R, hLR, hs⟩ := exists_splitAt h.holds.sorted value.toInt
  have hholds := h.holds
  rw [hLR] at hholds
  have hmem : value.toInt ∈ s ↔ R.head? = some value.toInt := by
    rw [← hs.mem_iff, ← hLR, Finset.mem_sort]
  have hlen : (L ++ R).length < 2 ^ 31 := hholds.length_eq ▸ hsafe
  rw [intSetFind]
  split_ifs with henc
  · rw [intSetSearch_spec hholds hs hlen, Option.map_some]
    simp only [hmem]
  · have hnot : value.toInt ∉ s := by
      intro hv
      refine henc ((intSetValueEncoding_le_iff h.holds.width (fitsBytes_toInt value)).mpr ?_)
      exact h.holds.fits _ ((Finset.mem_sort _).mpr hv)
    rw [decide_eq_false hnot]

theorem IntSet.Represents.remove {value : Int64} (hsafe : IntSetSafe is (.remove value)) :
    ∃ is', intSetRemove M is value.toInt = some (is', decide (value.toInt ∈ s)) ∧
      is'.Represents (s.erase value.toInt) := by
  obtain ⟨L, R, hLR, hs⟩ := exists_splitAt h.holds.sorted value.toInt
  have hholds := h.holds
  have hmem (x : ℤ) : x ∈ L ++ R ↔ x ∈ s := by rw [← hLR, Finset.mem_sort]
  rw [hLR] at hholds
  have hlen : (L ++ R).length < 2 ^ 31 := hholds.length_eq ▸ hsafe.1
  by_cases hv : value.toInt ∈ s
  · obtain ⟨R', rfl⟩ := List.head?_eq_some_iff.mp (hs.mem_iff.mp ((hmem _).mpr hv))
    have hcount := hsafe.2
    rw [hholds.decode hlen.le, Option.getD_some, hs.countP_lt_cons] at hcount
    obtain ⟨is', hremove, hholds'⟩ := hholds.remove (M := M) hs (fitsBytes_toInt value) hlen hcount
    refine ⟨is', by rw [hremove, decide_eq_true hv], hholds'.represents ?_ ?_⟩
    · rw [List.length_append, List.length_cons] at hlen
      rw [List.length_append]
      omega
    · intro x
      have hnot : value.toInt ∉ L ++ R' := by
        intro hx
        have hnodup : (L ++ value.toInt :: R').Nodup := hs.sorted.imp fun hlt ↦ hlt.ne
        exact (List.nodup_middle.mp hnodup).notMem hx
      rw [Finset.mem_erase, ← hmem, List.mem_append, List.mem_append, List.mem_cons]
      rw [List.mem_append] at hnot
      constructor
      · intro hx
        refine ⟨?_, hx.imp id Or.inr⟩
        rintro rfl
        exact hnot hx
      · rintro ⟨hne, hleft | heq | hright⟩
        · exact Or.inl hleft
        · exact absurd heq hne
        · exact Or.inr hright
  · refine ⟨is, ?_, by rwa [Finset.erase_eq_of_notMem hv]⟩
    have hhead : R.head? ≠ some value.toInt := fun hhead ↦ hv ((hmem _).mp (hs.mem_iff.mpr hhead))
    rw [intSetRemove, intSetSearch_spec hholds hs hlen]
    simp [hhead, hv]

theorem IntSet.Represents.add {value : Int64} (hsafe : IntSetSafe is (.add value)) :
    ∃ is', intSetAdd M is value.toInt = some (is', decide (value.toInt ∉ s)) ∧
      is'.Represents (insert value.toInt s) := by
  obtain ⟨L, R, hLR, hs⟩ := exists_splitAt h.holds.sorted value.toInt
  have hholds := h.holds
  have hmem (x : ℤ) : x ∈ L ++ R ↔ x ∈ s := by rw [← hLR, Finset.mem_sort]
  rw [hLR] at hholds
  have hlen : (L ++ R).length < 2 ^ 31 := hholds.length_eq ▸ hsafe.1
  have henc := intSetValueEncoding_le_iff h.holds.width (fitsBytes_toInt value)
  by_cases hv : value.toInt ∈ s
  · have hhead : R.head? = some value.toInt := hs.mem_iff.mp ((hmem _).mpr hv)
    have hle := henc.mpr (h.holds.fits _ ((Finset.mem_sort _).mpr hv))
    refine ⟨is, ?_, by rwa [Finset.insert_eq_of_mem hv]⟩
    rw [intSetAdd, if_neg (not_lt.mpr hle), intSetSearch_spec hholds hs hlen]
    simp [hhead, hv]
  · have hhead : R.head? ≠ some value.toInt := fun hhead ↦ hv ((hmem _).mp (hs.mem_iff.mpr hhead))
    by_cases hfits : FitsBytes is.encoding value.toInt
    · have hcount := hsafe.2 (henc.mpr hfits)
      rw [hholds.decode hlen.le, Option.getD_some, hs.countP_lt hhead] at hcount
      obtain ⟨is', hadd, hholds'⟩ := hholds.add (M := M) hs hfits (fitsBytes_toInt value) hlen hhead
        hcount
      refine ⟨is', by rw [hadd, decide_eq_true hv], hholds'.represents ?_ ?_⟩
      · rw [List.length_append] at hlen
        rw [List.length_append, List.length_cons]
        omega
      · intro x
        rw [Finset.mem_insert, ← hmem, List.mem_append, List.mem_append, List.mem_cons, or_left_comm]
    · obtain ⟨is', hadd, hholds'⟩ := hholds.upgrade (M := M) (fitsBytes_toInt value) hfits hlen
      refine ⟨is', by rw [hadd, decide_eq_true hv], ?_⟩
      rcases hholds' with ⟨-, hholds'⟩ | ⟨-, hholds'⟩
      · refine hholds'.represents (by rw [List.length_cons]; omega) fun x ↦ ?_
        rw [Finset.mem_insert, ← hmem, List.mem_cons]
      · obtain ⟨xs, hxs⟩ : ∃ xs, L ++ R = xs := ⟨_, rfl⟩
        rw [hxs] at hholds' hlen hmem
        refine hholds'.represents ?_ fun x ↦ ?_
        · rw [List.length_append, List.length_singleton]
          omega
        · rw [Finset.mem_insert, ← hmem, List.mem_append, List.mem_singleton, or_comm]

end Steps

theorem represents_intSetNew (M : Allocator UInt8) : (intSetNew M).Represents ∅ :=
  ⟨⟨by simp, Or.inl rfl, by simp, by simp [intSetNew], M.block 0, by simp [intSetNew]⟩, by simp⟩

theorem intSetStep_refines {s s' : Finset ℤ} {call : IntSetCall} {o : Bool} (h : is.Represents s)
    (hsafe : IntSetSafe is call) (hspec : intFinsetStep s call = some (s', o)) :
    ∃ is', intSetStep M is call = some (is', o) ∧ is'.Represents s' := by
  cases call with
  | add value =>
    rw [intFinsetStep, Option.some.injEq, Prod.mk.injEq] at hspec
    rw [← hspec.1, ← hspec.2]
    exact h.add hsafe
  | remove value =>
    rw [intFinsetStep, Option.some.injEq, Prod.mk.injEq] at hspec
    rw [← hspec.1, ← hspec.2]
    exact h.remove hsafe
  | find value =>
    rw [intFinsetStep, Option.some.injEq, Prod.mk.injEq] at hspec
    rw [← hspec.1, ← hspec.2]
    exact ⟨is, by rw [intSetStep, h.find hsafe, Option.map_some], h⟩

end Calls

/-- **An intset is a finite set of integers.** In every run whose calls are safe, the replies are those of a
finite set, the array is the sorted list of its elements, they all fit into the encoding, and a set
that is not empty passes the deep integrity check. -/
theorem intSet_run_refines (M : Allocator UInt8) (calls : List IntSetCall)
    (hok : CallMachine.Guarded IntSetSafe (intSetStep M) (intSetNew M) calls) :
    ∃ is s replies, CallMachine.run (intSetStep M) (intSetNew M) calls = some (is, replies) ∧
      CallMachine.run intFinsetStep ∅ calls = some (s, replies) ∧
      intSetDecode is = some (s.sort (· ≤ ·)) ∧
      (∀ v ∈ s, intSetValueEncoding v ≤ is.encoding) ∧
      (s.Nonempty → intSetValidateIntegrity is (intSetBlobLen is) true = some true) := by
  obtain ⟨s, replies, hspec⟩ := CallMachine.exists_run_of_total intFinsetStep
    (fun s call ↦ by cases call <;> exact ⟨_, rfl⟩) calls ∅
  have hstep : ∀ is s call s' o, is.Represents s → IntSetSafe is call →
      intFinsetStep s call = some (s', o) →
      ∃ is', intSetStep M is call = some (is', o) ∧ is'.Represents s' :=
    fun is s call s' o ↦ intSetStep_refines
  obtain ⟨is, hrun, h⟩ :=
    CallMachine.run_refines_of_guarded hstep (represents_intSetNew M) hok hspec
  have hlen : (s.sort (· ≤ ·)).length ≤ 2 ^ 31 := by rw [Finset.length_sort]; exact h.card_le
  refine ⟨is, s, replies, hrun, hspec, h.holds.decode hlen, ?_, ?_⟩
  · intro v hv
    have hfits := h.holds.fits v ((Finset.mem_sort _).mpr hv)
    have hle : is.encoding ≤ 8 := by rcases h.holds.width with hw | hw | hw <;> omega
    exact (intSetValueEncoding_le_iff h.holds.width (hfits.mono hle)).mpr hfits
  · rintro ⟨v, hv⟩
    refine h.holds.validateIntegrity (fun hnil ↦ ?_) hlen
    have hmem := (Finset.mem_sort (· ≤ ·)).mpr hv
    rw [hnil] at hmem
    cases hmem

/-- An allocator whose blocks are zero. -/
def zeroBlocks : Allocator UInt8 where
  block n := List.replicate n 0
  le_length _ := List.length_replicate.ge

theorem intSet_run_refines_test : ∃ is s replies,
    CallMachine.run (intSetStep zeroBlocks) (intSetNew zeroBlocks)
      [.add 5, .add 100000, .add (-3), .find 5, .remove 5, .find 5] = some (is, replies) ∧
    CallMachine.run intFinsetStep ∅
      [.add 5, .add 100000, .add (-3), .find 5, .remove 5, .find 5] = some (s, replies) ∧
    intSetDecode is = some (s.sort (· ≤ ·)) ∧
    (∀ v ∈ s, intSetValueEncoding v ≤ is.encoding) ∧
    (s.Nonempty → intSetValidateIntegrity is (intSetBlobLen is) true = some true) :=
  intSet_run_refines zeroBlocks _ (by decide +kernel)

/-! ## A set of four gigabytes -/

section Overflow

variable {M : Allocator UInt8} {is : IntSet} {xs : List ℤ} {v : ℤ}

/-- A value that is larger than all elements goes to the end, whatever the size of the set. -/
theorem IntSet.Holds.add_last (h : is.Holds xs) (hv8 : FitsBytes 8 v) (hv : 0 ≤ v)
    (hlt : ∀ x ∈ xs, x < v) (hlen : xs.length < 2 ^ 31) :
    ∃ is', intSetAdd M is v = some (is', true) ∧ is'.Holds (xs ++ [v]) := by
  by_cases hfits : FitsBytes is.encoding v
  · have hs : SplitAt v xs [] := ⟨by simpa using h.sorted, hlt, by simp⟩
    rw [← List.append_nil xs] at h hlen
    exact h.add hs hfits hv8 hlen (by simp) (by simp)
  · obtain ⟨is', hadd, ⟨hneg, -⟩ | ⟨-, hholds⟩⟩ := h.upgrade (M := M) hv8 hfits hlen
    · omega
    · exact ⟨is', hadd, hholds⟩

/-- Adding values in ascending order. -/
theorem run_add_ascending {values : List Int64} (h : is.Holds xs)
    (hsorted : (xs ++ values.map Int64.toInt).Pairwise (· < ·))
    (hpos : ∀ value ∈ values, 0 ≤ value.toInt) (hlen : xs.length + values.length ≤ 2 ^ 31) :
    ∃ is', CallMachine.run (intSetStep M) is (values.map .add) =
        some (is', values.map fun _ ↦ true) ∧
      is'.Holds (xs ++ values.map Int64.toInt) := by
  induction values generalizing is xs with
  | nil => exact ⟨is, rfl, by simpa using h⟩
  | cons value values ih =>
    rw [List.length_cons] at hlen
    rw [List.map_cons] at hsorted
    have hlt : ∀ x ∈ xs, x < value.toInt := fun x hx ↦
      (List.pairwise_append.mp hsorted).2.2 x hx _ (by simp)
    obtain ⟨is₁, hadd, hholds⟩ :=
      h.add_last (M := M) (fitsBytes_toInt value) (hpos value (by simp)) hlt (by omega)
    obtain ⟨is', hrun, hholds'⟩ := ih hholds (by simpa using hsorted)
      (fun u hu ↦ hpos u (by simp [hu])) (by rw [List.length_append, List.length_singleton]; omega)
    have hstep : intSetStep M is (.add value) = some (is₁, true) := hadd
    refine ⟨is', ?_, by simpa using hholds'⟩
    rw [List.map_cons, CallMachine.run_cons_of_step hstep, hrun]
    rfl

/-- With `2 ^ 29` elements of eight bytes, the number of bytes to move is counted as zero: a new first
element overwrites the old one. -/
theorem intSetAdd_wraps {x y : ℤ} (h : is.Holds (x :: y :: xs)) (henc : is.encoding = 8)
    (hlen : (x :: y :: xs).length = 2 ^ 29) (hv8 : FitsBytes 8 v) (hv : v < x) :
    ∃ is', intSetAdd M is v = some (is', true) ∧ intSetGet is' 1 = some y ∧
      is'.length = 2 ^ 29 + 1 := by
  have hs : SplitAt v [] (x :: y :: xs) := by
    refine ⟨h.sorted, by simp, ?_⟩
    rintro z (_ | ⟨_, hz⟩)
    · exact hv.le
    · exact (hv.trans ((List.pairwise_cons.mp h.sorted).1 z hz)).le
  have hsearch := intSetSearch_spec (L := []) h hs (by rw [List.nil_append, hlen]; decide)
  obtain ⟨w, S, rfl, hw, hfits⟩ := h.eq_mk
  obtain rfl : w = 8 := henc
  obtain ⟨n, hn⟩ : ∃ n, (x :: y :: xs).length = n := ⟨_, rfl⟩
  have hhead : (x :: y :: xs).head? ≠ some v := by
    rw [List.head?_cons, ne_eq, Option.some.injEq]
    omega
  obtain ⟨S', hresize, -⟩ := intSetResize_spec (M := M) (n := n) (S := S)
    (x :: y :: xs) (n + 1) (by omega) (by omega) (Nat.le_refl 8)
  have hroom : 8 ≤ ((x :: y :: xs).flatMap (leIntBytes 8) ++ S').length := by
    rw [List.length_append, length_elements]
    omega
  have hmove : intSetMoveTail ⟨8, n, (x :: y :: xs).flatMap (leIntBytes 8) ++ S'⟩ 0 1 =
      some ⟨8, n, (x :: y :: xs).flatMap (leIntBytes 8) ++ S'⟩ := by
    have hbytes : (n + 2 ^ 32 - 0) % 2 ^ 32 * 8 % 2 ^ 32 = 0 := by omega
    rw [intSetMoveTail, hw.intSetWidth_eq, hbytes, move_zero hroom (Nat.zero_le _), Option.map_some]
  have hset := intSetSet_gap (L := []) (v := v) (n := n) (X := leIntBytes 8 x)
    (T := (y :: xs).flatMap (leIntBytes 8) ++ S') hw (length_leIntBytes 8 x)
  have hinsert : intSetInsertAt ⟨8, n, (x :: y :: xs).flatMap (leIntBytes 8) ++ S'⟩ 0 v =
      some ⟨8, n + 1, (v :: y :: xs).flatMap (leIntBytes 8) ++ S'⟩ := by
    rw [intSetInsertAt, if_pos (show 0 < n by omega), hmove, Option.bind_some, cInt_eq (by decide)]
    rw [List.flatMap_nil, List.nil_append, List.nil_append, List.length_nil, ← List.append_assoc,
      ← List.flatMap_cons, List.flatMap_singleton, ← List.append_assoc, ← List.flatMap_cons] at hset
    rw [hset, Option.map_some, incrLength_eq (by omega)]
  have hvenc : ¬8 < intSetValueEncoding v :=
    not_lt.mpr ((intSetValueEncoding_le_iff hw hv8).mpr hv8)
  refine ⟨⟨8, n + 1, (v :: y :: xs).flatMap (leIntBytes 8) ++ S'⟩, ?_, ?_,
    show n + 1 = 2 ^ 29 + 1 by rw [← hn, hlen]⟩
  · rw [intSetAdd, if_neg hvenc, hsearch, Option.bind_some]
    simp only [hhead, decide_false, Bool.false_eq_true, if_false, List.length_nil]
    rw [hn, hresize, hinsert, Option.map_some]
  · rw [intSetGet, cInt_eq (by decide)]
    refine intSetGetEncoded_eq (v :: y :: xs) (i := 1) hw ?_ rfl rfl
    intro z hz
    rcases List.mem_cons.mp hz with rfl | hz
    · exact hv8
    · exact hfits z (List.mem_cons_of_mem _ hz)

private theorem getElem?_of_mapM {α β : Type} {f : α → Option β} {l : List α} {ys : List β}
    (h : l.mapM f = some ys) {i : ℕ} {a : α} (ha : l[i]? = some a) : f a = ys[i]? := by
  induction l generalizing ys i with
  | nil => simp at ha
  | cons b l ih =>
    rw [List.mapM_cons, Option.bind_eq_bind, Option.bind_eq_some_iff] at h
    obtain ⟨y, hy, h⟩ := h
    rw [Option.bind_eq_bind, Option.bind_eq_some_iff] at h
    obtain ⟨ys', hys', h⟩ := h
    obtain rfl : y :: ys' = ys := Option.some.inj h
    cases i with
    | zero =>
      obtain rfl : b = a := by simpa using ha
      exact hy
    | succ i => exact ih hys' (by simpa using ha)

/-- The specification of the same calls. -/
theorem run_intFinsetStep_add (values : List Int64) (s : Finset ℤ) :
    ∃ replies, CallMachine.run intFinsetStep s (values.map .add) =
      some ((values.map Int64.toInt).toFinset ∪ s, replies) := by
  induction values generalizing s with
  | nil => exact ⟨[], by simp⟩
  | cons value values ih =>
    obtain ⟨replies, hrun⟩ := ih (insert value.toInt s)
    have hstep : intFinsetStep s (.add value) =
        some (insert value.toInt s, decide (value.toInt ∉ s)) := rfl
    refine ⟨decide (value.toInt ∉ s) :: replies, ?_⟩
    rw [List.map_cons, CallMachine.run_cons_of_step hstep, hrun, Option.map_some]
    simp

end Overflow

/-- Values are added in ascending order, and then one that is smaller than all of them. If there were
`2 ^ 29` of eight bytes, the array is no longer the list of the elements. -/
theorem run_ascending_then_smaller (M : Allocator UInt8) {values : List Int64} {value : Int64}
    {x y : ℤ} {xs : List ℤ} (hvalues : values.map Int64.toInt = x :: y :: xs)
    (hlen : values.length = 2 ^ 29) (hsorted : (value.toInt :: x :: y :: xs).Pairwise (· < ·))
    (hpos : ∀ u ∈ values, 0 ≤ u.toInt) (hwide : 2 ^ 31 ≤ x) :
    ¬∃ is s replies, CallMachine.run (intSetStep M) (intSetNew M)
        (values.map .add ++ [.add value]) = some (is, replies) ∧
      CallMachine.run intFinsetStep ∅ (values.map .add ++ [.add value]) = some (s, replies) ∧
      intSetDecode is = some (s.sort (· ≤ ·)) := by
  rintro ⟨is, s, replies, hrun, hspec, hdecode⟩
  obtain ⟨hlt, hsorted'⟩ := List.pairwise_cons.mp hsorted
  have hlen' : (x :: y :: xs).length = 2 ^ 29 := by rw [← hvalues, List.length_map, hlen]
  have hnew : (intSetNew M).Holds [] := by simpa using (represents_intSetNew M).holds
  obtain ⟨is₁, hrun₁, hholds⟩ := run_add_ascending (M := M) hnew
    (by rw [List.nil_append, hvalues]; exact hsorted') hpos (by rw [hlen]; decide)
  rw [List.nil_append, hvalues] at hholds
  have henc : is₁.encoding = 8 := by
    have hle := (intSetValueEncoding_le_iff hholds.width (v := x) ?_).mpr (hholds.fits x (by simp))
    · rw [intSetValueEncoding, if_pos (Or.inr (by omega))] at hle
      rcases hholds.width with hw | hw | hw <;> omega
    · have hle : is₁.encoding ≤ 8 := by rcases hholds.width with hw | hw | hw <;> omega
      exact (hholds.fits x (by simp)).mono hle
  obtain ⟨is₂, hadd, hget, hlength⟩ := intSetAdd_wraps (M := M) hholds henc hlen'
    (fitsBytes_toInt value) (hlt x (by simp))
  obtain rfl : is₂ = is := by
    have hstep : intSetStep M is₁ (.add value) = some (is₂, true) := hadd
    rw [CallMachine.run_append, hrun₁, Option.bind_some, CallMachine.run_cons_of_step hstep,
      CallMachine.run_nil, Option.map_some, Option.map_some, Option.some.injEq, Prod.mk.injEq] at hrun
    exact hrun.1
  obtain ⟨replies', hspec'⟩ := run_intFinsetStep_add (values ++ [value]) ∅
  rw [List.map_append, List.map_singleton, hspec, Option.some.injEq, Prod.mk.injEq] at hspec'
  have hsort : s.sort (· ≤ ·) = value.toInt :: x :: y :: xs := by
    have hs : s = (value.toInt :: x :: y :: xs).toFinset := by
      rw [hspec'.1, List.map_append, hvalues, Finset.union_empty, List.map_singleton]
      exact List.toFinset_eq_of_perm _ _ List.perm_append_comm
    rw [hs]
    exact (List.toFinset_sort (· ≤ ·) (hsorted.imp fun h ↦ h.ne)).mpr (hsorted.imp le_of_lt)
  have hsecond := getElem?_of_mapM hdecode (i := 1) (a := 1) (by
    rw [hlength, List.getElem?_range (by decide)])
  rw [hget, hsort, List.getElem?_cons_succ, List.getElem?_cons_zero, Option.some.injEq] at hsecond
  have hxy := (List.pairwise_cons.mp hsorted').1 y (by simp)
  omega

/-- The values `2 ^ 40 + 1`, `2 ^ 40 + 2`, and so on. -/
def ascendingValues (n : ℕ) : List Int64 :=
  (List.range' 1 n).map fun i : ℕ ↦ Int64.ofInt (2 ^ 40 + i)

theorem ascendingValues_toInt {n : ℕ} (hn : n ≤ 2 ^ 31) :
    (ascendingValues n).map Int64.toInt = (List.range' 1 n).map fun i : ℕ ↦ (2 ^ 40 + i : ℤ) := by
  rw [ascendingValues, List.map_map]
  refine List.map_congr_left fun i hi ↦ ?_
  rw [List.mem_range'_1] at hi
  rw [Function.comp_apply, Int64.toInt_ofInt_of_le (by omega) (by omega)]

/-- `2 ^ 29` values of eight bytes in ascending order, and a smaller one. -/
theorem intSet_run_loses_member : ¬∃ is s replies,
    CallMachine.run (intSetStep zeroBlocks) (intSetNew zeroBlocks)
      ((ascendingValues (2 ^ 29)).map .add ++ [.add (Int64.ofInt (2 ^ 40))]) = some (is, replies) ∧
    CallMachine.run intFinsetStep ∅
      ((ascendingValues (2 ^ 29)).map .add ++ [.add (Int64.ofInt (2 ^ 40))]) = some (s, replies) ∧
    intSetDecode is = some (s.sort (· ≤ ·)) := by
  obtain ⟨n, hn⟩ : ∃ n, 2 ^ 29 = n + 2 := ⟨2 ^ 29 - 2, by decide⟩
  have hvalues : (ascendingValues (n + 2)).map Int64.toInt =
      (2 ^ 40 + 1) :: (2 ^ 40 + 2) :: (List.range' 3 n).map fun i : ℕ ↦ (2 ^ 40 + i : ℤ) := by
    rw [ascendingValues_toInt (by omega), List.range'_succ, List.map_cons, List.range'_succ,
      List.map_cons]
    rfl
  have hv : (Int64.ofInt (2 ^ 40)).toInt = 2 ^ 40 :=
    Int64.toInt_ofInt_of_le (by omega) (by omega)
  rw [hn]
  refine run_ascending_then_smaller zeroBlocks hvalues ?_ ?_ ?_ (by omega)
  · rw [ascendingValues, List.length_map, List.length_range', hn]
  · have hlt : ((List.range' 0 (n + 3)).map fun i : ℕ ↦ (2 ^ 40 + i : ℤ)).Pairwise (· < ·) := by
      have hrange : (List.range' 0 (n + 3)).Pairwise (· < ·) := List.pairwise_lt_range'
      rw [List.pairwise_map]
      exact hrange.imp fun h ↦ by omega
    rw [hv]
    exact hlt
  · intro u hu
    have hmem : u.toInt ∈ (ascendingValues (n + 2)).map Int64.toInt := List.mem_map_of_mem hu
    rw [ascendingValues_toInt (by omega), List.mem_map] at hmem
    obtain ⟨i, -, hi⟩ := hmem
    omega

end LatteC
