import LatteC.Value.Basic

/-!
# The order of values

`value_cmp` is a total order on the values that are built from the empty value, numbers, booleans and strings
by forming arrays. The proof is an induction over the first of the values that are compared; what an array is
compared with is arbitrary, only the parts of the array have to be smaller.
-/

namespace LatteC

open ThreeWay

variable {D : Type}

namespace Value

/-- The values that `value_cmp` orders: no NULL, no floating point numbers, no maps, and arrays whose sizes
are below 2³¹. -/
inductive Orderable : Value D → Prop where
  | undefined : Orderable undefined
  | constantChar (s : CString) : Orderable (constantChar s)
  | sds (s : List UInt8) : Orderable (sds s)
  | int (l : Int64) : Orderable (int l)
  | uint (l : UInt64) : Orderable (uint l)
  | boolean (b : Bool) : Orderable (boolean b)
  | array (elements : List (Value D)) (hsize : elements.length < 2 ^ 31)
      (h : ∀ v ∈ elements, Orderable v) : Orderable (array elements)

/-- The number of the type of a value. -/
def tag (v : Value D) : ℕ := (v.type.map ValueType.toNat).getD 0

theorem Orderable.exists_type {v : Value D} (h : v.Orderable) : ∃ t, v.type = some t := by
  cases h <;> exact ⟨_, rfl⟩

end Value

open Value

/-! ## The comparisons of the parts -/

theorem totalAt_sdsCmp (s : List UInt8) : TotalAt Set.univ sdsCmp s :=
  .of_linearOrder (f := sdsBytes) sdsBytes_injective.injOn (fun a _ b _ ↦ sdsCmp_neg_iff a b)
    (fun a _ b _ ↦ sdsCmp_pos_iff a b) trivial

theorem totalAt_privateStrCmp (s : CString) : TotalAt Set.univ privateStrCmp s := by
  have hinj : Function.Injective fun c : CString ↦ sdsBytes c.bytes :=
    fun a b h ↦ CString.ext (sdsBytes_injective h)
  exact .of_linearOrder hinj.injOn (fun a _ b _ ↦ strcmp_neg_iff a.nul_free b.nul_free)
    (fun a _ b _ ↦ strcmp_pos_iff a.nul_free b.nul_free) trivial

theorem privateInt64Cmp_neg_iff (a b : Int64) : privateInt64Cmp a b < 0 ↔ a.toInt < b.toInt := by
  rw [← Int64.lt_iff_toInt_lt, privateInt64Cmp]
  split_ifs with hgt hlt
  · rw [Int64.lt_iff_toInt_lt] at hgt ⊢
    omega
  · exact iff_of_true (by decide) hlt
  · exact iff_of_false (lt_irrefl 0) hlt

theorem privateInt64Cmp_pos_iff (a b : Int64) : 0 < privateInt64Cmp a b ↔ b.toInt < a.toInt := by
  rw [← Int64.lt_iff_toInt_lt, privateInt64Cmp]
  split_ifs with hgt hlt
  · exact iff_of_true (by decide) hgt
  · exact iff_of_false (by decide) hgt
  · exact iff_of_false (lt_irrefl 0) hgt

theorem totalAt_privateInt64Cmp (l : Int64) : TotalAt Set.univ privateInt64Cmp l := by
  have hinj : Function.Injective Int64.toInt := fun a b h ↦ Int64.toInt_inj.mp h
  exact .of_linearOrder hinj.injOn (fun a _ b _ ↦ privateInt64Cmp_neg_iff a b)
    (fun a _ b _ ↦ privateInt64Cmp_pos_iff a b) trivial

theorem totalAt_privateUint64Cmp (l : UInt64) : TotalAt Set.univ privateUint64Cmp l := by
  have hinj : Function.Injective UInt64.toNat := fun a b h ↦ UInt64.toNat_inj.mp h
  refine .of_linearOrder hinj.injOn (fun a _ b _ ↦ ?_) (fun a _ b _ ↦ ?_) trivial
  · rw [← UInt64.lt_iff_toNat_lt, privateUint64Cmp]
    split_ifs with hgt hlt
    · rw [UInt64.lt_iff_toNat_lt] at hgt ⊢
      omega
    · exact iff_of_true (by decide) hlt
    · exact iff_of_false (lt_irrefl 0) hlt
  · rw [← UInt64.lt_iff_toNat_lt, privateUint64Cmp]
    split_ifs with hgt hlt
    · exact iff_of_true (by decide) hgt
    · exact iff_of_false (by decide) hgt
    · exact iff_of_false (lt_irrefl 0) hgt

/-- The comparison of two booleans. -/
def boolCmp (x y : Bool) : ℤ := privateInt64Cmp (if x then 1 else 0) (if y then 1 else 0)

theorem totalAt_boolCmp (b : Bool) : TotalAt Set.univ boolCmp b := by
  refine .of_linearOrder (f := id) Function.injective_id.injOn (fun a _ b _ ↦ ?_)
    (fun a _ b _ ↦ ?_) trivial
  · cases a <;> cases b <;> decide
  · cases a <;> cases b <;> decide

/-! ## The comparison of values -/

section ValueCmp

variable (longDoubleCmp : D → D → ℤ)
  (dictCmp : List (List UInt8 × Value D) → List (List UInt8 × Value D) → ℤ)

/-- The result of `value_cmp` where there is one. -/
def valueCmpResult (a b : Value D) : ℤ := (privateValueCmp longDoubleCmp dictCmp a b).getD 0

variable {longDoubleCmp dictCmp}

/-- Values of two types are compared by their types. -/
theorem privateValueCmp_of_ne {a b : Value D} {s t : ValueType} (ha : a.type = some s)
    (hb : b.type = some t) (hne : s ≠ t) :
    privateValueCmp longDoubleCmp dictCmp a b = some ((s.toNat : ℤ) - t.toNat) := by
  rw [privateValueCmp.eq_def, ha, hb]
  simp only [ne_eq, hne, not_false_eq_true, if_true]

theorem valueCmpResult_of_tag_ne {a b : Value D} (ha : a.Orderable) (hb : b.Orderable)
    (hne : a.tag ≠ b.tag) :
    valueCmpResult longDoubleCmp dictCmp a b = (a.tag : ℤ) - b.tag := by
  obtain ⟨s, hs⟩ := ha.exists_type
  obtain ⟨t, ht⟩ := hb.exists_type
  have hst : s ≠ t := by
    rintro rfl
    exact hne (by rw [tag, tag, hs, ht])
  rw [valueCmpResult, privateValueCmp_of_ne hs ht hst, tag, tag, hs, ht]
  rfl

theorem privateValueCmp_array (xs ys : List (Value D)) :
    privateValueCmp longDoubleCmp dictCmp (.array xs) (.array ys) =
      privateVectorCmp (privateValueCmp longDoubleCmp dictCmp) xs ys := by
  have hloop : ∀ xs ys : List (Value D), privateValueCmpElements longDoubleCmp dictCmp xs ys =
      privateVectorCmpLoop (privateValueCmp longDoubleCmp dictCmp) xs ys := by
    intro xs
    induction xs with
    | nil => intro ys; rw [privateValueCmpElements, privateVectorCmpLoop] <;> simp
    | cons x xs ih =>
      intro ys
      cases ys with
      | nil => rw [privateValueCmpElements, privateVectorCmpLoop] <;> simp
      | cons y ys => simp only [privateValueCmpElements, privateVectorCmpLoop, ih]
  rw [privateValueCmp.eq_def, privateVectorCmp, ← hloop]
  rfl

/-- The loop over the elements of two vectors, if all comparisons come back. -/
theorem privateVectorCmpLoop_eq {α : Type} {cmp : α → α → Option ℤ} {result : α → α → ℤ}
    {xs ys : List α} (h : ∀ x ∈ xs, ∀ y ∈ ys, cmp x y = some (result x y)) :
    privateVectorCmpLoop cmp xs ys = some (lexCmp result xs ys) := by
  induction xs generalizing ys with
  | nil => cases ys <;> rfl
  | cons x xs ih =>
    cases ys with
    | nil => rfl
    | cons y ys =>
      have htail : ∀ x' ∈ xs, ∀ y' ∈ ys, cmp x' y' = some (result x' y') :=
        fun x' hx' y' hy' ↦ h x' (List.mem_cons_of_mem x hx') y' (List.mem_cons_of_mem y hy')
      rw [privateVectorCmpLoop, h x List.mem_cons_self y List.mem_cons_self, Option.bind_some,
        lexCmp_cons, ih htail]
      split_ifs <;> rfl

theorem intOfSizes_eq {m n : ℕ} (hm : m < 2 ^ 31) (hn : n < 2 ^ 31) :
    intOfSizes m n = (m : ℤ) - n := by
  rw [intOfSizes]
  omega

/-- The comparison of two orderable values comes back. -/
theorem privateValueCmp_eq_some {a b : Value D} (ha : a.Orderable) (hb : b.Orderable) :
    privateValueCmp longDoubleCmp dictCmp a b = some (valueCmpResult longDoubleCmp dictCmp a b) := by
  suffices h : ∃ r, privateValueCmp longDoubleCmp dictCmp a b = some r by
    obtain ⟨r, hr⟩ := h
    rw [valueCmpResult, hr, Option.getD_some]
  induction ha generalizing b with
  | array xs _ _ ih =>
    cases hb with
    | array ys _ hys =>
      have helements : ∀ x ∈ xs, ∀ y ∈ ys, privateValueCmp longDoubleCmp dictCmp x y =
          some (valueCmpResult longDoubleCmp dictCmp x y) := by
        intro x hx y hy
        obtain ⟨r, hr⟩ := ih x hx (hys y hy)
        rw [valueCmpResult, hr, Option.getD_some]
      rw [privateValueCmp_array, privateVectorCmp, privateVectorCmpLoop_eq helements]
      split_ifs <;> exact ⟨_, rfl⟩
    | _ => exact ⟨_, rfl⟩
  | _ => cases hb <;> exact ⟨_, rfl⟩

/-- Arrays of orderable values are compared by their sizes first, then like their elements. -/
theorem valueCmpResult_array {xs ys : List (Value D)} (hxs : (Value.array xs).Orderable)
    (hys : (Value.array ys).Orderable) :
    valueCmpResult longDoubleCmp dictCmp (.array xs) (.array ys) =
      sizeLexCmp (valueCmpResult longDoubleCmp dictCmp) xs ys := by
  cases hxs with
  | array _ hxsize hxs =>
    cases hys with
    | array _ hysize hys =>
      rw [valueCmpResult, privateValueCmp_array, privateVectorCmp, privateVectorCmpLoop_eq
        (fun x hx y hy ↦ privateValueCmp_eq_some (hxs x hx) (hys y hy)),
        intOfSizes_eq hxsize hysize, sizeLexCmp]
      split_ifs <;> rfl

/-- The order at a value of some kind, given the order of the contents. -/
theorem totalAt_of_kind {γ : Type} {T : Set γ} {cmp : γ → γ → ℤ} {x : γ} {g : γ → Value D}
    (h : TotalAt T cmp x) (hx : x ∈ T) (hg : Function.Injective g) (hgx : (g x).Orderable)
    (hcmp : ∀ y ∈ T, ∀ z ∈ T, valueCmpResult longDoubleCmp dictCmp (g y) (g z) = cmp y z)
    (hkind : ∀ b : Value D, b.Orderable → b.tag = (g x).tag → b ∈ g '' T) :
    TotalAt {v | v.Orderable} (valueCmpResult longDoubleCmp dictCmp) (g x) :=
  .of_tag tag hgx (fun _ hb _ hc ↦ valueCmpResult_of_tag_ne hb hc)
    ((h.image hx hg hcmp).mono fun b hb ↦ hkind b hb.1 hb.2)

/-- **The order at one value**, given the order at its parts. -/
theorem totalAt_valueCmpResult {a : Value D} (ha : a.Orderable) :
    TotalAt {v | v.Orderable} (valueCmpResult longDoubleCmp dictCmp) a := by
  induction ha with
  | undefined =>
    have hunit : TotalAt Set.univ (fun _ _ : Unit ↦ (0 : ℤ)) () :=
      .of_linearOrder (f := id) Function.injective_id.injOn (by simp) (by simp) trivial
    refine totalAt_of_kind (g := fun _ ↦ Value.undefined) hunit trivial (fun _ _ _ ↦ rfl) .undefined
      (fun _ _ _ _ ↦ rfl) fun b hb htag ↦ ?_
    cases hb with
    | undefined => exact ⟨(), trivial, rfl⟩
    | _ => exact absurd htag (Nat.ne_of_beq_eq_false rfl)
  | constantChar s =>
    refine totalAt_of_kind (totalAt_privateStrCmp s) trivial (fun _ _ ↦ Value.constantChar.inj)
      (.constantChar s) (fun _ _ _ _ ↦ rfl) fun b hb htag ↦ ?_
    cases hb with
    | constantChar t => exact ⟨t, trivial, rfl⟩
    | _ => exact absurd htag (Nat.ne_of_beq_eq_false rfl)
  | sds s =>
    refine totalAt_of_kind (totalAt_sdsCmp s) trivial (fun _ _ ↦ Value.sds.inj) (.sds s)
      (fun _ _ _ _ ↦ rfl) fun b hb htag ↦ ?_
    cases hb with
    | sds t => exact ⟨t, trivial, rfl⟩
    | _ => exact absurd htag (Nat.ne_of_beq_eq_false rfl)
  | int l =>
    refine totalAt_of_kind (totalAt_privateInt64Cmp l) trivial (fun _ _ ↦ Value.int.inj) (.int l)
      (fun _ _ _ _ ↦ rfl) fun b hb htag ↦ ?_
    cases hb with
    | int m => exact ⟨m, trivial, rfl⟩
    | _ => exact absurd htag (Nat.ne_of_beq_eq_false rfl)
  | uint l =>
    refine totalAt_of_kind (totalAt_privateUint64Cmp l) trivial (fun _ _ ↦ Value.uint.inj) (.uint l)
      (fun _ _ _ _ ↦ rfl) fun b hb htag ↦ ?_
    cases hb with
    | uint m => exact ⟨m, trivial, rfl⟩
    | _ => exact absurd htag (Nat.ne_of_beq_eq_false rfl)
  | boolean x =>
    refine totalAt_of_kind (totalAt_boolCmp x) trivial (fun _ _ ↦ Value.boolean.inj) (.boolean x)
      (fun _ _ _ _ ↦ rfl) fun b hb htag ↦ ?_
    cases hb with
    | boolean y => exact ⟨y, trivial, rfl⟩
    | _ => exact absurd htag (Nat.ne_of_beq_eq_false rfl)
  | array xs hsize hxs ih =>
    have hsequence : TotalAt {ys | (Value.array ys).Orderable}
        (sizeLexCmp (valueCmpResult longDoubleCmp dictCmp)) xs := by
      refine (totalAt_sizeLexCmp ih).mono fun ys hys ↦ ?_
      cases hys with
      | array _ _ h => exact h
    refine totalAt_of_kind hsequence (.array xs hsize hxs) (fun _ _ ↦ Value.array.inj)
      (.array xs hsize hxs) (fun ys hys zs hzs ↦ valueCmpResult_array hys hzs) fun b hb htag ↦ ?_
    cases hb with
    | array ys hysize hys => exact ⟨ys, .array ys hysize hys, rfl⟩
    | _ => exact absurd htag (Nat.ne_of_beq_eq_false rfl)

end ValueCmp

/-- **`value_cmp` is a total order** on the values that are built from the empty value, numbers, booleans,
strings and arrays, whatever it makes of the others: it comes back with a result, which is 0 on equal
values only, changes its sign with the order of the arguments and is transitive. -/
theorem value_cmp_total_order (longDoubleCmp : D → D → ℤ)
    (dictCmp : List (List UInt8 × Value D) → List (List UInt8 × Value D) → ℤ) :
    ∃ cmp : Value D → Value D → ℤ,
      (∀ a b, a.Orderable → b.Orderable →
        privateValueCmp longDoubleCmp dictCmp a b = some (cmp a b)) ∧
      TotalOn {v | v.Orderable} cmp :=
  ⟨valueCmpResult longDoubleCmp dictCmp, fun _ _ ha hb ↦ privateValueCmp_eq_some ha hb,
    .of_totalAt fun _ ha ↦ totalAt_valueCmpResult ha⟩

end LatteC
