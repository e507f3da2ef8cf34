import Mathlib.Algebra.Order.Ring.Int
import Mathlib.Data.Int.Order.Basic
import Mathlib.Data.Set.Basic
import Mathlib.Tactic.SplitIfs

/-!
# Three-way comparisons

A comparison in the manner of C returns a negative number, zero or a positive number. It is a total order if
the sign turns round with the arguments, zero means equality, and the negative results are transitive.

For a recursive type the order is proved at one value after the other: what is known of the parts of a
value gives what is to be known of the value, whatever it is compared with.
-/

namespace ThreeWay

variable {α β : Type*}

/-- The comparison is a total order as far as `a` is compared with members of `S`. -/
structure TotalAt (S : Set α) (cmp : α → α → ℤ) (a : α) : Prop where
  eq_zero_iff : ∀ b ∈ S, cmp a b = 0 ↔ a = b
  pos_iff : ∀ b ∈ S, 0 < cmp b a ↔ cmp a b < 0
  neg_iff : ∀ b ∈ S, cmp b a < 0 ↔ 0 < cmp a b
  trans : ∀ b ∈ S, ∀ c ∈ S, cmp a b < 0 → cmp b c ≤ 0 → cmp a c < 0

/-- The comparison is a total order on `S`. -/
structure TotalOn (S : Set α) (cmp : α → α → ℤ) : Prop where
  refl : ∀ a ∈ S, cmp a a = 0
  antisymm : ∀ a ∈ S, ∀ b ∈ S, (cmp b a).sign = -(cmp a b).sign
  trans : ∀ a ∈ S, ∀ b ∈ S, ∀ c ∈ S, cmp a b ≤ 0 → cmp b c ≤ 0 → cmp a c ≤ 0
  eq_zero_iff : ∀ a ∈ S, ∀ b ∈ S, cmp a b = 0 ↔ a = b

theorem TotalAt.mono {S T : Set α} {cmp : α → α → ℤ} {a : α} (h : TotalAt T cmp a) (hST : S ⊆ T) :
    TotalAt S cmp a where
  eq_zero_iff b hb := h.eq_zero_iff b (hST hb)
  pos_iff b hb := h.pos_iff b (hST hb)
  neg_iff b hb := h.neg_iff b (hST hb)
  trans b hb c hc := h.trans b (hST hb) c (hST hc)

/-- A comparison of values that are built from the values of another one. -/
theorem TotalAt.image {T : Set β} {cmp : α → α → ℤ} {cmp' : β → β → ℤ} {g : β → α} {x : β}
    (h : TotalAt T cmp' x) (hx : x ∈ T) (hg : Function.Injective g)
    (hcmp : ∀ y ∈ T, ∀ z ∈ T, cmp (g y) (g z) = cmp' y z) : TotalAt (g '' T) cmp (g x) where
  eq_zero_iff b hb := by
    obtain ⟨y, hy, rfl⟩ := hb
    rw [hcmp x hx y hy, h.eq_zero_iff y hy, hg.eq_iff]
  pos_iff b hb := by
    obtain ⟨y, hy, rfl⟩ := hb
    rw [hcmp x hx y hy, hcmp y hy x hx, h.pos_iff y hy]
  neg_iff b hb := by
    obtain ⟨y, hy, rfl⟩ := hb
    rw [hcmp x hx y hy, hcmp y hy x hx, h.neg_iff y hy]
  trans b hb c hc := by
    obtain ⟨y, hy, rfl⟩ := hb
    obtain ⟨z, hz, rfl⟩ := hc
    rw [hcmp x hx y hy, hcmp y hy z hz, hcmp x hx z hz]
    exact h.trans y hy z hz

/-- **A comparison that is total at every member of a set** is a total order on it. -/
theorem TotalOn.of_totalAt {S : Set α} {cmp : α → α → ℤ} (h : ∀ a ∈ S, TotalAt S cmp a) :
    TotalOn S cmp where
  refl a ha := ((h a ha).eq_zero_iff a ha).mpr rfl
  antisymm a ha b hb := by
    have hpos := (h a ha).pos_iff b hb
    have hneg := (h a ha).neg_iff b hb
    obtain hlt | heq | hgt := lt_trichotomy (cmp a b) 0
    · rw [Int.sign_eq_neg_one_of_neg hlt, Int.sign_eq_one_of_pos (hpos.mpr hlt)]
      rfl
    · have hzero : cmp b a = 0 := by omega
      rw [heq, hzero]
      rfl
    · rw [Int.sign_eq_one_of_pos hgt, Int.sign_eq_neg_one_of_neg (hneg.mpr hgt)]
  trans a ha b hb c hc hab hbc := by
    obtain hab | hab := hab.lt_or_eq
    · exact ((h a ha).trans b hb c hc hab hbc).le
    · rwa [((h a ha).eq_zero_iff b hb).mp hab]
  eq_zero_iff a ha := (h a ha).eq_zero_iff

/-- A comparison that follows a linear order. -/
theorem TotalAt.of_linearOrder [LinearOrder β] {S : Set α} {cmp : α → α → ℤ} {f : α → β}
    (hf : Set.InjOn f S) (hneg : ∀ a ∈ S, ∀ b ∈ S, cmp a b < 0 ↔ f a < f b)
    (hpos : ∀ a ∈ S, ∀ b ∈ S, 0 < cmp a b ↔ f b < f a) {a : α} (ha : a ∈ S) : TotalAt S cmp a where
  eq_zero_iff b hb := by
    have hn := hneg a ha b hb
    have hp := hpos a ha b hb
    constructor
    · intro hzero
      rw [hzero] at hn hp
      exact hf ha hb (le_antisymm (not_lt.mp fun hlt ↦ lt_irrefl 0 (hp.mpr hlt))
        (not_lt.mp fun hlt ↦ lt_irrefl 0 (hn.mpr hlt)))
    · rintro rfl
      have hn' := mt hn.mp (lt_irrefl (f a))
      have hp' := mt hp.mp (lt_irrefl (f a))
      omega
  pos_iff b hb := by rw [hpos b hb a ha, hneg a ha b hb]
  neg_iff b hb := by rw [hneg b hb a ha, hpos a ha b hb]
  trans b hb c hc hab hbc := by
    rw [hneg a ha c hc]
    have hle : f b ≤ f c := not_lt.mp fun hlt ↦ absurd ((hpos b hb c hc).mpr hlt) (not_lt.mpr hbc)
    exact ((hneg a ha b hb).mp hab).trans_le hle

/-- **Values with tags** that are compared by the tag first. -/
theorem TotalAt.of_tag {S : Set α} {cmp : α → α → ℤ} {a : α} (tag : α → ℕ) (ha : a ∈ S)
    (htag : ∀ b ∈ S, ∀ c ∈ S, tag b ≠ tag c → cmp b c = (tag b : ℤ) - tag c)
    (h : TotalAt {b | b ∈ S ∧ tag b = tag a} cmp a) : TotalAt S cmp a where
  eq_zero_iff b hb := by
    by_cases hab : tag b = tag a
    · exact h.eq_zero_iff b ⟨hb, hab⟩
    · rw [htag a ha b hb (Ne.symm hab)]
      refine iff_of_false (by omega) ?_
      rintro rfl
      exact hab rfl
  pos_iff b hb := by
    by_cases hab : tag b = tag a
    · exact h.pos_iff b ⟨hb, hab⟩
    · rw [htag a ha b hb (Ne.symm hab), htag b hb a ha hab]
      omega
  neg_iff b hb := by
    by_cases hab : tag b = tag a
    · exact h.neg_iff b ⟨hb, hab⟩
    · rw [htag a ha b hb (Ne.symm hab), htag b hb a ha hab]
      omega
  trans b hb c hc hlt hle := by
    by_cases hab : tag b = tag a
    · by_cases hac : tag c = tag a
      · exact h.trans b ⟨hb, hab⟩ c ⟨hc, hac⟩ hlt hle
      · rw [htag b hb c hc (by omega)] at hle
        rw [htag a ha c hc (by omega)]
        omega
    · rw [htag a ha b hb (by omega)] at hlt
      have hbc : tag b ≤ tag c := by
        by_contra hgt
        rw [htag b hb c hc (by omega)] at hle
        omega
      rw [htag a ha c hc (by omega)]
      omega

/-! ## Sequences -/

/-- Compare element by element, up to the first difference or the end of one of the sequences. -/
def lexCmp (cmp : α → α → ℤ) : List α → List α → ℤ
  | x :: xs, y :: ys => if cmp x y ≠ 0 then cmp x y else lexCmp cmp xs ys
  | _, _ => 0

/-- Compare the lengths, and only on equal lengths the elements. -/
def sizeLexCmp (cmp : α → α → ℤ) (xs ys : List α) : ℤ :=
  if xs.length ≠ ys.length then (xs.length : ℤ) - ys.length else lexCmp cmp xs ys

section Lists

variable {S : Set α} {cmp : α → α → ℤ}

theorem lexCmp_cons (x y : α) (xs ys : List α) :
    lexCmp cmp (x :: xs) (y :: ys) = if cmp x y ≠ 0 then cmp x y else lexCmp cmp xs ys := rfl

/-- The sequences of `n` members of `S`. -/
def Tuples (S : Set α) (n : ℕ) : Set (List α) := {ys | ys.length = n ∧ ∀ y ∈ ys, y ∈ S}

theorem Tuples.eq_nil {ys : List α} (h : ys ∈ Tuples S 0) : ys = [] :=
  List.length_eq_zero_iff.mp h.1

theorem Tuples.eq_cons {n : ℕ} {ys : List α} (h : ys ∈ Tuples S (n + 1)) :
    ∃ y ∈ S, ∃ ys' ∈ Tuples S n, ys = y :: ys' := by
  obtain ⟨hlen, hmem⟩ := h
  obtain ⟨y, ys', rfl⟩ := List.exists_cons_of_length_eq_add_one hlen
  rw [List.forall_mem_cons] at hmem
  exact ⟨y, hmem.1, ys', ⟨Nat.succ.inj hlen, hmem.2⟩, rfl⟩

/-- Sequences of one length are compared like their elements. -/
theorem totalAt_lexCmp {xs : List α} (h : ∀ x ∈ xs, TotalAt S cmp x) :
    TotalAt (Tuples S xs.length) (lexCmp cmp) xs := by
  induction xs with
  | nil =>
    refine ⟨fun ys hys ↦ ?_, fun ys hys ↦ ?_, fun ys hys ↦ ?_, fun ys hys zs hzs hlt ↦ ?_⟩
    · rw [Tuples.eq_nil hys]
      exact iff_of_true rfl rfl
    · rw [Tuples.eq_nil hys]
      exact iff_of_false (lt_irrefl 0) (lt_irrefl 0)
    · rw [Tuples.eq_nil hys]
      exact iff_of_false (lt_irrefl 0) (lt_irrefl 0)
    · rw [Tuples.eq_nil hys] at hlt
      exact absurd hlt (lt_irrefl 0)
  | cons x xs ih =>
    rw [List.forall_mem_cons] at h
    obtain ⟨hx, hxs⟩ := h
    have htail := ih hxs
    refine ⟨fun ys hys ↦ ?_, fun ys hys ↦ ?_, fun ys hys ↦ ?_, fun ys hys zs hzs hlt hlt' ↦ ?_⟩
    · obtain ⟨y, hy, ys, hys', rfl⟩ := Tuples.eq_cons hys
      rw [lexCmp_cons, List.cons.injEq, ← hx.eq_zero_iff y hy, ← htail.eq_zero_iff ys hys']
      by_cases hzero : cmp x y = 0
      · rw [if_neg (not_not_intro hzero), and_iff_right hzero]
      · rw [if_pos hzero]
        exact iff_of_false hzero fun hboth ↦ hzero hboth.1
    · obtain ⟨y, hy, ys, hys', rfl⟩ := Tuples.eq_cons hys
      have hpos := hx.pos_iff y hy
      have hneg := hx.neg_iff y hy
      rw [lexCmp_cons, lexCmp_cons]
      by_cases hzero : cmp x y = 0
      · rw [if_neg (not_not_intro hzero), if_neg (by omega), htail.pos_iff ys hys']
      · rw [if_pos hzero, if_pos (by omega), hpos]
    · obtain ⟨y, hy, ys, hys', rfl⟩ := Tuples.eq_cons hys
      have hpos := hx.pos_iff y hy
      have hneg := hx.neg_iff y hy
      rw [lexCmp_cons, lexCmp_cons]
      by_cases hzero : cmp x y = 0
      · rw [if_neg (not_not_intro hzero), if_neg (by omega), htail.neg_iff ys hys']
      · rw [if_pos hzero, if_pos (by omega), hneg]
    · obtain ⟨y, hy, ys, hys', rfl⟩ := Tuples.eq_cons hys
      obtain ⟨z, hz, zs, hzs', rfl⟩ := Tuples.eq_cons hzs
      rw [lexCmp_cons] at hlt hlt' ⊢
      by_cases hxy : cmp x y = 0
      · -- the first elements of the first two are the same
        rw [if_neg (not_not_intro hxy)] at hlt
        rw [← (hx.eq_zero_iff y hy).mp hxy] at hlt'
        by_cases hxz : cmp x z = 0
        · rw [if_neg (not_not_intro hxz)] at hlt' ⊢
          exact htail.trans ys hys' zs hzs' hlt hlt'
        · rw [if_pos hxz] at hlt' ⊢
          exact lt_of_le_of_ne hlt' hxz
      · rw [if_pos hxy] at hlt
        have hyz : cmp y z ≤ 0 := by
          by_cases hzero : cmp y z = 0
          · exact hzero.le
          · rwa [if_pos hzero] at hlt'
        have hxz := hx.trans y hy z hz hlt hyz
        rwa [if_pos hxz.ne]

/-- **Sequences are compared by length first**, then like their elements. -/
theorem totalAt_sizeLexCmp {xs : List α} (h : ∀ x ∈ xs, TotalAt S cmp x) :
    TotalAt {ys | ∀ y ∈ ys, y ∈ S} (sizeLexCmp cmp) xs := by
  have hlex := totalAt_lexCmp h
  have hmem : ∀ ys : List α, (∀ y ∈ ys, y ∈ S) → xs.length = ys.length →
      ys ∈ Tuples S xs.length := fun ys hys hlen ↦ ⟨hlen.symm, hys⟩
  have hlt_iff : ∀ ys : List α, (sizeLexCmp cmp xs ys < 0 ↔ xs.length < ys.length ∨
      xs.length = ys.length ∧ lexCmp cmp xs ys < 0) := by
    intro ys
    rw [sizeLexCmp]
    split_ifs with hlen <;> omega
  refine ⟨fun ys hys ↦ ?_, fun ys hys ↦ ?_, fun ys hys ↦ ?_, fun ys hys zs hzs hlt hlt' ↦ ?_⟩
  · rw [sizeLexCmp]
    by_cases hlen : xs.length = ys.length
    · rw [if_neg (not_not_intro hlen), hlex.eq_zero_iff ys (hmem ys hys hlen)]
    · rw [if_pos hlen]
      refine iff_of_false (by omega) ?_
      rintro rfl
      exact hlen rfl
  · rw [sizeLexCmp, sizeLexCmp]
    by_cases hlen : xs.length = ys.length
    · rw [if_neg (not_not_intro hlen), if_neg (not_not_intro hlen.symm),
        hlex.pos_iff ys (hmem ys hys hlen)]
    · rw [if_pos hlen, if_pos (Ne.symm hlen)]
      omega
  · rw [sizeLexCmp, sizeLexCmp]
    by_cases hlen : xs.length = ys.length
    · rw [if_neg (not_not_intro hlen), if_neg (not_not_intro hlen.symm),
        hlex.neg_iff ys (hmem ys hys hlen)]
    · rw [if_pos hlen, if_pos (Ne.symm hlen)]
      omega
  · rw [hlt_iff] at hlt ⊢
    rw [sizeLexCmp] at hlt'
    by_cases hlen : ys.length = zs.length
    · rw [if_neg (not_not_intro hlen)] at hlt'
      obtain hlt | ⟨heq, hlt⟩ := hlt
      · exact .inl (by omega)
      · exact .inr ⟨heq.trans hlen, hlex.trans ys (hmem ys hys heq) zs
          (hmem zs hzs (heq.trans hlen)) hlt hlt'⟩
    · rw [if_pos hlen] at hlt'
      exact .inl (by omega)

end Lists

end ThreeWay
