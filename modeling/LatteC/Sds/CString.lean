import LatteC.Sds.Basic

/-!
# C strings

The comparisons of `string.h` and `strings.h`, on strings with the terminating NUL left out. A string may
have a NUL of its own, as an `sds` can: both comparisons end there.
-/

namespace LatteC

/-- `tolower`, in the C locale. -/
def tolower (c : UInt8) : UInt8 := if 'A'.toUInt8 ≤ c ∧ c ≤ 'Z'.toUInt8 then c + 32 else c

/-- The comparison that `strcmp` and `strcasecmp` share: the difference of the first two characters that
differ after folding, the end of a string being a NUL. -/
def strcmpBy (fold : UInt8 → UInt8) : List UInt8 → List UInt8 → ℤ
  | x :: xs, y :: ys =>
    if fold x ≠ fold y ∨ x = 0 then (fold x).toNat - (fold y).toNat else strcmpBy fold xs ys
  | x :: _, [] => (fold x).toNat - (fold 0).toNat
  | [], y :: _ => (fold 0).toNat - (fold y).toNat
  | [], [] => 0

/-- `strcmp`. -/
def strcmp (s t : List UInt8) : ℤ := strcmpBy id s t

/-- `strcasecmp`, in the C locale. -/
def strcasecmp (s t : List UInt8) : ℤ := strcmpBy tolower s t

/-- A folding that keeps the terminator apart from all other characters. -/
def KeepsNul (fold : UInt8 → UInt8) : Prop := fold 0 = 0 ∧ ∀ c, fold c = 0 → c = 0

theorem keepsNul_id : KeepsNul id := ⟨rfl, fun _ h ↦ h⟩

theorem tolower_eq_zero {c : UInt8} (h : tolower c = 0) : c = 0 := by
  rw [tolower] at h
  split_ifs at h with hupper
  · have hle : c ≤ 90 := hupper.2
    have hnat : (c + 32).toNat = 0 := by rw [h]; rfl
    rw [UInt8.toNat_add] at hnat
    have hbound : c.toNat ≤ 90 := UInt8.le_iff_toNat_le.mp hle
    change (c.toNat + 32) % 256 = 0 at hnat
    omega
  · exact h

theorem keepsNul_tolower : KeepsNul tolower := ⟨rfl, fun _ ↦ tolower_eq_zero⟩

@[simp] theorem cString_nil : cString [] = [] := rfl

@[simp] theorem cString_zero_cons (s : List UInt8) : cString (0 :: s) = [] := rfl

theorem cString_cons {c : UInt8} (hc : c ≠ 0) (s : List UInt8) :
    cString (c :: s) = c :: cString s := by
  rw [cString, List.takeWhile_cons, if_pos (decide_eq_true hc), ← cString]

theorem cString_append_of_notMem {s : List UInt8} (h : 0 ∉ s) (t : List UInt8) :
    cString (s ++ t) = s ++ cString t :=
  List.takeWhile_append_of_pos fun _ hc ↦ decide_eq_true fun h0 ↦ h (h0 ▸ hc)

theorem cString_append_of_mem {s : List UInt8} (h : 0 ∈ s) (t : List UInt8) :
    cString (s ++ t) = cString s := by
  induction s with
  | nil => exact absurd h List.not_mem_nil
  | cons c s ih =>
    by_cases hc : c = 0
    · rw [hc]
      rfl
    · have hs : 0 ∈ s := (List.mem_cons.mp h).resolve_left (Ne.symm hc)
      rw [List.cons_append, cString_cons hc, cString_cons hc, ih hs]

theorem toNat_sub_toNat_eq_zero_iff (x y : UInt8) : (x.toNat : ℤ) - y.toNat = 0 ↔ x = y := by
  rw [← UInt8.toNat_inj]
  omega

section Fold

variable {fold : UInt8 → UInt8} (hfold : KeepsNul fold)

include hfold

/-- **The comparison is 0** on strings that are the same up to their first NUL, after folding. -/
theorem strcmpBy_eq_zero_iff (s t : List UInt8) :
    strcmpBy fold s t = 0 ↔ (cString s).map fold = (cString t).map fold := by
  induction s generalizing t with
  | nil =>
    cases t with
    | nil => exact iff_of_true rfl rfl
    | cons y ys =>
      rw [strcmpBy, toNat_sub_toNat_eq_zero_iff, hfold.1]
      by_cases hy : y = 0
      · subst hy
        exact iff_of_true hfold.1.symm rfl
      · rw [cString_cons hy]
        exact iff_of_false (fun h ↦ hy (hfold.2 y h.symm)) (by simp)
  | cons x xs ih =>
    cases t with
    | nil =>
      rw [strcmpBy, toNat_sub_toNat_eq_zero_iff, hfold.1]
      by_cases hx : x = 0
      · subst hx
        exact iff_of_true hfold.1 rfl
      · rw [cString_cons hx]
        exact iff_of_false (fun h ↦ hx (hfold.2 x h)) (by simp)
    | cons y ys =>
      rw [strcmpBy]
      by_cases hx : x = 0
      · subst hx
        rw [if_pos (Or.inr rfl), toNat_sub_toNat_eq_zero_iff, hfold.1, cString_zero_cons]
        by_cases hy : y = 0
        · subst hy
          exact iff_of_true hfold.1.symm rfl
        · rw [cString_cons hy]
          exact iff_of_false (fun h ↦ hy (hfold.2 y h.symm)) (by simp)
      · by_cases hy : y = 0
        · subst hy
          rw [if_pos (Or.inl (by rw [hfold.1]; exact fun h ↦ hx (hfold.2 x h))),
            toNat_sub_toNat_eq_zero_iff, hfold.1, cString_zero_cons, cString_cons hx]
          exact iff_of_false (fun h ↦ hx (hfold.2 x h)) (by simp)
        · rw [cString_cons hx, cString_cons hy, List.map_cons, List.map_cons, List.cons.injEq]
          by_cases hxy : fold x = fold y
          · rw [if_neg (not_or.mpr ⟨not_not_intro hxy, hx⟩), ih, and_iff_right hxy]
          · rw [if_pos (Or.inl hxy), toNat_sub_toNat_eq_zero_iff]
            exact iff_of_false hxy fun h ↦ hxy h.1

/-- The comparison the other way round has the other sign. -/
theorem strcmpBy_swap (s t : List UInt8) : strcmpBy fold t s = -strcmpBy fold s t := by
  induction s generalizing t with
  | nil =>
    cases t with
    | nil => rfl
    | cons y ys => rw [strcmpBy, strcmpBy, neg_sub]
  | cons x xs ih =>
    cases t with
    | nil => rw [strcmpBy, strcmpBy, neg_sub]
    | cons y ys =>
      rw [strcmpBy, strcmpBy]
      by_cases hxy : fold x = fold y
      · by_cases hx : x = 0
        · have hy : y = 0 := hfold.2 y (by rw [← hxy, hx, hfold.1])
          rw [if_pos (Or.inr hx), if_pos (Or.inr hy), neg_sub]
        · have hy : y ≠ 0 := by
            intro hy
            exact hx (hfold.2 x (by rw [hxy, hy, hfold.1]))
          rw [if_neg (not_or.mpr ⟨not_not_intro hxy, hx⟩),
            if_neg (not_or.mpr ⟨not_not_intro hxy.symm, hy⟩), ih]
      · rw [if_pos (Or.inl hxy), if_pos (Or.inl (Ne.symm hxy)), neg_sub]

end Fold

/-- A C string, as the bytes before its terminator. -/
@[ext] structure CString where
  bytes : List UInt8
  nul_free : 0 ∉ bytes

instance : DecidableEq CString := fun s t ↦ decidable_of_iff (s.bytes = t.bytes) CString.ext_iff.symm

/-- **`strcmp` orders C strings** by their bytes. -/
theorem strcmp_neg_iff {s t : List UInt8} (hs : 0 ∉ s) (ht : 0 ∉ t) :
    strcmp s t < 0 ↔ sdsBytes s < sdsBytes t := by
  unfold strcmp
  induction s generalizing t with
  | nil =>
    cases t with
    | nil => simp [strcmpBy, sdsBytes]
    | cons y ys =>
      have hy : (0 : UInt8).toNat ≠ y.toNat :=
        fun h ↦ ht (List.mem_cons.mpr (Or.inl (UInt8.toNat_inj.mp h)))
      have hzero : (0 : UInt8).toNat = 0 := rfl
      refine iff_of_true ?_ (by simp [sdsBytes])
      rw [strcmpBy, id, id]
      omega
  | cons x xs ih =>
    rw [List.mem_cons, not_or] at hs
    cases t with
    | nil =>
      have hzero : (0 : UInt8).toNat = 0 := rfl
      refine iff_of_false ?_ (by simp [sdsBytes])
      rw [strcmpBy, id, id]
      omega
    | cons y ys =>
      rw [List.mem_cons, not_or] at ht
      rw [strcmpBy, sdsBytes, sdsBytes, List.map_cons, List.map_cons, List.cons_lt_cons_iff, id, id]
      by_cases hxy : x = y
      · subst hxy
        rw [if_neg (not_or.mpr ⟨not_not_intro rfl, Ne.symm hs.1⟩), ih hs.2 ht.2]
        simp [sdsBytes]
      · have hne : x.toNat ≠ y.toNat := fun heq ↦ hxy (UInt8.toNat_inj.mp heq)
        rw [if_pos (Or.inl hxy)]
        constructor
        · intro hlt
          exact Or.inl (by omega)
        · rintro (hlt | ⟨heq, -⟩)
          · omega
          · exact absurd heq hne

theorem strcmp_pos_iff {s t : List UInt8} (hs : 0 ∉ s) (ht : 0 ∉ t) :
    0 < strcmp s t ↔ sdsBytes t < sdsBytes s := by
  rw [← strcmp_neg_iff ht hs, strcmp, strcmp, strcmpBy_swap keepsNul_id s t]
  omega

end LatteC
