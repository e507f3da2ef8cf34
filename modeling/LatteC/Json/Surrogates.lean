import LatteC.Foundation.Bits
import LatteC.Json.DuplicateNames

/-!
# Surrogate pairs in member names

The code of a pair is checked for a surrogate again after it has been put together, with a mask that leaves
out its high bits. So a pair whose code looks like a surrogate in its last sixteen bits is not decoded; all
other names come out as UTF-8, with U+FFFD for surrogates that stand alone.
-/

namespace LatteC

open Bits StepMachine

/-! ## UTF-8 -/

/-- The bytes of a code point. -/
def utf8Bytes (code : ℕ) : List UInt8 := String.utf8EncodeChar (Char.ofNat code)

/-- A code point that is no surrogate. -/
def IsScalar (code : ℕ) : Prop := code < 0xD800 ∨ 0xDFFF < code ∧ code < 0x110000

theorem toNat_val_ofNat {code : ℕ} (h : IsScalar code) : (Char.ofNat code).val.toNat = code := by
  have hvalid : code.isValidChar := h
  rw [Char.ofNat, dif_pos hvalid]
  rfl

/-- What is masked out of a code to tell surrogates. -/
theorem and_fc00 (u : ℕ) : u &&& 0xFC00 = u / 1024 % 64 * 1024 := by
  have hmask : 0xFC00 = (2 ^ 6 - 1) * 2 ^ 10 := rfl
  have hdiv : u / 1024 % 64 * 1024 = u / 2 ^ 10 % 2 ^ 6 * 2 ^ 10 := rfl
  rw [hmask, hdiv]
  refine Nat.eq_of_testBit_eq fun i ↦ ?_
  rw [Nat.testBit_and, Nat.testBit_mul_two_pow, Nat.testBit_mul_two_pow, Nat.testBit_mod_two_pow,
    Nat.testBit_div_two_pow, Nat.testBit_two_pow_sub_one]
  by_cases hi : 10 ≤ i
  · rw [Nat.sub_add_cancel hi]
    simp only [hi, decide_true, Bool.true_and, Bool.and_comm]
  · simp [hi]

theorem isHighSurrogate_iff (u : ℕ) : isHighSurrogate u = true ↔ u / 1024 % 64 = 54 := by
  rw [isHighSurrogate, decide_eq_true_iff, and_fc00]
  omega

theorem isLowSurrogate_iff (u : ℕ) : isLowSurrogate u = true ↔ u / 1024 % 64 = 55 := by
  rw [isLowSurrogate, decide_eq_true_iff, and_fc00]
  omega

theorem decodeSurrogatePair_eq (hi lo : ℕ) :
    decodeSurrogatePair hi lo = 0x10000 + hi % 1024 * 1024 + lo % 1024 := by
  have hhi : hi &&& 0x3FF = hi % 1024 := and_mask hi 10
  have hlo : lo &&& 0x3FF = lo % 1024 := and_mask lo 10
  rw [decodeSurrogatePair, hhi, hlo, Nat.shiftLeft_eq]
  omega

/-- A code point that is not taken for a surrogate is encoded. -/
theorem unescapedUtf_eq {u : ℕ} (h : u / 1024 % 64 ≠ 55) (hscalar : IsScalar u) :
    unescapedUtf u = utf8Bytes u := by
  have hlow : ¬isLowSurrogate u = true := fun hlow ↦ h ((isLowSurrogate_iff u).mp hlow)
  have hmax : u < 0x110000 := by
    obtain hlt | hlt := hscalar <;> omega
  have hsix : ∀ x : ℕ, 0x80 ||| x &&& 0x3f = x % 0x40 + 0x80 := by
    intro x
    have hmask : x &&& 0x3f = x % 2 ^ 6 := and_mask x 6
    rw [hmask]
    exact or_eq_add (n := 6) rfl (Nat.mod_lt _ (by decide))
  rw [unescapedUtf, utf8Bytes, String.utf8EncodeChar, toNat_val_ofNat hscalar]
  simp only [hsix, Nat.shiftRight_eq_div_pow, hlow, hmax, if_true]
  by_cases h1 : u < 0x80
  · rw [if_pos h1, if_pos (Nat.le_of_lt_succ h1)]
  have h1' : ¬u ≤ 0x7f := by omega
  rw [if_neg h1, if_neg h1']
  by_cases h2 : u < 0x800
  · have hhead : 0xc0 ||| u / 2 ^ 6 = u / 64 % 32 + 0xc0 := by
      rw [or_eq_add (n := 5) rfl (by omega)]
      omega
    rw [if_pos h2, if_pos (Nat.le_of_lt_succ h2), hhead]
  have h2' : ¬u ≤ 0x7ff := by omega
  rw [if_neg h2, if_neg h2', if_neg Bool.false_ne_true]
  by_cases h3 : u < 0x10000
  · have hhead : 0xe0 ||| u / 2 ^ 12 = u / 4096 % 16 + 0xe0 := by
      rw [or_eq_add (n := 5) rfl (by omega)]
      omega
    rw [if_pos h3, if_pos (Nat.le_of_lt_succ h3), hhead]
  · have h3' : ¬u ≤ 0xffff := by omega
    have hmask : u / 2 ^ 18 &&& 0x07 = u / 2 ^ 18 % 2 ^ 3 := and_mask _ 3
    have hhead : 0xf0 ||| u / 2 ^ 18 &&& 0x07 = u / 262144 % 8 + 0xf0 := by
      rw [hmask]
      exact or_eq_add (n := 3) rfl (Nat.mod_lt _ (by decide))
    rw [if_neg h3, if_neg h3', hhead]

theorem utf8ReplacementChar_eq : utf8ReplacementChar = utf8Bytes 0xFFFD := rfl

theorem unescapedUtf_of_low {u : ℕ} (hlarge : 0x800 ≤ u) (h : u / 1024 % 64 = 55) :
    unescapedUtf u = utf8Bytes 0xFFFD := by
  rw [unescapedUtf, if_neg (by omega), if_neg (by omega), if_pos ((isLowSurrogate_iff u).mpr h)]
  rfl

/-- Bytes that start with a code point start with no other. -/
theorem eq_of_utf8Bytes_append {a b : ℕ} (ha : IsScalar a) (hb : IsScalar b) {s t : List UInt8}
    (h : utf8Bytes a ++ s = utf8Bytes b ++ t) : a = b := by
  have hdecode : ∀ (c : Char) (x : List UInt8),
      ((String.utf8EncodeChar c ++ x).toByteArray).utf8DecodeChar? 0 = some c := by
    intro c x
    rw [List.toByteArray_append]
    exact ByteArray.utf8DecodeChar?_utf8EncodeChar_append
  have hchar := hdecode (Char.ofNat a) s
  rw [utf8Bytes, utf8Bytes] at h
  rw [h, hdecode] at hchar
  rw [← toNat_val_ofNat ha, ← toNat_val_ofNat hb, Option.some.inj hchar]

/-! ## Surrogates -/

def IsHighCode (code : ℕ) : Prop := 0xD800 ≤ code ∧ code < 0xDC00

def IsLowCode (code : ℕ) : Prop := 0xDC00 ≤ code ∧ code < 0xE000

instance (code : ℕ) : Decidable (IsHighCode code) := inferInstanceAs (Decidable (_ ∧ _))

instance (code : ℕ) : Decidable (IsLowCode code) := inferInstanceAs (Decidable (_ ∧ _))

/-- The code point of a pair of surrogates. -/
def pairCode (hi lo : ℕ) : ℕ := 0x10000 + (hi - 0xD800) * 0x400 + (lo - 0xDC00)

/-- The bytes of a code that belongs to no pair. -/
def singleBytes (code : ℕ) : List UInt8 :=
  if IsHighCode code ∨ IsLowCode code then utf8Bytes 0xFFFD else utf8Bytes code

/-- A name as UTF-8: pairs of surrogates are taken together, others are replaced by U+FFFD. -/
def unicodeBytes : List JsonChar → List UInt8
  | [] => []
  | .plain c :: cs => c.1 :: unicodeBytes cs
  | .escape e :: cs => e.byte :: unicodeBytes cs
  | .unicode a₃ a₂ a₁ a₀ :: .unicode b₃ b₂ b₁ b₀ :: cs =>
    let hi := hexCode a₃ a₂ a₁ a₀
    let lo := hexCode b₃ b₂ b₁ b₀
    if IsHighCode hi ∧ IsLowCode lo then utf8Bytes (pairCode hi lo) ++ unicodeBytes cs
    else singleBytes hi ++ unicodeBytes (.unicode b₃ b₂ b₁ b₀ :: cs)
  | .unicode a₃ a₂ a₁ a₀ :: cs => singleBytes (hexCode a₃ a₂ a₁ a₀) ++ unicodeBytes cs

/-- A pair of surrogates whose code point ends like a surrogate in its last sixteen bits. -/
def BadPair : JsonChar → JsonChar → Prop
  | .unicode a₃ a₂ a₁ a₀, .unicode b₃ b₂ b₁ b₀ =>
    let hi := hexCode a₃ a₂ a₁ a₀
    let lo := hexCode b₃ b₂ b₁ b₀
    (IsHighCode hi ∧ IsLowCode lo) ∧ ¬IsScalar (pairCode hi lo % 0x10000)
  | _, _ => False

theorem jtHexdigit_lt (d : JsonHexDigit) : jtHexdigit d.1 < 2 ^ 4 := by
  obtain ⟨c, hc⟩ := d
  have hrange : 48 ≤ c.toNat ∧ c.toNat ≤ 57 ∨ 65 ≤ c.toNat ∧ c.toNat ≤ 70 ∨
      97 ≤ c.toNat ∧ c.toNat ≤ 102 := of_decide_eq_true hc
  have hmask : (c &&& 7).toNat = c.toNat % 2 ^ 3 := and_mask c.toNat 3
  rw [jtHexdigit]
  split_ifs with hle
  · have hdigit : c.toNat ≤ 57 := hle
    change c.toNat - 48 < 2 ^ 4
    omega
  · have hletter : ¬c.toNat ≤ 57 := hle
    change (c &&& 7).toNat + 9 < 2 ^ 4
    omega

theorem hexCode_lt (d₃ d₂ d₁ d₀ : JsonHexDigit) : hexCode d₃ d₂ d₁ d₀ < 2 ^ 16 := by
  have hshift : ∀ (d : JsonHexDigit) {n : ℕ}, n ≤ 12 → jtHexdigit d.1 <<< n < 2 ^ 16 := by
    intro d n hn
    rw [Nat.shiftLeft_eq]
    calc jtHexdigit d.1 * 2 ^ n < 2 ^ 4 * 2 ^ n :=
          Nat.mul_lt_mul_of_pos_right (jtHexdigit_lt d) (Nat.two_pow_pos n)
      _ = 2 ^ (4 + n) := (pow_add 2 4 n).symm
      _ ≤ 2 ^ 16 := Nat.pow_le_pow_right (by decide) (by omega)
  have h₃ : jtHexdigit d₃.1 <<< 12 < 2 ^ 16 := hshift d₃ (by omega)
  have h₂ : jtHexdigit d₂.1 <<< 8 < 2 ^ 16 := hshift d₂ (by omega)
  have h₁ : jtHexdigit d₁.1 <<< 4 < 2 ^ 16 := hshift d₁ (by omega)
  have h₀ : jtHexdigit d₀.1 <<< 0 < 2 ^ 16 := hshift d₀ (by omega)
  exact Nat.or_lt_two_pow (Nat.or_lt_two_pow (Nat.or_lt_two_pow h₃ h₂) h₁) h₀

theorem decodeSurrogatePair_eq_pairCode {hi lo : ℕ} (hhi : IsHighCode hi) (hlo : IsLowCode lo) :
    decodeSurrogatePair hi lo = pairCode hi lo := by
  obtain ⟨hge, hlt⟩ := hhi
  obtain ⟨hge', hlt'⟩ := hlo
  have hhigh : hi % 1024 = hi - 0xD800 := by omega
  have hlow : lo % 1024 = lo - 0xDC00 := by omega
  rw [decodeSurrogatePair_eq, hhigh, hlow]
  rfl

/-- Where the code point of a pair lies. -/
theorem pairCode_bounds {hi lo : ℕ} (hhi : IsHighCode hi) (hlo : IsLowCode lo) :
    0x10000 ≤ pairCode hi lo ∧ pairCode hi lo < 0x110000 := by
  obtain ⟨hge, hlt⟩ := hhi
  obtain ⟨hge', hlt'⟩ := hlo
  unfold pairCode
  omega

theorem isScalar_pairCode {hi lo : ℕ} (hhi : IsHighCode hi) (hlo : IsLowCode lo) :
    IsScalar (pairCode hi lo) := by
  have hbounds := pairCode_bounds hhi hlo
  exact .inr ⟨by omega, hbounds.2⟩

/-- The last sixteen bits of a code point, as the code looks at them. -/
theorem isScalar_mod_iff (code : ℕ) :
    IsScalar (code % 0x10000) ↔ code / 1024 % 64 ≠ 54 ∧ code / 1024 % 64 ≠ 55 := by
  unfold IsScalar
  omega

theorem waitsForLow_iff (code : ℕ) : WaitsForLow code ↔ 0x800 ≤ code ∧ code / 1024 % 64 = 54 := by
  rw [WaitsForLow, isHighSurrogate_iff]

/-! ## What the code makes of a name -/

theorem stringBytes_unicode (high : ℕ) (d₃ d₂ d₁ d₀ : JsonHexDigit) (cs : List JsonChar) :
    stringBytes high (.unicode d₃ d₂ d₁ d₀ :: cs) =
      surrogateLead high (hexCode d₃ d₂ d₁ d₀) ++
        if WaitsForLow (surrogateCode high (hexCode d₃ d₂ d₁ d₀)) then
          stringBytes (surrogateCode high (hexCode d₃ d₂ d₁ d₀)) cs
        else unescapedUtf (surrogateCode high (hexCode d₃ d₂ d₁ d₀)) ++ stringBytes 0 cs :=
  rfl

section Codes

variable {high code : ℕ} {d₃ d₂ d₁ d₀ : JsonHexDigit} {cs : List JsonChar}

/-- A code after a high surrogate that it does not belong to. -/
theorem stringBytes_of_not_low (hhigh : high ≠ 0) (hlow : ¬IsLowCode (hexCode d₃ d₂ d₁ d₀)) :
    stringBytes high (.unicode d₃ d₂ d₁ d₀ :: cs) =
      utf8Bytes 0xFFFD ++ stringBytes 0 (.unicode d₃ d₂ d₁ d₀ :: cs) := by
  have hlt := hexCode_lt d₃ d₂ d₁ d₀
  have hnot : ¬isLowSurrogate (hexCode d₃ d₂ d₁ d₀) = true := by
    rw [isLowSurrogate_iff]
    unfold IsLowCode at hlow
    omega
  have hlead : ∀ x, surrogateLead x (hexCode d₃ d₂ d₁ d₀) = highLead x := fun x ↦ if_neg hnot
  have hcode : ∀ x, surrogateCode x (hexCode d₃ d₂ d₁ d₀) = hexCode d₃ d₂ d₁ d₀ :=
    fun x ↦ if_neg fun h ↦ hnot h.2
  rw [stringBytes_unicode, stringBytes_unicode, hlead, hlead, hcode, hcode, highLead, highLead,
    if_neg hhigh, if_pos rfl, List.nil_append]
  rfl

/-- A low surrogate after a high one. -/
theorem stringBytes_of_low (hhigh : high ≠ 0) (hlow : IsLowCode (hexCode d₃ d₂ d₁ d₀)) :
    stringBytes high (.unicode d₃ d₂ d₁ d₀ :: cs) =
      if WaitsForLow (decodeSurrogatePair high (hexCode d₃ d₂ d₁ d₀)) then
        stringBytes (decodeSurrogatePair high (hexCode d₃ d₂ d₁ d₀)) cs
      else unescapedUtf (decodeSurrogatePair high (hexCode d₃ d₂ d₁ d₀)) ++ stringBytes 0 cs := by
  have his : isLowSurrogate (hexCode d₃ d₂ d₁ d₀) = true := by
    rw [isLowSurrogate_iff]
    unfold IsLowCode at hlow
    omega
  have hlead : surrogateLead high (hexCode d₃ d₂ d₁ d₀) = [] := if_pos his
  have hcode : surrogateCode high (hexCode d₃ d₂ d₁ d₀) =
      decodeSurrogatePair high (hexCode d₃ d₂ d₁ d₀) := if_pos ⟨hhigh, his⟩
  rw [stringBytes_unicode, hlead, hcode, List.nil_append]

/-- A code at which nothing waits. -/
theorem stringBytes_single (hnot : ¬IsHighCode (hexCode d₃ d₂ d₁ d₀)) :
    stringBytes 0 (.unicode d₃ d₂ d₁ d₀ :: cs) =
      singleBytes (hexCode d₃ d₂ d₁ d₀) ++ stringBytes 0 cs := by
  have hlt := hexCode_lt d₃ d₂ d₁ d₀
  have hlead : surrogateLead 0 (hexCode d₃ d₂ d₁ d₀) = [] := by
    rw [surrogateLead, highLead, if_pos rfl, ite_self]
  have hcode : surrogateCode 0 (hexCode d₃ d₂ d₁ d₀) = hexCode d₃ d₂ d₁ d₀ := if_neg fun h ↦ h.1 rfl
  have hwaits : ¬WaitsForLow (hexCode d₃ d₂ d₁ d₀) := by
    rw [waitsForLow_iff]
    unfold IsHighCode at hnot
    omega
  rw [stringBytes_unicode, hlead, hcode, if_neg hwaits, List.nil_append, singleBytes]
  by_cases hlow : IsLowCode (hexCode d₃ d₂ d₁ d₀)
  · obtain ⟨hge, hlt'⟩ := hlow
    rw [if_pos (.inr ⟨hge, hlt'⟩), unescapedUtf_of_low (by omega) (by omega)]
  · rw [if_neg (not_or.mpr ⟨hnot, hlow⟩), unescapedUtf_eq]
    · unfold IsLowCode at hlow
      omega
    · unfold IsLowCode at hlow
      unfold IsHighCode at hnot
      unfold IsScalar
      omega

/-- A high surrogate waits. -/
theorem stringBytes_high (hhigh : IsHighCode (hexCode d₃ d₂ d₁ d₀)) :
    stringBytes 0 (.unicode d₃ d₂ d₁ d₀ :: cs) = stringBytes (hexCode d₃ d₂ d₁ d₀) cs := by
  obtain ⟨hge, hlt⟩ := hhigh
  have hlead : surrogateLead 0 (hexCode d₃ d₂ d₁ d₀) = [] := by
    rw [surrogateLead, highLead, if_pos rfl, ite_self]
  have hcode : surrogateCode 0 (hexCode d₃ d₂ d₁ d₀) = hexCode d₃ d₂ d₁ d₀ := if_neg fun h ↦ h.1 rfl
  have hwaits : WaitsForLow (hexCode d₃ d₂ d₁ d₀) := by
    rw [waitsForLow_iff]
    omega
  rw [stringBytes_unicode, hlead, hcode, if_pos hwaits, List.nil_append]

/-- What waits comes out as a code point at which the code does not wait. -/
theorem exists_stringBytes_eq (hhigh : high ≠ 0) (cs : List JsonChar) :
    ∃ code rest, stringBytes high cs = utf8Bytes code ++ rest ∧ IsScalar code ∧ ¬WaitsForLow code := by
  have hreplaced : IsScalar 0xFFFD ∧ ¬WaitsForLow 0xFFFD := ⟨.inr (by decide), by decide⟩
  induction cs generalizing high with
  | nil =>
    refine ⟨0xFFFD, [], ?_, hreplaced⟩
    rw [stringBytes, highLead, if_neg hhigh]
    rfl
  | cons x cs ih =>
    cases x with
    | plain c =>
      refine ⟨0xFFFD, c.1 :: stringBytes 0 cs, ?_, hreplaced⟩
      rw [stringBytes, highLead, if_neg hhigh]
      rfl
    | escape e =>
      refine ⟨0xFFFD, e.byte :: stringBytes 0 cs, ?_, hreplaced⟩
      rw [stringBytes, highLead, if_neg hhigh]
      rfl
    | unicode d₃ d₂ d₁ d₀ =>
      by_cases hlow : IsLowCode (hexCode d₃ d₂ d₁ d₀)
      · have hcode := decodeSurrogatePair_eq high (hexCode d₃ d₂ d₁ d₀)
        rw [stringBytes_of_low hhigh hlow]
        split_ifs with hwaits
        · exact ih (by omega)
        · by_cases h55 : decodeSurrogatePair high (hexCode d₃ d₂ d₁ d₀) / 1024 % 64 = 55
          · exact ⟨0xFFFD, stringBytes 0 cs,
              by rw [unescapedUtf_of_low (by omega) h55], hreplaced⟩
          · have hscalar : IsScalar (decodeSurrogatePair high (hexCode d₃ d₂ d₁ d₀)) :=
              .inr (by omega)
            exact ⟨_, stringBytes 0 cs, by rw [unescapedUtf_eq h55 hscalar], hscalar, hwaits⟩
      · exact ⟨0xFFFD, stringBytes 0 (.unicode d₃ d₂ d₁ d₀ :: cs),
          stringBytes_of_not_low hhigh hlow, hreplaced⟩

end Codes

/-! ## Where it is UTF-8 -/

/-- No bad pair. -/
def NoBadPair (chars : List JsonChar) : Prop := chars.IsChain fun x y ↦ ¬BadPair x y

theorem noBadPair_cons_iff {x : JsonChar} {cs : List JsonChar} (h : ∀ y, ¬BadPair x y) :
    NoBadPair (x :: cs) ↔ NoBadPair cs := by
  cases cs with
  | nil => exact ⟨fun _ ↦ .nil, fun _ ↦ .singleton x⟩
  | cons y cs =>
    rw [NoBadPair, List.isChain_cons_cons]
    exact and_iff_right (h y)

section Pairs

variable {a₃ a₂ a₁ a₀ b₃ b₂ b₁ b₀ : JsonHexDigit} {cs : List JsonChar}

theorem not_badPair_of_not_high (h : ¬IsHighCode (hexCode a₃ a₂ a₁ a₀)) (y : JsonChar) :
    ¬BadPair (.unicode a₃ a₂ a₁ a₀) y := by
  cases y with
  | unicode b₃ b₂ b₁ b₀ => exact fun hbad ↦ h hbad.1.1
  | _ => exact id

/-- A pair comes out as its code point if that does not end like a surrogate. -/
theorem stringBytes_pair_iff (hhi : IsHighCode (hexCode a₃ a₂ a₁ a₀))
    (hlo : IsLowCode (hexCode b₃ b₂ b₁ b₀)) (s : List UInt8) :
    stringBytes 0 (.unicode a₃ a₂ a₁ a₀ :: .unicode b₃ b₂ b₁ b₀ :: cs) =
        utf8Bytes (pairCode (hexCode a₃ a₂ a₁ a₀) (hexCode b₃ b₂ b₁ b₀)) ++ s ↔
      ¬BadPair (.unicode a₃ a₂ a₁ a₀) (.unicode b₃ b₂ b₁ b₀) ∧ stringBytes 0 cs = s := by
  have hne : hexCode a₃ a₂ a₁ a₀ ≠ 0 := by
    have hge := hhi.1
    omega
  have hbounds := pairCode_bounds hhi hlo
  have hscalar := isScalar_pairCode hhi hlo
  rw [stringBytes_high hhi, stringBytes_of_low hne hlo, decodeSurrogatePair_eq_pairCode hhi hlo]
  have hbad : BadPair (.unicode a₃ a₂ a₁ a₀) (.unicode b₃ b₂ b₁ b₀) ↔
      ¬IsScalar (pairCode (hexCode a₃ a₂ a₁ a₀) (hexCode b₃ b₂ b₁ b₀) % 0x10000) :=
    and_iff_right ⟨hhi, hlo⟩
  rw [hbad, not_not]
  generalize pairCode (hexCode a₃ a₂ a₁ a₀) (hexCode b₃ b₂ b₁ b₀) = code at hbounds hscalar ⊢
  rw [isScalar_mod_iff]
  split_ifs with hwaits
  · have h54 := ((waitsForLow_iff code).mp hwaits).2
    refine ⟨fun h ↦ ?_, fun h ↦ absurd h54 h.1.1⟩
    -- what comes out instead is not what waits
    have hne : code ≠ 0 := by omega
    obtain ⟨code', rest, heq, hscalar', hnot⟩ := exists_stringBytes_eq hne cs
    rw [heq] at h
    rw [eq_of_utf8Bytes_append hscalar' hscalar h] at hnot
    exact absurd hwaits hnot
  · have h54 : code / 1024 % 64 ≠ 54 := fun h ↦ hwaits ((waitsForLow_iff code).mpr ⟨by omega, h⟩)
    by_cases h55 : code / 1024 % 64 = 55
    · refine ⟨fun h ↦ ?_, fun h ↦ absurd h55 h.1.2⟩
      rw [unescapedUtf_of_low (by omega) h55] at h
      have hcode : 0xFFFD = code := eq_of_utf8Bytes_append (.inr (by decide)) hscalar h
      omega
    · rw [unescapedUtf_eq h55 hscalar, List.append_cancel_left_eq]
      exact ⟨fun h ↦ ⟨⟨h54, h55⟩, h⟩, fun h ↦ h.2⟩

/-- A high surrogate with no low one after it is replaced. -/
theorem stringBytes_unpaired (hpair : ¬(IsHighCode (hexCode a₃ a₂ a₁ a₀) ∧
      IsLowCode (hexCode b₃ b₂ b₁ b₀))) :
    stringBytes 0 (.unicode a₃ a₂ a₁ a₀ :: .unicode b₃ b₂ b₁ b₀ :: cs) =
      singleBytes (hexCode a₃ a₂ a₁ a₀) ++ stringBytes 0 (.unicode b₃ b₂ b₁ b₀ :: cs) := by
  by_cases hhi : IsHighCode (hexCode a₃ a₂ a₁ a₀)
  · have hne : hexCode a₃ a₂ a₁ a₀ ≠ 0 := by
      have hge := hhi.1
      omega
    rw [stringBytes_high hhi, stringBytes_of_not_low hne fun hlo ↦ hpair ⟨hhi, hlo⟩, singleBytes,
      if_pos (.inl hhi)]
  · exact stringBytes_single hhi

end Pairs

/-- **A name comes out as UTF-8** if it has no bad pair, and then only. -/
theorem stringBytes_eq_unicodeBytes_iff (chars : List JsonChar) :
    stringBytes 0 chars = unicodeBytes chars ↔ NoBadPair chars := by
  induction chars using unicodeBytes.induct with
  | case1 => exact ⟨fun _ ↦ .nil, fun _ ↦ rfl⟩
  | case2 c cs ih =>
    rw [noBadPair_cons_iff fun y ↦ id, ← ih]
    exact List.cons_inj_right c.1
  | case3 e cs ih =>
    rw [noBadPair_cons_iff fun y ↦ id, ← ih]
    exact List.cons_inj_right e.byte
  | case4 a₃ a₂ a₁ a₀ b₃ b₂ b₁ b₀ cs hi lo hpair ih =>
    have hnot : ¬IsHighCode (hexCode b₃ b₂ b₁ b₀) := by
      have hlow := hpair.2.1
      exact fun hhi ↦ absurd (hlow.trans_lt hhi.2) (lt_irrefl _)
    rw [unicodeBytes, if_pos hpair, stringBytes_pair_iff hpair.1 hpair.2, ih, NoBadPair, NoBadPair,
      List.isChain_cons_cons]
    exact and_congr_right fun _ ↦ (noBadPair_cons_iff (not_badPair_of_not_high hnot)).symm
  | case5 a₃ a₂ a₁ a₀ b₃ b₂ b₁ b₀ cs hi lo hpair ih =>
    rw [unicodeBytes, if_neg hpair, stringBytes_unpaired hpair, List.append_cancel_left_eq, ih,
      NoBadPair, NoBadPair, List.isChain_cons_cons]
    exact (and_iff_right fun hbad ↦ hpair hbad.1).symm
  | case6 a₃ a₂ a₁ a₀ cs hnext ih =>
    have hbytes : stringBytes 0 (.unicode a₃ a₂ a₁ a₀ :: cs) =
        singleBytes (hexCode a₃ a₂ a₁ a₀) ++ stringBytes 0 cs := by
      by_cases hhi : IsHighCode (hexCode a₃ a₂ a₁ a₀)
      · have hne : hexCode a₃ a₂ a₁ a₀ ≠ 0 := by
          have hge := hhi.1
          omega
        rw [stringBytes_high hhi, singleBytes, if_pos (.inl hhi)]
        cases cs with
        | nil =>
          rw [stringBytes, highLead, if_neg hne]
          rfl
        | cons x cs =>
          cases x with
          | unicode b₃ b₂ b₁ b₀ => exact (hnext b₃ b₂ b₁ b₀ cs rfl).elim
          | _ =>
            rw [stringBytes, highLead, if_neg hne]
            rfl
      · exact stringBytes_single hhi
    have hnone : NoBadPair (.unicode a₃ a₂ a₁ a₀ :: cs) ↔ NoBadPair cs := by
      cases cs with
      | nil => exact ⟨fun _ ↦ .nil, fun _ ↦ .singleton _⟩
      | cons x cs =>
        rw [NoBadPair, List.isChain_cons_cons]
        cases x with
        | unicode b₃ b₂ b₁ b₀ => exact (hnext b₃ b₂ b₁ b₀ cs rfl).elim
        | _ => exact and_iff_right id
    rw [hbytes, unicodeBytes, List.append_cancel_left_eq, ih, hnone]
    exact hnext

/-! ## NUL -/

/-- No escape for code 0. -/
def JsonChar.NotNul : JsonChar → Prop
  | .unicode d₃ d₂ d₁ d₀ => hexCode d₃ d₂ d₁ d₀ ≠ 0
  | _ => True

instance : ∀ x : JsonChar, Decidable x.NotNul
  | .unicode d₃ d₂ d₁ d₀ => inferInstanceAs (Decidable (hexCode d₃ d₂ d₁ d₀ ≠ 0))
  | .plain _ => .isTrue trivial
  | .escape _ => .isTrue trivial

theorem ofNat_or_ne_zero {lead : ℕ} (h : lead.testBit 7 = true) (x : ℕ) :
    (0 : UInt8) ≠ UInt8.ofNat (lead ||| x) := by
  intro hzero
  have hmod : (lead ||| x) % 2 ^ 8 = 0 := (congrArg UInt8.toNat hzero).symm
  have hbit : ((lead ||| x) % 2 ^ 8).testBit 7 = true := by
    rw [Nat.testBit_mod_two_pow, Nat.testBit_or, h]
    rfl
  rw [hmod, Nat.zero_testBit] at hbit
  exact Bool.false_ne_true hbit

theorem zero_notMem_utf8ReplacementChar : 0 ∉ utf8ReplacementChar := by decide

theorem zero_notMem_unescapedUtf {u : ℕ} (h : u ≠ 0) : 0 ∉ unescapedUtf u := by
  have h80 : ∀ x : ℕ, (0 : UInt8) ≠ UInt8.ofNat (0x80 ||| x) := ofNat_or_ne_zero (by decide)
  have hc0 : ∀ x : ℕ, (0 : UInt8) ≠ UInt8.ofNat (0xc0 ||| x) := ofNat_or_ne_zero (by decide)
  have he0 : ∀ x : ℕ, (0 : UInt8) ≠ UInt8.ofNat (0xe0 ||| x) := ofNat_or_ne_zero (by decide)
  have hf0 : ∀ x : ℕ, (0 : UInt8) ≠ UInt8.ofNat (0xf0 ||| x) := ofNat_or_ne_zero (by decide)
  rw [unescapedUtf]
  split_ifs with h1 h2 h3 h4 h5
  · intro hmem
    have hzero : u % 2 ^ 8 = 0 := (congrArg UInt8.toNat (List.mem_singleton.mp hmem)).symm
    omega
  · simp only [List.mem_cons, List.not_mem_nil, h80, hc0, or_self, not_false_eq_true]
  · exact zero_notMem_utf8ReplacementChar
  · simp only [List.mem_cons, List.not_mem_nil, h80, he0, or_self, not_false_eq_true]
  · simp only [List.mem_cons, List.not_mem_nil, h80, hf0, or_self, not_false_eq_true]
  · exact zero_notMem_utf8ReplacementChar

theorem zero_notMem_highLead (high : ℕ) : 0 ∉ highLead high := by
  rw [highLead]
  split_ifs
  · exact List.not_mem_nil
  · exact zero_notMem_utf8ReplacementChar

theorem zero_notMem_stringBytes {chars : List JsonChar} (h : ∀ x ∈ chars, x.NotNul) (high : ℕ) :
    0 ∉ stringBytes high chars := by
  induction chars generalizing high with
  | nil => exact zero_notMem_highLead high
  | cons x cs ih =>
    have hcs := ih fun y hy ↦ h y (List.mem_cons_of_mem x hy)
    cases x with
    | plain c =>
      rw [stringBytes, List.mem_append, List.mem_cons, not_or, not_or]
      exact ⟨zero_notMem_highLead high, c.2.1.symm, hcs 0⟩
    | escape e =>
      rw [stringBytes, List.mem_append, List.mem_cons, not_or, not_or]
      exact ⟨zero_notMem_highLead high, by cases e <;> decide, hcs 0⟩
    | unicode d₃ d₂ d₁ d₀ =>
      have hne : hexCode d₃ d₂ d₁ d₀ ≠ 0 := h _ List.mem_cons_self
      have hcode : surrogateCode high (hexCode d₃ d₂ d₁ d₀) ≠ 0 := by
        rw [surrogateCode, decodeSurrogatePair_eq]
        split_ifs <;> omega
      rw [stringBytes_unicode, List.mem_append, not_or]
      refine ⟨?_, ?_⟩
      · rw [surrogateLead]
        split_ifs
        · exact List.not_mem_nil
        · exact zero_notMem_highLead high
      · split_ifs
        · exact hcs _
        · rw [List.mem_append, not_or]
          exact ⟨zero_notMem_unescapedUtf hcode, hcs 0⟩

/-! ## Member names -/

section Names

variable {D : Type} {E : JsonEnv D} {chars : List JsonChar} {key : List UInt8}

/-- Wherever a name with these characters stands, it is taken for this key. -/
def NameDecodes (E : JsonEnv D) (chars : List JsonChar) (key : List UInt8) : Prop :=
  ∀ (k : JsonName) (outer : List (JsonSrec D)) (saved : JsonState) (v : Value D) (rest : List UInt8),
    k.chars = chars → saved = .objectFieldStart ∨ saved = .objectFieldStartAfterSep → rest ≠ [] →
      Moves (jsonStep E) (fun tok ↦ JsonEats outer saved v none (k.text ++ rest) tok ∧ tok.pbSize ≤ intMax)
        (JsonEats outer .objectValue v (some key) rest)

theorem nameDecodes_of_nameKey (hE : E.Zeroed) (hroom : E.room = none)
    (h : ∀ room, intMax - 9 ≤ room → nameKey (E.within room) chars = some key) :
    NameDecodes E chars key := by
  rintro k outer saved v rest rfl hsaved hrest tok ⟨htok, hle⟩
  obtain ⟨c, cs, rfl⟩ := List.exists_cons_of_ne_nil hrest
  have hmoves : ∀ room, intMax - 9 ≤ room → room < intMax → Moves (jsonStep (E.within room))
      (JsonEats outer saved v none (k.text ++ c :: cs)) (JsonEats outer .objectValue v (some key) (c :: cs)) := by
    intro room hle _
    have hname := @outcome_name _ _ outer _ v (hE.within hle) hsaved k
    rw [h room hle] at hname
    exact Reads.moves hname (c :: cs) (headIs_cons trivial cs)
  obtain ⟨tok', hreaches, htok'⟩ := exists_reaches_of_within hroom hle htok hmoves
  exact ⟨tok', hreaches, htok'.outer, htok'.srec, htok'.str, htok'.head, htok'.high⟩

/-- The value `true` and the end of an object after a first key. -/
theorem stops_true_member (hE : E.Bounded) (hdepth : 1 < E.maxDepth) (key : List UInt8) :
    Stops (jsonStep E) (JsonEats [] .objectValue (.map []) (some key)
      ((JsonDoc.word trueWord).render ++ renderMoreMembers []))
      (· = .accept (.map [(key, .boolean true)])) := by
  have hvalue := @outcome_member_value _ _ [] hE _ _ (readsDoc hE (.word trueWord))
    (readsMembers_nil hE) [] key
  have hword : docValue E (([] : List (JsonSrec D)).length + 1) (.word trueWord) =
      some (.boolean true) := rfl
  have hlevel : ¬E.maxDepth ≤ ([] : List (JsonSrec D)).length + 1 := Nat.not_le.mpr hdepth
  rw [if_neg hlevel, hword, Option.bind_some, List.map_nil, if_neg List.not_mem_nil] at hvalue
  exact Reads.whole hvalue

/-- An object with one member after a name. -/
theorem stops_name_true (hE : E.Bounded) (hdepth : 1 < E.maxDepth) (chars : List JsonChar) :
    Stops (jsonStep E) (JsonEats [] .objectFieldStart (.map []) none
      (JsonName.text ⟨noWs, chars, noWs⟩ ++ ((JsonDoc.word trueWord).render ++ renderMoreMembers [])))
      (· = (nameKey E chars).elim .reject fun key ↦ .accept (.map [(key, .boolean true)])) := by
  have hrest : (JsonDoc.word trueWord).render ++ renderMoreMembers [] ≠ [] :=
    List.append_ne_nil_of_left_ne_nil (JsonDoc.render_ne_nil _) _
  obtain ⟨d, ds, hd⟩ := List.exists_cons_of_ne_nil hrest
  have hname := @outcome_name _ _ [] _ (.map []) hE (.inl rfl) ⟨noWs, chars, noWs⟩
  cases hkey : nameKey E chars with
  | none =>
    rw [hkey] at hname
    exact Refuses.onward hname _ ⟨d, ds, hd, trivial⟩
  | some key =>
    rw [hkey] at hname
    exact (Reads.moves hname _ ⟨d, ds, hd, trivial⟩).stops (stops_true_member hE hdepth key)

/-- **A name is taken for one key**, the one that it stands for with some room. -/
theorem exists_nameKey_of_nameDecodes (hE : E.Zeroed) (hroom : E.room = none) (hdepth : 1 < E.maxDepth)
    (h : NameDecodes E chars key) : ∃ room, nameKey (E.within room) chars = some key := by
  have hrest : (JsonDoc.word trueWord).render ++ renderMoreMembers [] ≠ [] :=
    List.append_ne_nil_of_left_ne_nil (JsonDoc.render_ne_nil _) _
  obtain ⟨c, cs, hcons⟩ := List.exists_cons_of_ne_nil (List.append_ne_nil_of_left_ne_nil
    (JsonName.text_ne_nil ⟨noWs, chars, noWs⟩)
      ((JsonDoc.word trueWord).render ++ renderMoreMembers []))
  let start : JsonTok D := { jsonTokInit E (c :: cs) with
    c := c, highSurrogate := 0, srec := ⟨.eatws, .objectFieldStart, .map [], none⟩ }
  have hat : JsonEats [] .objectFieldStart (.map []) none (JsonName.text ⟨noWs, chars, noWs⟩ ++
      ((JsonDoc.word trueWord).render ++ renderMoreMembers [])) start := by
    rw [hcons]
    exact ⟨rfl, rfl, rfl, rfl, rfl⟩
  have hsize : start.pbSize ≤ intMax := size_jsonPrintbufNew_le
  -- once by way of the key, and once as a whole
  obtain ⟨tok', hreaches, htok'⟩ := h _ [] .objectFieldStart (.map []) _ rfl (.inl rfl) hrest start ⟨hat, hsize⟩
  obtain ⟨-, reply, -, -, hends, rfl⟩ := exists_ends_of_within hroom (pbSize_le_of_reaches hroom hreaches hsize)
    htok' fun _ hle _ ↦ stops_true_member (hE.within hle) hdepth key
  obtain ⟨room, reply', -, -, hends', rfl⟩ := exists_ends_of_within hroom hsize hat
    fun _ hle _ ↦ stops_name_true (hE.within hle) hdepth chars
  have heq := (hreaches.ends hends).unique hends'
  refine ⟨room, ?_⟩
  cases hkey : nameKey (E.within room) chars with
  | none =>
    rw [hkey] at heq
    exact absurd heq accept_ne_reject
  | some key' =>
    rw [hkey] at heq
    have hmap := Value.map.inj (Option.some.inj (congrArg JsonReply.result heq))
    rw [(Prod.mk.inj (List.cons.inj hmap).1).1]

/-- **Member names.** In `sds_to_json` a name for which the print buffer is sure to grow is taken for its
UTF-8 encoding if no pair of surrogates is bad, and then only. -/
theorem nameDecodes_unicodeBytes_iff (hE : E.Zeroed) (hnul : ∀ x ∈ chars, x.NotNul)
    (hlen : (unicodeBytes chars).length ≤ 2 ^ 31 - 10) :
    NameDecodes (jsonTokenerNew E) chars (unicodeBytes chars) ↔ NoBadPair chars := by
  have hdepth : 1 < (jsonTokenerNew E).maxDepth := Nat.lt_of_sub_ne_zero (Nat.succ_ne_zero 30)
  have hzero : cString (stringBytes 0 chars) = stringBytes 0 chars :=
    cString_eq_self (zero_notMem_stringBytes hnul 0)
  rw [← stringBytes_eq_unicodeBytes_iff]
  constructor
  · intro h
    obtain ⟨room, hkey⟩ := exists_nameKey_of_nameDecodes hE.jsonTokenerNew rfl hdepth h
    rw [nameKey, hzero] at hkey
    split_ifs at hkey
    exact Option.some.inj hkey
  · intro heq
    refine nameDecodes_of_nameKey hE.jsonTokenerNew rfl fun room hroom ↦ ?_
    rw [nameKey, hzero, heq]
    exact if_pos (hlen.trans hroom)

/-- An upper case digit. -/
def upperHexDigit (n : Fin 16) : JsonHexDigit :=
  ⟨UInt8.ofNat (if n < 10 then 48 + n else 55 + n), by decide +revert⟩

/-- The code of U+1D800 as a pair of surrogates. -/
def badPairName : List JsonChar :=
  [.unicode (upperHexDigit 13) (upperHexDigit 8) (upperHexDigit 3) (upperHexDigit 6),
    .unicode (upperHexDigit 13) (upperHexDigit 12) (upperHexDigit 0) (upperHexDigit 0)]

/-- A single high surrogate is replaced. -/
theorem nameDecodes_high :
    NameDecodes (jsonTokenerNew jsonEnvPlain) (badPairName.take 1)
      (unicodeBytes (badPairName.take 1)) :=
  (@nameDecodes_unicodeBytes_iff _ _ (badPairName.take 1) jsonEnvPlain_zeroed (by decide)
    (by decide)).mpr (.singleton _)

/-- U+1D800 comes out as U+FFFD. -/
theorem not_nameDecodes_badPairName :
    ¬NameDecodes (jsonTokenerNew jsonEnvPlain) badPairName (unicodeBytes badPairName) := by
  intro h
  obtain ⟨room, hkey⟩ := exists_nameKey_of_nameDecodes jsonEnvPlain_zeroed.jsonTokenerNew rfl (by decide) h
  have hstring : cString (stringBytes 0 badPairName) = [0xEF, 0xBF, 0xBD] := by decide
  have hbytes : unicodeBytes badPairName = [0xF0, 0x9D, 0xA0, 0x80] := by decide
  rw [nameKey, hstring, hbytes] at hkey
  split_ifs at hkey
  exact absurd (Option.some.inj hkey) (by decide)

end Names

end LatteC
