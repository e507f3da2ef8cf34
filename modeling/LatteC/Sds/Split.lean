import LatteC.Foundation.Decimal
import LatteC.Sds.Basic
import Mathlib.Data.List.DropRight

/-!
# Splitting strings

`sds_trim`, `sds_split_len`, `sds_split_args` and `sds_catrepr` of `src/sds/sds.c`.

## Modelling

`isspace` and `isprint` are those of the C locale. The pointer `p` of `sds_split_args` is the rest of
the line, and reading its NUL is reaching the end. Where the source moves `p` on inside of an escape
sequence, `sdsToken` is told how many characters to skip.

## The argument

An argument that was not quoted stands in the line as it is, and quotes only make the text longer. So
the arguments, with one separator behind each of them, never take more room than the line has, and they
take all of it only if there was nothing to quote (`IsPlain`).
-/

namespace LatteC

/-- `isspace`. -/
def isspace (c : UInt8) : Bool := c = 32 || (9 ≤ c && c ≤ 13)

theorem isspace_of_isDigit {c : UInt8} (h : Decimal.IsDigit c) : isspace c = false := by
  rw [Bool.eq_false_iff]
  intro hspace
  simp only [isspace, Bool.or_eq_true, Bool.and_eq_true, decide_eq_true_eq] at hspace
  rcases hspace with rfl | ⟨-, hle⟩
  · exact absurd h (by decide)
  · exact absurd (UInt8.le_trans h.1 hle) (by decide)

/-- `isprint`. -/
def isprint (c : UInt8) : Bool := 32 ≤ c && c ≤ 126

/-- `strchr(cset, c) != NULL`. It also finds the NUL at the end of `cset`. -/
def strchr (cset : List UInt8) (c : UInt8) : Bool := cset.contains c || c = 0

/-- `sds_trim`. -/
def sdsTrim (s cset : List UInt8) : List UInt8 :=
  (s.dropWhile (strchr cset)).rdropWhile (strchr cset)

/-! ## At a separator -/

/-- The array of tokens is doubled if the next token and the final one do not fit. -/
def growSlots (elements slots : ℕ) : Option ℕ :=
  if slots < elements + 2 then if slots * 2 < 2 ^ 31 then some (slots * 2) else none else some slots

/-- The loop of `sds_split_len`: the tokens and their number. `token` starts at `start`, `rest` at `j`. -/
def sdsSplitLoop (sep : List UInt8) : (fuel elements slots : ℕ) → (token rest : List UInt8) →
    Option (List (List UInt8) × ℕ)
  | 0, _, _, _, _ => none
  | fuel + 1, elements, slots, token, rest =>
    if rest.length < sep.length then
      -- the final element
      if elements < slots then some ([token ++ rest], elements + 1) else none
    else
      (growSlots elements slots).bind fun slots ↦
        if rest.take sep.length = sep then
          if elements < slots then
            (sdsSplitLoop sep fuel (elements + 1) slots [] (rest.drop sep.length)).map fun r ↦
              (token :: r.1, r.2)
          else none
        else
          match rest with
          | [] => none
          | c :: rest => sdsSplitLoop sep fuel elements slots (token ++ [c]) rest

/-- `sds_split_len`: the tokens and `*count`. `none` is a write behind the array, or a number of slots
that is no `int`. -/
def sdsSplitLen (s sep : List UInt8) : Option (List (List UInt8) × ℕ) :=
  if sep.length < 1 then none
  else if s.length = 0 then some ([], 0)
  else sdsSplitLoop sep (s.length + 1) 0 5 [] s

/-! ## Into arguments -/

/-- `is_hex_digit`. -/
def isHexDigit (c : UInt8) : Bool :=
  (48 ≤ c && c ≤ 57) || (97 ≤ c && c ≤ 102) || (65 ≤ c && c ≤ 70)

/-- `hex_digit_to_int`. -/
def hexDigitToInt (c : UInt8) : ℕ :=
  if 48 ≤ c ∧ c ≤ 57 then c.toNat - 48
  else if 97 ≤ c ∧ c ≤ 102 then c.toNat - 87
  else if 65 ≤ c ∧ c ≤ 70 then c.toNat - 55
  else 0

/-- The character that a backslash in front of `c` stands for. -/
def sdsUnescape (c : UInt8) : UInt8 :=
  if c = 110 then 10 else if c = 114 then 13 else if c = 116 then 9 else if c = 98 then 8
  else if c = 97 then 7 else c

/-- The byte of `xHH`, if that is how `p` starts. -/
def sdsHexEscape : List UInt8 → Option UInt8
  | x :: a :: b :: _ =>
    if x = 120 ∧ isHexDigit a ∧ isHexDigit b then
      some (UInt8.ofNat (hexDigitToInt a * 16 + hexDigitToInt b))
    else none
  | _ => none

/-- The flags `inq` and `insq` of `sds_split_args`. -/
inductive SdsQuote where
  | none
  | inq
  | insq
deriving DecidableEq

/-- A closing quote must be followed by a space or nothing at all. -/
def sdsCloseQuote (current p : List UInt8) : Option (List UInt8 × List UInt8) :=
  if (p.head?.map isspace).getD true then some (current, p) else none

/-- The loop of `sds_split_args` that gets one token: the token, and what is left of the line. -/
def sdsToken : SdsQuote → (current : List UInt8) → (skip : ℕ) → (p : List UInt8) →
    Option (List UInt8 × List UInt8)
  | .none, current, _, [] => some (current, [])
  | .inq, _, _, [] => none
  | .insq, _, _, [] => none
  | quote, current, skip + 1, _ :: p => sdsToken quote current skip p
  | .inq, current, 0, c :: p =>
    if c = 92 ∧ p ≠ [] then
      match sdsHexEscape p with
      | some byte => sdsToken .inq (current ++ [byte]) 3 p
      | none => sdsToken .inq (current ++ [sdsUnescape (p.headD 0)]) 1 p
    else if c = 34 then sdsCloseQuote current p
    else sdsToken .inq (current ++ [c]) 0 p
  | .insq, current, 0, c :: p =>
    if c = 92 ∧ p.head? = some 39 then sdsToken .insq (current ++ [39]) 1 p
    else if c = 39 then sdsCloseQuote current p
    else sdsToken .insq (current ++ [c]) 0 p
  | .none, current, 0, c :: p =>
    if c = 32 ∨ c = 10 ∨ c = 13 ∨ c = 9 then some (current, p)
    else if c = 34 then sdsToken .inq current 0 p
    else if c = 39 then sdsToken .insq current 0 p
    else sdsToken .none (current ++ [c]) 0 p

theorem sdsToken_succ (quote : SdsQuote) (current : List UInt8) (skip : ℕ) (c : UInt8)
    (p : List UInt8) :
    sdsToken quote current (skip + 1) (c :: p) = sdsToken quote current skip p := by
  rw [sdsToken]

/-- The outer loop of `sds_split_args`. Every token takes at least one character. What is returned is `NULL`
or the vector; there is no room for a token whose number is no `int`. -/
def sdsSplitArgsLoop : (fuel argc : ℕ) → (p : List UInt8) → Option (Option (List (List UInt8)))
  | 0, _, _ => none
  | fuel + 1, argc, p =>
    match p.dropWhile isspace with
    | [] => some (some [])
    | c :: p =>
      match sdsToken .none [] 0 (c :: p) with
      | none => some none
      | some (token, p) =>
        if argc + 1 < 2 ^ 31 then (sdsSplitArgsLoop fuel (argc + 1) p).map (Option.map (token :: ·))
        else none

/-- `sds_split_args`, on a C string. `some none` is `NULL`, and `none` an overflow of `*argc`. -/
def sdsSplitArgs (line : List UInt8) : Option (Option (List (List UInt8))) :=
  sdsSplitArgsLoop ((cString line).length + 1) 0 (cString line)

/-- The tokens of a line, however many there are. `none` is an error. -/
def sdsArgsLoop : (fuel : ℕ) → (p : List UInt8) → Option (List (List UInt8))
  | 0, _ => none
  | fuel + 1, p =>
    match p.dropWhile isspace with
    | [] => some []
    | c :: p =>
      (sdsToken .none [] 0 (c :: p)).bind fun r ↦ (sdsArgsLoop fuel r.2).map (r.1 :: ·)

theorem sdsArgsLoop_of_nil {p : List UInt8} (h : p.dropWhile isspace = []) (fuel : ℕ) :
    sdsArgsLoop (fuel + 1) p = some [] := by
  rw [sdsArgsLoop, h]

theorem sdsArgsLoop_of_cons {p q : List UInt8} {c : UInt8} (h : p.dropWhile isspace = c :: q)
    (fuel : ℕ) : sdsArgsLoop (fuel + 1) p =
      (sdsToken .none [] 0 (c :: q)).bind fun r ↦ (sdsArgsLoop fuel r.2).map (r.1 :: ·) := by
  rw [sdsArgsLoop, h]

/-- The arguments of a line, however many there are. -/
def sdsArgs (line : List UInt8) : Option (List (List UInt8)) :=
  sdsArgsLoop ((cString line).length + 1) (cString line)

/-- The character of a hexadecimal digit in the format `%x`. -/
def hexDigitChar (d : ℕ) : UInt8 := UInt8.ofNat (if d < 10 then 48 + d else 87 + d)

/-- How `sds_catrepr` writes one byte. -/
def sdsReprByte (c : UInt8) : List UInt8 :=
  if c = 92 ∨ c = 34 then [92, c]
  else if c = 10 then [92, 110]
  else if c = 13 then [92, 114]
  else if c = 9 then [92, 116]
  else if c = 7 then [92, 97]
  else if c = 8 then [92, 98]
  else if isprint c then [c]
  else [92, 120, hexDigitChar (c.toNat / 16), hexDigitChar (c.toNat % 16)]

/-- `sds_catrepr`. -/
def sdsCatrepr (s p : List UInt8) : List UInt8 := s ++ [34] ++ p.flatMap sdsReprByte ++ [34]

/-! ## How much room the arguments take -/

/-- The characters that mean something to `sds_split_args` outside of quotes. -/
def IsSpecial (c : UInt8) : Prop := c = 32 ∨ c = 10 ∨ c = 13 ∨ c = 9 ∨ c = 34 ∨ c = 39 ∨ c = 0

instance (c : UInt8) : Decidable (IsSpecial c) := inferInstanceAs (Decidable (_ ∨ _))

/-- Strings that `sds_split_args` takes as they are. -/
structure IsPlain (t : List UInt8) : Prop where
  head : (t.head?.map isspace) = some false
  not_special : ∀ c ∈ t, ¬ IsSpecial c

instance (t : List UInt8) : Decidable (IsPlain t) :=
  decidable_of_iff ((t.head?.map isspace) = some false ∧ (t.all fun c ↦ !decide (IsSpecial c)) = true)
    ⟨fun h ↦ ⟨h.1, by simpa using h.2⟩, fun h ↦ ⟨h.1, by simpa using h.not_special⟩⟩

theorem sdsCloseQuote_eq_some {current p t rest : List UInt8}
    (h : sdsCloseQuote current p = some (t, rest)) : t = current ∧ rest = p := by
  rw [sdsCloseQuote] at h
  split_ifs at h
  simp only [Option.some.injEq, Prod.mk.injEq] at h
  exact ⟨h.1.symm, h.2.symm⟩

/-- A quoted part has lost at least its closing quote. -/
theorem sdsToken_quoted_length {quote : SdsQuote} (hquote : quote ≠ .none) {p : List UInt8} :
    ∀ {current t rest : List UInt8} {skip : ℕ}, sdsToken quote current skip p = some (t, rest) →
      t.length + rest.length + 1 + skip ≤ current.length + p.length := by
  induction p with
  | nil =>
    intro current t rest skip h
    cases quote with
    | none => exact absurd rfl hquote
    | inq | insq => rw [sdsToken] at h; cases h
  | cons c p ih =>
    intro current t rest skip h
    rw [List.length_cons]
    cases skip with
    | succ skip =>
      rw [sdsToken_succ] at h
      have := ih h
      omega
    | zero =>
      have hgrow : ∀ {b : UInt8} {skip : ℕ}, sdsToken quote (current ++ [b]) skip p = some (t, rest) →
          t.length + rest.length + 1 + skip ≤ current.length + 1 + p.length := by
        intro b skip hrec
        have := ih hrec
        rwa [List.length_append, List.length_singleton] at this
      cases quote with
      | none => exact absurd rfl hquote
      | inq =>
        rw [sdsToken] at h
        split_ifs at h with hescape hend
        · cases hhex : sdsHexEscape p with
          | some byte =>
            simp only [hhex] at h
            have := hgrow h
            omega
          | none =>
            simp only [hhex] at h
            have := hgrow h
            omega
        · obtain ⟨rfl, rfl⟩ := sdsCloseQuote_eq_some h
          omega
        · have := hgrow h
          omega
      | insq =>
        rw [sdsToken] at h
        split_ifs at h with hescape hend
        · have := hgrow h
          omega
        · obtain ⟨rfl, rfl⟩ := sdsCloseQuote_eq_some h
          omega
        · have := hgrow h
          omega

/-- A token takes at least one character. -/
theorem sdsToken_suffix {p : List UInt8} : ∀ {quote : SdsQuote} {current t rest : List UInt8}
    {skip : ℕ}, sdsToken quote current skip p = some (t, rest) → rest <:+ p.tail := by
  induction p with
  | nil =>
    intro quote current t rest skip h
    cases quote with
    | none =>
      rw [sdsToken] at h
      simp only [Option.some.injEq, Prod.mk.injEq] at h
      exact h.2 ▸ List.suffix_rfl
    | inq | insq => rw [sdsToken] at h; cases h
  | cons c p ih =>
    intro quote current t rest skip h
    have hp : p.tail <:+ p := List.tail_suffix p
    rw [List.tail_cons]
    cases skip with
    | succ skip =>
      rw [sdsToken_succ] at h
      exact (ih h).trans hp
    | zero =>
      cases quote with
      | none =>
        rw [sdsToken] at h
        split_ifs at h
        · simp only [Option.some.injEq, Prod.mk.injEq] at h
          exact h.2 ▸ List.suffix_rfl
        · exact (ih h).trans hp
        · exact (ih h).trans hp
        · exact (ih h).trans hp
      | inq =>
        rw [sdsToken] at h
        split_ifs at h
        · cases hhex : sdsHexEscape p with
          | some byte =>
            simp only [hhex] at h
            exact (ih h).trans hp
          | none =>
            simp only [hhex] at h
            exact (ih h).trans hp
        · exact (sdsCloseQuote_eq_some h).2 ▸ List.suffix_rfl
        · exact (ih h).trans hp
      | insq =>
        rw [sdsToken] at h
        split_ifs at h
        · exact (ih h).trans hp
        · exact (sdsCloseQuote_eq_some h).2 ▸ List.suffix_rfl
        · exact (ih h).trans hp

/-- A token has quotes in it, or it stands there as it is. -/
theorem sdsToken_none_cases {p : List UInt8} (hnul : 0 ∉ p) :
    ∀ {current t rest : List UInt8}, sdsToken .none current 0 p = some (t, rest) →
      t.length + rest.length + 2 ≤ current.length + p.length ∨
      ∃ u, t = current ++ u ∧ (∀ c ∈ u, ¬ IsSpecial c) ∧
        ((p = u ∧ rest = []) ∨ ∃ w, isspace w = true ∧ p = u ++ w :: rest) := by
  induction p with
  | nil =>
    intro current t rest h
    rw [sdsToken] at h
    simp only [Option.some.injEq, Prod.mk.injEq] at h
    exact Or.inr ⟨[], by rw [List.append_nil, h.1], by simp, Or.inl ⟨rfl, h.2.symm⟩⟩
  | cons c p ih =>
    intro current t rest h
    rw [List.mem_cons, not_or] at hnul
    rw [sdsToken] at h
    split_ifs at h with hsep hdouble hsingle
    · simp only [Option.some.injEq, Prod.mk.injEq] at h
      refine Or.inr ⟨[], by rw [List.append_nil, h.1], by simp, Or.inr ⟨c, ?_, by rw [h.2]; rfl⟩⟩
      rcases hsep with rfl | rfl | rfl | rfl <;> decide
    · have := sdsToken_quoted_length (by decide) h
      exact Or.inl (by rw [List.length_cons]; omega)
    · have := sdsToken_quoted_length (by decide) h
      exact Or.inl (by rw [List.length_cons]; omega)
    · have hc : ¬ IsSpecial c := by
        rintro (h | h | h | h | h | h | h)
        · exact hsep (Or.inl h)
        · exact hsep (Or.inr (Or.inl h))
        · exact hsep (Or.inr (Or.inr (Or.inl h)))
        · exact hsep (Or.inr (Or.inr (Or.inr h)))
        · exact hdouble h
        · exact hsingle h
        · exact hnul.1 h.symm
      rcases ih hnul.2 h with hlen | ⟨u, rfl, hu, hend⟩
      · rw [List.length_append, List.length_singleton] at hlen
        exact Or.inl (by rw [List.length_cons]; omega)
      · refine Or.inr ⟨c :: u, by rw [List.append_assoc]; rfl, ?_, ?_⟩
        · intro x hx
          rcases List.mem_cons.mp hx with rfl | hx
          · exact hc
          · exact hu x hx
        · rcases hend with ⟨rfl, rfl⟩ | ⟨w, hw, rfl⟩
          · exact Or.inl ⟨rfl, rfl⟩
          · exact Or.inr ⟨w, hw, rfl⟩

/-- The room that arguments take in a line, with a separator behind each. -/
def argsRoom (ts : List (List UInt8)) : ℕ := (ts.map fun t ↦ t.length + 1).sum

@[simp] theorem argsRoom_nil : argsRoom [] = 0 := rfl

@[simp] theorem argsRoom_cons (t : List UInt8) (ts : List (List UInt8)) :
    argsRoom (t :: ts) = t.length + 1 + argsRoom ts := rfl

theorem sdsArgsLoop_nil {fuel : ℕ} {ts : List (List UInt8)}
    (h : sdsArgsLoop fuel [] = some ts) : ts = [] := by
  cases fuel with
  | zero => cases h
  | succ fuel => exact (Option.some.inj h).symm

/-- The arguments do not take more room than the line has, and when they take all of it there was
nothing to quote. -/
theorem argsRoom_sdsArgsLoop {fuel : ℕ} {p : List UInt8} {ts : List (List UInt8)} (hnul : 0 ∉ p)
    (h : sdsArgsLoop fuel p = some ts) :
    argsRoom ts ≤ p.length + 1 ∧ (argsRoom ts = p.length + 1 → ∀ t ∈ ts, IsPlain t) := by
  induction fuel generalizing p ts with
  | zero => cases h
  | succ fuel ih =>
    have hsuffix : p.dropWhile isspace <:+ p := List.dropWhile_suffix _
    have hlength := hsuffix.length_le
    cases hp : p.dropWhile isspace with
    | nil =>
      rw [sdsArgsLoop_of_nil hp, Option.some.injEq] at h
      rw [← h]
      exact ⟨Nat.zero_le _, fun _ t ht ↦ absurd ht List.not_mem_nil⟩
    | cons c q =>
      rw [sdsArgsLoop_of_cons hp] at h
      obtain ⟨⟨t, rest⟩, htoken, hrest⟩ := Option.bind_eq_some_iff.mp h
      obtain ⟨ts', hts', rfl⟩ := Option.map_eq_some_iff.mp hrest
      simp only at hts'
      rw [hp] at hsuffix hlength
      have hnul' : 0 ∉ c :: q := fun hmem ↦ hnul (hsuffix.subset hmem)
      have hc : isspace c = false := by
        have := List.head?_dropWhile_not isspace p
        rw [hp] at this
        simpa using this
      obtain ⟨hroom, hplain⟩ :=
        ih (fun hmem ↦ hnul' (List.mem_cons_of_mem c ((sdsToken_suffix htoken).subset hmem))) hts'
      simp only [argsRoom_cons]
      rcases sdsToken_none_cases hnul' htoken with hquoted | ⟨u, htu, hu, hend⟩
      · -- quotes leave room
        rw [List.length_nil, Nat.zero_add] at hquoted
        exact ⟨by omega, fun heq ↦ by omega⟩
      · obtain rfl : u = t := htu.symm
        have hhead : u.head? = some c := by
          rcases hend with ⟨hcq, -⟩ | ⟨w, hw, hcq⟩
          · rw [← hcq, List.head?_cons]
          · cases u with
            | nil =>
              -- the token does not start with a separator
              obtain ⟨rfl, -⟩ := List.cons.inj hcq
              rw [hw] at hc
              cases hc
            | cons d u =>
              obtain ⟨rfl, -⟩ := List.cons.inj hcq
              rfl
        have hu' : IsPlain u := ⟨by rw [hhead, Option.map_some, hc], hu⟩
        rcases hend with ⟨hcq, rfl⟩ | ⟨w, hw, hcq⟩
        · obtain rfl := sdsArgsLoop_nil hts'
          rw [hcq] at hlength
          rw [argsRoom_nil]
          refine ⟨by omega, fun _ ↦ ?_⟩
          rw [List.forall_mem_singleton]
          exact hu'
        · rw [hcq, List.length_append, List.length_cons] at hlength
          refine ⟨by omega, fun heq ↦ ?_⟩
          intro t ht
          rcases List.mem_cons.mp ht with rfl | ht
          · exact hu'
          · exact hplain (by omega) t ht

/-! ## A plain argument at the end -/

theorem sdsToken_of_not_isSpecial {c : UInt8} (hc : ¬ IsSpecial c) (current p : List UInt8) :
    sdsToken .none current 0 (c :: p) = sdsToken .none (current ++ [c]) 0 p := by
  simp only [IsSpecial, not_or] at hc
  obtain ⟨hspace, hn, hr, ht, hdouble, hsingle, -⟩ := hc
  have hsep : ¬(c = 32 ∨ c = 10 ∨ c = 13 ∨ c = 9) := by
    rintro (h | h | h | h)
    · exact hspace h
    · exact hn h
    · exact hr h
    · exact ht h
  rw [sdsToken, if_neg hsep, if_neg hdouble, if_neg hsingle]

/-- Plain characters in front of whatever follows. -/
theorem sdsToken_plain_append {u : List UInt8} (hu : ∀ c ∈ u, ¬ IsSpecial c) (current p : List UInt8) :
    sdsToken .none current 0 (u ++ p) = sdsToken .none (current ++ u) 0 p := by
  induction u generalizing current with
  | nil => rw [List.nil_append, List.append_nil]
  | cons c u ih =>
    rw [List.forall_mem_cons] at hu
    rw [List.cons_append, sdsToken_of_not_isSpecial hu.1, ih hu.2, List.append_assoc, List.singleton_append]

theorem sdsToken_plain {u : List UInt8} (hu : ∀ c ∈ u, ¬ IsSpecial c) (current : List UInt8) :
    sdsToken .none current 0 u = some (current ++ u, []) := by
  have htoken := sdsToken_plain_append hu current []
  rwa [List.append_nil] at htoken

/-- Quotes that are not closed. -/
theorem sdsToken_unterminated {quote : SdsQuote} (hquote : quote ≠ .none) {p : List UInt8}
    (hp : 34 ∉ p ∧ 39 ∉ p) : ∀ (current : List UInt8) (skip : ℕ),
      sdsToken quote current skip p = none := by
  induction p with
  | nil =>
    intro current skip
    cases quote with
    | none => exact absurd rfl hquote
    | inq | insq => rw [sdsToken]
  | cons c p ih =>
    intro current skip
    simp only [List.mem_cons, not_or] at hp
    have hrest := ih ⟨hp.1.2, hp.2.2⟩
    cases skip with
    | succ skip => rw [sdsToken_succ, hrest]
    | zero =>
      cases quote with
      | none => exact absurd rfl hquote
      | inq =>
        rw [sdsToken, if_neg (Ne.symm hp.1.1)]
        split_ifs
        · cases sdsHexEscape p with
          | some byte => exact hrest _ _
          | none => exact hrest _ _
        · exact hrest _ _
      | insq => rw [sdsToken, if_neg (Ne.symm hp.2.1), hrest, hrest, ite_self]

/-- What stands behind a string of which the end is not special is no part of an escape sequence. -/
theorem sdsHexEscape_append (p n : List UInt8) :
    sdsHexEscape (p ++ 32 :: n) = sdsHexEscape p := by
  match p with
  | [] =>
    cases n with
    | nil => rfl
    | cons a n =>
      cases n with
      | nil => rfl
      | cons b n =>
        rw [List.nil_append, sdsHexEscape, if_neg (by simp)]
        rfl
  | [x] =>
    cases n with
    | nil => rfl
    | cons b n => exact if_neg fun h ↦ absurd h.2.1 (by decide)
  | [x, a] => exact if_neg fun h ↦ absurd h.2.2 (by decide)
  | x :: a :: b :: p => rfl

/-- The two results of getting a token, from a line and from the line with a plain argument `n`
behind: the argument stays behind, and its separator may be used up. -/
def TokenKept (n : List UInt8) (a b : Option (List UInt8 × List UInt8)) : Prop :=
  (a = none ∧ b = none) ∨ ∃ t rest rest', a = some (t, rest) ∧ b = some (t, rest') ∧
    (rest' = rest ++ 32 :: n ∨ rest = [] ∧ rest' = n)

theorem sdsCloseQuote_append (current p n : List UInt8) :
    TokenKept n (sdsCloseQuote current p) (sdsCloseQuote current (p ++ 32 :: n)) := by
  cases p with
  | nil => exact Or.inr ⟨current, [], 32 :: n, rfl, rfl, Or.inl rfl⟩
  | cons d p =>
    by_cases hd : isspace d = true
    · exact Or.inr ⟨current, d :: p, d :: p ++ 32 :: n, if_pos hd, if_pos hd, Or.inl rfl⟩
    · exact Or.inl ⟨if_neg hd, if_neg hd⟩

theorem sdsToken_append {n : List UInt8} (hn : ∀ c ∈ n, ¬ IsSpecial c) {p : List UInt8} :
    ∀ {quote : SdsQuote} {skip : ℕ}, (quote = .none → skip = 0) → ∀ current : List UInt8,
      TokenKept n (sdsToken quote current skip p) (sdsToken quote current skip (p ++ 32 :: n)) := by
  have hopen : 34 ∉ 32 :: n ∧ 39 ∉ 32 :: n := by
    simp only [List.mem_cons, not_or]
    exact ⟨⟨by decide, fun h ↦ hn 34 h (by decide)⟩, ⟨by decide, fun h ↦ hn 39 h (by decide)⟩⟩
  induction p with
  | nil =>
    intro quote skip hskip current
    cases quote with
    | none =>
      obtain rfl := hskip rfl
      exact Or.inr ⟨current, [], n, rfl, rfl, Or.inr ⟨rfl, rfl⟩⟩
    | inq => exact Or.inl ⟨rfl, sdsToken_unterminated (by decide) hopen _ _⟩
    | insq => exact Or.inl ⟨rfl, sdsToken_unterminated (by decide) hopen _ _⟩
  | cons c p ih =>
    intro quote skip hskip current
    rw [List.cons_append]
    cases skip with
    | succ skip =>
      rw [sdsToken, sdsToken]
      exact ih (fun hq ↦ absurd (hskip hq) (Nat.succ_ne_zero _)) current
    | zero =>
      cases quote with
      | none =>
        rw [sdsToken, sdsToken]
        split_ifs
        · exact Or.inr ⟨current, p, p ++ 32 :: n, rfl, rfl, Or.inl rfl⟩
        · exact ih (fun hq ↦ rfl) _
        · exact ih (fun hq ↦ rfl) _
        · exact ih (fun hq ↦ rfl) _
      | inq =>
        rw [sdsToken, sdsToken, sdsHexEscape_append]
        by_cases hlast : c = 92 ∧ p = []
        · -- a backslash at the end would also escape the separator
          obtain ⟨rfl, rfl⟩ := hlast
          exact Or.inl ⟨rfl, sdsToken_unterminated (by decide) hopen _ _⟩
        · have hescape : (c = 92 ∧ p ++ 32 :: n ≠ []) ↔ (c = 92 ∧ p ≠ []) :=
            ⟨fun h ↦ ⟨h.1, fun hp ↦ hlast ⟨h.1, hp⟩⟩, fun h ↦ ⟨h.1, by simp⟩⟩
          simp only [hescape]
          split_ifs with hc
          · obtain ⟨d, q, rfl⟩ := List.exists_cons_of_ne_nil hc.2
            rw [List.cons_append, List.headD_cons, List.headD_cons]
            cases sdsHexEscape (d :: q) with
            | some byte => exact ih (fun hq ↦ absurd hq (by decide)) _
            | none => exact ih (fun hq ↦ absurd hq (by decide)) _
          · exact sdsCloseQuote_append current p n
          · exact ih (fun hq ↦ rfl) _
      | insq =>
        have hhead : (p ++ 32 :: n).head? = some 39 ↔ p.head? = some 39 := by
          cases p with
          | nil => simp
          | cons d p => rfl
        rw [sdsToken, sdsToken]
        simp only [hhead]
        split_ifs
        · exact ih (fun hq ↦ absurd hq (by decide)) _
        · exact sdsCloseQuote_append current p n
        · exact ih (fun hq ↦ rfl) _

theorem sdsArgsLoop_dropWhile (fuel : ℕ) (p : List UInt8) :
    sdsArgsLoop fuel (p.dropWhile isspace) = sdsArgsLoop fuel p := by
  cases fuel with
  | zero => rfl
  | succ fuel => rw [sdsArgsLoop, sdsArgsLoop, List.dropWhile_idempotent]

/-- A plain argument alone. -/
theorem sdsArgsLoop_plain {n : List UInt8} (hn : IsPlain n) {fuel : ℕ} (hfuel : 1 < fuel) :
    sdsArgsLoop fuel n = some [n] := by
  obtain ⟨fuel, rfl⟩ : ∃ k, fuel = k + 2 := ⟨fuel - 2, by omega⟩
  cases n with
  | nil => cases hn.head
  | cons c n =>
    have hc : isspace c = false := Option.some.inj hn.head
    rw [sdsArgsLoop_of_cons (List.dropWhile_cons_of_neg (by rw [hc]; decide)),
      sdsToken_plain hn.not_special, Option.bind_some, sdsArgsLoop_of_nil List.dropWhile_nil]
    rfl

/-- A plain argument behind a line is one more argument. -/
theorem sdsArgsLoop_append {n : List UInt8} (hn : IsPlain n) {fuel fuel' : ℕ} {p : List UInt8}
    (hfuel : p.length < fuel) (hfuel' : p.length + 1 < fuel') :
    sdsArgsLoop fuel' (p ++ 32 :: n) = (sdsArgsLoop fuel p).map (· ++ [n]) := by
  induction fuel generalizing p fuel' with
  | zero => omega
  | succ fuel ih =>
    have hlength := (List.dropWhile_suffix isspace : p.dropWhile isspace <:+ p).length_le
    cases hp : p.dropWhile isspace with
    | nil =>
      have hspace : (p ++ 32 :: n).dropWhile isspace = n.dropWhile isspace := by
        rw [List.dropWhile_append, hp]
        rfl
      rw [sdsArgsLoop_of_nil hp, ← sdsArgsLoop_dropWhile, hspace,
        sdsArgsLoop_dropWhile, sdsArgsLoop_plain hn (by omega)]
      rfl
    | cons c q =>
      obtain ⟨fuel', rfl⟩ : ∃ k, fuel' = k + 1 := ⟨fuel' - 1, by omega⟩
      have hspace : (p ++ 32 :: n).dropWhile isspace = c :: (q ++ 32 :: n) := by
        rw [List.dropWhile_append, hp]
        rfl
      rw [hp, List.length_cons] at hlength
      rw [sdsArgsLoop_of_cons hp, sdsArgsLoop_of_cons hspace, ← List.cons_append]
      rcases sdsToken_append hn.not_special (p := c :: q) (fun _ ↦ rfl) [] with
        ⟨hnone, hnone'⟩ | ⟨t, rest, rest', htoken, htoken', hrest⟩
      · rw [hnone, hnone']
        rfl
      · have hlt := (sdsToken_suffix htoken).length_le
        rw [List.tail_cons] at hlt
        rw [htoken, htoken', Option.bind_some, Option.bind_some]
        simp only
        rcases hrest with rfl | ⟨rfl, rfl⟩
        · rw [ih (by omega) (by omega), Option.map_map, Option.map_map]
          rfl
        · obtain ⟨fuel, rfl⟩ : ∃ k, fuel = k + 1 := ⟨fuel - 1, by omega⟩
          rw [sdsArgsLoop_plain hn (by omega), sdsArgsLoop_of_nil rfl]
          rfl

theorem sdsArgs_append {n : List UInt8} (hn : IsPlain n) {p : List UInt8} (hp : 0 ∉ p) :
    sdsArgs (p ++ 32 :: n) = (sdsArgs p).map (· ++ [n]) := by
  have hn0 : 0 ∉ n := fun h ↦ hn.not_special 0 h (by decide)
  rw [sdsArgs, sdsArgs, cString_eq_self hp, cString_eq_self (by simp [hp, hn0])]
  exact sdsArgsLoop_append hn (Nat.lt_succ_self _) (by simp)

/-- Plain arguments with a space in front of each but the first. -/
theorem sdsArgs_plain {t : List UInt8} {ts : List (List UInt8)} (ht : IsPlain t)
    (hts : ∀ x ∈ ts, IsPlain x) : sdsArgs (t ++ ts.flatMap (32 :: ·)) = some (t :: ts) := by
  have hnul : ∀ x : List UInt8, IsPlain x → 0 ∉ x := fun x hx h ↦ hx.not_special 0 h (by decide)
  induction ts using List.reverseRecOn with
  | nil =>
    rw [List.flatMap_nil, List.append_nil, sdsArgs, cString_eq_self (hnul t ht)]
    refine sdsArgsLoop_plain ht ?_
    cases t with
    | nil => cases ht.head
    | cons c t => rw [List.length_cons]; omega
  | append_singleton ts x ih =>
    have hx : IsPlain x := hts x (by simp)
    have hts' : ∀ y ∈ ts, IsPlain y := fun y hy ↦ hts y (List.mem_append_left _ hy)
    have hp : 0 ∉ t ++ ts.flatMap (32 :: ·) := by
      rw [List.mem_append, List.mem_flatMap, not_or]
      refine ⟨hnul t ht, ?_⟩
      rintro ⟨y, hy, hmem⟩
      rcases List.mem_cons.mp hmem with h | h
      · cases h
      · exact hnul y (hts' y hy) h
    rw [List.flatMap_append, List.flatMap_singleton, ← List.append_assoc, sdsArgs_append hx hp,
      ih hts']
    rfl

theorem sdsArgs_of_isPlain {t : List UInt8} (ht : IsPlain t) : sdsArgs t = some [t] := by
  have hsplit := sdsArgs_plain ht (List.forall_mem_nil _)
  rwa [List.flatMap_nil, List.append_nil] at hsplit

/-- The arguments of a line do not take more room than it has. -/
theorem argsRoom_sdsArgs {line : List UInt8} {ts : List (List UInt8)}
    (h : sdsArgs line = some ts) :
    argsRoom ts ≤ line.length + 1 ∧ (argsRoom ts = line.length + 1 → ∀ t ∈ ts, IsPlain t) := by
  have hnul : 0 ∉ cString line := fun hmem ↦ by
    simpa using List.mem_takeWhile_imp hmem
  have hlength : (cString line).length ≤ line.length := (List.takeWhile_prefix _).length_le
  obtain ⟨hroom, hplain⟩ := argsRoom_sdsArgsLoop hnul h
  exact ⟨by omega, fun heq ↦ hplain (by omega)⟩

/-! ## The number of arguments -/

/-- With the counter the same arguments are returned, as long as their number is an `int`. -/
theorem sdsSplitArgsLoop_eq_some_iff {fuel argc : ℕ} (hargc : argc < 2 ^ 31) {p : List UInt8}
    {ts : List (List UInt8)} : sdsSplitArgsLoop fuel argc p = some (some ts) ↔
      sdsArgsLoop fuel p = some ts ∧ argc + ts.length < 2 ^ 31 := by
  induction fuel generalizing argc p ts with
  | zero => exact iff_of_false (fun h ↦ by cases h) fun h ↦ by cases h.1
  | succ fuel ih =>
    rw [sdsSplitArgsLoop, sdsArgsLoop]
    cases hp : p.dropWhile isspace with
    | nil =>
      simp only [Option.some.injEq]
      refine ⟨?_, fun h ↦ h.1⟩
      rintro rfl
      exact ⟨rfl, hargc⟩
    | cons c q =>
      dsimp only
      rcases sdsToken .none [] 0 (c :: q) with _ | ⟨token, rest⟩
      · exact iff_of_false (fun h ↦ by cases h) fun h ↦ by cases h.1
      · dsimp only
        rw [Option.bind_some]
        split_ifs with hint
        · constructor
          · intro h
            obtain ⟨r, hr, hts⟩ := Option.map_eq_some_iff.mp h
            obtain ⟨us, rfl, rfl⟩ := Option.map_eq_some_iff.mp hts
            obtain ⟨hus, hlt⟩ := (ih hint).mp hr
            rw [hus, List.length_cons]
            exact ⟨rfl, by omega⟩
          · rintro ⟨h, hlt⟩
            obtain ⟨us, hus, rfl⟩ := Option.map_eq_some_iff.mp h
            rw [List.length_cons] at hlt
            rw [(ih hint).mpr ⟨hus, by omega⟩]
            rfl
        · refine iff_of_false (fun h ↦ by cases h) ?_
          rintro ⟨h, hlt⟩
          obtain ⟨us, -, rfl⟩ := Option.map_eq_some_iff.mp h
          rw [List.length_cons] at hlt
          omega

theorem sdsSplitArgs_eq_some_iff {line : List UInt8} {ts : List (List UInt8)} :
    sdsSplitArgs line = some (some ts) ↔ sdsArgs line = some ts ∧ ts.length < 2 ^ 31 := by
  rw [sdsSplitArgs, sdsSplitArgsLoop_eq_some_iff (by decide), Nat.zero_add]
  rfl

theorem sdsSplitArgs_of_isPlain {t : List UInt8} (ht : IsPlain t) : sdsSplitArgs t = some (some [t]) :=
  sdsSplitArgs_eq_some_iff.mpr ⟨sdsArgs_of_isPlain ht, Nat.one_lt_two_pow (by decide)⟩

/-! ## Lines -/

/-- The pieces of `token ++ rest` between the separators `c` in `rest`. -/
def splitChar (c : UInt8) : (token rest : List UInt8) → List (List UInt8)
  | token, [] => [token]
  | token, x :: rest =>
    if x = c then token :: splitChar c [] rest else splitChar c (token ++ [x]) rest

theorem splitChar_cons (c : UInt8) (token : List UInt8) (x : UInt8) (rest : List UInt8) :
    splitChar c token (x :: rest) =
      if x = c then token :: splitChar c [] rest else splitChar c (token ++ [x]) rest := rfl

theorem splitChar_nil (c : UInt8) (token : List UInt8) : splitChar c token [] = [token] := rfl

/-- A piece has the characters of what was split, in the same order. -/
theorem sublist_of_mem_splitChar {c : UInt8} {rest : List UInt8} :
    ∀ {token line : List UInt8}, line ∈ splitChar c token rest → line.Sublist (token ++ rest) := by
  induction rest with
  | nil =>
    intro token line h
    rw [splitChar_nil, List.mem_singleton] at h
    rw [h, List.append_nil]
  | cons x rest ih =>
    intro token line h
    rw [splitChar_cons] at h
    split_ifs at h
    · rcases List.mem_cons.mp h with rfl | h
      · exact List.sublist_append_left _ _
      · exact (ih h).trans ((List.sublist_cons_self x rest).trans (List.sublist_append_right _ _))
    · have hsub := ih h
      rwa [List.append_assoc, List.singleton_append] at hsub

theorem splitChar_of_notMem {c : UInt8} {rest : List UInt8} (h : c ∉ rest) (token : List UInt8) :
    splitChar c token rest = [token ++ rest] := by
  induction rest generalizing token with
  | nil => rw [splitChar_nil, List.append_nil]
  | cons x rest ih =>
    rw [List.mem_cons, not_or] at h
    rw [splitChar_cons, if_neg (Ne.symm h.1), ih h.2, List.append_assoc, List.singleton_append]

/-- What stands behind the last separator is part of the last piece, and the others are shorter than
what was in front. -/
theorem splitChar_append {c : UInt8} {tail : List UInt8} (htail : c ∉ tail) (rest : List UInt8) :
    ∀ token : List UInt8, ∃ front last, splitChar c token rest = front ++ [last] ∧
      splitChar c token (rest ++ tail) = front ++ [last ++ tail] ∧
      ∀ line ∈ front, line.length < token.length + rest.length := by
  induction rest with
  | nil =>
    intro token
    exact ⟨[], token, rfl, splitChar_of_notMem htail token, by simp⟩
  | cons x rest ih =>
    intro token
    rw [List.cons_append, splitChar_cons, splitChar_cons]
    split_ifs with hx
    · obtain ⟨front, last, hsplit, hsplit', hfront⟩ := ih []
      refine ⟨token :: front, last, by rw [hsplit]; rfl, by rw [hsplit']; rfl, ?_⟩
      rw [List.forall_mem_cons, List.length_cons]
      refine ⟨by omega, fun line hline ↦ ?_⟩
      have := hfront line hline
      rw [List.length_nil] at this
      omega
    · obtain ⟨front, last, hsplit, hsplit', hfront⟩ := ih (token ++ [x])
      refine ⟨front, last, hsplit, hsplit', fun line hline ↦ ?_⟩
      have := hfront line hline
      rw [List.length_append, List.length_singleton] at this
      rw [List.length_cons]
      omega

/-- The pieces on both sides of a separator. -/
theorem splitChar_append_cons (c : UInt8) (rest tail : List UInt8) : ∀ token : List UInt8,
    splitChar c token (rest ++ c :: tail) = splitChar c token rest ++ splitChar c [] tail := by
  induction rest with
  | nil =>
    intro token
    rw [List.nil_append, splitChar_cons, if_pos rfl, splitChar_nil, List.singleton_append]
  | cons x rest ih =>
    intro token
    rw [List.cons_append, splitChar_cons, splitChar_cons]
    split_ifs
    · rw [ih, List.cons_append]
    · exact ih _

/-- No piece has the separator. -/
theorem notMem_of_mem_splitChar {c : UInt8} {rest : List UInt8} :
    ∀ {token line : List UInt8}, c ∉ token → line ∈ splitChar c token rest → c ∉ line := by
  induction rest with
  | nil =>
    intro token line htoken h
    rw [splitChar_nil, List.mem_singleton] at h
    rwa [h]
  | cons x rest ih =>
    intro token line htoken h
    rw [splitChar_cons] at h
    split_ifs at h with hx
    · rcases List.mem_cons.mp h with rfl | h
      · exact htoken
      · exact ih List.not_mem_nil h
    · refine ih ?_ h
      rw [List.mem_append, List.mem_singleton, not_or]
      exact ⟨htoken, Ne.symm hx⟩

/-- Pieces with a separator between any two. -/
theorem splitChar_intercalate {c : UInt8} {piece : List UInt8} {pieces : List (List UInt8)}
    (hpiece : c ∉ piece) (hpieces : ∀ p ∈ pieces, c ∉ p) :
    splitChar c [] ([c].intercalate (piece :: pieces)) = piece :: pieces := by
  induction pieces generalizing piece with
  | nil => simpa [List.intercalate] using splitChar_of_notMem hpiece []
  | cons p pieces ih =>
    rw [List.forall_mem_cons] at hpieces
    have hcons : [c].intercalate (piece :: p :: pieces) = piece ++ c :: [c].intercalate (p :: pieces) := by
      simp [List.intercalate]
    rw [hcons, splitChar_append_cons, ih hpieces.1 hpieces.2, splitChar_of_notMem hpiece]
    rfl

/-! ## Trimming -/

theorem length_sdsTrim_le (s cset : List UInt8) : (sdsTrim s cset).length ≤ s.length := by
  rw [sdsTrim]
  exact (List.rdropWhile_prefix _ _).length_le.trans (List.dropWhile_suffix _).length_le

/-- A string that does not get shorter is not trimmed. -/
theorem sdsTrim_eq_self_of_length {s cset : List UInt8} (h : (sdsTrim s cset).length = s.length) :
    sdsTrim s cset = s := by
  rw [sdsTrim] at h ⊢
  have hfront := List.rdropWhile_prefix (strchr cset) (s.dropWhile (strchr cset))
  have hsuffix : s.dropWhile (strchr cset) <:+ s := List.dropWhile_suffix _
  have hle := hfront.length_le
  have hle' := hsuffix.length_le
  rw [hfront.eq_of_length (by omega), hsuffix.eq_of_length (by omega)]

/-- `" \t\r\n"`. -/
def blanks : List UInt8 := [32, 9, 13, 10]

theorem strchr_blanks {c : UInt8} (h : ¬ IsSpecial c) : strchr blanks c = false := by
  simp only [IsSpecial, not_or] at h
  simp [strchr, blanks, h]

/-- A plain argument at the end of a line is not trimmed. -/
theorem rdropWhile_plain {n : List UInt8} (hn : IsPlain n) (s : List UInt8) :
    (s ++ n).rdropWhile (strchr blanks) = s ++ n := by
  rw [List.rdropWhile_eq_self_iff]
  intro hne hlast
  cases n using List.reverseRecOn with
  | nil => cases hn.head
  | append_singleton n c =>
    have hc := strchr_blanks (hn.not_special c (by simp))
    simp only [← List.append_assoc, List.getLast_append_singleton, hc] at hlast
    cases hlast

theorem dropWhile_plain {n : List UInt8} (hn : IsPlain n) (s : List UInt8) :
    (n ++ s).dropWhile (strchr blanks) = n ++ s := by
  cases n with
  | nil => cases hn.head
  | cons c n =>
    have hc := strchr_blanks (hn.not_special c List.mem_cons_self)
    rw [List.cons_append, List.dropWhile_cons_of_neg (by rw [hc]; decide)]

/-- Trimming a line with a plain argument at its end. -/
theorem sdsTrim_append {n : List UInt8} (hn : IsPlain n) (s : List UInt8) :
    sdsTrim (s ++ 32 :: n) blanks = n ∨
    ∃ s', s' <:+ s ∧ sdsTrim (s ++ 32 :: n) blanks = s' ++ 32 :: n := by
  rw [sdsTrim, List.dropWhile_append]
  split_ifs with h
  · left
    rw [List.dropWhile_cons_of_pos (by decide)]
    have hdrop := dropWhile_plain hn []
    have htrim := rdropWhile_plain hn []
    rw [List.append_nil] at hdrop
    rwa [hdrop]
  · right
    refine ⟨s.dropWhile (strchr blanks), List.dropWhile_suffix _, ?_⟩
    have htrim := rdropWhile_plain hn (s.dropWhile (strchr blanks) ++ [32])
    rwa [List.append_assoc, List.singleton_append] at htrim

/-- Plain arguments with spaces between them are not trimmed. -/
theorem sdsTrim_plain {t : List UInt8} {ts : List (List UInt8)} (ht : IsPlain t)
    (hts : ∀ x ∈ ts, IsPlain x) :
    sdsTrim (t ++ ts.flatMap (32 :: ·)) blanks = t ++ ts.flatMap (32 :: ·) := by
  rw [sdsTrim, dropWhile_plain ht]
  cases ts using List.reverseRecOn with
  | nil =>
    have htrim := rdropWhile_plain ht []
    rwa [List.flatMap_nil, List.append_nil]
  | append_singleton ts x =>
    have htrim := rdropWhile_plain (hts x (by simp)) (t ++ ts.flatMap (32 :: ·) ++ [32])
    rw [List.flatMap_append, List.flatMap_singleton]
    simpa using htrim

end LatteC
