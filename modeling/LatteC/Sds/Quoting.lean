import LatteC.Sds.Split

/-!
# Quoting

What `sds_catrepr` writes, `sds_split_args` reads back, whatever the bytes are. Every escape sequence is
consumed by one turn of the loop that gets a token, so the loop is followed byte by byte. All that is
written can be printed, so there is no NUL in it to end the line.
-/

namespace LatteC

/-! ## A byte -/

theorem isHexDigit_hexDigitChar : ∀ d < 16, isHexDigit (hexDigitChar d) = true := by decide

theorem hexDigitToInt_hexDigitChar : ∀ d < 16, hexDigitToInt (hexDigitChar d) = d := by decide

/-- The two digits that are written for a byte. -/
theorem sdsHexEscape_hexDigitChar (c : UInt8) (p : List UInt8) :
    sdsHexEscape (120 :: hexDigitChar (c.toNat / 16) :: hexDigitChar (c.toNat % 16) :: p) = some c := by
  have hlt := c.toNat_lt
  have hhigh : c.toNat / 16 < 16 := by omega
  have hlow : c.toNat % 16 < 16 := by omega
  have hsum : c.toNat / 16 * 16 + c.toNat % 16 = c.toNat := by omega
  rw [sdsHexEscape, if_pos ⟨rfl, isHexDigit_hexDigitChar _ hhigh, isHexDigit_hexDigitChar _ hlow⟩,
    hexDigitToInt_hexDigitChar _ hhigh, hexDigitToInt_hexDigitChar _ hlow, hsum, UInt8.ofNat_toNat]

theorem sdsHexEscape_of_ne {x : UInt8} (hx : x ≠ 120) (p : List UInt8) : sdsHexEscape (x :: p) = none := by
  cases p with
  | nil => rfl
  | cons a p =>
    cases p with
    | nil => rfl
    | cons b p => exact if_neg fun h ↦ hx h.1

/-- A backslash in front of a character. -/
theorem sdsToken_backslash {x : UInt8} (hx : x ≠ 120) (current p : List UInt8) :
    sdsToken .inq current 0 (92 :: x :: p) = sdsToken .inq (current ++ [sdsUnescape x]) 0 p := by
  rw [sdsToken, if_pos ⟨rfl, List.cons_ne_nil x p⟩, sdsHexEscape_of_ne hx]
  rfl

/-- A byte in digits. -/
theorem sdsToken_digits (c : UInt8) (current p : List UInt8) :
    sdsToken .inq current 0
        (92 :: 120 :: hexDigitChar (c.toNat / 16) :: hexDigitChar (c.toNat % 16) :: p) =
      sdsToken .inq (current ++ [c]) 0 p := by
  rw [sdsToken, if_pos ⟨rfl, List.cons_ne_nil _ _⟩, sdsHexEscape_hexDigitChar]
  rfl

/-- **One byte is read back.** -/
theorem sdsToken_sdsReprByte (c : UInt8) (current p : List UInt8) :
    sdsToken .inq current 0 (sdsReprByte c ++ p) = sdsToken .inq (current ++ [c]) 0 p := by
  rw [sdsReprByte]
  split_ifs with hquote hn hr ht ha hb hprint
  · -- the backslash and the quote stand for themselves
    obtain rfl | rfl := hquote
    · exact sdsToken_backslash (by decide) current p
    · exact sdsToken_backslash (by decide) current p
  · rw [hn]
    exact sdsToken_backslash (by decide) current p
  · rw [hr]
    exact sdsToken_backslash (by decide) current p
  · rw [ht]
    exact sdsToken_backslash (by decide) current p
  · rw [ha]
    exact sdsToken_backslash (by decide) current p
  · rw [hb]
    exact sdsToken_backslash (by decide) current p
  · obtain ⟨hbackslash, hdouble⟩ := not_or.mp hquote
    rw [List.singleton_append, sdsToken, if_neg fun h ↦ hbackslash h.1, if_neg hdouble]
  · exact sdsToken_digits c current p

theorem isprint_hexDigitChar : ∀ d < 16, isprint (hexDigitChar d) = true := by decide

/-- What is written for a byte can be printed. -/
theorem isprint_of_mem_sdsReprByte {c x : UInt8} (h : x ∈ sdsReprByte c) : isprint x = true := by
  have hlt := c.toNat_lt
  have hhigh : isprint (hexDigitChar (c.toNat / 16)) = true := isprint_hexDigitChar _ (by omega)
  have hlow : isprint (hexDigitChar (c.toNat % 16)) = true := isprint_hexDigitChar _ (by omega)
  have hescape : ∀ d : UInt8, isprint d = true → ∀ y ∈ [92, d], isprint y = true := by
    intro d hd
    rw [List.forall_mem_cons, List.forall_mem_singleton]
    exact ⟨by decide, hd⟩
  rw [sdsReprByte] at h
  split_ifs at h with hquote hn hr ht ha hb hprint
  · obtain rfl | rfl := hquote
    · exact hescape 92 (by decide) x h
    · exact hescape 34 (by decide) x h
  · exact hescape 110 (by decide) x h
  · exact hescape 114 (by decide) x h
  · exact hescape 116 (by decide) x h
  · exact hescape 97 (by decide) x h
  · exact hescape 98 (by decide) x h
  · rw [List.mem_singleton] at h
    rw [h, hprint]
  · have hsplit : x ∈ [92, 120] ++ [hexDigitChar (c.toNat / 16), hexDigitChar (c.toNat % 16)] := h
    obtain h | h := List.mem_append.mp hsplit
    · exact hescape 120 (by decide) x h
    · rw [List.mem_cons, List.mem_singleton] at h
      obtain rfl | rfl := h
      · exact hhigh
      · exact hlow

/-! ## A string -/

theorem sdsCatrepr_append (s p : List UInt8) : sdsCatrepr s p = s ++ sdsCatrepr [] p := by
  simp only [sdsCatrepr, List.append_assoc, List.nil_append]

theorem isprint_of_mem_sdsCatrepr {t : List UInt8} {x : UInt8} (h : x ∈ sdsCatrepr [] t) :
    isprint x = true := by
  rw [sdsCatrepr, List.mem_append, List.mem_append, List.mem_singleton, List.nil_append,
    List.mem_singleton, List.mem_flatMap] at h
  obtain (rfl | ⟨c, -, hc⟩) | rfl := h
  · rfl
  · exact isprint_of_mem_sdsReprByte hc
  · rfl

/-- The bytes up to the closing quote. -/
theorem sdsToken_flatMap_sdsReprByte (t current p : List UInt8) :
    sdsToken .inq current 0 (t.flatMap sdsReprByte ++ 34 :: p) = sdsCloseQuote (current ++ t) p := by
  induction t generalizing current with
  | nil =>
    rw [List.flatMap_nil, List.nil_append, List.append_nil, sdsToken, if_neg fun h ↦ absurd h.1 (by decide),
      if_pos rfl]
  | cons c t ih =>
    rw [List.flatMap_cons, List.append_assoc, sdsToken_sdsReprByte, ih, List.append_assoc,
      List.singleton_append]

/-- What may follow a closing quote. -/
def SpaceOrEnd (p : List UInt8) : Prop := (p.head?.map isspace).getD true = true

/-- **One string is read back**, and what follows it is left. -/
theorem sdsToken_sdsCatrepr (t : List UInt8) {p : List UInt8} (hp : SpaceOrEnd p) :
    sdsToken .none [] 0 (sdsCatrepr [] t ++ p) = some (t, p) := by
  have hshape : sdsCatrepr [] t ++ p = 34 :: (t.flatMap sdsReprByte ++ 34 :: p) := by
    simp only [sdsCatrepr, List.nil_append, List.append_assoc, List.cons_append]
  rw [hshape, sdsToken, if_neg (by decide), if_pos rfl, sdsToken_flatMap_sdsReprByte, List.nil_append,
    sdsCloseQuote]
  exact if_pos hp

/-- The quoted string is the first of the arguments. -/
theorem sdsArgsLoop_sdsCatrepr (t : List UInt8) {p : List UInt8} (hp : SpaceOrEnd p) (fuel : ℕ) :
    sdsArgsLoop (fuel + 1) (sdsCatrepr [] t ++ p) = (sdsArgsLoop fuel p).map (t :: ·) := by
  have hspace : (sdsCatrepr [] t ++ p).dropWhile isspace = sdsCatrepr [] t ++ p :=
    List.dropWhile_cons_of_neg (by decide)
  have hcons : sdsCatrepr [] t ++ p = 34 :: (t.flatMap sdsReprByte ++ [34] ++ p) := rfl
  rw [sdsArgsLoop_of_cons (hspace.trans hcons), ← hcons, sdsToken_sdsCatrepr t hp, Option.bind_some]

/-! ## Arguments -/

/-- Quoted strings with a space in front of each. -/
def quotedArgs (ts : List (List UInt8)) : List UInt8 := ts.flatMap fun t ↦ 32 :: sdsCatrepr [] t

theorem quotedArgs_cons (t : List UInt8) (ts : List (List UInt8)) :
    quotedArgs (t :: ts) = 32 :: (sdsCatrepr [] t ++ quotedArgs ts) := rfl

theorem spaceOrEnd_quotedArgs (ts : List (List UInt8)) : SpaceOrEnd (quotedArgs ts) := by
  cases ts with
  | nil => rfl
  | cons t ts => exact (rfl : isspace 32 = true)

theorem sdsArgsLoop_space (fuel : ℕ) (p : List UInt8) :
    sdsArgsLoop fuel (32 :: p) = sdsArgsLoop fuel p := by
  rw [← sdsArgsLoop_dropWhile, List.dropWhile_cons_of_pos (by decide), sdsArgsLoop_dropWhile]

/-- **The arguments are read back**, one in each turn of the loop. Spaces may follow them. -/
theorem sdsArgsLoop_quotedArgs {ts : List (List UInt8)} {fuel : ℕ} (hfuel : ts.length < fuel) :
    sdsArgsLoop fuel (quotedArgs ts) = some ts := by
  induction ts generalizing fuel with
  | nil =>
    obtain ⟨fuel, rfl⟩ : ∃ k, fuel = k + 1 := ⟨fuel - 1, by omega⟩
    exact sdsArgsLoop_of_nil rfl fuel
  | cons t ts ih =>
    rw [List.length_cons] at hfuel
    obtain ⟨fuel, rfl⟩ : ∃ k, fuel = k + 1 := ⟨fuel - 1, by omega⟩
    rw [quotedArgs_cons, sdsArgsLoop_space, sdsArgsLoop_sdsCatrepr t (spaceOrEnd_quotedArgs ts),
      ih (by omega), Option.map_some]

theorem isprint_of_mem_quotedArgs {ts : List (List UInt8)} {x : UInt8} (h : x ∈ quotedArgs ts) :
    isprint x = true := by
  obtain ⟨t, -, hmem⟩ := List.mem_flatMap.mp h
  obtain rfl | hmem := List.mem_cons.mp hmem
  · rfl
  · exact isprint_of_mem_sdsCatrepr hmem

theorem zero_notMem_quotedArgs (ts : List (List UInt8)) : 0 ∉ quotedArgs ts :=
  fun h ↦ absurd (isprint_of_mem_quotedArgs h) (by decide)

/-- A quoted string has its two quotes, and a space in front. -/
theorem two_mul_length_le_length_quotedArgs (ts : List (List UInt8)) :
    2 * ts.length ≤ (quotedArgs ts).length := by
  induction ts with
  | nil => exact Nat.zero_le _
  | cons t ts ih =>
    have hquotes : 1 ≤ (sdsCatrepr [] t).length := Nat.succ_pos _
    rw [quotedArgs_cons, List.length_cons, List.length_cons, List.length_append]
    omega

/-! ## Behind a plain argument -/

/-- A separator ends a plain argument. -/
theorem sdsToken_plain_space {k : List UInt8} (hk : ∀ c ∈ k, ¬ IsSpecial c) (current p : List UInt8) :
    sdsToken .none current 0 (k ++ 32 :: p) = some (current ++ k, p) := by
  rw [sdsToken_plain_append hk, sdsToken, if_pos (Or.inl rfl)]

theorem zero_notMem_of_isPlain {k : List UInt8} (hk : IsPlain k) : 0 ∉ k :=
  fun h ↦ hk.not_special 0 h (by decide)

/-- **A plain argument and quoted ones.** -/
theorem sdsArgs_plain_quotedArgs {k : List UInt8} (hk : IsPlain k) (vs : List (List UInt8)) :
    sdsArgs (k ++ quotedArgs vs) = some (k :: vs) := by
  cases vs with
  | nil =>
    rw [quotedArgs, List.flatMap_nil, List.append_nil]
    exact sdsArgs_of_isPlain hk
  | cons v vs =>
    have hnul : 0 ∉ k ++ quotedArgs (v :: vs) := by
      rw [List.mem_append, not_or]
      exact ⟨zero_notMem_of_isPlain hk, zero_notMem_quotedArgs _⟩
    have hlength := two_mul_length_le_length_quotedArgs (v :: vs)
    rw [List.length_cons] at hlength
    rw [sdsArgs, cString_eq_self hnul]
    obtain ⟨c, q, rfl⟩ : ∃ c q, k = c :: q := by
      cases k with
      | nil => cases hk.head
      | cons c q => exact ⟨c, q, rfl⟩
    have hc : isspace c = false := Option.some.inj hk.head
    have hspace : (c :: q ++ quotedArgs (v :: vs)).dropWhile isspace = c :: (q ++ quotedArgs (v :: vs)) :=
      List.dropWhile_cons_of_neg (by rw [hc]; decide)
    have htoken : sdsToken .none [] 0 (c :: (q ++ quotedArgs (v :: vs))) =
        some (c :: q, sdsCatrepr [] v ++ quotedArgs vs) :=
      sdsToken_plain_space hk.not_special [] _
    rw [sdsArgsLoop_of_cons hspace, htoken, Option.bind_some, ← sdsArgsLoop_space, ← quotedArgs_cons,
      sdsArgsLoop_quotedArgs, Option.map_some]
    rw [List.length_cons, List.length_append]
    omega

/-! ## The round trip -/

/-- The spaces are between the strings. -/
theorem quotedArgs_eq_intercalate (t : List UInt8) (ts : List (List UInt8)) :
    quotedArgs (t :: ts) = 32 :: [32].intercalate ((t :: ts).map (sdsCatrepr [])) := by
  induction ts generalizing t with
  | nil => simp [quotedArgs, List.intercalate]
  | cons u us ih =>
    rw [quotedArgs_cons, ih u]
    simp [List.intercalate]

/-- Strings that are quoted and joined with single spaces are the arguments of the line. -/
theorem sdsArgs_intercalate_sdsCatrepr (ts : List (List UInt8)) :
    sdsArgs ([32].intercalate (ts.map (sdsCatrepr []))) = some ts := by
  cases ts with
  | nil => rfl
  | cons t ts =>
    have hquoted := quotedArgs_eq_intercalate t ts
    have hlength := two_mul_length_le_length_quotedArgs (t :: ts)
    have hnul := zero_notMem_quotedArgs (t :: ts)
    have hsplit := @sdsArgsLoop_quotedArgs (t :: ts)
    generalize [32].intercalate ((t :: ts).map (sdsCatrepr [])) = line at hquoted ⊢
    rw [hquoted, List.length_cons, List.length_cons] at hlength
    rw [hquoted, List.mem_cons, not_or] at hnul
    rw [hquoted] at hsplit
    rw [sdsArgs, cString_eq_self hnul.2, ← sdsArgsLoop_space]
    exact hsplit (by rw [List.length_cons]; omega)

/-- **Quoting.** Strings that are quoted and joined with single spaces are split into the same strings, if and
only if their number is an `int`. -/
theorem sdsSplitArgs_intercalate_sdsCatrepr (ts : List (List UInt8)) :
    sdsSplitArgs ([32].intercalate (ts.map (sdsCatrepr []))) = some (some ts) ↔ ts.length < 2 ^ 31 := by
  rw [sdsSplitArgs_eq_some_iff]
  exact and_iff_right (sdsArgs_intercalate_sdsCatrepr ts)

/-- 2³¹ empty strings. -/
theorem not_sdsSplitArgs_intercalate_sdsCatrepr :
    ¬∀ ts : List (List UInt8), sdsSplitArgs ([32].intercalate (ts.map (sdsCatrepr []))) = some (some ts) := by
  intro h
  have hlength := (sdsSplitArgs_eq_some_iff.mp (h (List.replicate (2 ^ 31) []))).2
  rw [List.length_replicate] at hlength
  exact absurd hlength (lt_irrefl _)

end LatteC
