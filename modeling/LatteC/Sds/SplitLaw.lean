import LatteC.Foundation.Pieces
import LatteC.Sds.Split

/-!
# The law of splitting

The array of tokens of `sds_split_len` starts with five slots and is doubled whenever the next token and the
final one might not fit, so there is room for every write, until 5 · 2²⁸ slots are not enough. That number
cannot be doubled in an `int`. As long as it need not be, what is returned are the pieces of the string.
-/

namespace LatteC

open Pieces

/-! ## Slots -/

/-- The most slots that five can be doubled to. -/
def maxSlots : ℕ := 5 * 2 ^ 28

/-- Five, doubled some times. -/
def IsSlots (slots : ℕ) : Prop := ∃ k ≤ 28, slots = 5 * 2 ^ k

/-- Growing leaves room for two tokens, unless there are as many slots as there can be. -/
theorem growSlots_of_lt {elements slots : ℕ} (hslots : IsSlots slots) (hroom : elements < slots)
    (h : elements + 1 < maxSlots) :
    ∃ slots', growSlots elements slots = some slots' ∧ IsSlots slots' ∧ elements + 1 < slots' := by
  obtain ⟨k, hk, rfl⟩ := hslots
  rw [growSlots]
  split_ifs with hsmall hint
  · have hdouble : 5 * 2 ^ k * 2 = 5 * 2 ^ (k + 1) := by rw [Nat.mul_assoc, ← pow_succ]
    refine ⟨_, rfl, ⟨k + 1, ?_, hdouble⟩, by omega⟩
    by_contra hlarge
    have hle : 2 ^ 29 ≤ 2 ^ (k + 1) := Nat.pow_le_pow_right (by decide) (by omega)
    omega
  · -- there are as many slots as there can be
    have hmax : 28 ≤ k := by
      by_contra hlt
      have hle : 2 ^ k ≤ 2 ^ 27 := Nat.pow_le_pow_right (by decide) (by omega)
      omega
    obtain rfl : k = 28 := by omega
    rw [maxSlots] at h
    omega
  · exact ⟨_, rfl, ⟨k, hk, rfl⟩, by omega⟩

theorem IsSlots.le {slots : ℕ} (h : IsSlots slots) : slots ≤ maxSlots := by
  obtain ⟨k, hk, rfl⟩ := h
  exact Nat.mul_le_mul_left 5 (Nat.pow_le_pow_right (by decide) hk)

theorem growSlots_eq_none {elements slots : ℕ} (hslots : IsSlots slots) (hroom : elements < slots)
    (h : maxSlots ≤ elements + 1) : growSlots elements slots = none := by
  obtain rfl : slots = maxSlots := le_antisymm hslots.le (by omega)
  rw [growSlots, if_pos (by omega), if_neg (by decide)]

/-- There are slots for the pieces behind so many tokens. The last slot is only used for a final piece without
room for a separator. -/
def SlotsSuffice (sep : List UInt8) (elements : ℕ) (ps : List (List UInt8)) : Prop :=
  elements + ps.length < maxSlots ∨ elements + ps.length = maxSlots ∧ (ps.getLastD []).length < sep.length

theorem slotsSuffice_cons {sep : List UInt8} {elements : ℕ} {t : List UInt8} {ps : List (List UInt8)}
    (h : ps ≠ []) : SlotsSuffice sep elements (t :: ps) ↔ SlotsSuffice sep (elements + 1) ps := by
  obtain ⟨p, ps, rfl⟩ := List.exists_cons_of_ne_nil h
  have hlength : elements + (t :: p :: ps).length = elements + 1 + (p :: ps).length := by
    rw [List.length_cons]
    omega
  rw [SlotsSuffice, SlotsSuffice, hlength]
  rfl

/-! ## The loop -/

section Loop

variable {sep : List UInt8}

theorem take_eq_iff_isPrefix {rest : List UInt8} : rest.take sep.length = sep ↔ sep <+: rest := by
  rw [List.prefix_iff_eq_take, eq_comm]

/-- All slots are taken, but one: the final piece must be the next. -/
theorem not_slotsSuffice (hsep : sep ≠ []) {elements : ℕ} {rest : List UInt8}
    (helements : maxSlots ≤ elements + 1) (hrest : sep.length ≤ rest.length) :
    ¬SlotsSuffice sep elements (pieces sep 0 [] rest) := by
  obtain ⟨n, hn⟩ := @leftmost_pieces _ sep _ hsep 0 [] rest fun i hi ↦ absurd hi (Nat.not_lt_zero i)
  have hlength := hn.length_eq
  have hjoin := hn.intercalate_eq
  rintro (hlt | ⟨heq, hlast⟩)
  · omega
  · have hone : (pieces sep 0 [] rest).length = 1 := by omega
    obtain ⟨t, ht⟩ := List.length_eq_one_iff.mp hone
    rw [ht, List.intercalate_singleton, List.nil_append, List.drop_zero] at hjoin
    rw [ht, hjoin] at hlast
    exact absurd hrest (Nat.not_le.mpr hlast)

/-- **The loop** returns the pieces if there are slots for them, and fails if there are not. In the middle of a
piece there are always slots for the next two. -/
theorem sdsSplitLoop_eq (hsep : sep ≠ []) {fuel elements slots : ℕ} {token rest : List UInt8}
    (hfuel : rest.length < fuel) (hslots : IsSlots slots) (hroom : elements < slots)
    (htoken : elements + 1 < maxSlots ∨ token = []) :
    (SlotsSuffice sep elements (pieces sep 0 token rest) →
      sdsSplitLoop sep fuel elements slots token rest =
        some (pieces sep 0 token rest, elements + (pieces sep 0 token rest).length)) ∧
    (¬SlotsSuffice sep elements (pieces sep 0 token rest) →
      sdsSplitLoop sep fuel elements slots token rest = none) := by
  induction fuel generalizing elements slots token rest with
  | zero => exact absurd hfuel (Nat.not_lt_zero _)
  | succ fuel ih =>
    rw [sdsSplitLoop]
    by_cases hshort : rest.length < sep.length
    · rw [if_pos hshort, if_pos hroom, pieces_of_length_lt sep hshort]
      refine ⟨fun _ ↦ rfl, fun hnot ↦ absurd ?_ hnot⟩
      have hle := hslots.le
      rcases htoken with hlt | rfl
      · exact Or.inl hlt
      · rcases Nat.lt_or_eq_of_le (show elements + 1 ≤ maxSlots by omega) with hlt | heq
        · exact Or.inl hlt
        · exact Or.inr ⟨heq, hshort⟩
    · rw [if_neg hshort]
      by_cases hmax : elements + 1 < maxSlots
      · obtain ⟨slots', hgrow, hslots', hroom'⟩ := growSlots_of_lt hslots hroom hmax
        rw [hgrow, Option.bind_some]
        by_cases hprefix : sep <+: rest
        · -- the next token is complete
          have hdrop : (rest.drop sep.length).length < fuel := by
            have hpos := List.length_pos_of_ne_nil hsep
            rw [List.length_drop]
            omega
          obtain ⟨hsome, hnone⟩ := ih hdrop hslots' hroom' (Or.inr rfl)
          rw [if_pos (take_eq_iff_isPrefix.mpr hprefix), if_pos (Nat.lt_of_succ_lt hroom'),
            pieces_of_isPrefix sep hsep hprefix, slotsSuffice_cons (pieces_ne_nil sep 0 [] _)]
          refine ⟨fun h ↦ ?_, fun h ↦ by rw [hnone h, Option.map_none]⟩
          rw [hsome h, Option.map_some, List.length_cons, Nat.add_right_comm]
          rfl
        · rw [if_neg (take_eq_iff_isPrefix.not.mpr hprefix)]
          cases rest with
          | nil => exact absurd (List.length_pos_of_ne_nil hsep) hshort
          | cons c rest =>
            rw [pieces_of_not_isPrefix sep hprefix]
            exact ih (Nat.lt_of_succ_lt_succ hfuel) hslots' (Nat.lt_of_succ_lt hroom') (Or.inl hmax)
      · obtain rfl : token = [] := htoken.resolve_left hmax
        rw [growSlots_eq_none hslots hroom (Nat.le_of_not_lt hmax), Option.bind_none]
        refine ⟨fun h ↦ absurd h ?_, fun _ ↦ rfl⟩
        exact not_slotsSuffice hsep (Nat.le_of_not_lt hmax) (Nat.le_of_not_lt hshort)

end Loop

/-! ## Splitting -/

section Split

variable {s sep : List UInt8}

/-- The string has fewer separators than there can be slots with one to spare, or just as many and then no room
for one more. -/
def HasSlots (s sep : List UInt8) : Prop := SlotsSuffice sep 0 (pieces sep 0 [] s)

theorem sdsSplitLen_eq (hs : s ≠ []) (hsep : sep ≠ []) :
    (HasSlots s sep → sdsSplitLen s sep = some (pieces sep 0 [] s, (pieces sep 0 [] s).length)) ∧
      (¬HasSlots s sep → sdsSplitLen s sep = none) := by
  have hpos := List.length_pos_of_ne_nil hsep
  have hlength : ¬s.length = 0 := fun h ↦ hs (List.length_eq_zero_iff.mp h)
  have hloop := @sdsSplitLoop_eq sep hsep (s.length + 1) 0 5 [] s (Nat.lt_succ_self _)
    ⟨0, Nat.zero_le _, rfl⟩ (by decide) (Or.inr rfl)
  rw [Nat.zero_add] at hloop
  rw [sdsSplitLen, if_neg (by omega), if_neg hlength]
  exact hloop

/-- The tokens are the string, split at its leftmost separators, of which there is one less. -/
structure IsSplit (s sep : List UInt8) (tokens : List (List UInt8)) (count : ℕ) : Prop where
  join : sep.intercalate tokens = s
  not_infix : ∀ t ∈ tokens, ¬sep <:+: t
  length : tokens.length = count
  leftmost : ∃ n, Leftmost sep s tokens n ∧ count = n + 1

/-- `sds_split_len` splits the string, and the array of tokens is large enough for every write. -/
def Splits (s sep : List UInt8) : Prop :=
  ∃ tokens count, sdsSplitLen s sep = some (tokens, count) ∧ IsSplit s sep tokens count

theorem isSplit_pieces (hsep : sep ≠ []) (s : List UInt8) :
    IsSplit s sep (pieces sep 0 [] s) (pieces sep 0 [] s).length := by
  obtain ⟨n, hn⟩ := @leftmost_pieces _ sep _ hsep 0 [] s fun i hi ↦ absurd hi (Nat.not_lt_zero i)
  exact ⟨hn.intercalate_eq, hn.not_infix hsep, rfl, n, hn, hn.length_eq⟩

/-- **The law of splitting** holds for a string and a separator, if and only if there are slots for the
tokens. -/
theorem splits_iff (hs : s ≠ []) (hsep : sep ≠ []) : Splits s sep ↔ HasSlots s sep := by
  obtain ⟨hsome, hnone⟩ := sdsSplitLen_eq hs hsep
  constructor
  · rintro ⟨tokens, count, hsplit, -⟩
    by_contra hslots
    rw [hnone hslots] at hsplit
    cases hsplit
  · exact fun hslots ↦ ⟨_, _, hsome hslots, isSplit_pieces hsep s⟩

/-- `"aa"` in `"aaa"`. -/
theorem splits_overlapping : Splits [97, 97, 97] [97, 97] :=
  (splits_iff (List.cons_ne_nil _ _) (List.cons_ne_nil _ _)).mpr (Or.inl (by decide))

end Split

/-! ## Single characters -/

/-- The pieces between single characters. -/
theorem pieces_singleton (c : UInt8) (token rest : List UInt8) :
    pieces [c] 0 token rest = splitChar c token rest := by
  induction rest generalizing token with
  | nil => rfl
  | cons x rest ih =>
    by_cases hx : x = c
    · subst hx
      have hprefix : [x] <+: x :: rest := ⟨rest, rfl⟩
      rw [pieces_of_isPrefix [x] (List.cons_ne_nil x []) hprefix, splitChar, if_pos rfl, ← ih]
      rfl
    · have hprefix : ¬[c] <+: x :: rest := fun h ↦ hx (List.cons_prefix_cons.mp h).1.symm
      rw [pieces_of_not_isPrefix _ hprefix, splitChar, if_neg hx, ih]

/-- The lines of a text, up to their newlines. An empty text has none. -/
def textLines (text : List UInt8) : List (List UInt8) := if text = [] then [] else splitChar 10 [] text

/-- There are slots for the lines of the text. -/
def LinesFit (text : List UInt8) : Prop := HasSlots text [10]

theorem sdsSplitLen_newline {text : List UInt8} (h : LinesFit text) :
    sdsSplitLen text [10] = some (textLines text, (textLines text).length) := by
  by_cases hne : text = []
  · subst hne
    rfl
  · rw [(sdsSplitLen_eq hne (List.cons_ne_nil 10 [])).1 h, textLines, if_neg hne, pieces_singleton]

theorem linesFit_nil : LinesFit [] := Or.inl (by decide)

theorem sdsSplitLen_newline_eq_none {text : List UInt8} (h : ¬LinesFit text) :
    sdsSplitLen text [10] = none := by
  refine (sdsSplitLen_eq ?_ (List.cons_ne_nil 10 [])).2 h
  rintro rfl
  exact h linesFit_nil

/-- What is split are the lines. -/
theorem eq_textLines_of_sdsSplitLen {text : List UInt8} {lines : List (List UInt8)} {n : ℕ}
    (h : sdsSplitLen text [10] = some (lines, n)) : LinesFit text ∧ lines = textLines text := by
  by_cases hfit : LinesFit text
  · rw [sdsSplitLen_newline hfit] at h
    exact ⟨hfit, (Prod.mk.inj (Option.some.inj h)).1.symm⟩
  · rw [sdsSplitLen_newline_eq_none hfit] at h
    cases h

/-- The lines are as many as the slots, or less, and with as many the last one is empty. -/
theorem linesFit_iff {text : List UInt8} : LinesFit text ↔ (splitChar 10 [] text).length < maxSlots ∨
    (splitChar 10 [] text).length = maxSlots ∧ (splitChar 10 [] text).getLastD [] = [] := by
  rw [LinesFit, HasSlots, SlotsSuffice, pieces_singleton, Nat.zero_add, List.length_singleton, Nat.lt_one_iff,
    List.length_eq_zero_iff]

theorem length_splitChar (c : UInt8) (token rest : List UInt8) :
    (splitChar c token rest).length = rest.count c + 1 := by
  induction rest generalizing token with
  | nil => rfl
  | cons x rest ih =>
    rw [splitChar]
    split_ifs with hx
    · rw [hx, List.count_cons_self, List.length_cons, ih]
    · rw [ih, List.count_cons_of_ne hx]

/-- So many newlines leave room for the lines between them. -/
theorem linesFit_of_count_lt {text : List UInt8} (h : text.count 10 + 1 < maxSlots) : LinesFit text :=
  linesFit_iff.mpr (Or.inl (by rwa [length_splitChar]))

theorem linesFit_of_notMem {text : List UInt8} (h : 10 ∉ text) : LinesFit text := by
  refine linesFit_of_count_lt ?_
  rw [List.count_eq_zero_of_not_mem h]
  decide

/-- One line. -/
theorem sdsSplitLen_of_notMem {text : List UInt8} (hne : text ≠ []) (h : 10 ∉ text) :
    sdsSplitLen text [10] = some ([text], 1) := by
  rw [sdsSplitLen_newline (linesFit_of_notMem h), textLines, if_neg hne, splitChar_of_notMem h, List.nil_append]
  rfl

theorem length_textLines_le {text : List UInt8} (h : LinesFit text) : (textLines text).length ≤ maxSlots := by
  rw [textLines]
  split_ifs
  · exact Nat.zero_le _
  · rcases linesFit_iff.mp h with hlt | ⟨heq, -⟩
    · exact hlt.le
    · exact heq.le

/-- Texts with a newline between them are shorter than both together. -/
theorem linesFit_of_append {a b : List UInt8} (h : LinesFit (a ++ 10 :: b)) : LinesFit a ∧ LinesFit b := by
  rw [linesFit_iff, length_splitChar] at h
  have hcount : (a ++ 10 :: b).count 10 = a.count 10 + (b.count 10 + 1) := by
    rw [List.count_append, List.count_cons_self]
  exact ⟨linesFit_of_count_lt (by omega), linesFit_of_count_lt (by omega)⟩

/-! ## Too many separators -/

/-- Separators only. -/
theorem splitChar_replicate (c : UInt8) (n : ℕ) :
    splitChar c [] (List.replicate n c) = List.replicate (n + 1) [] := by
  induction n with
  | zero => rfl
  | succ n ih => rw [List.replicate_succ, splitChar, if_pos rfl, ih, ← List.replicate_succ]

theorem not_splits_replicate {n : ℕ} (h : maxSlots ≤ n) : ¬Splits (List.replicate n 44) [44] := by
  have hpos : 0 < maxSlots := by decide
  have hne : List.replicate n (44 : UInt8) ≠ [] := by
    rw [ne_eq, List.replicate_eq_nil_iff]
    omega
  have hslots : ¬HasSlots (List.replicate n 44) [44] := by
    rw [HasSlots, SlotsSuffice, pieces_singleton, splitChar_replicate, List.length_replicate]
    omega
  rintro ⟨tokens, count, hsplit, -⟩
  rw [(sdsSplitLen_eq hne (List.cons_ne_nil 44 [])).2 hslots] at hsplit
  cases hsplit

/-- 5 · 2²⁸ commas. -/
theorem not_splits_commas : ¬Splits (List.replicate (5 * 2 ^ 28) 44) [44] := not_splits_replicate le_rfl

end LatteC
