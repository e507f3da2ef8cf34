import LatteC.Json.Meaning

/-!
# Literals

Of the six literals the tokener reads three, in any letter case. `null` is compared with the wrong bytes, and
an infinity is made as soon as its first letter is there, so that the letter alone is read as an infinity and
the whole word is not.
-/

namespace LatteC

section Literals

variable {D : Type} {E : JsonEnv D}

/-- The letters of a word in lower case. -/
def JsonWord.lower (w : JsonWord) : List UInt8 := w.letters.map tolower

/-- What a literal stands for, in any letter case. -/
def jsonLiteral (E : JsonEnv D) (w : JsonWord) : Option (Value D) :=
  if w.minus then
    if w.lower = jsonInfStr.map tolower then some (.double E.negInfinity) else none
  else if w.lower = jsonNullStr then some .null
  else if w.lower = jsonTrueStr then some (.boolean true)
  else if w.lower = jsonFalseStr then some (.boolean false)
  else if w.lower = jsonNanStr.map tolower then some (.double E.nan)
  else if w.lower = jsonInfStr.map tolower then some (.double E.infinity)
  else none

/-- `true`, `false` and `NaN`. -/
def JsonWord.IsRead (w : JsonWord) : Prop :=
  w.minus = false ∧ (w.lower = jsonTrueStr ∨ w.lower = jsonFalseStr ∨
    w.lower = jsonNanStr.map tolower)

/-- The first letter of an infinity. -/
def JsonWord.IsInitial (w : JsonWord) : Prop := w.lower = ['i'.toUInt8]

/-- A word, or an array. -/
def JsonDoc.IsWordOrArray : JsonDoc → Prop
  | .word _ => True
  | .array _ _ => True
  | _ => False

/-- The literals of an array come out, and an array with another word in it is not accepted. -/
def LiteralsRead (E : JsonEnv D) (d : JsonDoc) : Prop :=
  (∀ v, d.meaning (jsonLiteral E) (numberValue E) = some v → SdsToJson E d.render (.accept v)) ∧
    (¬d.All (JsonDoc.WordIs fun w ↦ (jsonLiteral E w).isSome) → ¬JsonAccepts E d.render)

/-- A text that is neither too long nor too deep. -/
def JsonDoc.Fits (d : JsonDoc) : Prop := d.render.length < 2 ^ 31 ∧ d.levels < 32

/-! ## Words -/

theorem wordValue_eq (w : JsonWord) :
    wordValue E w =
      if w.minus then if w.lower = ['i'.toUInt8] then some (.double E.negInfinity) else none
      else if w.lower = ['i'.toUInt8] then some (.double E.infinity)
      else if w.lower = jsonNanStr.map tolower then some (.double E.nan)
      else if w.lower = jsonTrueStr then some (.boolean true)
      else if w.lower = jsonFalseStr then some (.boolean false)
      else none :=
  rfl

theorem wordValue_of_isRead {w : JsonWord} (h : w.IsRead) : wordValue E w = jsonLiteral E w := by
  obtain ⟨hminus, hlower⟩ := h
  rw [wordValue_eq, jsonLiteral, hminus]
  obtain hlower | hlower | hlower := hlower <;> rw [hlower] <;> rfl

theorem isSome_jsonLiteral_of_isRead {w : JsonWord} (h : w.IsRead) : (jsonLiteral E w).isSome := by
  obtain ⟨hminus, hlower⟩ := h
  rw [jsonLiteral, hminus]
  obtain hlower | hlower | hlower := hlower <;> rw [hlower] <;> rfl

theorem isSome_wordValue_iff (w : JsonWord) : (wordValue E w).isSome ↔ w.IsRead ∨ w.IsInitial := by
  rw [wordValue_eq, JsonWord.IsRead, JsonWord.IsInitial]
  cases w.minus with
  | true =>
    simp only [if_true, reduceCtorEq, false_and, false_or]
    split_ifs with h <;> simp [h]
  | false =>
    simp only [Bool.false_eq_true, if_false, true_and]
    split_ifs with h h h h <;> simp [*]

theorem not_isInitial_of_isSome {w : JsonWord} (h : (jsonLiteral E w).isSome) : ¬w.IsInitial := by
  intro hinitial
  rw [jsonLiteral, hinitial] at h
  cases hminus : w.minus with
  | true =>
    rw [hminus] at h
    exact Bool.false_ne_true h
  | false =>
    rw [hminus] at h
    exact Bool.false_ne_true h

/-! ## Arrays of words -/

section Arrays

variable {d : JsonDoc}

theorem noString_of_isWordOrArray (h : d.All JsonDoc.IsWordOrArray) : d.All JsonDoc.NoString := by
  refine h.imp fun d hd ↦ ?_
  cases d <;> trivial

/-- In an array of words only the words decide. -/
theorem all_meant_iff (h : d.All JsonDoc.IsWordOrArray) {word : JsonWord → Option (Value D)}
    {number : JsonNumber → Option (Value D)} :
    d.All (JsonDoc.Meant word number) ↔ d.All (JsonDoc.WordIs fun w ↦ (word w).isSome) := by
  constructor
  · refine fun hmeant ↦ hmeant.imp fun d hd ↦ ?_
    cases d <;> first | exact hd | trivial
  · refine fun hwords ↦ JsonDoc.All.imp_and (fun d hd hword ↦ ?_) d h hwords
    cases d <;> first | exact hword | trivial

theorem isSome_meaning_words (h : d.All JsonDoc.IsWordOrArray) {word : JsonWord → Option (Value D)}
    {number : JsonNumber → Option (Value D)} :
    (d.meaning word number).isSome ↔ d.All (JsonDoc.WordIs fun w ↦ (word w).isSome) :=
  (d.isSome_meaning (noString_of_isWordOrArray h)).trans (all_meant_iff h)

theorem wordIs_imp {p q : JsonWord → Prop} (h : ∀ w, p w → q w) (d : JsonDoc) :
    JsonDoc.WordIs p d → JsonDoc.WordIs q d := by
  intro hd
  cases d <;> first | exact h _ hd | trivial

/-- An array of words is accepted with its meaning, where it is read at all. -/
theorem sdsToJson_words_iff (hE : E.Zeroed) (hd : d.IsContainer)
    (h : d.All JsonDoc.IsWordOrArray) (v : Value D) :
    SdsToJson E d.render (.accept v) ↔
      d.Fits ∧ d.meaning (wordValue E) (numberValue E) = some v := by
  have hfit : d.All (JsonDoc.TokensFit (2 ^ 31 - 10)) := by
    refine h.imp fun d hd ↦ ?_
    cases d <;> trivial
  have hdiffer : d.All JsonDoc.NamesDiffer := by
    refine h.imp fun d hd ↦ ?_
    cases d <;> trivial
  rw [sdsToJson_accept_iff hE hd (noString_of_isWordOrArray h) hfit, JsonDoc.Fits, and_assoc,
    and_iff_right hdiffer]

theorem jsonAccepts_words_iff (hE : E.Zeroed) (hd : d.IsContainer)
    (h : d.All JsonDoc.IsWordOrArray) :
    JsonAccepts E d.render ↔
      d.All (JsonDoc.WordIs fun w ↦ w.IsRead ∨ w.IsInitial) ∧ d.Fits := by
  have hwords : d.All (JsonDoc.WordIs fun w ↦ (wordValue E w).isSome) ↔
      d.All (JsonDoc.WordIs fun w ↦ w.IsRead ∨ w.IsInitial) :=
    ⟨fun hall ↦ hall.imp (wordIs_imp fun w ↦ (isSome_wordValue_iff w).mp),
      fun hall ↦ hall.imp (wordIs_imp fun w ↦ (isSome_wordValue_iff w).mpr)⟩
  rw [JsonAccepts, ← hwords, ← @isSome_meaning_words _ _ h _ (numberValue E),
    Option.isSome_iff_exists]
  simp only [sdsToJson_words_iff hE hd h]
  rw [exists_and_left, and_comm]

/-- **Literals.** Arrays of `true`, `false` and `NaN` come out, as long as they fit; arrays with a word that
is no literal are not accepted, unless all their words are read. -/
theorem literalsRead_iff (hE : E.Zeroed) (hd : d.IsContainer) (h : d.All JsonDoc.IsWordOrArray) :
    LiteralsRead E d ↔
      d.All (JsonDoc.WordIs JsonWord.IsRead) ∧ d.Fits ∨
        ¬d.All (JsonDoc.WordIs fun w ↦ (jsonLiteral E w).isSome) ∧
          ¬(d.All (JsonDoc.WordIs fun w ↦ w.IsRead ∨ w.IsInitial) ∧ d.Fits) := by
  have hreads := sdsToJson_words_iff hE hd h
  have haccepts := jsonAccepts_words_iff hE hd h
  have hmeaning : (d.meaning (jsonLiteral E) (numberValue E)).isSome ↔
      d.All (JsonDoc.WordIs fun w ↦ (jsonLiteral E w).isSome) := isSome_meaning_words h
  rw [LiteralsRead, haccepts]
  by_cases hlit : d.All (JsonDoc.WordIs fun w ↦ (jsonLiteral E w).isSome)
  · -- all words are literals: those that are read and not an initial are the three
    obtain ⟨v, hv⟩ := Option.isSome_iff_exists.mp (hmeaning.mpr hlit)
    constructor
    · rintro ⟨hread, -⟩
      have hboth := haccepts.mp ⟨v, hread v hv⟩
      refine .inl ⟨JsonDoc.All.imp_and (fun d hword hd ↦ ?_) d hlit hboth.1, hboth.2⟩
      cases d <;> first | exact hd.resolve_right (not_isInitial_of_isSome hword) | trivial
    · rintro (⟨hread, hfits⟩ | ⟨hnot, -⟩)
      · refine ⟨fun w hw ↦ (hreads w).mpr ⟨hfits, ?_⟩, fun hnot ↦ absurd hlit hnot⟩
        rw [← hw]
        exact d.meaning_congr (hread.imp (wordIs_imp fun w ↦ wordValue_of_isRead))
      · exact absurd hlit hnot
  · have hnone : ∀ v, d.meaning (jsonLiteral E) (numberValue E) ≠ some v := by
      intro v hv
      exact hlit (hmeaning.mp (by rw [hv]; rfl))
    constructor
    · rintro ⟨-, hnot⟩
      exact .inr ⟨hlit, hnot hlit⟩
    · rintro (⟨hread, -⟩ | ⟨-, hnot⟩)
      · exact absurd (hread.imp (wordIs_imp fun w ↦ isSome_jsonLiteral_of_isRead)) hlit
      · exact ⟨fun v hv ↦ absurd hv (hnone v), fun _ ↦ hnot⟩

end Arrays

/-- An array with one word. -/
def wordArray (letters : List UInt8) (hne : letters ≠ []) (h : ∀ c ∈ letters, IsLetter c) : JsonDoc :=
  .array noWs [.word ⟨false, letters, hne, h⟩]

/-- `[true]` is read. -/
theorem literalsRead_true :
    LiteralsRead jsonEnvPlain (wordArray jsonTrueStr (by decide) (isLetter_of_all rfl)) :=
  (literalsRead_iff (d := wordArray jsonTrueStr (by decide) (isLetter_of_all rfl)) jsonEnvPlain_zeroed trivial
    ⟨trivial, trivial, trivial⟩).mpr (.inl ⟨⟨trivial, ⟨rfl, .inl rfl⟩, trivial⟩, by decide, by decide⟩)

/-- `[null]` is rejected, and `[i]` is accepted. -/
theorem not_literalsRead :
    ¬LiteralsRead jsonEnvPlain (wordArray jsonNullStr (by decide) (isLetter_of_all rfl)) ∧
      ¬LiteralsRead jsonEnvPlain (wordArray ['i'.toUInt8] (by decide) (isLetter_of_all rfl)) := by
  refine ⟨fun h ↦ ?_, fun h ↦ h.2 (fun hall ↦ Bool.false_ne_true hall.2.1) ?_⟩
  · have hread := (sdsToJson_words_iff (d := wordArray jsonNullStr (by decide) (isLetter_of_all rfl))
      jsonEnvPlain_zeroed trivial ⟨trivial, trivial, trivial⟩ _).mp (h.1 (.array [.null]) rfl)
    cases hread.2
  · exact (jsonAccepts_words_iff (d := wordArray ['i'.toUInt8] (by decide) (isLetter_of_all rfl))
      jsonEnvPlain_zeroed trivial ⟨trivial, trivial, trivial⟩).mpr
      ⟨⟨trivial, .inr rfl, trivial⟩, by decide, by decide⟩

end Literals

end LatteC
