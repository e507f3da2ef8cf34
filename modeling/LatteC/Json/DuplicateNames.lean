import LatteC.Json.Meaning

/-!
# Names that come twice

An object with a name that comes twice is rejected, since `json_map_put_value` returns 1 for a key that is
there already and its caller takes that for an error. So such an object behaves like the same object with
other names only if neither is accepted.
-/

namespace LatteC

section DuplicateNames

variable {D : Type} {E : JsonEnv D}

/-! ## Texts without their names -/

mutual

/-- A text with empty names. -/
def JsonDoc.unnamed : JsonDoc → JsonDoc
  | .word w => .word w
  | .number n => .number n
  | .string chars => .string chars
  | .array ws elements => .array ws (unnamedElements elements)
  | .object ws members => .object ws (unnamedMembers members)
  | .padded before d after => .padded before d.unnamed after

def unnamedElements : List JsonDoc → List JsonDoc
  | [] => []
  | d :: ds => d.unnamed :: unnamedElements ds

def unnamedMembers : List (JsonName × JsonDoc) → List (JsonName × JsonDoc)
  | [] => []
  | (k, d) :: ms => ({ k with chars := [] }, d.unnamed) :: unnamedMembers ms

end

mutual

theorem JsonDoc.levels_unnamed (d : JsonDoc) : d.unnamed.levels = d.levels := by
  cases d with
  | word w => rfl
  | number n => rfl
  | string chars => rfl
  | array ws elements => exact elementLevels_unnamed elements
  | object ws members => exact memberLevels_unnamed members
  | padded before d after => exact d.levels_unnamed

theorem elementLevels_unnamed (ds : List JsonDoc) :
    elementLevels (unnamedElements ds) = elementLevels ds := by
  cases ds with
  | nil => rfl
  | cons d ds =>
    rw [unnamedElements, elementLevels, elementLevels, d.levels_unnamed, elementLevels_unnamed ds]

theorem memberLevels_unnamed (ms : List (JsonName × JsonDoc)) :
    memberLevels (unnamedMembers ms) = memberLevels ms := by
  cases ms with
  | nil => rfl
  | cons m ms =>
    obtain ⟨k, d⟩ := m
    rw [unnamedMembers, memberLevels, memberLevels, d.levels_unnamed, memberLevels_unnamed ms]

end

section All

variable {p : JsonDoc → Prop}

mutual

/-- A condition that does not depend on names. -/
theorem JsonDoc.all_unnamed (h : ∀ d, p d.unnamed ↔ p d) (d : JsonDoc) :
    d.unnamed.All p ↔ d.All p := by
  cases d with
  | word w => exact Iff.rfl
  | number n => exact Iff.rfl
  | string chars => exact Iff.rfl
  | array ws elements => exact and_congr (h (.array ws elements)) (allElements_unnamed h elements)
  | object ws members => exact and_congr (h (.object ws members)) (allMembers_unnamed h members)
  | padded before d after => exact JsonDoc.all_unnamed h d

theorem allElements_unnamed (h : ∀ d, p d.unnamed ↔ p d) (ds : List JsonDoc) :
    allElements p (unnamedElements ds) ↔ allElements p ds := by
  cases ds with
  | nil => exact Iff.rfl
  | cons d ds => exact and_congr (JsonDoc.all_unnamed h d) (allElements_unnamed h ds)

theorem allMembers_unnamed (h : ∀ d, p d.unnamed ↔ p d) (ms : List (JsonName × JsonDoc)) :
    allMembers p (unnamedMembers ms) ↔ allMembers p ms := by
  cases ms with
  | nil => exact Iff.rfl
  | cons m ms =>
    obtain ⟨k, d⟩ := m
    exact and_congr (JsonDoc.all_unnamed h d) (allMembers_unnamed h ms)

end

/-- Texts that differ in names only meet the same conditions. -/
theorem all_iff_of_unnamed_eq (h : ∀ d, p d.unnamed ↔ p d) {d d' : JsonDoc}
    (heq : d.unnamed = d'.unnamed) : d.All p ↔ d'.All p := by
  rw [← JsonDoc.all_unnamed h d, heq, JsonDoc.all_unnamed h d']

end All

theorem noString_unnamed (d : JsonDoc) : d.unnamed.NoString ↔ d.NoString := by
  cases d with
  | padded before d after => exact Iff.rfl
  | _ => exact Iff.rfl

theorem meant_unnamed {word : JsonWord → Option (Value D)} {number : JsonNumber → Option (Value D)}
    (d : JsonDoc) : JsonDoc.Meant word number d.unnamed ↔ JsonDoc.Meant word number d := by
  cases d <;> exact Iff.rfl

theorem isContainer_unnamed (d : JsonDoc) : d.unnamed.IsContainer ↔ d.IsContainer := by
  cases d <;> exact Iff.rfl

/-! ## The same members with other names -/

/-- A text and the same text with names that differ are both accepted or both not. What is accepted has the
value of the last member for every name. -/
def NamesDoNotMatter (E : JsonEnv D) (d d' : JsonDoc) : Prop :=
  (JsonAccepts E d.render ↔ JsonAccepts E d'.render) ∧
    ∀ v, SdsToJson E d.render (.accept v) → d.meaning (wordValue E) (numberValue E) = some v

/-- A text of which every scalar is one that the tokener reads, on levels that there are. -/
def JsonDoc.Readable (E : JsonEnv D) (d : JsonDoc) : Prop :=
  d.levels < 32 ∧ d.All (JsonDoc.Meant (wordValue E) (numberValue E))

theorem jsonAccepts_iff (hE : E.Zeroed) {d : JsonDoc} (hd : d.IsContainer)
    (hstring : d.All JsonDoc.NoString) (hfit : d.All (JsonDoc.TokensFit (2 ^ 31 - 10))) :
    JsonAccepts E d.render ↔
      d.render.length < 2 ^ 31 ∧ d.All JsonDoc.NamesDiffer ∧ d.Readable E := by
  rw [JsonAccepts, JsonDoc.Readable, ← d.isSome_meaning hstring, Option.isSome_iff_exists]
  simp only [sdsToJson_accept_iff hE hd hstring hfit]
  constructor
  · rintro ⟨v, hlength, hlevels, hdiffer, hv⟩
    exact ⟨hlength, hdiffer, hlevels, v, hv⟩
  · rintro ⟨hlength, hdiffer, hlevels, v, hv⟩
    exact ⟨v, hlength, hlevels, hdiffer, hv⟩

/-- **Names that come twice** matter: a text that can be read is accepted like the same text with names that
differ only if its own names differ, as long as both texts fit. -/
theorem namesDoNotMatter_iff (hE : E.Zeroed) {d d' : JsonDoc} (hd : d.IsContainer)
    (hstring : d.All JsonDoc.NoString) (hnames : d.unnamed = d'.unnamed)
    (hdiffer : d'.All JsonDoc.NamesDiffer) (hfit : d.All (JsonDoc.TokensFit (2 ^ 31 - 10)))
    (hfit' : d'.All (JsonDoc.TokensFit (2 ^ 31 - 10))) :
    NamesDoNotMatter E d d' ↔ ¬d.Readable E ∨
      (d.render.length < 2 ^ 31 ∧ d.All JsonDoc.NamesDiffer ↔ d'.render.length < 2 ^ 31) := by
  have hd' : d'.IsContainer := by rwa [← isContainer_unnamed, ← hnames, isContainer_unnamed]
  have hstring' : d'.All JsonDoc.NoString := (all_iff_of_unnamed_eq noString_unnamed hnames).mp hstring
  have hreadable : d.Readable E ↔ d'.Readable E := by
    rw [JsonDoc.Readable, JsonDoc.Readable, all_iff_of_unnamed_eq meant_unnamed hnames,
      ← d.levels_unnamed, hnames, d'.levels_unnamed]
  have hlast : ∀ v, SdsToJson E d.render (.accept v) →
      d.meaning (wordValue E) (numberValue E) = some v :=
    fun v hv ↦ ((sdsToJson_accept_iff hE hd hstring hfit v).mp hv).2.2.2
  rw [NamesDoNotMatter, jsonAccepts_iff hE hd hstring hfit,
    jsonAccepts_iff hE hd' hstring' hfit',
    and_iff_left hlast, ← hreadable, and_iff_right hdiffer, ← and_assoc]
  by_cases hread : d.Readable E
  · rw [and_iff_left hread, and_iff_left hread, or_iff_right (not_not_intro hread)]
  · exact ⟨fun _ ↦ .inl hread, fun _ ↦ ⟨fun h ↦ absurd h.2 hread, fun h ↦ absurd h.2 hread⟩⟩

/-- The word `true`. -/
def trueWord : JsonWord := ⟨false, jsonTrueStr, by decide, isLetter_of_all rfl⟩

/-- An object of two members with the value `true`. -/
def twoMembers (a b : { c : UInt8 // c ≠ 0 ∧ c ≠ 34 ∧ c ≠ 92 }) : JsonDoc :=
  .object noWs
    [(⟨noWs, [.plain a], noWs⟩, .word trueWord), (⟨noWs, [.plain b], noWs⟩, .word trueWord)]

theorem twoMembers_noString (a b : { c : UInt8 // c ≠ 0 ∧ c ≠ 34 ∧ c ≠ 92 }) :
    (twoMembers a b).All JsonDoc.NoString :=
  ⟨trivial, trivial, trivial, trivial⟩

theorem twoMembers_isContainer (a b : { c : UInt8 // c ≠ 0 ∧ c ≠ 34 ∧ c ≠ 92 }) :
    (twoMembers a b).IsContainer :=
  trivial

theorem twoMembers_fit (a b : { c : UInt8 // c ≠ 0 ∧ c ≠ 34 ∧ c ≠ 92 }) :
    (twoMembers a b).All (JsonDoc.TokensFit (2 ^ 31 - 10)) := by
  refine ⟨fun m hm ↦ ?_, trivial, trivial, trivial⟩
  have hlen : (stringBytes 0 m.1.chars).length = 1 := by
    obtain rfl | hm := List.mem_cons.mp hm
    · rfl
    · rw [List.mem_singleton.mp hm]
      rfl
  omega

theorem twoMembers_differ : (twoMembers ⟨97, by decide⟩ ⟨98, by decide⟩).All JsonDoc.NamesDiffer := by
  refine ⟨?_, trivial, trivial, trivial⟩
  change [[(97 : UInt8)], [98]].Nodup
  decide

/-- The text with the names `a` and `b`, for itself. -/
theorem namesDoNotMatter_of_two :
    NamesDoNotMatter jsonEnvPlain (twoMembers ⟨97, by decide⟩ ⟨98, by decide⟩)
      (twoMembers ⟨97, by decide⟩ ⟨98, by decide⟩) :=
  (namesDoNotMatter_iff (d := twoMembers ⟨97, by decide⟩ ⟨98, by decide⟩) jsonEnvPlain_zeroed trivial
    (twoMembers_noString _ _) rfl twoMembers_differ (twoMembers_fit _ _) (twoMembers_fit _ _)).mpr
    (.inr (and_iff_left twoMembers_differ))

/-- `a` twice is rejected, and `a` and `b` are accepted. -/
theorem not_namesDoNotMatter :
    ¬NamesDoNotMatter jsonEnvPlain (twoMembers ⟨97, by decide⟩ ⟨97, by decide⟩)
      (twoMembers ⟨97, by decide⟩ ⟨98, by decide⟩) := by
  intro h
  have haccept : JsonAccepts jsonEnvPlain (twoMembers ⟨97, by decide⟩ ⟨98, by decide⟩).render :=
    (jsonAccepts_iff jsonEnvPlain_zeroed (twoMembers_isContainer _ _) (twoMembers_noString _ _)
      (twoMembers_fit _ _)).mpr ⟨by decide, twoMembers_differ, by decide, trivial, rfl, rfl, trivial⟩
  have hboth := (jsonAccepts_iff jsonEnvPlain_zeroed (twoMembers_isContainer _ _)
    (twoMembers_noString _ _) (twoMembers_fit _ _)).mp (h.1.mpr haccept)
  have hdiffer := hboth.2.1.1
  change [[(97 : UInt8)], [97]].Nodup at hdiffer
  exact absurd hdiffer (by decide)

end DuplicateNames

end LatteC
