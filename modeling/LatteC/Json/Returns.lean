import LatteC.Json.Containers
import LatteC.Json.Room

/-!
# What `sds_to_json` returns

The automaton on the text of an array or an object, from the start. A text whose length does not fit in an
`int` is cut off, or is refused before anything is read.
-/

namespace LatteC

open StepMachine

section Returns

variable {D : Type} {E : JsonEnv D} {str : List UInt8}

/-- `sds_to_json` returns, with this reply. -/
def SdsToJson (E : JsonEnv D) (str : List UInt8) (reply : JsonReply D) : Prop :=
  ∃ fuel, sdsToJson E fuel str = some reply

/-! ## From the length to the run -/

theorem sdsToJson_of_nonneg (hnames : E.namesNull = true) (h : 0 ≤ sdsLenInt str) (fuel : ℕ) :
    sdsToJson E fuel str =
      jsonRun (jsonTokenerNew E) fuel (str.take (sdsLenInt str).toNat) := by
  rw [sdsToJson, if_pos hnames, sdsToJsonVerbose, if_neg (by omega), if_neg (by omega)]

/-- A length that is negative as an `int` is refused, and `*result` stays as it was. -/
theorem sdsToJson_of_neg (hnames : E.namesNull = true) (h : sdsLenInt str < 0) (hzero : 0 ∉ str) :
    SdsToJson E str ⟨0, none⟩ := by
  refine ⟨0, ?_⟩
  rw [sdsToJson, if_pos hnames, sdsToJsonVerbose, cString_eq_self hzero, if_pos]
  by_cases hlt : sdsLenInt str < -1
  · exact .inl hlt
  · refine .inr ⟨by omega, ?_⟩
    rw [sdsLenInt] at h
    omega

theorem sdsLenInt_lt (str : List UInt8) : sdsLenInt str < 2 ^ 31 := by
  rw [sdsLenInt]
  omega

theorem jsonRun_nil (fuel : ℕ) : jsonRun E fuel [] = some .reject := by
  have hpeek : jsonPeekChar E (jsonTokInit E []) =
      ({ jsonTokInit E [] with err := .continued }, false) := by
    rw [jsonPeekChar_nil rfl, if_neg]
    exact fun hend ↦ JsonState.noConfusion hend.2.2
  rw [jsonRun, jsonWhile, hpeek]
  exact congrArg some (jsonOut_of_err (by simp))

/-- What the automaton does from the start of a text, with every room in its buffer. -/
theorem sdsToJson_of_stops (hE : E.Zeroed) (hlen : 0 ≤ sdsLenInt str)
    (hne : str.take (sdsLenInt str).toNat ≠ []) {P : ℕ → JsonReply D → Prop}
    (h : ∀ room, intMax - 9 ≤ room → room < intMax → Stops (jsonStep ((jsonTokenerNew E).within room))
      (JsonEats [] .start .null none (str.take (sdsLenInt str).toNat)) (P room)) :
    ∃ room reply, intMax - 9 ≤ room ∧ room < intMax ∧ SdsToJson E str reply ∧ P room reply := by
  obtain ⟨c, cs, htext⟩ := List.exists_cons_of_ne_nil hne
  rw [htext] at h
  have hat : JsonEats [] .start .null none (c :: cs)
      { jsonTokInit (jsonTokenerNew E) (c :: cs) with c := c } :=
    ⟨rfl, rfl, rfl, rfl, hE.highSurrogate⟩
  obtain ⟨room, reply, hroom, hlt, ⟨fuel, hfuel⟩, hreply⟩ :=
    exists_ends_of_within (E := jsonTokenerNew E) rfl size_jsonPrintbufNew_le hat h
  refine ⟨room, reply, hroom, hlt, ⟨fuel, ?_⟩, hreply⟩
  rw [sdsToJson_of_nonneg hE.namesNull hlen, htext, jsonRun, jsonWhile,
    jsonPeekChar_cons hE.jsonTokenerNew.validateUtf8 rfl]
  exact hfuel

/-- **There is one reply.** -/
theorem SdsToJson.unique {reply reply' : JsonReply D} (h : SdsToJson E str reply)
    (h' : SdsToJson E str reply') : reply = reply' := by
  obtain ⟨m, hm⟩ := h
  obtain ⟨n, hn⟩ := h'
  rw [sdsToJson, sdsToJsonVerbose] at hm hn
  split_ifs at hm hn with hnames
  · rw [← Option.some.inj hm, ← Option.some.inj hn]
  all_goals
    rw [jsonRun] at hm hn
    cases hwhile : jsonWhile (jsonTokenerNew E) (jsonTokInit (jsonTokenerNew E) _) with
    | inl tok =>
      rw [hwhile] at hm hn
      exact Ends.unique ⟨m, hm⟩ ⟨n, hn⟩
    | inr reply =>
      rw [hwhile] at hm hn
      rw [← Option.some.inj hm, ← Option.some.inj hn]

/-! ## Texts have no NUL -/

theorem JsonWs.zero_notMem (ws : JsonWs) : 0 ∉ ws.1 := fun h ↦ absurd (ws.2 0 h) (by decide)

theorem JsonDigits.zero_notMem (ds : JsonDigits) : 0 ∉ ds.1 := fun h ↦ absurd (ds.2.2 0 h) (by decide)

theorem zero_notMem_minusText (minus : Bool) : 0 ∉ minusText minus := by
  cases minus <;> decide

theorem JsonWord.zero_notMem_text (w : JsonWord) : 0 ∉ w.text := by
  rw [JsonWord.text, List.mem_append, not_or]
  exact ⟨zero_notMem_minusText w.minus, fun h ↦ absurd (w.isLetter 0 h) (by decide)⟩

theorem JsonExponent.zero_notMem_text (e : JsonExponent) : 0 ∉ e.text := by
  obtain ⟨capital, sign, digits⟩ := e
  rw [JsonExponent.text, List.mem_cons, List.mem_append, not_or, not_or]
  dsimp only
  refine ⟨?_, ?_, digits.zero_notMem⟩
  · split_ifs <;> decide
  · cases sign with
    | none => decide
    | some minus => cases minus <;> decide

theorem JsonNumber.zero_notMem_text (n : JsonNumber) : 0 ∉ n.text := by
  obtain ⟨minus, int, frac, exponent⟩ := n
  rw [JsonNumber.text, JsonNumber.tail]
  simp only [List.mem_append, not_or]
  refine ⟨zero_notMem_minusText minus, int.zero_notMem, ?_, ?_⟩
  · cases frac with
    | none => exact List.not_mem_nil
    | some ds => exact List.not_mem_cons_of_ne_of_not_mem (by decide) ds.zero_notMem
  · cases exponent with
    | none => exact List.not_mem_nil
    | some e => exact e.zero_notMem_text

theorem JsonChar.zero_notMem_text (x : JsonChar) : 0 ∉ x.text := by
  cases x with
  | plain c => exact fun h ↦ c.2.1 (List.mem_singleton.mp h).symm
  | escape e => cases e <;> decide
  | unicode d₃ d₂ d₁ d₀ =>
    have hhex : ∀ d : JsonHexDigit, (0 : UInt8) ≠ d.1 := fun d ↦ (isHexChar_ne_zero d.2).symm
    have hu : (0 : UInt8) ≠ 'u'.toUInt8 := by decide
    simp [JsonChar.text, hhex, hu]

theorem zero_notMem_stringTail (chars : List JsonChar) : 0 ∉ stringTail chars := by
  rw [stringTail, List.mem_append, List.mem_flatMap, not_or]
  refine ⟨?_, by decide⟩
  rintro ⟨x, -, hx⟩
  exact x.zero_notMem_text hx

theorem JsonName.zero_notMem_text (k : JsonName) : 0 ∉ k.text := by
  rw [JsonName.text]
  simp only [List.mem_append, List.mem_cons, not_or]
  exact ⟨k.before.zero_notMem, by decide, zero_notMem_stringTail k.chars, k.after.zero_notMem,
    by decide, List.not_mem_nil⟩

mutual

theorem JsonDoc.zero_notMem_render (d : JsonDoc) : 0 ∉ d.render := by
  cases d with
  | word w => exact w.zero_notMem_text
  | number n => exact n.zero_notMem_text
  | string chars =>
    exact List.not_mem_cons_of_ne_of_not_mem (by decide) (zero_notMem_stringTail chars)
  | array ws elements =>
    rw [JsonDoc.render, List.mem_cons, List.mem_append, not_or, not_or]
    refine ⟨by decide, ws.zero_notMem, ?_⟩
    cases elements with
    | nil => decide
    | cons d ds =>
      rw [renderElements, List.mem_append, not_or]
      exact ⟨d.zero_notMem_render, zero_notMem_renderMoreElements ds⟩
  | object ws members =>
    rw [JsonDoc.render, List.mem_cons, List.mem_append, not_or, not_or]
    refine ⟨by decide, ws.zero_notMem, ?_⟩
    cases members with
    | nil => decide
    | cons m ms =>
      obtain ⟨k, d⟩ := m
      rw [renderMembers, List.mem_append, List.mem_append, not_or, not_or]
      exact ⟨k.zero_notMem_text, d.zero_notMem_render, zero_notMem_renderMoreMembers ms⟩
  | padded before d after =>
    rw [JsonDoc.render, List.mem_append, List.mem_append, not_or, not_or]
    exact ⟨before.zero_notMem, d.zero_notMem_render, after.zero_notMem⟩

theorem zero_notMem_renderMoreElements (ds : List JsonDoc) : 0 ∉ renderMoreElements ds := by
  cases ds with
  | nil => decide
  | cons d ds =>
    rw [renderMoreElements, List.mem_cons, List.mem_append, not_or, not_or]
    exact ⟨by decide, d.zero_notMem_render, zero_notMem_renderMoreElements ds⟩

theorem zero_notMem_renderMoreMembers (ms : List (JsonName × JsonDoc)) :
    0 ∉ renderMoreMembers ms := by
  cases ms with
  | nil => decide
  | cons m ms =>
    obtain ⟨k, d⟩ := m
    rw [renderMoreMembers, List.mem_cons, List.mem_append, List.mem_append, not_or, not_or, not_or]
    exact ⟨by decide, k.zero_notMem_text, d.zero_notMem_render, zero_notMem_renderMoreMembers ms⟩

end

/-! ## Arrays and objects -/

theorem endsContainer (hE : E.Bounded) {d : JsonDoc} (hd : d.IsContainer)
    (outer : List (JsonSrec D)) :
    EndsContainer E outer .start .null d.render (docValue E outer.length d) := by
  cases d with
  | array ws elements => exact outcome_array hE (readsElements hE elements) ws
  | object ws members => exact outcome_object hE (readsMembers hE members) ws
  | word w => exact hd.elim
  | number n => exact hd.elim
  | string chars => exact hd.elim
  | padded before d after => exact hd.elim

/-- **A whole text** of an array or an object is accepted with its value, or rejected if it has none. -/
theorem sdsToJson_container (hE : E.Zeroed) {d : JsonDoc} (hd : d.IsContainer)
    (hlen : d.render.length < 2 ^ 31) :
    ∃ room, intMax - 9 ≤ room ∧ room < intMax ∧
      SdsToJson E d.render ((docValue ((jsonTokenerNew E).within room) 0 d).elim .reject .accept) := by
  have hlenInt : sdsLenInt d.render = d.render.length := sdsLenInt_eq_length hlen
  have htake : d.render.take (sdsLenInt d.render).toNat = d.render := by
    rw [hlenInt, Int.toNat_natCast, List.take_length]
  have hstops : ∀ room, intMax - 9 ≤ room → room < intMax →
      Stops (jsonStep ((jsonTokenerNew E).within room)) (JsonEats [] .start .null none d.render)
        (· = (docValue ((jsonTokenerNew E).within room) 0 d).elim .reject .accept) := by
    intro room hroom _
    have hends := endsContainer (hE.jsonTokenerNew.within hroom) hd []
    cases hvalue : docValue ((jsonTokenerNew E).within room) 0 d with
    | none =>
      rw [EndsContainer, List.length_nil, hvalue] at hends
      exact Refuses.cut hends _ List.prefix_rfl
    | some v =>
      rw [EndsContainer, List.length_nil, hvalue] at hends
      exact Reads.whole hends
  obtain ⟨room, reply, hroom, hlt, hreply, rfl⟩ :=
    sdsToJson_of_stops hE (by omega) (htake.symm ▸ d.render_ne_nil) (htake.symm ▸ hstops)
  exact ⟨room, hroom, hlt, hreply⟩

/-- **A text that is cut off**, or one whose length is no `int`. -/
theorem sdsToJson_cut (hE : E.Zeroed) {d : JsonDoc} (hd : d.IsContainer) {p : List UInt8}
    (hp : p <+: d.render) (hcut : p ≠ d.render ∨ 2 ^ 31 ≤ p.length) :
    SdsToJson E p (if sdsLenInt p < 0 then ⟨0, none⟩ else .reject) := by
  split_ifs with hneg
  · exact sdsToJson_of_neg hE.namesNull hneg fun hzero ↦ d.zero_notMem_render (hp.subset hzero)
  · have hlt := sdsLenInt_lt p
    have hq : p.take (sdsLenInt p).toNat <+: d.render := (List.take_prefix _ p).trans hp
    have hne : p.take (sdsLenInt p).toNat ≠ d.render := by
      intro heq
      have hlen := congrArg List.length heq
      rw [List.length_take] at hlen
      have hle := hp.length_le
      obtain hproper | hlong := hcut
      · exact hproper (hp.eq_of_length (by omega))
      · omega
    have hstops : ∀ room, intMax - 9 ≤ room → room < intMax →
        Stops (jsonStep ((jsonTokenerNew E).within room))
          (JsonEats [] .start .null none (p.take (sdsLenInt p).toNat)) Rejects := by
      intro room hroom _
      have hends := endsContainer (hE.jsonTokenerNew.within hroom) hd []
      rw [EndsContainer] at hends
      cases hvalue : docValue ((jsonTokenerNew E).within room) ([] : List (JsonSrec D)).length d with
      | none =>
        rw [hvalue] at hends
        exact Refuses.cut hends _ hq
      | some v =>
        rw [hvalue] at hends
        exact Reads.cut hends _ hq hne
    by_cases hnil : p.take (sdsLenInt p).toNat = []
    · refine ⟨0, ?_⟩
      rw [sdsToJson_of_nonneg hE.namesNull (by omega), hnil, jsonRun_nil]
    · obtain ⟨-, reply, -, -, hreply, rfl⟩ := sdsToJson_of_stops hE (Int.not_lt.mp hneg) hnil hstops
      exact hreply

end Returns

/-- `strtoull` on the numerals of 64-bit integers. -/
def plainStrtoull (s : List UInt8) : Option ℕ :=
  let n := Decimal.digitsValue s
  if Decimal.natNumeral n = s ∧ n < 2 ^ 64 then some n else none

/-- A tokener with flags that are 0, and floating point numbers that are no more than their names. -/
def jsonEnvPlain : JsonEnv (Option Bool) where
  strict := false
  allowTrailingChars := false
  validateUtf8 := false
  highSurrogate := 0
  namesNull := true
  maxDepth := 32
  room := none
  bufAddress := fun _ ↦ 16
  bufAddress_aligned := fun _ ↦ rfl
  infinity := some true
  negInfinity := some false
  nan := none
  string2ld := fun _ ↦ none
  string2ld_minus := rfl
  strtoull := plainStrtoull
  errnoRange := fun _ ↦ false

theorem jsonEnvPlain_zeroed : jsonEnvPlain.Zeroed := ⟨rfl, rfl, rfl, rfl, rfl⟩

end LatteC
