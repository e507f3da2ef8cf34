import LatteC.Json.RoundTrip

/-!
# Scalars on the top level

A number or a boolean is complete only when the character after it is there. On the top level there is none:
the text ends while the tokener is within the scalar, and what `json_to_sds` has written is rejected.
-/

namespace LatteC

open Decimal StepMachine

section Scalars

variable {D : Type} {E : JsonEnv D} {ld2sds : D → Option (List UInt8)} {v : Value D}
  {text : List UInt8}

/-- The integers and the booleans. -/
def Value.IsScalar : Value D → Prop
  | .int _ => True
  | .uint _ => True
  | .boolean _ => True
  | _ => False

/-- What `json_to_sds` writes for a value, `sds_to_json` reads as the value. -/
def ComesBack (E : JsonEnv D) (ld2sds : D → Option (List UInt8)) (v : Value D) : Prop :=
  ∃ s, jsonToSds ld2sds v = some s ∧ SdsToJson E s (.accept v.comesBack)

/-- The letters of a literal up to the end of the text. -/
theorem stops_literal_end {outer : List (JsonSrec D)} {st : JsonState} {lit m w : List UInt8}
    {err : JsonError} (hE : E.Bounded) (hst : st ≠ .eatws) (hlit : IsLiteral E st lit v err)
    (hw : w ≠ []) (hzero : 0 ∉ w) (hm : m ++ w.map tolower = lit.map tolower) :
    Stops (jsonStep E) (LiteralAt outer st m w) Rejects := by
  induction w generalizing m with
  | nil => exact absurd rfl hw
  | cons c w ih =>
    obtain ⟨hc, hzero⟩ := List.ne_and_not_mem_of_not_mem_cons hzero
    rw [List.map_cons, List.append_cons] at hm
    have hlen := congrArg List.length hm
    simp only [List.length_append, List.length_map, List.length_singleton] at hlen
    have htake : m ++ [tolower c] = (lit.map tolower).take (m.length + 1) := by
      rw [← hm, List.take_left']
      rw [List.length_append, List.length_singleton]
    have hreads : Reads (jsonStep E) Rejects (LiteralAt outer st m) [c]
        (LiteralAt outer st (m ++ [tolower c])) (· = jsonEndReply outer ⟨st, .start, .null, none⟩)
        fun _ ↦ True :=
      reads_literal_letter hE hlit (by omega) hc.symm htake
    rw [jsonEndReply_of_state hst] at hreads
    cases w with
    | nil => exact hreads.whole
    | cons d ds =>
      exact (hreads.moves (d :: ds) (headIs_cons trivial ds)).stops
        (ih (List.cons_ne_nil d ds) hzero hm)

/-- A boolean that the text ends with is not complete. -/
theorem stops_boolean (hE : E.Bounded) (b : Bool) :
    Stops (jsonStep E) (JsonEats [] .start .null none (if b then jsonTrueStr else jsonFalseStr))
      Rejects := by
  have hstart : ∀ (c : UInt8) (cs : List UInt8), c = 't'.toUInt8 ∨ c = 'f'.toUInt8 →
      Moves (jsonStep E) (JsonEats [] .start .null none (c :: cs))
        (LiteralAt [] .boolean [] (c :: cs)) := by
    intro c cs hc
    have hsolid : IsSolid c := by obtain rfl | rfl := hc <;> decide
    refine moves_start hE hsolid fun tok htok ↦ ?_
    refine ⟨{ printbufReset (tok.setState .boolean) with stPos := 0 }, ?_,
      ⟨htok.outer, ?_, htok.str, htok.head, htok.high⟩, rfl, rfl⟩
    · rw [jsonStart, htok.c_eq]
      obtain rfl | rfl := hc <;> rfl
    · change { tok.srec with state := .boolean } = _
      rw [htok.srec]
  cases b with
  | true =>
    exact (hstart _ _ (.inl rfl)).stops
      (stops_literal_end hE (by simp) (isLiteral_true hE) (List.cons_ne_nil _ _) (by decide) rfl)
  | false =>
    exact (hstart _ _ (.inr rfl)).stops
      (stops_literal_end hE (by simp) (isLiteral_false hE) (List.cons_ne_nil _ _) (by decide) rfl)

/-- A number that the text ends with is not complete. -/
theorem stops_number_text (hE : E.Bounded) (n : JsonNumber) :
    Stops (jsonStep E) (JsonEats [] .start .null none n.text) Rejects := by
  obtain ⟨c, cs, hcons, hc⟩ := n.headIs_digit_or_minus
  obtain ⟨isExponent, hrun⟩ := run_text n
  have hcut : Stops (jsonStep E) (NumberAt [] n.text) Rejects :=
    stops_number_cut hE n.text_ne_nil (by rw [hrun]; rfl)
  rw [hcons] at hcut ⊢
  exact (moves_start_number hE hc cs).stops hcut

/-- A text within which the tokener stops is rejected. -/
theorem sdsToJson_of_rejects (hE : E.Zeroed) (hne : text ≠ []) (hlen : text.length < 2 ^ 31)
    (h : ∀ {E : JsonEnv D}, E.Bounded → Stops (jsonStep E) (JsonEats [] .start .null none text) Rejects) :
    SdsToJson E text .reject := by
  have hlenInt : sdsLenInt text = text.length := sdsLenInt_eq_length hlen
  have htake : text.take (sdsLenInt text).toNat = text := by
    rw [hlenInt, Int.toNat_natCast, List.take_length]
  have hstops : ∀ room, intMax - 9 ≤ room → room < intMax →
      Stops (jsonStep ((jsonTokenerNew E).within room)) (JsonEats [] .start .null none text) Rejects :=
    fun _ hroom _ ↦ h (hE.jsonTokenerNew.within hroom)
  obtain ⟨-, reply, -, -, hreply, rfl⟩ :=
    sdsToJson_of_stops hE (by omega) (htake.symm ▸ hne) (htake.symm ▸ hstops)
  exact hreply

theorem sdsToJson_numeral (hE : E.Zeroed) {l : ℤ} (hlen : (numeral l).length < 2 ^ 31) :
    SdsToJson E (numeral l) .reject := by
  obtain ⟨n, htext, -⟩ := exists_number l
  rw [← htext] at hlen ⊢
  exact sdsToJson_of_rejects hE n.text_ne_nil hlen fun hE ↦ stops_number_text hE n

/-- **The text of a scalar is rejected.** -/
theorem sdsToJson_scalar (hE : E.Zeroed) (hv : v.IsScalar) :
    ∃ s, jsonToSds ld2sds v = some s ∧ SdsToJson E s .reject := by
  cases v with
  | int l =>
    have hl : IsInt64 l.toInt := ⟨l.le_toInt, l.toInt_lt⟩
    have hlen := length_numeral_le hl
    exact ⟨_, ll2sds_eq hl, sdsToJson_numeral hE (by omega)⟩
  | uint l =>
    have hlt := l.toNat_lt
    have hlen : (natNumeral l.toNat).length ≤ 20 := length_natNumeral_le (by decide) (by omega)
    have hnat : numeral l.toNat = natNumeral l.toNat := by
      rw [numeral, if_neg (by omega), Int.natAbs_natCast]
    refine ⟨_, jsonToSds_uint l, sdsToJson_numeral hE ?_⟩
    rw [hnat]
    omega
  | boolean b =>
    refine ⟨_, rfl, sdsToJson_of_rejects hE ?_ ?_ fun hE ↦ stops_boolean hE b⟩
    · cases b <;> exact List.cons_ne_nil _ _
    · cases b <;> decide
  | null => exact hv.elim
  | undefined => exact hv.elim
  | constantChar s => exact hv.elim
  | sds s => exact hv.elim
  | double d => exact hv.elim
  | array elements => exact hv.elim
  | map members => exact hv.elim

/-- **No scalar comes back.** -/
theorem not_comesBack (hE : E.Zeroed) (hv : v.IsScalar) : ¬ComesBack E ld2sds v := by
  rintro ⟨s, hs, haccept⟩
  obtain ⟨s', hs', hreject⟩ : ∃ s, jsonToSds ld2sds v = some s ∧ SdsToJson E s .reject :=
    sdsToJson_scalar hE hv
  rw [hs] at hs'
  obtain rfl := Option.some.inj hs'
  exact accept_ne_reject (haccept.unique hreject)

/-- The integer 5 does not come back. -/
theorem not_comesBack_five : ¬ComesBack jsonEnvPlain (fun _ ↦ none) (.int 5) :=
  not_comesBack (v := .int 5) jsonEnvPlain_zeroed trivial

/-- `true` is written as `true`, and that is rejected. -/
theorem true_rejected :
    jsonToSds (fun _ ↦ none) (.boolean true : Value (Option Bool)) = some jsonTrueStr ∧
      ¬SdsToJson jsonEnvPlain jsonTrueStr (.accept (.boolean true)) := by
  refine ⟨rfl, fun haccept ↦ ?_⟩
  have hreject : SdsToJson jsonEnvPlain jsonTrueStr .reject :=
    sdsToJson_of_rejects jsonEnvPlain_zeroed (List.cons_ne_nil _ _) (by decide) fun hE ↦
      stops_boolean hE true
  exact accept_ne_reject (haccept.unique hreject)

end Scalars

end LatteC
