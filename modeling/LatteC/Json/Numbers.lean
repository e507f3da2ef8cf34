import LatteC.Json.Document

/-!
# Numbers

The loop that passes the characters of a number keeps flags about what may come next. A text of the form of
a number is passed as a whole, and what follows a value is not.
-/

namespace LatteC

open StepMachine

/-- What the loop keeps while it passes the characters of a number. -/
structure NumberFlags where
  isDouble : Bool
  isExponent : Bool
  negSignOk : Bool
  posSignOk : Bool

namespace NumberFlags

def startsExponent (c : UInt8) : Bool := c = 'e'.toUInt8 ∨ c = 'E'.toUInt8

/-- Whether the character is passed. -/
def takes (f : NumberFlags) (c : UInt8) : Prop :=
  c ≠ 0 ∧ (isDigitChar c ∨ ¬f.isExponent ∧ startsExponent c ∨ f.negSignOk ∧ c = '-'.toUInt8 ∨
    f.posSignOk ∧ c = '+'.toUInt8 ∨ ¬f.isDouble ∧ c = '.'.toUInt8)

instance (f : NumberFlags) (c : UInt8) : Decidable (f.takes c) := inferInstanceAs (Decidable (_ ∧ _))

/-- The flags after a character. -/
def next (f : NumberFlags) (c : UInt8) : NumberFlags :=
  let signOk := startsExponent c || c = '.'.toUInt8
  ⟨f.isDouble || signOk, f.isExponent || startsExponent c, signOk, signOk⟩

/-- The flags after characters that are all passed. -/
def run : NumberFlags → List UInt8 → Option NumberFlags
  | f, [] => some f
  | f, c :: cs => if f.takes c then run (f.next c) cs else none

theorem run_append (f : NumberFlags) (s t : List UInt8) :
    f.run (s ++ t) = (f.run s).bind fun g ↦ g.run t := by
  induction s generalizing f with
  | nil => rfl
  | cons c s ih =>
    rw [List.cons_append, run, run]
    split_ifs with h
    · exact ih (f.next c)
    · rfl

theorem run_prefix {f : NumberFlags} {p s : List UInt8} (hp : p <+: s) (h : (f.run s).isSome) :
    (f.run p).isSome := by
  obtain ⟨q, rfl⟩ := hp
  rw [run_append] at h
  cases hrun : f.run p with
  | none =>
    rw [hrun] at h
    cases h
  | some g => rfl

/-- Digits clear the flags for signs. -/
theorem run_digits (f : NumberFlags) {ds : List UInt8} (hne : ds ≠ [])
    (h : ∀ c ∈ ds, isDigitChar c = true) :
    f.run ds = some ⟨f.isDouble, f.isExponent, false, false⟩ := by
  induction ds generalizing f with
  | nil => exact absurd rfl hne
  | cons c cs ih =>
    have hc := h c List.mem_cons_self
    have hplain : startsExponent c = false ∧ c ≠ '.'.toUInt8 ∧ c ≠ 0 := by
      refine ⟨?_, ?_, ?_⟩
      · rw [startsExponent, decide_eq_false_iff_not]
        rintro (rfl | rfl) <;> exact absurd hc (by decide)
      · rintro rfl
        exact absurd hc (by decide)
      · rintro rfl
        exact absurd hc (by decide)
    have hnext : f.next c = ⟨f.isDouble, f.isExponent, false, false⟩ := by
      rw [next, hplain.1, decide_eq_false hplain.2.1]
      simp
    rw [run, if_pos ⟨hplain.2.2, .inl hc⟩, hnext]
    by_cases hnil : cs = []
    · rw [hnil]
      rfl
    · exact ih ⟨f.isDouble, f.isExponent, false, false⟩ hnil
        fun d hd ↦ h d (List.mem_cons_of_mem c hd)

end NumberFlags

/-- The flags before a number. -/
def numberFlagsInit : NumberFlags := ⟨false, false, true, false⟩

theorem run_mark (isDouble capital : Bool) (cs : List UInt8) :
    (⟨isDouble, false, false, false⟩ : NumberFlags).run
      ((if capital then 'E'.toUInt8 else 'e'.toUInt8) :: cs) =
        (⟨true, true, true, true⟩ : NumberFlags).run cs := by
  cases isDouble <;> cases capital <;> rfl

theorem run_sign (sign : Option Bool) {ds : List UInt8} (hne : ds ≠ [])
    (h : ∀ c ∈ ds, isDigitChar c = true) :
    (⟨true, true, true, true⟩ : NumberFlags).run
      ((sign.map fun minus ↦ if minus then '-'.toUInt8 else '+'.toUInt8).toList ++ ds) =
        some ⟨true, true, false, false⟩ := by
  obtain _ | minus := sign
  · exact NumberFlags.run_digits _ hne h
  · have hdigits := NumberFlags.run_digits ⟨true, true, false, false⟩ hne h
    cases minus <;> exact hdigits

theorem run_exponent (e : JsonExponent) (isDouble : Bool) :
    (⟨isDouble, false, false, false⟩ : NumberFlags).run e.text = some ⟨true, true, false, false⟩ := by
  rw [JsonExponent.text, run_mark]
  exact run_sign e.sign e.digits.2.1 e.digits.2.2

theorem run_frac {ds : List UInt8} (hne : ds ≠ []) (h : ∀ c ∈ ds, isDigitChar c = true) :
    (⟨false, false, false, false⟩ : NumberFlags).run ('.'.toUInt8 :: ds) =
      some ⟨true, false, false, false⟩ :=
  NumberFlags.run_digits ⟨true, false, true, true⟩ hne h

/-- **All characters of a number are passed**, and no sign may follow. -/
theorem run_text (n : JsonNumber) : ∃ isExponent,
    numberFlagsInit.run n.text = some ⟨n.isDouble, isExponent, false, false⟩ := by
  obtain ⟨minus, int, frac, exponent⟩ := n
  have hint : numberFlagsInit.run (minusText minus ++ int.1) = some ⟨false, false, false, false⟩ := by
    cases minus
    · exact NumberFlags.run_digits numberFlagsInit int.2.1 int.2.2
    · exact NumberFlags.run_digits ⟨false, false, false, false⟩ int.2.1 int.2.2
  rw [JsonNumber.text, JsonNumber.tail, ← List.append_assoc, NumberFlags.run_append, hint,
    Option.bind_some, NumberFlags.run_append]
  obtain _ | ds := frac
  · obtain _ | e := exponent
    · exact ⟨false, rfl⟩
    · exact ⟨true, run_exponent e false⟩
  · have hfrac := run_frac ds.2.1 ds.2.2
    refine ⟨exponent.isSome, ?_⟩
    rw [Option.elim_some, hfrac, Option.bind_some]
    obtain _ | e := exponent
    · rfl
    · exact run_exponent e true

/-- What ends a value is not passed. -/
theorem EndsValue.not_takes {c : UInt8} (hc : EndsValue c) (isDouble isExponent : Bool) :
    ¬(⟨isDouble, isExponent, false, false⟩ : NumberFlags).takes c := by
  simp only [EndsValue, isWsChar, decide_eq_true_eq] at hc
  obtain rfl | rfl | rfl | rfl | rfl | rfl | rfl := hc <;>
    cases isDouble <;> cases isExponent <;> decide

/-! ## The loop -/

section Loop

variable {D : Type} {E : JsonEnv D} {tok : JsonTok D} {outer : List (JsonSrec D)} {level : JsonSrec D}
  {f g : NumberFlags} {s cs : List UInt8} {c : UInt8} {passed : List UInt8}
  {out found : JsonTok D → List UInt8 → JsonPass D}

/-- The tokener after some characters of a number, before `c`. -/
def JsonTok.numberTok (tok : JsonTok D) (g : NumberFlags) (str : List UInt8) (c : UInt8) : JsonTok D :=
  { tok with isDouble := g.isDouble, str := str, c := c }

/-- A character is passed, and there is another one. -/
theorem jsonNumberLoop_takes (hE : E.Bounded) {d e : UInt8} {text : List UInt8}
    (hstr : tok.str = d :: e :: text) (hc : tok.c = d) (hf : tok.isDouble = f.isDouble)
    (htakes : f.takes d) :
    jsonNumberLoop E out found (d :: e :: text) tok passed f.isExponent f.negSignOk f.posSignOk =
      jsonNumberLoop E out found (e :: text) (tok.numberTok (f.next d) (e :: text) e) (passed ++ [d])
        (f.next d).isExponent (f.next d).negSignOk (f.next d).posSignOk := by
  obtain ⟨isDouble, isExponent, negSignOk, posSignOk⟩ := f
  obtain rfl : tok.isDouble = isDouble := hf
  obtain rfl := hc
  rw [jsonNumberLoop]
  refine (if_pos htakes).trans ?_
  exact @jsonAdvancePeek_cons D E _ _ _ _ hE.validateUtf8 _ _ text hstr

/-- A character is passed, and it was the last. -/
theorem jsonNumberLoop_last {d : UInt8} (hstr : tok.str = [d]) (hc : tok.c = d)
    (hf : tok.isDouble = f.isDouble) (htakes : f.takes d) (hstate : tok.srec.state ≠ .eatws) :
    ∃ tok' : JsonTok D,
      jsonNumberLoop E out found [d] tok passed f.isExponent f.negSignOk f.posSignOk =
        out tok' (passed ++ [d]) ∧ tok'.err = .continued := by
  obtain ⟨isDouble, isExponent, negSignOk, posSignOk⟩ := f
  obtain rfl : tok.isDouble = isDouble := hf
  obtain rfl := hc
  let next := (⟨tok.isDouble, isExponent, negSignOk, posSignOk⟩ : NumberFlags).next tok.c
  refine ⟨{ tok with isDouble := next.isDouble, str := [], err := .continued }, ?_, rfl⟩
  rw [jsonNumberLoop]
  refine (if_pos htakes).trans ?_
  exact jsonAdvancePeek_last (d := tok.c) hstr hstate

/-- A character is not passed. -/
theorem jsonNumberLoop_stops {d : UInt8} (text : List UInt8) (hc : tok.c = d)
    (hf : tok.isDouble = f.isDouble) (htakes : ¬f.takes d) :
    jsonNumberLoop E out found (d :: text) tok passed f.isExponent f.negSignOk f.posSignOk =
      found tok passed := by
  obtain ⟨isDouble, isExponent, negSignOk, posSignOk⟩ := f
  obtain rfl : tok.isDouble = isDouble := hf
  obtain rfl := hc
  rw [jsonNumberLoop]
  exact if_neg htakes

theorem jsonTok_c_eq {d : UInt8} {ds : List UInt8} (hstr : tok.str = d :: ds)
    (hhead : tok.str.head? = some tok.c) : tok.c = d := by
  rw [hstr] at hhead
  exact (Option.some.inj hhead).symm

/-- The characters of a number are passed, up to one that is not passed. -/
theorem jsonNumberLoop_eq (hE : E.Bounded) (hstr : tok.str = s ++ c :: cs)
    (hhead : tok.str.head? = some tok.c) (hf : tok.isDouble = f.isDouble) (hrun : f.run s = some g)
    (hg : ¬g.takes c) :
    jsonNumberLoop E out found (s ++ c :: cs) tok passed f.isExponent f.negSignOk f.posSignOk =
      found (tok.numberTok g (c :: cs) c) (passed ++ s) := by
  induction s generalizing tok f passed with
  | nil =>
    obtain rfl := Option.some.inj hrun
    have hc : tok.c = c := jsonTok_c_eq hstr hhead
    rw [List.nil_append] at hstr ⊢
    rw [jsonNumberLoop_stops cs hc hf hg, List.append_nil, JsonTok.numberTok, ← hstr, ← hc, ← hf]
  | cons d s ih =>
    have hd : tok.c = d := jsonTok_c_eq hstr hhead
    rw [NumberFlags.run] at hrun
    split_ifs at hrun with htakes
    obtain ⟨e, es, he⟩ := List.exists_cons_of_ne_nil
      (List.append_ne_nil_of_right_ne_nil s (List.cons_ne_nil c cs))
    rw [List.cons_append] at hstr ⊢
    rw [he] at hstr
    rw [he, jsonNumberLoop_takes hE hstr hd hf htakes, ← he, ih rfl (by rw [he]; rfl) rfl hrun,
      List.append_assoc]
    rfl

/-- The characters of a number are passed up to the end of the text. -/
theorem jsonNumberLoop_end (hE : E.Bounded) (hne : s ≠ []) (hstr : tok.str = s)
    (hhead : tok.str.head? = some tok.c) (hf : tok.isDouble = f.isDouble) (hrun : (f.run s).isSome)
    (hstate : tok.srec.state ≠ .eatws) :
    ∃ tok' : JsonTok D,
      jsonNumberLoop E out found s tok passed f.isExponent f.negSignOk f.posSignOk =
        out tok' (passed ++ s) ∧ tok'.err = .continued := by
  induction s generalizing tok f passed with
  | nil => exact absurd rfl hne
  | cons d s ih =>
    have hd : tok.c = d := jsonTok_c_eq hstr hhead
    rw [NumberFlags.run] at hrun
    split_ifs at hrun with htakes
    · cases s with
      | nil => exact jsonNumberLoop_last hstr hd hf htakes hstate
      | cons e es =>
        rw [jsonNumberLoop_takes hE hstr hd hf htakes]
        obtain ⟨tok', heq, herr⟩ := @ih (tok.numberTok (f.next d) (e :: es) e) (f.next d)
          (passed ++ [d]) (List.cons_ne_nil e es) rfl rfl rfl hrun hstate
        exact ⟨tok', by rw [heq, List.append_assoc]; rfl, herr⟩
    · cases hrun

/-- The start of a number. -/
structure NumberAt (outer : List (JsonSrec D)) (text : List UInt8) (tok : JsonTok D) : Prop extends
    JsonAt outer ⟨.number, .start, .null, none⟩ text tok where
  pb : tok.pb = []
  isDouble : tok.isDouble = false

theorem NumberAt.jsonSwitch_eq {text : List UInt8} (h : NumberAt outer text tok) :
    jsonSwitch E tok = jsonNumberLoop E (jsonScanOut E) (jsonNumberFound E) text tok []
      numberFlagsInit.isExponent numberFlagsInit.negSignOk numberFlagsInit.posSignOk := by
  have hswitch : jsonSwitch E tok = jsonNumber E tok := by rw [jsonSwitch, h.srec]
  rw [hswitch, jsonNumber, h.pb, h.str]
  rfl

/-- A number that the text ends with is not complete. -/
theorem stops_number_cut (hE : E.Bounded) (hne : s ≠ []) (hrun : (numberFlagsInit.run s).isSome) :
    Stops (jsonStep E) (NumberAt outer s) Rejects := by
  refine .of_step fun tok htok ↦ ?_
  have hswitch := htok.jsonSwitch_eq (E := E)
  have hstate : tok.srec.state ≠ .eatws := by
    rw [htok.srec]
    simp
  obtain ⟨tok', hloop, herr⟩ :=
    jsonNumberLoop_end hE hne htok.str htok.head htok.isDouble hrun hstate
  exact ⟨.reject, jsonStep_scanOut (hswitch.trans hloop) herr, rfl⟩

/-- A number and the character after it. -/
theorem NumberAt.jsonSwitch_append (hE : E.Bounded) (hne : s ≠ [])
    (hrun : numberFlagsInit.run s = some g) (hg : ¬g.takes c)
    (h : NumberAt (level :: outer) (s ++ c :: cs) tok) :
    jsonSwitch E tok =
      let tok' := tok.numberTok g (c :: cs) c
      if ¬jsonEndsNumber c then tok'.fail .errorParseNumber
      else jsonMemappend E tok' s (jsonNumberEnd E s.length) := by
  have hloop : jsonNumberLoop E (jsonScanOut E) (jsonNumberFound E) (s ++ c :: cs) tok []
      numberFlagsInit.isExponent numberFlagsInit.negSignOk numberFlagsInit.posSignOk =
        jsonNumberFound E (tok.numberTok g (c :: cs) c) ([] ++ s) :=
    jsonNumberLoop_eq hE h.str h.head h.isDouble hrun hg
  have hdepth : 0 < (tok.numberTok g (c :: cs) c).depth := by
    have houter : (tok.numberTok g (c :: cs) c).outer = level :: outer := h.outer
    rw [JsonTok.depth, houter]
    exact Nat.succ_pos _
  rw [h.jsonSwitch_eq, hloop, jsonNumberFound, List.nil_append, if_neg hne]
  simp only [hdepth, true_and]
  rfl

end Loop

/-! ## The value of a number -/

/-- Every number ends with a digit. -/
theorem JsonNumber.text_eq_append (n : JsonNumber) : ∃ q d, n.text = q ++ [d] ∧ isDigitChar d = true := by
  have hdigits : ∀ (q : List UInt8) (ds : JsonDigits),
      ∃ q' d, q ++ ds.1 = q' ++ [d] ∧ isDigitChar d = true := by
    intro q ds
    refine ⟨q ++ ds.1.dropLast, ds.1.getLast ds.2.1, ?_, ds.2.2 _ (List.getLast_mem ds.2.1)⟩
    rw [List.append_assoc, List.dropLast_append_getLast]
  obtain ⟨minus, int, frac, exponent⟩ := n
  obtain _ | e := exponent
  · obtain _ | ds := frac
    · simpa [JsonNumber.text, JsonNumber.tail] using hdigits (minusText minus) int
    · simpa [JsonNumber.text, JsonNumber.tail] using
        hdigits (minusText minus ++ int.1 ++ ['.'.toUInt8]) ds
  · have h := hdigits (minusText minus ++ int.1 ++ (frac.elim [] fun ds ↦ '.'.toUInt8 :: ds.1) ++
      [if e.capital then 'E'.toUInt8 else 'e'.toUInt8] ++
      (e.sign.map fun minus ↦ if minus then '-'.toUInt8 else '+'.toUInt8).toList) e.digits
    simpa [JsonNumber.text, JsonNumber.tail, JsonExponent.text] using h

theorem jsonTrimReverse_of_digit {c : UInt8} (hc : isDigitChar c = true) (cs : List UInt8) :
    jsonTrimReverse (c :: cs) = c :: cs := by
  cases cs with
  | nil => rfl
  | cons d cs =>
    rw [jsonTrimReverse, if_neg]
    rintro (rfl | rfl | rfl | rfl) <;> exact absurd hc (by decide)

section Outcome

variable {D : Type} {E : JsonEnv D} {tok : JsonTok D} {outer : List (JsonSrec D)} {level : JsonSrec D}

theorem EndsValue.jsonEndsNumber {c : UInt8} (hc : EndsValue c) : jsonEndsNumber c = true := by
  simp only [EndsValue, isWsChar, decide_eq_true_eq] at hc
  obtain rfl | rfl | rfl | rfl | rfl | rfl | rfl := hc <;> rfl

/-- What the automaton does at the end of a number. -/
theorem jsonNumberEnd_text (n : JsonNumber) (hpb : tok.pb = n.text) (hdouble : tok.isDouble = n.isDouble)
    (hc : EndsValue tok.c) (k : ℕ) :
    jsonNumberEnd E k tok =
      (jsonNumberValue E n.isDouble n.text).elim (tok.fail .errorParseNumber) tok.complete := by
  have hinf : ¬(tok.c = 'i'.toUInt8 ∨ tok.c = 'I'.toUInt8) := by
    rintro (h | h) <;> rw [h] at hc <;> exact absurd hc (by decide)
  have htrim : (jsonTrimReverse n.text.reverse).reverse = n.text := by
    obtain ⟨q, d, heq, hd⟩ := n.text_eq_append
    rw [heq, List.reverse_concat, jsonTrimReverse_of_digit hd, List.reverse_cons, List.reverse_reverse]
  have hself : (if tok.isDouble ∧ ¬E.strict then
      { tok with pb := (jsonTrimReverse tok.pb.reverse).reverse } else tok) = tok := by
    split_ifs
    · rw [hpb, htrim, ← hpb]
    · rfl
  rw [jsonNumberEnd, if_neg fun h ↦ hinf h.2.2]
  dsimp only
  rw [hself, hpb, hdouble]
  cases jsonNumberValue E n.isDouble n.text <;> rfl

theorem NumberAt.not_nil : ¬NumberAt outer [] tok := fun h ↦ h.toJsonAt.not_nil

theorem JsonNumber.text_ne_nil (n : JsonNumber) : n.text ≠ [] := by
  obtain ⟨q, d, heq, -⟩ := n.text_eq_append
  rw [heq]
  exact List.append_ne_nil_of_right_ne_nil q (List.cons_ne_nil d [])

/-- What the automaton does with a number and the character after it. -/
theorem NumberAt.jsonSwitch_text (hE : E.Bounded) (n : JsonNumber) {c : UInt8} {cs : List UInt8}
    (hc : EndsValue c) (h : NumberAt (level :: outer) (n.text ++ c :: cs) tok) :
    ∃ tok' : JsonTok D, JsonAt (level :: outer) ⟨.number, .start, .null, none⟩ (c :: cs) tok' ∧
      jsonSwitch E tok = if n.text.length ≤ E.limit then
        (jsonNumberValue E n.isDouble n.text).elim (tok'.fail .errorParseNumber) tok'.complete
      else tok'.fail .errorMemory := by
  obtain ⟨isExponent, hrun⟩ := run_text n
  have hswitch := h.jsonSwitch_append (E := E) hE n.text_ne_nil hrun (hc.not_takes _ _)
  dsimp only at hswitch
  rw [if_neg (not_not_intro hc.jsonEndsNumber)] at hswitch
  let tok' := tok.numberTok ⟨n.isDouble, isExponent, false, false⟩ (c :: cs) c
  have hpb : (tok.numberTok ⟨n.isDouble, isExponent, false, false⟩ (c :: cs) c).pb = [] := h.pb
  have hlen : ([] : List UInt8).length + n.text.length = n.text.length := Nat.zero_add _
  rw [jsonMemappend_eq hE, hpb, hlen, List.nil_append] at hswitch
  by_cases hroom : n.text.length ≤ E.limit
  · rw [if_pos hroom, jsonNumberEnd_text n rfl rfl hc] at hswitch
    refine ⟨{ tok' with pb := n.text }, ⟨h.outer, h.srec, rfl, rfl, h.high⟩, ?_⟩
    rw [if_pos hroom]
    exact hswitch
  · rw [if_neg hroom] at hswitch
    refine ⟨tok', ⟨h.outer, h.srec, rfl, rfl, h.high⟩, ?_⟩
    rw [if_neg hroom]
    exact hswitch

/-- **Numbers.** -/
theorem outcome_number (hE : E.Bounded) (n : JsonNumber) :
    Outcome (jsonStep E) Rejects (NumberAt (level :: outer)) n.text
      (fun v ↦ JsonEats (level :: outer) .finish v none) (fun _ ↦ Rejects) EndsValue
      (numberRead E n) := by
  have hcut : ∀ p, p <+: n.text → Stops (jsonStep E) (NumberAt (level :: outer) p) Rejects := by
    intro p hp
    by_cases hnil : p = []
    · intro tok htok
      rw [hnil] at htok
      exact absurd htok NumberAt.not_nil
    · obtain ⟨isExponent, hrun⟩ := run_text n
      exact stops_number_cut hE hnil (NumberFlags.run_prefix hp (by rw [hrun]; rfl))
  cases hvalue : numberRead E n with
  | none =>
    refine ⟨?_, hcut⟩
    rintro rest ⟨c, cs, rfl, hc⟩
    refine stops_of_fail fun tok htok ↦ ?_
    obtain ⟨tok', -, hswitch⟩ := htok.jsonSwitch_text (E := E) hE n hc
    rw [numberRead, numberValue] at hvalue
    split_ifs at hvalue hswitch with hroom
    · rw [hvalue] at hswitch
      exact ⟨tok', .errorParseNumber, hswitch, by decide⟩
    · exact ⟨tok', .errorMemory, hswitch, by decide⟩
  | some v =>
    refine ⟨?_, hcut n.text List.prefix_rfl, fun p hp _ ↦ hcut p hp⟩
    rintro rest ⟨c, cs, rfl, hc⟩
    refine moves_of_redo fun tok htok ↦ ?_
    obtain ⟨tok', hat, hswitch⟩ := htok.jsonSwitch_text (E := E) hE n hc
    rw [numberRead, numberValue] at hvalue
    split_ifs at hvalue hswitch with hroom
    rw [hvalue] at hswitch
    exact ⟨_, hswitch, hat.complete v⟩

end Outcome

end LatteC
