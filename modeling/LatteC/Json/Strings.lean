import LatteC.Json.Document

/-!
# Strings

The characters of a string or of a member name: runs of plain characters, escapes, and the codes of which a
high surrogate waits for the next one. What has been read is in the print buffer.
-/

namespace LatteC

open StepMachine

section Strings

variable {D : Type} {E : JsonEnv D} {tok : JsonTok D} {outer : List (JsonSrec D)}
  {srec : JsonSrec D} {st : JsonState} {v : Value D} {name : Option (List UInt8)}

/-- A position within a string with double quotes. -/
structure StringAt (outer : List (JsonSrec D)) (srec : JsonSrec D) (high : ℕ) (pb text : List UInt8)
    (tok : JsonTok D) : Prop where
  outer : tok.outer = outer
  srec : tok.srec = srec
  high : tok.highSurrogate = high
  pb : tok.pb = pb
  quote : tok.quoteChar = 34
  str : tok.str = text
  head : tok.str.head? = some tok.c

/-- A position at which no digit of a code has been read. -/
structure CodeAt (outer : List (JsonSrec D)) (srec : JsonSrec D) (high : ℕ) (pb text : List UInt8)
    (tok : JsonTok D) : Prop extends StringAt outer srec high pb text tok where
  ucsChar : tok.ucsChar = 0
  stPos : tok.stPos = 0

/-- Bytes that the print buffer has room for. -/
def fitting (E : JsonEnv D) (bytes : List UInt8) : Option (List UInt8) :=
  if bytes.length ≤ E.limit then some bytes else none

theorem fitting_bind {bytes total : List UInt8} (h : bytes.length ≤ total.length) :
    ((fitting E bytes).bind fun _ ↦ fitting E total) = fitting E total := by
  rw [fitting]
  split_ifs with hroom
  · rfl
  · rw [fitting, if_neg (by omega)]
    rfl

theorem StringAt.not_nil {high : ℕ} {pb : List UInt8} : ¬StringAt outer srec high pb [] tok := by
  intro h
  have hhead := h.head
  rw [h.str] at hhead
  cases hhead

theorem StringAt.c_eq {high : ℕ} {pb : List UInt8} {c : UInt8} {cs : List UInt8}
    (h : StringAt outer srec high pb (c :: cs) tok) : tok.c = c := by
  have hhead := h.head
  rw [h.str] at hhead
  exact (Option.some.inj hhead).symm

/-! ## Runs of plain characters -/

/-- A byte that stands for itself. -/
def IsPlainChar (c : UInt8) : Prop := c ≠ 0 ∧ c ≠ 34 ∧ c ≠ 92

section Scan

variable {stop : UInt8 → Bool} {out found : JsonTok D → List UInt8 → JsonPass D}
  {plain passed : List UInt8}

/-- Characters are passed up to the first one at which the loop stops. -/
theorem jsonScan_eq (hE : E.Bounded) (hplain : ∀ c ∈ plain, stop c = false ∧ c ≠ 0) {x : UInt8}
    (hx : stop x = true) {rest : List UInt8} (hstr : tok.str = plain ++ x :: rest)
    (hhead : tok.str.head? = some tok.c) :
    jsonScan E stop out found (plain ++ x :: rest) tok passed =
      found { tok with str := x :: rest, c := x } (passed ++ plain) := by
  induction plain generalizing tok passed with
  | nil =>
    have hc : tok.c = x := by
      rw [hstr] at hhead
      exact (Option.some.inj hhead).symm
    rw [List.nil_append] at hstr ⊢
    rw [jsonScan, hc, if_pos hx, List.append_nil, ← hstr, ← hc]
  | cons d plain ih =>
    have hd : tok.c = d := by
      rw [hstr] at hhead
      exact (Option.some.inj hhead).symm
    obtain ⟨hstop, hzero⟩ := hplain d List.mem_cons_self
    obtain ⟨e, es, he⟩ := List.exists_cons_of_ne_nil
      (List.append_ne_nil_of_right_ne_nil plain (List.cons_ne_nil x rest))
    rw [List.cons_append] at hstr ⊢
    rw [he] at hstr
    rw [jsonScan, hd, if_neg (by rw [hstop]; exact Bool.false_ne_true)]
    dsimp only
    rw [if_neg hzero, jsonAdvancePeek_cons hE.validateUtf8 hstr, ← he,
      ih (fun c hc ↦ hplain c (List.mem_cons_of_mem d hc)) rfl (by rw [he]; rfl), List.append_assoc]
    rfl

/-- Characters are passed up to the end of the text. -/
theorem jsonScan_end (hE : E.Bounded) (hplain : ∀ c ∈ plain, stop c = false ∧ c ≠ 0)
    (hne : plain ≠ []) (hstr : tok.str = plain) (hhead : tok.str.head? = some tok.c)
    (hstate : tok.srec.state ≠ .eatws) :
    ∃ tok' : JsonTok D, jsonScan E stop out found plain tok passed = out tok' (passed ++ plain) ∧
      tok'.err = .continued := by
  induction plain generalizing tok passed with
  | nil => exact absurd rfl hne
  | cons d plain ih =>
    have hd : tok.c = d := by
      rw [hstr] at hhead
      exact (Option.some.inj hhead).symm
    obtain ⟨hstop, hzero⟩ := hplain d List.mem_cons_self
    rw [jsonScan, hd, if_neg (by rw [hstop]; exact Bool.false_ne_true)]
    dsimp only
    rw [if_neg hzero]
    cases plain with
    | nil =>
      rw [jsonAdvancePeek_last hstr hstate]
      exact ⟨_, rfl, rfl⟩
    | cons e es =>
      rw [jsonAdvancePeek_cons hE.validateUtf8 hstr]
      obtain ⟨tok', heq, herr⟩ := @ih { tok with str := e :: es, c := e } (passed ++ [d])
        (fun c hc ↦ hplain c (List.mem_cons_of_mem d hc))
        (List.cons_ne_nil e es) rfl rfl hstate
      exact ⟨tok', by rw [heq, List.append_assoc]; rfl, herr⟩

end Scan

/-- A state that scans the characters of a string, and the level after its last quote. -/
structure StringScan (E : JsonEnv D) (st : JsonState)
    (done : List UInt8 → Value D → Option (List UInt8) → JsonSrec D) : Prop where
  ne_eatws : st ≠ .eatws
  quote : ∀ (tok : JsonTok D) (plain rest : List UInt8), tok.srec.state = st → tok.quoteChar = 34 →
    (∀ c ∈ plain, IsPlainChar c) → tok.str = plain ++ 34 :: rest → tok.str.head? = some tok.c →
      jsonSwitch E tok = jsonMemappend E { tok with str := 34 :: rest, c := 34 } plain fun tok' ↦
        ({ tok' with srec := done tok'.pb tok'.srec.current tok'.srec.objFieldName }, .next)
  backslash : ∀ (tok : JsonTok D) (plain rest : List UInt8), tok.srec.state = st →
    tok.quoteChar = 34 → (∀ c ∈ plain, IsPlainChar c) → tok.str = plain ++ 92 :: rest →
      tok.str.head? = some tok.c →
      jsonSwitch E tok = jsonMemappend E { tok with str := 92 :: rest, c := 92 } plain fun tok' ↦
        (tok'.setStates st .stringEscape, .next)
  cut : ∀ (tok : JsonTok D) (plain : List UInt8), tok.srec.state = st → tok.quoteChar = 34 →
    (∀ c ∈ plain, IsPlainChar c) → plain ≠ [] → tok.str = plain → tok.str.head? = some tok.c →
      ∃ tok' : JsonTok D, jsonSwitch E tok = jsonScanOut E tok' plain ∧ tok'.err = .continued

/-- Where the loops stop within a string with double quotes. -/
theorem IsPlainChar.not_stop {c quote : UInt8} (hc : IsPlainChar c) (hquote : quote = 34) :
    (decide (c = quote) || decide (c = 92)) = false ∧ c ≠ 0 := by
  rw [hquote, decide_eq_false hc.2.1, decide_eq_false hc.2.2]
  exact ⟨rfl, hc.1⟩

/-- Member names. -/
theorem stringScan_objectField (hE : E.Bounded) :
    StringScan E .objectField fun pb v _ ↦
      ⟨.eatws, .objectFieldEnd, v, some (cString pb)⟩ where
  ne_eatws := by simp
  quote tok plain rest hstate hquote hplain hstr hhead := by
    have hswitch : jsonSwitch E tok = jsonObjectField E tok := by rw [jsonSwitch, hstate]
    rw [hswitch, jsonObjectField, hstr, jsonScan_eq hE
      (fun c hc ↦ (hplain c hc).not_stop hquote) (by rw [hquote]; rfl) hstr hhead]
    exact if_pos hquote.symm
  backslash tok plain rest hstate hquote hplain hstr hhead := by
    have hswitch : jsonSwitch E tok = jsonObjectField E tok := by rw [jsonSwitch, hstate]
    have hne : 92 ≠ tok.quoteChar := by rw [hquote]; decide
    rw [hswitch, jsonObjectField, hstr, jsonScan_eq hE
      (fun c hc ↦ (hplain c hc).not_stop hquote) (by rw [hquote]; rfl) hstr hhead]
    exact if_neg hne
  cut tok plain hstate hquote hplain hne hstr hhead := by
    have hswitch : jsonSwitch E tok = jsonObjectField E tok := by rw [jsonSwitch, hstate]
    rw [hswitch, jsonObjectField, hstr]
    exact jsonScan_end hE (fun c hc ↦ (hplain c hc).not_stop hquote) hne hstr hhead
      (by rw [hstate]; simp)

/-- Strings. -/
theorem stringScan_string (hE : E.Bounded) :
    StringScan E .string fun _ v name ↦ ⟨.eatws, .finish, v, name⟩ where
  ne_eatws := by simp
  quote tok plain rest hstate hquote hplain hstr hhead := by
    have hswitch : jsonSwitch E tok = jsonString E tok := by rw [jsonSwitch, hstate]
    rw [hswitch, jsonString, hE.strict]
    simp only [Bool.false_and, Bool.or_false]
    rw [hstr, jsonScan_eq hE
      (fun c hc ↦ (hplain c hc).not_stop hquote) (by rw [hquote]; rfl) hstr hhead]
    exact if_pos hquote.symm
  backslash tok plain rest hstate hquote hplain hstr hhead := by
    have hswitch : jsonSwitch E tok = jsonString E tok := by rw [jsonSwitch, hstate]
    have hne : 92 ≠ tok.quoteChar := by rw [hquote]; decide
    rw [hswitch, jsonString, hE.strict]
    simp only [Bool.false_and, Bool.or_false]
    rw [hstr, jsonScan_eq hE
      (fun c hc ↦ (hplain c hc).not_stop hquote) (by rw [hquote]; rfl) hstr hhead]
    exact (if_neg hne).trans (if_pos rfl)
  cut tok plain hstate hquote hplain hne hstr hhead := by
    have hswitch : jsonSwitch E tok = jsonString E tok := by rw [jsonSwitch, hstate]
    rw [hswitch, jsonString, hE.strict]
    simp only [Bool.false_and, Bool.or_false]
    rw [hstr]
    exact jsonScan_end hE (fun c hc ↦ (hplain c hc).not_stop hquote) hne hstr hhead
      (by rw [hstate]; simp)

/-! ## Passes -/

/-- A pass that appends to the print buffer, and fails if there is no room. -/
theorem outcome_pass {A : List UInt8 → JsonTok D → Prop} {B : List UInt8 → List UInt8 → JsonTok D → Prop}
    {s total : List UInt8} {c : UInt8} (hE : E.Bounded) (hc : c ≠ 0)
    (hend : jsonEndReply outer srec = .reject)
    (hcut : ∀ p, p <+: s → Stops (jsonStep E) (A p) Rejects)
    (hroom : total.length ≤ E.limit → ∀ rest tok, A (s ++ c :: rest) tok →
      ∃ tok', jsonSwitch E tok = (tok', .next) ∧ JsonPassed outer srec c rest tok' ∧
        ∀ d ds, rest = d :: ds → B total rest { tok' with str := d :: ds, c := d })
    (hfull : ¬total.length ≤ E.limit → ∀ rest tok, A (s ++ c :: rest) tok →
      ∃ (tok' : JsonTok D) (err : JsonError), jsonSwitch E tok = tok'.fail err ∧ err ≠ .success)
    (ok : UInt8 → Prop) :
    Outcome (jsonStep E) Rejects A (s ++ [c]) B (fun _ ↦ Rejects) ok (fitting E total) := by
  rw [fitting]
  split_ifs with hfits
  · exact reads_pass hE hc hend hcut (hroom hfits) ok
  · refine ⟨fun rest _ ↦ stops_of_fail fun tok htok ↦ ?_, fun p hp ↦ ?_⟩
    · rw [List.append_assoc] at htok
      exact hfull hfits rest tok htok
    · obtain rfl | hps := List.prefix_concat_iff.mp hp
      · exact stops_of_fail fun tok htok ↦ hfull hfits [] tok htok
      · exact hcut p hps

theorem jsonMemappend_of_full (hE : E.Bounded) {pb s : List UInt8} {andThen : JsonTok D → JsonPass D}
    (hpb : tok.pb = pb) (h : ¬(pb ++ s).length ≤ E.limit) :
    jsonMemappend E tok s andThen = tok.fail .errorMemory := by
  rw [jsonMemappend_eq hE, hpb, if_neg]
  rwa [List.length_append] at h

theorem jsonMemappend_of_fits (hE : E.Bounded) {pb s : List UInt8} {andThen : JsonTok D → JsonPass D}
    (hpb : tok.pb = pb) (h : (pb ++ s).length ≤ E.limit) :
    jsonMemappend E tok s andThen = andThen { tok with pb := pb ++ s } := by
  rw [jsonMemappend_eq hE, hpb, if_pos]
  rwa [List.length_append] at h

section Scanning

variable {done : List UInt8 → Value D → Option (List UInt8) → JsonSrec D} {saved : JsonState}
  {pb plain : List UInt8} {ok : UInt8 → Prop}

theorem stops_scan_cut (hscan : StringScan E st done) (hplain : ∀ c ∈ plain, IsPlainChar c) :
    Stops (jsonStep E) (StringAt outer ⟨st, saved, v, name⟩ 0 pb plain) Rejects := by
  refine .of_step fun tok htok ↦ ⟨.reject, ?_, rfl⟩
  have hne : plain ≠ [] := by
    rintro rfl
    exact htok.not_nil
  obtain ⟨tok', hswitch, herr⟩ :=
    hscan.cut tok plain (by rw [htok.srec]) htok.quote hplain hne htok.str htok.head
  exact jsonStep_scanOut hswitch herr

/-- The last quote. -/
theorem outcome_quote (hE : E.Bounded) (hscan : StringScan E st done)
    (hend : ∀ total, jsonEndReply outer (done total v name) = .reject)
    (hplain : ∀ c ∈ plain, IsPlainChar c) :
    Outcome (jsonStep E) Rejects (StringAt outer ⟨st, saved, v, name⟩ 0 pb) (plain ++ [34])
      (fun total ↦ JsonAt outer (done total v name)) (fun _ ↦ Rejects) ok
      (fitting E (pb ++ plain)) := by
  refine outcome_pass hE (by decide) (hend (pb ++ plain)) (fun p hp ↦ ?_)
    (fun hfits rest tok htok ↦ ?_) (fun hfull rest tok htok ↦ ?_) ok
  · exact stops_scan_cut hscan fun c hc ↦ hplain c (hp.subset hc)
  · have hswitch := hscan.quote tok plain rest (by rw [htok.srec]) htok.quote hplain htok.str htok.head
    have hdone : done (pb ++ plain) tok.srec.current tok.srec.objFieldName =
        done (pb ++ plain) v name := by rw [htok.srec]
    refine ⟨_, hswitch.trans (jsonMemappend_of_fits hE htok.pb hfits), ⟨htok.outer, hdone, rfl, rfl⟩, ?_⟩
    rintro d ds rfl
    exact ⟨htok.outer, hdone, rfl, rfl, htok.high⟩
  · have hswitch := hscan.quote tok plain rest (by rw [htok.srec]) htok.quote hplain htok.str htok.head
    exact ⟨_, .errorMemory, hswitch.trans (jsonMemappend_of_full hE htok.pb hfull), by decide⟩

/-- A backslash. -/
theorem outcome_backslash (hE : E.Bounded) (hscan : StringScan E st done)
    (hplain : ∀ c ∈ plain, IsPlainChar c) :
    Outcome (jsonStep E) Rejects (StringAt outer ⟨st, saved, v, name⟩ 0 pb) (plain ++ [92])
      (fun total ↦ StringAt outer ⟨.stringEscape, st, v, name⟩ 0 total) (fun _ ↦ Rejects) ok
      (fitting E (pb ++ plain)) := by
  have hend : jsonEndReply outer (⟨.stringEscape, st, v, name⟩ : JsonSrec D) = .reject :=
    jsonEndReply_of_state (by simp)
  refine outcome_pass hE (by decide) hend (fun p hp ↦ ?_) (fun hfits rest tok htok ↦ ?_)
    (fun hfull rest tok htok ↦ ?_) ok
  · exact stops_scan_cut hscan fun c hc ↦ hplain c (hp.subset hc)
  · have hswitch := hscan.backslash tok plain rest (by rw [htok.srec]) htok.quote hplain htok.str
      htok.head
    have hsrec : ({ tok.srec with savedState := st, state := .stringEscape } : JsonSrec D) =
        ⟨.stringEscape, st, v, name⟩ := by rw [htok.srec]
    refine ⟨_, hswitch.trans (jsonMemappend_of_fits hE htok.pb hfits), ⟨htok.outer, hsrec, rfl, rfl⟩, ?_⟩
    rintro d ds rfl
    exact ⟨htok.outer, hsrec, htok.high, rfl, htok.quote, rfl, rfl⟩
  · have hswitch := hscan.backslash tok plain rest (by rw [htok.srec]) htok.quote hplain htok.str
      htok.head
    exact ⟨_, .errorMemory, hswitch.trans (jsonMemappend_of_full hE htok.pb hfull), by decide⟩

/-- The character of an escape. -/
theorem outcome_escape (hE : E.Bounded) (hst : st ≠ .eatws) (e : JsonEscape) :
    Outcome (jsonStep E) Rejects (StringAt outer ⟨.stringEscape, st, v, name⟩ 0 pb) [e.char]
      (fun total ↦ StringAt outer ⟨st, st, v, name⟩ 0 total) (fun _ ↦ Rejects) ok
      (fitting E (pb ++ [e.byte])) := by
  have hswitch : ∀ rest tok, StringAt outer ⟨.stringEscape, st, v, name⟩ 0 pb (e.char :: rest) tok →
      jsonSwitch E tok = jsonMemappend E tok [e.byte] fun tok ↦
        (tok.setState tok.srec.savedState, .next) := by
    intro rest tok htok
    have hswitch : jsonSwitch E tok = jsonStringEscape E tok := by rw [jsonSwitch, htok.srec]
    rw [hswitch, jsonStringEscape, htok.c_eq]
    cases e <;> rfl
  have hend : jsonEndReply outer (⟨st, st, v, name⟩ : JsonSrec D) = .reject :=
    jsonEndReply_of_state hst
  refine outcome_pass (s := []) hE (by cases e <;> decide) hend (fun p hp tok htok ↦ ?_)
    (fun hfits rest tok htok ↦ ?_) (fun hfull rest tok htok ↦ ?_) ok
  · rw [List.prefix_nil.mp hp] at htok
    exact absurd htok StringAt.not_nil
  · have hsrec : ({ tok.srec with state := tok.srec.savedState } : JsonSrec D) =
        ⟨st, st, v, name⟩ := by rw [htok.srec]
    refine ⟨_, (hswitch rest tok htok).trans (jsonMemappend_of_fits hE htok.pb hfits),
      ⟨htok.outer, hsrec, htok.str, htok.c_eq⟩, ?_⟩
    rintro d ds rfl
    exact ⟨htok.outer, hsrec, htok.high, rfl, htok.quote, rfl, rfl⟩
  · exact ⟨_, .errorMemory, (hswitch rest tok htok).trans (jsonMemappend_of_full hE htok.pb hfull),
      by decide⟩

/-- The start of a code. -/
theorem reads_u (hE : E.Bounded) :
    Reads (jsonStep E) Rejects (StringAt outer ⟨.stringEscape, st, v, name⟩ 0 pb) ['u'.toUInt8]
      (CodeAt outer ⟨.enumscapeUnicode, st, v, name⟩ 0 pb) Rejects ok := by
  have hend : jsonEndReply outer (⟨.enumscapeUnicode, st, v, name⟩ : JsonSrec D) = .reject :=
    jsonEndReply_of_state (by simp)
  refine reads_pass (s := []) hE (by decide) hend (fun p hp tok htok ↦ ?_) (fun rest tok htok ↦ ?_) ok
  · rw [List.prefix_nil.mp hp] at htok
    exact absurd htok StringAt.not_nil
  · have hswitch : jsonSwitch E tok = jsonStringEscape E tok := by rw [jsonSwitch, htok.srec]
    have hsrec : ({ tok.srec with state := .enumscapeUnicode } : JsonSrec D) =
        ⟨.enumscapeUnicode, st, v, name⟩ := by rw [htok.srec]
    refine ⟨{ tok.setState .enumscapeUnicode with ucsChar := 0, stPos := 0 }, ?_,
      ⟨htok.outer, hsrec, htok.str, htok.c_eq⟩, ?_⟩
    · rw [hswitch, jsonStringEscape, htok.c_eq]
      rfl
    · rintro d ds rfl
      exact ⟨⟨htok.outer, hsrec, htok.high, htok.pb, htok.quote, rfl, rfl⟩, rfl, rfl⟩

/-! ## Codes -/

theorem isHexChar_ne_zero {d : UInt8} (hd : isHexChar d = true) : d ≠ 0 := by
  rintro rfl
  exact absurd hd (by decide)

theorem jsonUnicodeLoop_digit (hE : E.Bounded) {d e : UInt8} {text : List UInt8}
    (hd : isHexChar d = true) (hstr : tok.str = d :: e :: text) (hc : tok.c = d)
    (hpos : tok.stPos < 3) :
    jsonUnicodeLoop E (d :: e :: text) tok = jsonUnicodeLoop E (e :: text)
      { tok with
        ucsChar := tok.ucsChar ||| jtHexdigit d <<< ((3 - tok.stPos) * 4), stPos := tok.stPos + 1,
        str := e :: text, c := e } := by
  have hbad : ¬(tok.c = 0 ∨ ¬isHexChar tok.c) := by
    rw [hc]
    exact fun h ↦ h.elim (isHexChar_ne_zero hd) fun h ↦ h hd
  rw [jsonUnicodeLoop, if_neg hbad]
  dsimp only
  rw [if_neg (by omega), hc]
  exact @jsonAdvancePeek_cons D E _ _ _ _ hE.validateUtf8 _ _ text hstr

theorem jsonUnicodeLoop_last {d : UInt8} (text : List UInt8) (hd : isHexChar d = true)
    (hc : tok.c = d) (hpos : tok.stPos = 3) :
    jsonUnicodeLoop E (d :: text) tok =
      jsonUnicodeDone E { tok with ucsChar := tok.ucsChar ||| jtHexdigit d <<< 0, stPos := 0 } := by
  have hbad : ¬(tok.c = 0 ∨ ¬isHexChar tok.c) := by
    rw [hc]
    exact fun h ↦ h.elim (isHexChar_ne_zero hd) fun h ↦ h hd
  rw [jsonUnicodeLoop, if_neg hbad]
  dsimp only
  rw [if_pos (by omega), hc, hpos]

theorem jsonUnicodeLoop_cut (hE : E.Bounded) {ds : List UInt8} (hne : ds ≠ [])
    (hds : ∀ d ∈ ds, isHexChar d = true) (hstr : tok.str = ds) (hhead : tok.str.head? = some tok.c)
    (hpos : tok.stPos + ds.length ≤ 3) (hstate : tok.srec.state ≠ .eatws) :
    ∃ tok' : JsonTok D, jsonUnicodeLoop E ds tok = (tok', .out) ∧ tok'.err = .continued := by
  induction ds generalizing tok with
  | nil => exact absurd rfl hne
  | cons d ds ih =>
    have hc : tok.c = d := by
      rw [hstr] at hhead
      exact (Option.some.inj hhead).symm
    have hd := hds d List.mem_cons_self
    rw [List.length_cons] at hpos
    cases ds with
    | nil =>
      have hbad : ¬(tok.c = 0 ∨ ¬isHexChar tok.c) := by
        rw [hc]
        exact fun h ↦ h.elim (isHexChar_ne_zero hd) fun h ↦ h hd
      rw [jsonUnicodeLoop, if_neg hbad]
      dsimp only
      rw [if_neg (by omega)]
      exact ⟨_, jsonAdvancePeek_last (d := d) hstr hstate, rfl⟩
    | cons e ds =>
      rw [jsonUnicodeLoop_digit hE hd hstr hc (by rw [List.length_cons] at hpos; omega)]
      exact ih (List.cons_ne_nil e ds) (fun x hx ↦ hds x (List.mem_cons_of_mem d hx)) rfl rfl
        (by dsimp only; omega) hstate

/-- Four digits of a code. -/
theorem jsonUnicodeLoop_code (hE : E.Bounded) (d₃ d₂ d₁ d₀ : JsonHexDigit) {rest : List UInt8}
    (hstr : tok.str = [d₃.1, d₂.1, d₁.1] ++ d₀.1 :: rest) (hc : tok.c = d₃.1) (hucs : tok.ucsChar = 0)
    (hpos : tok.stPos = 0) :
    jsonUnicodeLoop E tok.str tok = jsonUnicodeDone E
      { tok with ucsChar := hexCode d₃ d₂ d₁ d₀, stPos := 0, str := d₀.1 :: rest, c := d₀.1 } := by
  have hstr' : tok.str = d₃.1 :: d₂.1 :: d₁.1 :: d₀.1 :: rest := hstr
  rw [hstr', jsonUnicodeLoop_digit hE d₃.2 hstr' hc (by omega),
    jsonUnicodeLoop_digit hE d₂.2 rfl rfl (by dsimp only; omega),
    jsonUnicodeLoop_digit hE d₁.2 rfl rfl (by dsimp only; omega),
    jsonUnicodeLoop_last rest d₀.2 rfl (by dsimp only; omega)]
  dsimp only
  rw [hpos, hucs, Nat.zero_or]
  rfl

section Done

variable {high uc : ℕ}

/-- The end of a code that no low surrogate has to follow. -/
theorem jsonUnicodeAppend_eq (h : ¬WaitsForLow tok.ucsChar) :
    jsonUnicodeAppend E tok = jsonMemappend E tok (unescapedUtf tok.ucsChar) fun tok ↦
      (tok.setState tok.srec.savedState, .next) :=
  if_neg h

theorem jsonUnicodeAppend_waits (h : WaitsForLow tok.ucsChar) :
    jsonUnicodeAppend E tok =
      ({ tok.setState .enumscapeUnicodeNeedEscape with highSurrogate := tok.ucsChar, ucsChar := 0 },
        .next) :=
  if_pos h

/-- A high surrogate is taken with a low one, or it is replaced. -/
theorem jsonUnicodeDone_fits (hE : E.Bounded) (tok : JsonTok D) {pb : List UInt8} (hpb : tok.pb = pb)
    (hroom : (pb ++ surrogateLead tok.highSurrogate tok.ucsChar).length ≤ E.limit) :
    jsonUnicodeDone E tok = jsonUnicodeAppend E
      { tok with
        pb := pb ++ surrogateLead tok.highSurrogate tok.ucsChar
        ucsChar := surrogateCode tok.highSurrogate tok.ucsChar, highSurrogate := 0 } := by
  rw [jsonUnicodeDone]
  by_cases hzero : tok.highSurrogate = 0
  · have hlead : surrogateLead tok.highSurrogate tok.ucsChar = [] := by
      rw [surrogateLead, highLead, if_pos hzero, ite_self]
    have hcode : surrogateCode tok.highSurrogate tok.ucsChar = tok.ucsChar :=
      if_neg fun h ↦ h.1 hzero
    rw [if_neg (not_not_intro hzero), hlead, hcode, List.append_nil, ← hpb, ← hzero]
  · rw [if_pos hzero]
    by_cases hlow : isLowSurrogate tok.ucsChar
    · have hlead : surrogateLead tok.highSurrogate tok.ucsChar = [] := if_pos hlow
      have hcode : surrogateCode tok.highSurrogate tok.ucsChar =
          decodeSurrogatePair tok.highSurrogate tok.ucsChar := if_pos ⟨hzero, hlow⟩
      rw [if_pos hlow, hlead, hcode, List.append_nil, ← hpb]
    · have hlead : surrogateLead tok.highSurrogate tok.ucsChar = utf8ReplacementChar := by
        rw [surrogateLead, if_neg hlow, highLead, if_neg hzero]
      have hcode : surrogateCode tok.highSurrogate tok.ucsChar = tok.ucsChar :=
        if_neg fun h ↦ hlow h.2
      rw [hlead] at hroom
      rw [if_neg hlow, jsonMemappend_of_fits hE hpb hroom, hlead, hcode]

theorem jsonUnicodeDone_full (hE : E.Bounded) (tok : JsonTok D) {pb : List UInt8} (hpb : tok.pb = pb)
    (hroom : pb.length ≤ E.limit)
    (hfull : ¬(pb ++ surrogateLead tok.highSurrogate tok.ucsChar).length ≤ E.limit) :
    ∃ tok' : JsonTok D, jsonUnicodeDone E tok = tok'.fail .errorMemory := by
  have hlow : ¬isLowSurrogate tok.ucsChar := by
    intro h
    rw [surrogateLead, if_pos h, List.append_nil] at hfull
    exact hfull hroom
  have hzero : tok.highSurrogate ≠ 0 := by
    intro h
    rw [surrogateLead, highLead, if_pos h, ite_self, List.append_nil] at hfull
    exact hfull hroom
  rw [surrogateLead, if_neg hlow, highLead, if_neg hzero] at hfull
  rw [jsonUnicodeDone, if_pos hzero, if_neg hlow, jsonMemappend_of_full hE hpb hfull]
  exact ⟨tok, rfl⟩

end Done

section Codes

variable {high : ℕ} {d₃ d₂ d₁ d₀ : JsonHexDigit}

theorem CodeAt.jsonSwitch_eq (hE : E.Bounded) {rest : List UInt8}
    (h : CodeAt outer ⟨.enumscapeUnicode, st, v, name⟩ high pb
      ([d₃.1, d₂.1, d₁.1] ++ d₀.1 :: rest) tok) :
    jsonSwitch E tok = jsonUnicodeDone E
      { tok with ucsChar := hexCode d₃ d₂ d₁ d₀, stPos := 0, str := d₀.1 :: rest, c := d₀.1 } := by
  have hswitch : jsonSwitch E tok = jsonEnumscapeUnicode E tok := by rw [jsonSwitch, h.srec]
  rw [hswitch, jsonEnumscapeUnicode]
  exact jsonUnicodeLoop_code hE d₃ d₂ d₁ d₀ h.str h.toStringAt.c_eq h.ucsChar h.stPos

/-- A text that is cut off within a code. -/
theorem stops_code_cut (hE : E.Bounded) {p : List UInt8} (hp : p <+: [d₃.1, d₂.1, d₁.1]) :
    Stops (jsonStep E) (CodeAt outer ⟨.enumscapeUnicode, st, v, name⟩ high pb p) Rejects := by
  refine .of_step fun tok htok ↦ ⟨.reject, ?_, rfl⟩
  have hne : p ≠ [] := by
    rintro rfl
    exact htok.toStringAt.not_nil
  have hhex : ∀ d ∈ p, isHexChar d = true := by
    intro d hd
    have hmem := hp.subset hd
    simp only [List.mem_cons, List.not_mem_nil, or_false] at hmem
    obtain rfl | rfl | rfl := hmem
    · exact d₃.2
    · exact d₂.2
    · exact d₁.2
  have hlen : tok.stPos + p.length ≤ 3 := by
    have hle := hp.length_le
    rw [htok.stPos]
    simpa using hle
  obtain ⟨tok', hloop, herr⟩ := jsonUnicodeLoop_cut (E := E) hE hne hhex htok.str htok.head hlen
    (by rw [htok.srec]; simp)
  have hswitch : jsonSwitch E tok = jsonEnumscapeUnicode E tok := by rw [jsonSwitch, htok.srec]
  rw [jsonEnumscapeUnicode, htok.str, hloop] at hswitch
  rw [jsonStep_out hswitch, jsonOut_of_err]
  rw [herr]
  decide

/-- A code that no low surrogate has to follow. -/
theorem outcome_code (hE : E.Bounded) (hst : st ≠ .eatws) (hfits : pb.length ≤ E.limit)
    (hw : ¬WaitsForLow (surrogateCode high (hexCode d₃ d₂ d₁ d₀))) :
    Outcome (jsonStep E) Rejects (CodeAt outer ⟨.enumscapeUnicode, st, v, name⟩ high pb)
      ([d₃.1, d₂.1, d₁.1] ++ [d₀.1]) (fun total ↦ StringAt outer ⟨st, st, v, name⟩ 0 total)
      (fun _ ↦ Rejects) ok
      (fitting E (pb ++ surrogateLead high (hexCode d₃ d₂ d₁ d₀) ++
        unescapedUtf (surrogateCode high (hexCode d₃ d₂ d₁ d₀)))) := by
  have hend : jsonEndReply outer (⟨st, st, v, name⟩ : JsonSrec D) = .reject :=
    jsonEndReply_of_state hst
  have hleads : ∀ {rest : List UInt8} {tok : JsonTok D},
      CodeAt outer ⟨.enumscapeUnicode, st, v, name⟩ high pb ([d₃.1, d₂.1, d₁.1] ++ d₀.1 :: rest) tok →
      (pb ++ surrogateLead high (hexCode d₃ d₂ d₁ d₀)).length ≤ E.limit →
      jsonSwitch E tok = jsonMemappend E
        { tok with
          pb := pb ++ surrogateLead high (hexCode d₃ d₂ d₁ d₀)
          ucsChar := surrogateCode high (hexCode d₃ d₂ d₁ d₀), highSurrogate := 0, stPos := 0
          str := d₀.1 :: rest, c := d₀.1 }
        (unescapedUtf (surrogateCode high (hexCode d₃ d₂ d₁ d₀))) fun tok ↦
          (tok.setState tok.srec.savedState, .next) := by
    intro rest tok htok hlead
    have hswitch := htok.jsonSwitch_eq (E := E) hE
    rw [← htok.high] at hlead hw
    have hdone := jsonUnicodeDone_fits hE { tok with
      ucsChar := hexCode d₃ d₂ d₁ d₀, stPos := 0, str := d₀.1 :: rest, c := d₀.1 } htok.pb hlead
    rw [← htok.high, hswitch, hdone]
    exact jsonUnicodeAppend_eq hw
  refine outcome_pass hE (isHexChar_ne_zero d₀.2) hend (fun p hp ↦ stops_code_cut hE hp)
    (fun hroom rest tok htok ↦ ?_) (fun hfull rest tok htok ↦ ?_) ok
  · have hlead : (pb ++ surrogateLead high (hexCode d₃ d₂ d₁ d₀)).length ≤ E.limit := by
      rw [List.length_append] at hroom
      omega
    have hsrec : ({ tok.srec with state := tok.srec.savedState } : JsonSrec D) =
        ⟨st, st, v, name⟩ := by rw [htok.srec]
    refine ⟨_, (hleads htok hlead).trans (jsonMemappend_of_fits hE rfl hroom),
      ⟨htok.outer, hsrec, rfl, rfl⟩, ?_⟩
    rintro d ds rfl
    exact ⟨htok.outer, hsrec, rfl, rfl, htok.quote, rfl, rfl⟩
  · by_cases hlead : (pb ++ surrogateLead high (hexCode d₃ d₂ d₁ d₀)).length ≤ E.limit
    · exact ⟨_, .errorMemory, (hleads htok hlead).trans (jsonMemappend_of_full hE rfl hfull), by decide⟩
    · have hswitch := htok.jsonSwitch_eq (E := E) hE
      rw [← htok.high] at hlead
      obtain ⟨tok', hdone⟩ := jsonUnicodeDone_full hE { tok with
        ucsChar := hexCode d₃ d₂ d₁ d₀, stPos := 0, str := d₀.1 :: rest, c := d₀.1 } htok.pb hfits hlead
      exact ⟨tok', .errorMemory, hswitch.trans hdone, by decide⟩

/-- A code that a low surrogate has to follow. -/
theorem outcome_code_waits (hE : E.Bounded) (hfits : pb.length ≤ E.limit)
    (hw : WaitsForLow (surrogateCode high (hexCode d₃ d₂ d₁ d₀))) :
    Outcome (jsonStep E) Rejects (CodeAt outer ⟨.enumscapeUnicode, st, v, name⟩ high pb)
      ([d₃.1, d₂.1, d₁.1] ++ [d₀.1])
      (fun total ↦ CodeAt outer ⟨.enumscapeUnicodeNeedEscape, st, v, name⟩
        (surrogateCode high (hexCode d₃ d₂ d₁ d₀)) total) (fun _ ↦ Rejects) ok
      (fitting E (pb ++ surrogateLead high (hexCode d₃ d₂ d₁ d₀))) := by
  have hend : jsonEndReply outer (⟨.enumscapeUnicodeNeedEscape, st, v, name⟩ : JsonSrec D) =
      .reject := jsonEndReply_of_state (by simp)
  refine outcome_pass hE (isHexChar_ne_zero d₀.2) hend (fun p hp ↦ stops_code_cut hE hp)
    (fun hroom rest tok htok ↦ ?_) (fun hfull rest tok htok ↦ ?_) ok
  · have hswitch := htok.jsonSwitch_eq (E := E) hE
    rw [← htok.high] at hroom hw ⊢
    have hdone := jsonUnicodeDone_fits hE { tok with
      ucsChar := hexCode d₃ d₂ d₁ d₀, stPos := 0, str := d₀.1 :: rest, c := d₀.1 } htok.pb hroom
    have hsrec : ({ tok.srec with state := .enumscapeUnicodeNeedEscape } : JsonSrec D) =
        ⟨.enumscapeUnicodeNeedEscape, st, v, name⟩ := by rw [htok.srec]
    refine ⟨_, (hswitch.trans hdone).trans (jsonUnicodeAppend_waits hw),
      ⟨htok.outer, hsrec, rfl, rfl⟩, ?_⟩
    rintro d ds rfl
    exact ⟨⟨htok.outer, hsrec, rfl, rfl, htok.quote, rfl, rfl⟩, rfl, rfl⟩
  · have hswitch := htok.jsonSwitch_eq (E := E) hE
    rw [← htok.high] at hfull
    obtain ⟨tok', hdone⟩ := jsonUnicodeDone_full hE { tok with
      ucsChar := hexCode d₃ d₂ d₁ d₀, stPos := 0, str := d₀.1 :: rest, c := d₀.1 } htok.pb hfits hfull
    exact ⟨tok', .errorMemory, hswitch.trans hdone, by decide⟩

/-! ## A high surrogate that waits -/

/-- A backslash after a high surrogate. -/
theorem reads_needEscape (hE : E.Bounded) :
    Reads (jsonStep E) Rejects (CodeAt outer ⟨.enumscapeUnicodeNeedEscape, st, v, name⟩ high pb) [92]
      (CodeAt outer ⟨.enumscapeUnicodeNeedU, st, v, name⟩ high pb) Rejects ok := by
  have hend : jsonEndReply outer (⟨.enumscapeUnicodeNeedU, st, v, name⟩ : JsonSrec D) = .reject :=
    jsonEndReply_of_state (by simp)
  refine reads_pass (s := []) hE (by decide) hend (fun p hp tok htok ↦ ?_) (fun rest tok htok ↦ ?_) ok
  · rw [List.prefix_nil.mp hp] at htok
    exact absurd htok.toStringAt StringAt.not_nil
  · have hswitch : jsonSwitch E tok = jsonUnicodeNeedEscape E tok := by rw [jsonSwitch, htok.srec]
    have hsrec : ({ tok.srec with state := .enumscapeUnicodeNeedU } : JsonSrec D) =
        ⟨.enumscapeUnicodeNeedU, st, v, name⟩ := by rw [htok.srec]
    refine ⟨tok.setState .enumscapeUnicodeNeedU, ?_,
      ⟨htok.outer, hsrec, htok.str, htok.toStringAt.c_eq⟩, ?_⟩
    · rw [hswitch, jsonUnicodeNeedEscape, htok.toStringAt.c_eq]
      rfl
    · rintro d ds rfl
      exact ⟨⟨htok.outer, hsrec, htok.high, htok.pb, htok.quote, rfl, rfl⟩, htok.ucsChar, htok.stPos⟩

/-- The start of another code after a high surrogate. -/
theorem reads_needU (hE : E.Bounded) :
    Reads (jsonStep E) Rejects (CodeAt outer ⟨.enumscapeUnicodeNeedU, st, v, name⟩ high pb)
      ['u'.toUInt8] (CodeAt outer ⟨.enumscapeUnicode, st, v, name⟩ high pb) Rejects ok := by
  have hend : jsonEndReply outer (⟨.enumscapeUnicode, st, v, name⟩ : JsonSrec D) = .reject :=
    jsonEndReply_of_state (by simp)
  refine reads_pass (s := []) hE (by decide) hend (fun p hp tok htok ↦ ?_) (fun rest tok htok ↦ ?_) ok
  · rw [List.prefix_nil.mp hp] at htok
    exact absurd htok.toStringAt StringAt.not_nil
  · have hswitch : jsonSwitch E tok = jsonUnicodeNeedU E tok := by rw [jsonSwitch, htok.srec]
    have hsrec : ({ tok.srec with state := .enumscapeUnicode } : JsonSrec D) =
        ⟨.enumscapeUnicode, st, v, name⟩ := by rw [htok.srec]
    refine ⟨tok.setState .enumscapeUnicode, ?_,
      ⟨htok.outer, hsrec, htok.str, htok.toStringAt.c_eq⟩, ?_⟩
    · rw [hswitch, jsonUnicodeNeedU, htok.toStringAt.c_eq]
      rfl
    · rintro d ds rfl
      exact ⟨⟨htok.outer, hsrec, htok.high, htok.pb, htok.quote, rfl, rfl⟩, htok.ucsChar, htok.stPos⟩

/-- A high surrogate is replaced, and the character is read again. -/
theorem outcome_replace {wait next : JsonState} {s total : List UInt8} {stays : UInt8 → Prop}
    {B : List UInt8 → List UInt8 → JsonTok D → Prop} (hE : E.Bounded) (hs : HeadIs stays s)
    (hswitch : ∀ c cs tok, stays c → CodeAt outer ⟨wait, st, v, name⟩ high pb (c :: cs) tok →
      jsonSwitch E tok = jsonUnicodeReplace E tok next)
    (hle : (pb ++ utf8ReplacementChar).length ≤ total.length)
    (h : (pb ++ utf8ReplacementChar).length ≤ E.limit →
      Outcome (jsonStep E) Rejects
        (StringAt outer ⟨next, st, v, name⟩ 0 (pb ++ utf8ReplacementChar)) s B (fun _ ↦ Rejects) ok
        (fitting E total)) :
    Outcome (jsonStep E) Rejects (CodeAt outer ⟨wait, st, v, name⟩ high pb) s B (fun _ ↦ Rejects) ok
      (fitting E total) := by
  obtain ⟨c, cs, rfl, hc⟩ := hs
  have hnil : Stops (jsonStep E) (CodeAt outer ⟨wait, st, v, name⟩ high pb []) Rejects :=
    fun tok htok ↦ absurd htok.toStringAt StringAt.not_nil
  by_cases hroom : (pb ++ utf8ReplacementChar).length ≤ E.limit
  · have hturn : ∀ ds, Moves (jsonStep E) (CodeAt outer ⟨wait, st, v, name⟩ high pb (c :: ds))
        (StringAt outer ⟨next, st, v, name⟩ 0 (pb ++ utf8ReplacementChar) (c :: ds)) := by
      refine fun ds ↦ moves_of_redo fun tok htok ↦ ?_
      have hpass := hswitch c ds tok hc htok
      have hsrec : ({ tok.srec with state := next } : JsonSrec D) = ⟨next, st, v, name⟩ := by
        rw [htok.srec]
      exact ⟨_, hpass.trans (jsonMemappend_of_fits hE htok.pb hroom),
        ⟨htok.outer, hsrec, rfl, rfl, htok.quote, htok.str, htok.head⟩⟩
    refine (h hroom).turn (fun rest ↦ hturn (cs ++ rest)) fun p hp ↦ ?_
    obtain rfl | ⟨p', rfl, -⟩ := List.prefix_cons_iff.mp hp
    · exact .inr hnil
    · exact .inl (hturn p')
  · have hstops : ∀ ds, Stops (jsonStep E) (CodeAt outer ⟨wait, st, v, name⟩ high pb (c :: ds))
        Rejects := by
      refine fun ds ↦ stops_of_fail fun tok htok ↦ ?_
      exact ⟨_, .errorMemory,
        (hswitch c ds tok hc htok).trans (jsonMemappend_of_full hE htok.pb hroom), by decide⟩
    rw [fitting, if_neg (by omega)]
    refine ⟨fun rest _ ↦ hstops (cs ++ rest), fun p hp ↦ ?_⟩
    obtain rfl | ⟨p', rfl, -⟩ := List.prefix_cons_iff.mp hp
    · exact hnil
    · exact hstops p'

theorem CodeAt.jsonSwitch_needEscape {c : UInt8} {cs : List UInt8} (hc : c ≠ 92)
    (h : CodeAt outer ⟨.enumscapeUnicodeNeedEscape, st, v, name⟩ high pb (c :: cs) tok) :
    jsonSwitch E tok = jsonUnicodeReplace E tok st := by
  have hswitch : jsonSwitch E tok = jsonUnicodeNeedEscape E tok := by rw [jsonSwitch, h.srec]
  rw [hswitch, jsonUnicodeNeedEscape, h.toStringAt.c_eq, if_pos hc, h.srec]

theorem CodeAt.jsonSwitch_needU {c : UInt8} {cs : List UInt8} (hc : c ≠ 'u'.toUInt8)
    (h : CodeAt outer ⟨.enumscapeUnicodeNeedU, st, v, name⟩ high pb (c :: cs) tok) :
    jsonSwitch E tok = jsonUnicodeReplace E tok .stringEscape := by
  have hswitch : jsonSwitch E tok = jsonUnicodeNeedU E tok := by rw [jsonSwitch, h.srec]
  rw [hswitch, jsonUnicodeNeedU, h.toStringAt.c_eq, if_pos hc]

end Codes

/-! ## Whole strings -/

/-- A piece of a string and what comes after it. -/
theorem outcome_fitting_append {A : List UInt8 → JsonTok D → Prop}
    {B C : List UInt8 → List UInt8 → JsonTok D → Prop} {s t bytes total : List UInt8}
    (h : Outcome (jsonStep E) Rejects A s B (fun _ ↦ Rejects) (fun _ ↦ True) (fitting E bytes))
    (ht : t ≠ []) (hle : bytes.length ≤ total.length)
    (h' : bytes.length ≤ E.limit →
      Outcome (jsonStep E) Rejects (B bytes) t C (fun _ ↦ Rejects) ok (fitting E total)) :
    Outcome (jsonStep E) Rejects A (s ++ t) C (fun _ ↦ Rejects) ok (fitting E total) := by
  obtain ⟨c, cs, rfl⟩ := List.exists_cons_of_ne_nil ht
  rw [← fitting_bind (E := E) hle]
  refine Outcome.bind h (headIs_cons trivial cs) fun w hw ↦ ?_
  rw [fitting] at hw
  split_ifs at hw with hroom
  obtain rfl := Option.some.inj hw
  exact h' hroom

theorem stringTail_cons (x : JsonChar) (cs : List JsonChar) :
    stringTail (x :: cs) = x.text ++ stringTail cs := by
  rw [stringTail, List.flatMap_cons, List.append_assoc, ← stringTail]

theorem stringTail_ne_nil (cs : List JsonChar) : stringTail cs ≠ [] :=
  List.append_ne_nil_of_right_ne_nil _ (List.cons_ne_nil 34 [])

/-- What is read of a string after some plain characters, and after a high surrogate. -/
structure ReadsString (E : JsonEnv D) (outer : List (JsonSrec D)) (st : JsonState) (v : Value D)
    (name : Option (List UInt8)) (done : List UInt8 → Value D → Option (List UInt8) → JsonSrec D)
    (ok : UInt8 → Prop) (chars : List JsonChar) : Prop where
  scan : ∀ (saved : JsonState) (pb plain : List UInt8), pb.length ≤ E.limit →
    (∀ c ∈ plain, IsPlainChar c) →
      Outcome (jsonStep E) Rejects (StringAt outer ⟨st, saved, v, name⟩ 0 pb)
        (plain ++ stringTail chars) (fun total ↦ JsonAt outer (done total v name))
        (fun _ ↦ Rejects) ok (fitting E (pb ++ plain ++ stringBytes 0 chars))
  waits : ∀ (high : ℕ) (pb : List UInt8), high ≠ 0 → pb.length ≤ E.limit →
    Outcome (jsonStep E) Rejects (CodeAt outer ⟨.enumscapeUnicodeNeedEscape, st, v, name⟩ high pb)
      (stringTail chars) (fun total ↦ JsonAt outer (done total v name)) (fun _ ↦ Rejects) ok
      (fitting E (pb ++ stringBytes high chars))

variable {chars : List JsonChar}

/-- After a high surrogate a character that is no backslash is read as if there were none. -/
theorem waits_of_scan (hE : E.Bounded) (hs : HeadIs (· ≠ 92) (stringTail chars)) {high : ℕ}
    (hbytes : stringBytes high chars = utf8ReplacementChar ++ stringBytes 0 chars)
    (hscan : ∀ (saved : JsonState) (pb plain : List UInt8), pb.length ≤ E.limit →
      (∀ c ∈ plain, IsPlainChar c) →
        Outcome (jsonStep E) Rejects (StringAt outer ⟨st, saved, v, name⟩ 0 pb)
          (plain ++ stringTail chars) (fun total ↦ JsonAt outer (done total v name))
          (fun _ ↦ Rejects) ok (fitting E (pb ++ plain ++ stringBytes 0 chars))) :
    Outcome (jsonStep E) Rejects (CodeAt outer ⟨.enumscapeUnicodeNeedEscape, st, v, name⟩ high pb)
      (stringTail chars) (fun total ↦ JsonAt outer (done total v name)) (fun _ ↦ Rejects) ok
      (fitting E (pb ++ stringBytes high chars)) := by
  rw [hbytes, ← List.append_assoc]
  refine outcome_replace hE hs (fun c cs tok hc htok ↦ htok.jsonSwitch_needEscape hc)
    (by simp only [List.length_append]; omega) fun hroom ↦ ?_
  have h := hscan st (pb ++ utf8ReplacementChar) [] hroom fun c hc ↦ absurd hc List.not_mem_nil
  rwa [List.append_nil] at h

theorem readsString_nil (hE : E.Bounded) (hscan : StringScan E st done)
    (hend : ∀ total, jsonEndReply outer (done total v name) = .reject) :
    ReadsString E outer st v name done ok [] := by
  have hquote : ∀ (saved : JsonState) (pb plain : List UInt8), pb.length ≤ E.limit →
      (∀ c ∈ plain, IsPlainChar c) →
        Outcome (jsonStep E) Rejects (StringAt outer ⟨st, saved, v, name⟩ 0 pb)
          (plain ++ stringTail []) (fun total ↦ JsonAt outer (done total v name))
          (fun _ ↦ Rejects) ok (fitting E (pb ++ plain ++ stringBytes 0 [])) := by
    intro saved pb plain _ hplain
    have hbytes : pb ++ plain ++ stringBytes 0 [] = pb ++ plain := List.append_nil _
    rw [hbytes]
    exact outcome_quote hE hscan hend hplain
  refine ⟨hquote, fun high pb hhigh _ ↦ waits_of_scan hE (headIs_cons (by decide) []) ?_ hquote⟩
  rw [stringBytes, highLead, if_neg hhigh]
  rfl

theorem readsString_plain (hE : E.Bounded) (c : { c : UInt8 // c ≠ 0 ∧ c ≠ 34 ∧ c ≠ 92 })
    (h : ReadsString E outer st v name done ok chars) :
    ReadsString E outer st v name done ok (.plain c :: chars) := by
  have hscan : ∀ (saved : JsonState) (pb plain : List UInt8), pb.length ≤ E.limit →
      (∀ c ∈ plain, IsPlainChar c) →
        Outcome (jsonStep E) Rejects (StringAt outer ⟨st, saved, v, name⟩ 0 pb)
          (plain ++ stringTail (.plain c :: chars)) (fun total ↦ JsonAt outer (done total v name))
          (fun _ ↦ Rejects) ok (fitting E (pb ++ plain ++ stringBytes 0 (.plain c :: chars))) := by
    intro saved pb plain hfits hplain
    have houtcome := h.scan saved pb (plain ++ [c.1]) hfits fun d hd ↦ by
      obtain hd | hd := List.mem_append.mp hd
      · exact hplain d hd
      · rw [List.mem_singleton.mp hd]
        exact c.2
    rw [stringTail_cons]
    simpa [stringBytes, highLead, JsonChar.text] using houtcome
  refine ⟨hscan, fun high pb hhigh _ ↦ waits_of_scan hE ?_ ?_ hscan⟩
  · exact ⟨c.1, stringTail chars, by rw [stringTail_cons]; rfl, c.2.2.2⟩
  · rw [stringBytes, highLead, if_neg hhigh]
    rfl

/-- A character of an escape and what comes after it. -/
theorem outcome_escape_scan (hE : E.Bounded) (hst : st ≠ .eatws) (e : JsonEscape)
    (h : ReadsString E outer st v name done ok chars) (pb : List UInt8) :
    Outcome (jsonStep E) Rejects (StringAt outer ⟨.stringEscape, st, v, name⟩ 0 pb)
      ([e.char] ++ stringTail chars) (fun total ↦ JsonAt outer (done total v name)) (fun _ ↦ Rejects)
      ok (fitting E (pb ++ e.byte :: stringBytes 0 chars)) := by
  refine outcome_fitting_append (outcome_escape hE hst e) (stringTail_ne_nil chars) ?_ fun hroom ↦ ?_
  · simp only [List.length_append, List.length_cons, List.length_nil]
    omega
  · have houtcome := h.scan st (pb ++ [e.byte]) [] hroom fun c hc ↦ absurd hc List.not_mem_nil
    rwa [List.append_nil, List.append_assoc] at houtcome

theorem readsString_escape (hE : E.Bounded) (hscan : StringScan E st done) (e : JsonEscape)
    (h : ReadsString E outer st v name done ok chars) :
    ReadsString E outer st v name done ok (.escape e :: chars) where
  scan saved pb plain hfits hplain := by
    have hbytes : pb ++ plain ++ stringBytes 0 (.escape e :: chars) =
        pb ++ plain ++ e.byte :: stringBytes 0 chars := rfl
    have htext : plain ++ stringTail (.escape e :: chars) =
        (plain ++ [92]) ++ ([e.char] ++ stringTail chars) := by
      rw [stringTail_cons, JsonChar.text, List.append_assoc]
      rfl
    rw [hbytes, htext]
    refine outcome_fitting_append (outcome_backslash hE hscan hplain) (List.cons_ne_nil _ _) ?_
      fun _ ↦ outcome_escape_scan hE hscan.ne_eatws e h (pb ++ plain)
    simp only [List.length_append]
    omega
  waits high pb hhigh hfits := by
    have hbytes : stringBytes high (.escape e :: chars) =
        utf8ReplacementChar ++ e.byte :: stringBytes 0 chars := by
      rw [stringBytes, highLead, if_neg hhigh]
    have htext : stringTail (.escape e :: chars) = [92] ++ ([e.char] ++ stringTail chars) := by
      rw [stringTail_cons]
      rfl
    have hstays : HeadIs (· ≠ 'u'.toUInt8) ([e.char] ++ stringTail chars) :=
      headIs_cons (by cases e <;> decide) _
    rw [hbytes, htext, ← List.append_assoc pb]
    refine Outcome.after (reads_needEscape hE) ?_ fun _ _ _ h ↦ h
    refine outcome_replace hE hstays (fun c cs tok hc htok ↦ htok.jsonSwitch_needU hc) ?_
      fun _ ↦ outcome_escape_scan hE hscan.ne_eatws e h (pb ++ utf8ReplacementChar)
    simp only [List.length_append]
    omega

/-- The digits of a code and what comes after them. -/
theorem outcome_code_scan (hE : E.Bounded) (hst : st ≠ .eatws) (d₃ d₂ d₁ d₀ : JsonHexDigit)
    (h : ReadsString E outer st v name done ok chars) (high : ℕ) (pb : List UInt8)
    (hfits : pb.length ≤ E.limit) :
    Outcome (jsonStep E) Rejects (CodeAt outer ⟨.enumscapeUnicode, st, v, name⟩ high pb)
      (([d₃.1, d₂.1, d₁.1] ++ [d₀.1]) ++ stringTail chars)
      (fun total ↦ JsonAt outer (done total v name)) (fun _ ↦ Rejects) ok
      (fitting E (pb ++ stringBytes high (.unicode d₃ d₂ d₁ d₀ :: chars))) := by
  rw [stringBytes, ← List.append_assoc pb]
  split_ifs with hw
  · refine outcome_fitting_append (outcome_code_waits hE hfits hw) (stringTail_ne_nil chars) ?_
      fun hroom ↦ h.waits _ _ ?_ hroom
    · simp only [List.length_append]
      omega
    · have hpos := hw.1
      omega
  · rw [← List.append_assoc]
    refine outcome_fitting_append (outcome_code hE hst hfits hw) (stringTail_ne_nil chars) ?_
      fun hroom ↦ ?_
    · simp only [List.length_append]
      omega
    · have houtcome := h.scan st _ [] hroom fun c hc ↦ absurd hc List.not_mem_nil
      rwa [List.append_nil] at houtcome

theorem readsString_unicode (hE : E.Bounded) (hscan : StringScan E st done)
    (d₃ d₂ d₁ d₀ : JsonHexDigit) (h : ReadsString E outer st v name done ok chars) :
    ReadsString E outer st v name done ok (.unicode d₃ d₂ d₁ d₀ :: chars) where
  scan saved pb plain hfits hplain := by
    have htext : plain ++ stringTail (.unicode d₃ d₂ d₁ d₀ :: chars) =
        (plain ++ [92]) ++ (['u'.toUInt8] ++
          (([d₃.1, d₂.1, d₁.1] ++ [d₀.1]) ++ stringTail chars)) := by
      rw [stringTail_cons, JsonChar.text, List.append_assoc]
      rfl
    rw [htext]
    refine outcome_fitting_append (outcome_backslash hE hscan hplain) (List.cons_ne_nil _ _) ?_
      fun hroom ↦ ?_
    · simp only [List.length_append]
      omega
    · exact Outcome.after (reads_u hE)
        (outcome_code_scan hE hscan.ne_eatws d₃ d₂ d₁ d₀ h 0 (pb ++ plain) hroom) fun _ _ _ h ↦ h
  waits high pb hhigh hfits := by
    have htext : stringTail (.unicode d₃ d₂ d₁ d₀ :: chars) =
        [92] ++ (['u'.toUInt8] ++ (([d₃.1, d₂.1, d₁.1] ++ [d₀.1]) ++ stringTail chars)) := by
      rw [stringTail_cons]
      rfl
    rw [htext]
    refine Outcome.after (reads_needEscape hE) ?_ fun _ _ _ h ↦ h
    exact Outcome.after (reads_needU hE)
      (outcome_code_scan hE hscan.ne_eatws d₃ d₂ d₁ d₀ h high pb hfits) fun _ _ _ h ↦ h

/-- **Strings**, with one case for every kind of character. -/
theorem readsString (hE : E.Bounded) (hscan : StringScan E st done)
    (hend : ∀ total, jsonEndReply outer (done total v name) = .reject) (chars : List JsonChar) :
    ReadsString E outer st v name done ok chars := by
  induction chars with
  | nil => exact readsString_nil hE hscan hend
  | cons x chars ih =>
    cases x with
    | plain c => exact readsString_plain hE c ih
    | escape e => exact readsString_escape hE hscan e ih
    | unicode d₃ d₂ d₁ d₀ => exact readsString_unicode hE hscan d₃ d₂ d₁ d₀ ih

end Scanning

end Strings

end LatteC
