import LatteC.Foundation.Reading
import LatteC.Json.Tokener

/-!
# Positions of the tokener

Where the tokener stands: the levels, the text that is left and no surrogate waiting. Before white space the
text is given up to the white space in front of it, so that a text with and without it is at the same
position. What the automaton does from one position to the next is stated here for the passes that all
values share: the skipping of white space, a character that is passed, and a level that is left.
-/

namespace LatteC

open StepMachine

/-- The flags and the high surrogate of a fresh tokener are 0, and the names of its levels are NULL. -/
structure JsonEnv.Zeroed {D : Type} (E : JsonEnv D) : Prop where
  strict : E.strict = false
  allowTrailingChars : E.allowTrailingChars = false
  validateUtf8 : E.validateUtf8 = false
  highSurrogate : E.highSurrogate = 0
  namesNull : E.namesNull = true

theorem JsonEnv.Zeroed.jsonTokenerNew {D : Type} {E : JsonEnv D} (h : E.Zeroed) :
    (jsonTokenerNew E).Zeroed :=
  ⟨h.strict, h.allowTrailingChars, h.validateUtf8, h.highSurrogate, h.namesNull⟩

/-- How much room there is in the print buffer, if it is a number. -/
def JsonEnv.limit {D : Type} (E : JsonEnv D) : ℕ := E.room.getD 0

/-- The tokener starts from 0, and its print buffer takes a number of characters. -/
structure JsonEnv.Bounded {D : Type} (E : JsonEnv D) : Prop extends E.Zeroed where
  room : E.room = some E.limit
  limit_initial : 31 ≤ E.limit

theorem jsonMemappend_of_room_eq {D : Type} {E : JsonEnv D} {room : ℕ} (hE : E.room = some room)
    (tok : JsonTok D) (s : List UInt8) (andThen : JsonTok D → JsonPass D) :
    jsonMemappend E tok s andThen =
      if tok.pb.length + s.length ≤ room then andThen { tok with pb := tok.pb ++ s }
      else tok.fail .errorMemory := by
  by_cases hfits : tok.pb.length + s.length ≤ room
  · simp only [jsonMemappend, JsonEnv.memappend, hE, if_pos hfits]
  · simp only [jsonMemappend, JsonEnv.memappend, hE, if_neg hfits]

theorem jsonMemappend_eq {D : Type} {E : JsonEnv D} (hE : E.Bounded) (tok : JsonTok D) (s : List UInt8)
    (andThen : JsonTok D → JsonPass D) : jsonMemappend E tok s andThen =
      if tok.pb.length + s.length ≤ E.limit then andThen { tok with pb := tok.pb ++ s }
      else tok.fail .errorMemory :=
  jsonMemappend_of_room_eq hE.room tok s andThen

/-- The text without the white space in front of it. -/
def skipWs (text : List UInt8) : List UInt8 := text.dropWhile isWsChar

/-- Neither white space nor the start of a comment. -/
def IsSolid (c : UInt8) : Prop := isWsChar c = false ∧ c ≠ '/'.toUInt8

instance (c : UInt8) : Decidable (IsSolid c) := inferInstanceAs (Decidable (_ ∧ _))

theorem skipWs_cons_of_solid {c : UInt8} (hc : IsSolid c) (cs : List UInt8) :
    skipWs (c :: cs) = c :: cs :=
  List.dropWhile_cons_of_neg (by rw [hc.1]; exact Bool.false_ne_true)

theorem skipWs_cons_of_ws {c : UInt8} (hc : isWsChar c = true) (cs : List UInt8) :
    skipWs (c :: cs) = skipWs cs :=
  List.dropWhile_cons_of_pos hc

theorem skipWs_append_of_ws {ws : List UInt8} (h : ∀ c ∈ ws, isWsChar c = true)
    (text : List UInt8) : skipWs (ws ++ text) = skipWs text := by
  induction ws with
  | nil => rfl
  | cons c ws ih =>
    rw [List.cons_append, skipWs_cons_of_ws (h c List.mem_cons_self)]
    exact ih fun d hd ↦ h d (List.mem_cons_of_mem c hd)

theorem skipWs_append_of_head {s : List UInt8} (h : skipWs s ≠ []) (rest : List UInt8) :
    skipWs (s ++ rest) = skipWs s ++ rest := by
  induction s with
  | nil => exact absurd rfl h
  | cons c s ih =>
    cases hc : isWsChar c with
    | false =>
      rw [skipWs, skipWs, List.cons_append, List.dropWhile_cons_of_neg (by simp [hc]),
        List.dropWhile_cons_of_neg (by simp [hc]), List.cons_append]
    | true =>
      rw [List.cons_append, skipWs_cons_of_ws hc, skipWs_cons_of_ws hc]
      exact ih (by rwa [skipWs_cons_of_ws hc] at h)

/-- The state at the start of a piece of text. -/
structure JsonAt {D : Type} (outer : List (JsonSrec D)) (srec : JsonSrec D) (text : List UInt8)
    (tok : JsonTok D) : Prop where
  outer : tok.outer = outer
  srec : tok.srec = srec
  str : tok.str = text
  head : tok.str.head? = some tok.c
  high : tok.highSurrogate = 0

/-- The state before white space, and the state that comes after it. -/
structure JsonEats {D : Type} (outer : List (JsonSrec D)) (saved : JsonState) (v : Value D)
    (name : Option (List UInt8)) (text : List UInt8) (tok : JsonTok D) : Prop where
  outer : tok.outer = outer
  srec : tok.srec = ⟨.eatws, saved, v, name⟩
  str : skipWs tok.str = skipWs text
  head : tok.str.head? = some tok.c
  high : tok.highSurrogate = 0

theorem JsonAt.eats {D : Type} {outer : List (JsonSrec D)} {saved : JsonState} {v : Value D}
    {name : Option (List UInt8)} {text : List UInt8} {tok : JsonTok D}
    (h : JsonAt outer ⟨.eatws, saved, v, name⟩ text tok) : JsonEats outer saved v name text tok :=
  ⟨h.outer, h.srec, by rw [h.str], h.head, h.high⟩

theorem jsonEats_congr {D : Type} {outer : List (JsonSrec D)} {saved : JsonState} {v : Value D}
    {name : Option (List UInt8)} {s t : List UInt8} (h : skipWs s = skipWs t) :
    JsonEats outer saved v name s = JsonEats outer saved v name t := by
  funext tok
  refine propext ⟨fun hs ↦ ?_, fun ht ↦ ?_⟩
  · exact ⟨hs.outer, hs.srec, hs.str.trans h, hs.head, hs.high⟩
  · exact ⟨ht.outer, ht.srec, ht.str.trans h.symm, ht.head, ht.high⟩

/-! ## Ends of a run -/

section Steps

variable {D : Type} {E : JsonEnv D} {tok tok' : JsonTok D} {outer outer' : List (JsonSrec D)}
  {srec level : JsonSrec D} {saved : JsonState} {v : Value D} {name : Option (List UInt8)}

theorem jsonPeekChar_cons (hutf : E.validateUtf8 = false) {c : UInt8} {cs : List UInt8}
    (h : tok.str = c :: cs) : jsonPeekChar E tok = ({ tok with c := c }, true) := by
  rw [jsonPeekChar, h]
  simp [hutf]

/-- At the end of the text an error of the tokener stands, unless a value is complete. -/
theorem jsonPeekChar_nil (h : tok.str = []) :
    jsonPeekChar E tok = ({ tok with err :=
      if tok.depth = 0 ∧ tok.srec.state = .eatws ∧ tok.srec.savedState = .finish then .success
      else .continued }, false) := by
  rw [jsonPeekChar, h]
  split_ifs <;> rfl

theorem jsonPeekChar_continued (h : tok.str = []) (hstate : tok.srec.state ≠ .eatws) :
    jsonPeekChar E tok = ({ tok with err := .continued }, false) := by
  rw [jsonPeekChar_nil h, if_neg fun hend ↦ hstate hend.2.1]

theorem jsonAdvancePeek_cons {β : Type} {out go : JsonTok D → β} (hutf : E.validateUtf8 = false)
    {c d : UInt8} {cs : List UInt8} (h : tok.str = d :: c :: cs) :
    jsonAdvancePeek E tok out go = go { tok with str := c :: cs, c := c } := by
  have htail : (jsonAdvanceChar tok).str = c :: cs := by
    rw [jsonAdvanceChar]
    exact congrArg List.tail h
  rw [jsonAdvancePeek, jsonPeekChar_cons hutf htail, ← htail]
  rfl

theorem jsonAdvancePeek_last {β : Type} {out go : JsonTok D → β} {d : UInt8} (h : tok.str = [d])
    (hstate : tok.srec.state ≠ .eatws) :
    jsonAdvancePeek E tok out go = out { tok with str := [], err := .continued } := by
  have htail : (jsonAdvanceChar tok).str = [] := by
    rw [jsonAdvanceChar]
    exact congrArg List.tail h
  rw [jsonAdvancePeek, jsonPeekChar_continued htail hstate, ← htail]
  rfl

/-- An error rejects the text. -/
theorem jsonOut_of_err (h : tok.err ≠ .success) : jsonOut E tok = .reject := by
  rw [jsonOut, if_neg]
  rw [jsonOutErr]
  split_ifs <;> first | exact h | decide

theorem jsonOut_success (hutf : E.validateUtf8 = false) (hstrict : E.strict = false) (hc : tok.c ≠ 0)
    (h : tok.err = .success) : jsonOut E tok = .accept tok.srec.current := by
  rw [jsonOut, jsonOutErr, if_neg hc]
  simp [hutf, hstrict, h]

/-- What is returned where the text ends before a character. -/
def jsonEndReply (outer : List (JsonSrec D)) (srec : JsonSrec D) : JsonReply D :=
  if outer = [] ∧ srec.state = .eatws ∧ srec.savedState = .finish then .accept srec.current
  else .reject

theorem jsonEndReply_cons (level : JsonSrec D) : jsonEndReply (level :: outer) srec = .reject :=
  if_neg fun h ↦ List.cons_ne_nil _ _ h.1

theorem jsonEndReply_of_state (h : srec.state ≠ .eatws) : jsonEndReply outer srec = .reject :=
  if_neg fun hend ↦ h hend.2.1

theorem jsonEndReply_of_saved (h : srec.savedState ≠ .finish) : jsonEndReply outer srec = .reject :=
  if_neg fun hend ↦ h hend.2.2

theorem jsonEndReply_finish : jsonEndReply [] ⟨.eatws, .finish, v, name⟩ = .accept v := rfl

@[simp] theorem c_jsonAdvanceChar (tok : JsonTok D) : (jsonAdvanceChar tok).c = tok.c := rfl

theorem jsonOut_peek_nil (hE : E.Bounded) (hc : tok.c ≠ 0) (h : tok.str = []) :
    jsonOut E (jsonPeekChar E tok).1 = jsonEndReply tok.outer tok.srec := by
  rw [jsonPeekChar_nil h, jsonEndReply, JsonTok.depth]
  simp only [List.length_eq_zero_iff]
  split_ifs with hend
  · exact jsonOut_success hE.validateUtf8 hE.strict hc rfl
  · exact jsonOut_of_err (by simp)

theorem jsonWhile_cons (hE : E.Bounded) {c : UInt8} {cs : List UInt8} (h : tok.str = c :: cs) :
    jsonWhile E tok = .inl { tok with c := c } := by
  rw [jsonWhile, jsonPeekChar_cons hE.validateUtf8 h]

theorem jsonWhile_nil (hE : E.Bounded) (hc : tok.c ≠ 0) (h : tok.str = []) :
    jsonWhile E tok = .inr (jsonEndReply tok.outer tok.srec) := by
  rw [← jsonOut_peek_nil hE hc h, jsonWhile, jsonPeekChar_nil h]

/-! ## Ways in which a pass ends -/

theorem jsonStep_redo (h : jsonSwitch E tok = (tok', .redo)) : jsonStep E tok = .inl tok' := by
  rw [jsonStep, h]

theorem jsonStep_out (h : jsonSwitch E tok = (tok', .out)) :
    jsonStep E tok = .inr (jsonOut E tok') := by
  rw [jsonStep, h]

theorem jsonStep_fail {err : JsonError} (h : jsonSwitch E tok = tok'.fail err)
    (herr : err ≠ .success) : jsonStep E tok = .inr .reject := by
  rw [jsonStep_out h, jsonOut_of_err herr]

theorem jsonStep_next (h : jsonSwitch E tok = (tok', .next)) (hc : tok'.c ≠ 0) :
    jsonStep E tok = jsonWhile E (jsonAdvanceChar tok') := by
  rw [jsonStep, h]
  exact if_neg hc

/-- The text ends within a loop over characters. -/
theorem jsonStep_scanOut {passed : List UInt8}
    (h : jsonSwitch E tok = jsonScanOut E tok' passed) (herr : tok'.err = .continued) :
    jsonStep E tok = .inr .reject := by
  rw [jsonScanOut, jsonMemappend] at h
  split at h
  · exact jsonStep_fail h (by decide)
  · rw [jsonStep_out h, jsonOut_of_err]
    rw [herr]
    decide

/-- The replies that reject a text. -/
def Rejects (reply : JsonReply D) : Prop := reply = .reject

theorem stops_of_fail {A : JsonTok D → Prop}
    (h : ∀ tok, A tok → ∃ (tok' : JsonTok D) (err : JsonError),
      jsonSwitch E tok = tok'.fail err ∧ err ≠ .success) :
    Stops (jsonStep E) A Rejects := by
  refine .of_step fun tok htok ↦ ?_
  obtain ⟨tok', err, hswitch, herr⟩ := h tok htok
  exact ⟨.reject, jsonStep_fail hswitch herr, rfl⟩

theorem moves_of_redo {A B : JsonTok D → Prop}
    (h : ∀ tok, A tok → ∃ tok', jsonSwitch E tok = (tok', .redo) ∧ B tok') :
    Moves (jsonStep E) A B := by
  refine .of_step fun tok htok ↦ ?_
  obtain ⟨tok', hswitch, htok'⟩ := h tok htok
  exact ⟨tok', jsonStep_redo hswitch, htok'⟩

/-- A character that a pass leaves to the `while`. -/
structure JsonPassed (outer : List (JsonSrec D)) (srec : JsonSrec D) (c : UInt8) (rest : List UInt8)
    (tok : JsonTok D) : Prop where
  outer : tok.outer = outer
  srec : tok.srec = srec
  str : tok.str = c :: rest
  c : tok.c = c

theorem JsonPassed.step_cons (hE : E.Bounded) {c d : UInt8} {ds : List UInt8} (hc : c ≠ 0)
    (hswitch : jsonSwitch E tok = (tok', .next)) (h : JsonPassed outer srec c (d :: ds) tok') :
    jsonStep E tok = .inl { tok' with str := d :: ds, c := d } := by
  have htail : (jsonAdvanceChar tok').str = d :: ds := by
    rw [jsonAdvanceChar, h.str, List.tail_cons]
  rw [jsonStep_next hswitch (by rw [h.c]; exact hc), jsonWhile_cons hE htail, jsonAdvanceChar, h.str]
  rfl

theorem JsonPassed.step_nil (hE : E.Bounded) {c : UInt8} (hc : c ≠ 0)
    (hswitch : jsonSwitch E tok = (tok', .next)) (h : JsonPassed outer srec c [] tok') :
    jsonStep E tok = .inr (jsonEndReply outer srec) := by
  have htail : (jsonAdvanceChar tok').str = [] := by
    rw [jsonAdvanceChar, h.str, List.tail_cons]
  have hne : (jsonAdvanceChar tok').c ≠ 0 := by
    rw [c_jsonAdvanceChar, h.c]
    exact hc
  rw [jsonStep_next hswitch (by rw [h.c]; exact hc), jsonWhile_nil hE hne htail, ← h.outer, ← h.srec]
  rfl

theorem JsonPassed.jsonAt {c d : UInt8} {ds : List UInt8}
    (h : JsonPassed outer srec c (d :: ds) tok) (hhigh : tok.highSurrogate = 0) :
    JsonAt outer srec (d :: ds) { tok with str := d :: ds, c := d } :=
  ⟨h.outer, h.srec, rfl, rfl, hhigh⟩

/-- A character that is passed, as a reading. -/
theorem reads_step (hE : E.Bounded) {A B : List UInt8 → JsonTok D → Prop} {c : UInt8} (hc : c ≠ 0)
    (hnil : ∀ tok, ¬A [] tok)
    (h : ∀ rest tok, A (c :: rest) tok → ∃ tok', jsonSwitch E tok = (tok', .next) ∧
      JsonPassed outer srec c rest tok' ∧
        ∀ d ds, rest = d :: ds → B rest { tok' with str := d :: ds, c := d }) (ok : UInt8 → Prop) :
    Reads (jsonStep E) Rejects A [c] B (· = jsonEndReply outer srec) ok where
  moves rest hrest := by
    obtain ⟨d, ds, rfl, -⟩ := hrest
    refine .of_step fun tok htok ↦ ?_
    obtain ⟨tok', hswitch, hpassed, hB⟩ := h _ tok htok
    exact ⟨_, hpassed.step_cons hE hc hswitch, hB d ds rfl⟩
  whole := by
    refine .of_step fun tok htok ↦ ?_
    obtain ⟨tok', hswitch, hpassed, -⟩ := h [] tok htok
    exact ⟨_, hpassed.step_nil hE hc hswitch, rfl⟩
  cut p hp hne := by
    obtain rfl | ⟨p', rfl, hp'⟩ := List.prefix_cons_iff.mp hp
    · exact fun tok htok ↦ absurd htok (hnil tok)
    · exact absurd (by rw [List.prefix_nil.mp hp']) hne

/-- A pass over several characters, of which the last is left to the `while`. -/
theorem reads_pass (hE : E.Bounded) {A B : List UInt8 → JsonTok D → Prop} {s : List UInt8} {c : UInt8}
    (hc : c ≠ 0) (hend : jsonEndReply outer srec = .reject)
    (hcut : ∀ p, p <+: s → Stops (jsonStep E) (A p) Rejects)
    (h : ∀ rest tok, A (s ++ c :: rest) tok → ∃ tok', jsonSwitch E tok = (tok', .next) ∧
      JsonPassed outer srec c rest tok' ∧
        ∀ d ds, rest = d :: ds → B rest { tok' with str := d :: ds, c := d }) (ok : UInt8 → Prop) :
    Reads (jsonStep E) Rejects A (s ++ [c]) B Rejects ok where
  moves rest hrest := by
    obtain ⟨d, ds, rfl, -⟩ := hrest
    refine .of_step fun tok htok ↦ ?_
    rw [List.append_assoc] at htok
    obtain ⟨tok', hswitch, hpassed, hB⟩ := h _ tok htok
    exact ⟨_, hpassed.step_cons hE hc hswitch, hB d ds rfl⟩
  whole := by
    refine .of_step fun tok htok ↦ ?_
    obtain ⟨tok', hswitch, hpassed, -⟩ := h [] tok htok
    exact ⟨_, hpassed.step_nil hE hc hswitch, hend⟩
  cut p hp hne := by
    obtain heq | hps := List.prefix_concat_iff.mp hp
    · exact absurd heq hne
    · exact hcut p hps

theorem reads_of_next (hE : E.Bounded) {A : List UInt8 → JsonTok D → Prop} {c : UInt8} (hc : c ≠ 0)
    (hnil : ∀ tok, ¬A [] tok)
    (h : ∀ rest tok, A (c :: rest) tok → ∃ tok', jsonSwitch E tok = (tok', .next) ∧
      JsonPassed outer srec c rest tok' ∧ tok'.highSurrogate = 0) (ok : UInt8 → Prop) :
    Reads (jsonStep E) Rejects A [c] (JsonAt outer srec) (· = jsonEndReply outer srec) ok := by
  refine reads_step hE hc hnil (fun rest tok htok ↦ ?_) ok
  obtain ⟨tok', hswitch, hpassed, hhigh⟩ := h rest tok htok
  refine ⟨tok', hswitch, hpassed, ?_⟩
  rintro d ds rfl
  exact hpassed.jsonAt hhigh

theorem JsonAt.not_nil : ¬JsonAt outer srec [] tok := by
  intro h
  have hhead := h.head
  rw [h.str] at hhead
  cases hhead

theorem JsonAt.c_eq {c : UInt8} {cs : List UInt8} (h : JsonAt outer srec (c :: cs) tok) :
    tok.c = c := by
  have hhead := h.head
  rw [h.str] at hhead
  exact (Option.some.inj hhead).symm

/-! ## White space -/

theorem jsonEatwsLoop_eq (hE : E.Bounded) {c : UInt8} {cs : List UInt8}
    (text : List UInt8) (tok : JsonTok D) (hstr : tok.str = text) (hhead : text.head? = some tok.c)
    (hskip : skipWs text = c :: cs) :
    jsonEatwsLoop E text tok = ({ tok with str := c :: cs, c := c }, true) := by
  induction text generalizing tok with
  | nil => cases hhead
  | cons d ds ih =>
    obtain rfl := Option.some.inj hhead
    rw [jsonEatwsLoop]
    cases hd : isWsChar tok.c with
    | false =>
      rw [if_neg Bool.false_ne_true]
      rw [skipWs, List.dropWhile_cons_of_neg (by simp [hd])] at hskip
      obtain ⟨hchar, rfl⟩ := List.cons_eq_cons.mp hskip
      rw [← hchar, ← hstr]
    | true =>
      rw [if_pos rfl]
      rw [skipWs_cons_of_ws hd] at hskip
      have hne : ds ≠ [] := fun hnil ↦ by rw [hnil] at hskip; cases hskip
      obtain ⟨e, es, rfl⟩ := List.exists_cons_of_ne_nil hne
      rw [jsonAdvancePeek_cons hE.validateUtf8 hstr]
      exact ih _ rfl rfl hskip

theorem jsonEatwsLoop_blank (hE : E.Bounded) (text : List UInt8) (tok : JsonTok D)
    (hstr : tok.str = text) (hhead : text.head? = some tok.c) (hskip : skipWs text = []) :
    ∃ tok', jsonEatwsLoop E text tok = (tok', false) ∧
      jsonOut E tok' = jsonEndReply tok.outer tok.srec := by
  induction text generalizing tok with
  | nil => cases hhead
  | cons d ds ih =>
    obtain rfl := Option.some.inj hhead
    rw [jsonEatwsLoop]
    cases hd : isWsChar tok.c with
    | false =>
      rw [skipWs, List.dropWhile_cons_of_neg (by simp [hd])] at hskip
      cases hskip
    | true =>
      rw [if_pos rfl]
      rw [skipWs_cons_of_ws hd] at hskip
      cases ds with
      | nil =>
        have htail : (jsonAdvanceChar tok).str = [] := by rw [jsonAdvanceChar, hstr, List.tail_cons]
        have hc : tok.c ≠ 0 := fun hzero ↦ by rw [hzero] at hd; cases hd
        refine ⟨(jsonPeekChar E (jsonAdvanceChar tok)).1, ?_, jsonOut_peek_nil hE hc htail⟩
        rw [jsonAdvancePeek, jsonPeekChar_nil htail]
      | cons e es =>
        rw [jsonAdvancePeek_cons hE.validateUtf8 hstr]
        exact ih _ rfl rfl hskip

theorem jsonSwitch_eatws (h : tok.srec.state = .eatws) : jsonSwitch E tok = jsonEatws E tok := by
  rw [jsonSwitch, h]

/-- White space is skipped up to the next character. -/
theorem moves_eats (hE : E.Bounded) {text : List UInt8} (h : HeadIs IsSolid (skipWs text)) :
    Moves (jsonStep E) (JsonEats outer saved v name text)
      (JsonAt outer ⟨saved, saved, v, name⟩ (skipWs text)) := by
  obtain ⟨c, cs, hskip, hc⟩ := h
  refine moves_of_redo fun tok htok ↦ ?_
  refine ⟨({ tok with str := c :: cs, c := c } : JsonTok D).setState saved, ?_, ?_⟩
  · rw [jsonSwitch_eatws (by rw [htok.srec]), jsonEatws,
      jsonEatwsLoop_eq hE tok.str tok rfl htok.head (htok.str.trans hskip)]
    dsimp only
    rw [if_neg fun hslash ↦ hc.2 hslash.1, htok.srec]
  · rw [JsonTok.setState, htok.srec, hskip]
    exact ⟨htok.outer, rfl, rfl, rfl, htok.high⟩

theorem moves_eats_cons (hE : E.Bounded) {c : UInt8} (hc : IsSolid c) (cs : List UInt8)
    (outer : List (JsonSrec D)) (saved : JsonState) (name : Option (List UInt8)) :
    Moves (jsonStep E) (JsonEats outer saved v name (c :: cs))
      (JsonAt outer ⟨saved, saved, v, name⟩ (c :: cs)) := by
  have hskip : skipWs (c :: cs) = c :: cs := skipWs_cons_of_solid hc cs
  have hhead : HeadIs IsSolid (skipWs (c :: cs)) := by
    rw [hskip]
    exact headIs_cons hc cs
  have hmoves : Moves (jsonStep E) (JsonEats outer saved v name (c :: cs))
      (JsonAt outer ⟨saved, saved, v, name⟩ (skipWs (c :: cs))) := moves_eats hE hhead
  rwa [hskip] at hmoves

theorem stops_eats (hE : E.Bounded) {text : List UInt8} (h : skipWs text = []) :
    Stops (jsonStep E) (JsonEats outer saved v name text)
      (· = jsonEndReply outer ⟨.eatws, saved, v, name⟩) := by
  refine .of_step fun tok htok ↦ ?_
  obtain ⟨tok', hloop, hout⟩ :=
    jsonEatwsLoop_blank hE tok.str tok rfl htok.head (htok.str.trans h)
  refine ⟨_, ?_, rfl⟩
  have hswitch : jsonSwitch E tok = (tok', .out) := by
    rw [jsonSwitch_eatws (by rw [htok.srec]), jsonEatws, hloop]
  rw [jsonStep_out hswitch, hout, htok.outer, htok.srec]

/-- A text is refused where there is nothing but white space left, unless a value is complete. -/
theorem refuses_blank (hE : E.Bounded) {text : List UInt8} (h : skipWs text = [])
    (hend : saved ≠ .finish ∨ outer ≠ []) :
    Stops (jsonStep E) (JsonEats outer saved v name text) Rejects := by
  refine (stops_eats hE h).mono fun o ho ↦ ho.trans ?_
  obtain hsaved | houter := hend
  · exact jsonEndReply_of_saved hsaved
  · exact if_neg fun hreply ↦ houter hreply.1

/-- A turn of the automaton after white space, before a character that decides. -/
theorem outcome_turn {β : Type} {A' : List UInt8 → JsonTok D → Prop} {s : List UInt8} {o : Option β}
    {B : β → List UInt8 → JsonTok D → Prop} {W : β → JsonReply D → Prop} {ok solid : UInt8 → Prop}
    (hE : E.Bounded) (hend : saved ≠ .finish ∨ outer ≠ []) (hs : HeadIs solid (skipWs s))
    (hmove : ∀ text, HeadIs solid (skipWs text) →
      Moves (jsonStep E) (JsonEats outer saved v name text) (A' text))
    (h : Outcome (jsonStep E) Rejects A' s B W ok o) :
    Outcome (jsonStep E) Rejects (JsonEats outer saved v name) s B W ok o := by
  have hne : skipWs s ≠ [] := fun hnil ↦ by
    obtain ⟨c, cs, hskip, -⟩ := hs
    rw [hnil] at hskip
    cases hskip
  refine h.turn (fun rest ↦ hmove _ ?_) fun p hp ↦ ?_
  · rw [skipWs_append_of_head hne]
    exact hs.append rest
  · by_cases hblank : skipWs p = []
    · exact .inr (refuses_blank hE hblank hend)
    · obtain ⟨q, rfl⟩ := hp
      rw [skipWs_append_of_head hblank] at hs
      exact .inl (hmove p (hs.of_prefix hblank (List.prefix_append _ q)))

/-- A value is complete. -/
theorem JsonAt.complete {st saved : JsonState} {text : List UInt8} {w : Value D}
    (h : JsonAt outer ⟨st, saved, w, name⟩ text tok) (v : Value D) :
    JsonEats outer .finish v name text (tok.complete v).1 := by
  refine ⟨h.outer, ?_, congrArg skipWs h.str, h.head, h.high⟩
  rw [JsonTok.complete, JsonTok.setStates, JsonTok.setCurrent, h.srec]

/-- A turn of the automaton before a character without white space in front of it. -/
theorem outcome_char_turn {β : Type} {A' : List UInt8 → JsonTok D → Prop} {s : List UInt8}
    {o : Option β} {B : β → List UInt8 → JsonTok D → Prop} {W : β → JsonReply D → Prop}
    {ok solid : UInt8 → Prop} (hE : E.Bounded) (hend : saved ≠ .finish ∨ outer ≠ [])
    (hs : HeadIs solid s)
    (hmove : ∀ c cs, solid c →
      Moves (jsonStep E) (JsonEats outer saved v name (c :: cs)) (A' (c :: cs)))
    (h : Outcome (jsonStep E) Rejects A' s B W ok o) :
    Outcome (jsonStep E) Rejects (JsonEats outer saved v name) s B W ok o := by
  obtain ⟨c, cs, rfl, hc⟩ := hs
  refine h.turn (fun rest ↦ hmove c (cs ++ rest) hc) fun p hp ↦ ?_
  obtain rfl | ⟨p', rfl, -⟩ := List.prefix_cons_iff.mp hp
  · exact .inr (refuses_blank hE rfl hend)
  · exact .inl (hmove c p' hc)

/-- A value starts. -/
theorem moves_start (hE : E.Bounded) {c : UInt8} {cs : List UInt8} (hc : IsSolid c)
    {A : JsonTok D → Prop}
    (h : ∀ tok, JsonAt outer ⟨.start, .start, .null, none⟩ (c :: cs) tok →
      ∃ tok', jsonStart E tok = (tok', .redo) ∧ A tok') :
    Moves (jsonStep E) (JsonEats outer .start .null none (c :: cs)) A := by
  have hmoves := moves_eats_cons (v := .null) hE hc cs outer .start none
  refine hmoves.trans (moves_of_redo fun tok htok ↦ ?_)
  have hswitch : jsonSwitch E tok = jsonStart E tok := by rw [jsonSwitch, htok.srec]
  rw [hswitch]
  exact h tok htok

theorem stops_start (hE : E.Bounded) {c : UInt8} {cs : List UInt8} (hc : IsSolid c)
    (h : ∀ tok, JsonAt outer ⟨.start, .start, .null, none⟩ (c :: cs) tok →
      jsonStart E tok = tok.fail .errorParseUnexpected) :
    Stops (jsonStep E) (JsonEats outer .start .null none (c :: cs)) Rejects := by
  have hmoves := moves_eats_cons (v := .null) hE hc cs outer .start none
  refine hmoves.stops (stops_of_fail fun tok htok ↦ ⟨tok, .errorParseUnexpected, ?_, by decide⟩)
  have hswitch : jsonSwitch E tok = jsonStart E tok := by rw [jsonSwitch, htok.srec]
  rw [hswitch, h tok htok]

/-- A solid character after white space, as a reading. -/
theorem reads_token (hE : E.Bounded) {B : List UInt8 → JsonTok D → Prop} {c : UInt8}
    (hsolid : IsSolid c) (hc : c ≠ 0) (hend : saved ≠ .finish ∨ outer' ≠ [])
    (h : ∀ rest tok, JsonAt outer' ⟨saved, saved, v, name⟩ (c :: rest) tok →
      ∃ tok', jsonSwitch E tok = (tok', .next) ∧ JsonPassed outer srec c rest tok' ∧
        ∀ d ds, rest = d :: ds → B rest { tok' with str := d :: ds, c := d }) (ok : UInt8 → Prop) :
    Reads (jsonStep E) Rejects (JsonEats outer' saved v name) [c] B
      (· = jsonEndReply outer srec) ok := by
  have hnil : ∀ tok, ¬JsonAt outer' ⟨saved, saved, v, name⟩ (skipWs []) tok :=
    fun tok htok ↦ JsonAt.not_nil htok
  have hreads : Reads (jsonStep E) Rejects
      (fun text ↦ JsonAt outer' ⟨saved, saved, v, name⟩ (skipWs text)) [c] B
      (· = jsonEndReply outer srec) ok := by
    refine reads_step (A := fun text ↦ JsonAt outer' ⟨saved, saved, v, name⟩ (skipWs text)) hE hc hnil
      (fun rest tok htok ↦ ?_) ok
    rw [skipWs_cons_of_solid hsolid] at htok
    exact h rest tok htok
  have hs : HeadIs IsSolid (skipWs [c]) := by
    rw [skipWs_cons_of_solid hsolid]
    exact headIs_cons hsolid []
  exact outcome_turn (o := some ()) (B := fun _ ↦ B) (W := fun _ ↦ (· = jsonEndReply outer srec)) hE
    hend hs (fun text htext ↦ moves_eats hE htext) hreads

/-- A token after which white space is skipped. -/
theorem reads_token_eats (hE : E.Bounded) {c : UInt8} {saved' : JsonState} {v' : Value D}
    {name' : Option (List UInt8)} (hsolid : IsSolid c) (hc : c ≠ 0)
    (hend : saved ≠ .finish ∨ outer ≠ [])
    (h : ∀ rest tok, JsonAt outer ⟨saved, saved, v, name⟩ (c :: rest) tok →
      ∃ tok' : JsonTok D, jsonSwitch E tok = (tok', .next) ∧
        tok'.srec = ⟨.eatws, saved', v', name'⟩ ∧ tok' = { tok with srec := tok'.srec })
    (ok : UInt8 → Prop) :
    Reads (jsonStep E) Rejects (JsonEats outer saved v name) [c] (JsonEats outer saved' v' name')
      (· = jsonEndReply outer ⟨.eatws, saved', v', name'⟩) ok := by
  refine reads_token hE hsolid hc hend (fun rest tok htok ↦ ?_) ok
  obtain ⟨tok', hswitch, hsrec, heq⟩ := h rest tok htok
  have houter : tok'.outer = outer := by rw [heq]; exact htok.outer
  have hstr : tok'.str = c :: rest := by rw [heq]; exact htok.str
  have hchar : tok'.c = c := by rw [heq]; exact htok.c_eq
  have hhigh : tok'.highSurrogate = 0 := by rw [heq]; exact htok.high
  refine ⟨tok', hswitch, ⟨houter, hsrec, hstr, hchar⟩, ?_⟩
  rintro d ds rfl
  exact ⟨houter, hsrec, rfl, rfl, hhigh⟩

/-! ## After a value -/

/-- A level that waits for a value. -/
structure JsonSrec.Waits (level : JsonSrec D) : Prop where
  state : level.state = .arrayAdd ∨ level.state = .objectValueAdd

theorem moves_finish (hE : E.Bounded) {text : List UInt8} (h : HeadIs IsSolid (skipWs text)) :
    Moves (jsonStep E) (JsonEats (level :: outer) .finish v name text)
      (fun tok ↦ JsonAt outer level (skipWs text) tok ∧ tok.obj = v) := by
  refine (moves_eats hE h).trans (moves_of_redo fun tok htok ↦ ?_)
  refine ⟨{ tok with obj := tok.srec.current, srec := level, outer := outer }, ?_, ?_⟩
  · have hswitch : jsonSwitch E tok = jsonFinish tok := by rw [jsonSwitch, htok.srec]
    rw [hswitch, jsonFinish, htok.outer]
  · exact ⟨⟨rfl, rfl, htok.str, htok.head, htok.high⟩, by rw [htok.srec]⟩

/-- A value in an array is stored when it is over. -/
theorem moves_arrayAdd (hE : E.Bounded) (hlevel : level.state = .arrayAdd) {text : List UInt8}
    (h : HeadIs IsSolid (skipWs text)) :
    Moves (jsonStep E) (JsonEats (level :: outer) .finish v name text)
      (JsonEats outer .arraySep (jsonArrayPutValue level.current v) level.objFieldName text) := by
  refine (moves_finish hE h).trans (moves_of_redo fun tok htok ↦ ?_)
  obtain ⟨hat, hobj⟩ := htok
  refine ⟨(jsonArrayAdd tok).1, ?_, ?_⟩
  · rw [jsonSwitch, hat.srec, hlevel]
    rfl
  · have hskip : skipWs tok.str = skipWs text := by
      rw [hat.str]
      obtain ⟨c, cs, hcons, hc⟩ := h
      rw [hcons, skipWs_cons_of_solid hc]
    refine ⟨hat.outer, ?_, hskip, hat.head, hat.high⟩
    rw [jsonArrayAdd, JsonTok.setStates, JsonTok.setCurrent, hat.srec, hobj]

/-- A value in an object is stored when it is over, unless its key is there. -/
theorem moves_objectValueAdd (hE : E.Bounded) (hlevel : level.state = .objectValueAdd)
    {text : List UInt8} (h : HeadIs IsSolid (skipWs text))
    (hput : (jsonMapPutValue level.current (level.objFieldName.getD []) v).2 = 0) :
    Moves (jsonStep E) (JsonEats (level :: outer) .finish v name text)
      (JsonEats outer .objectSep
        (jsonMapPutValue level.current (level.objFieldName.getD []) v).1 none text) := by
  refine (moves_finish hE h).trans (moves_of_redo fun tok htok ↦ ?_)
  obtain ⟨hat, hobj⟩ := htok
  refine ⟨(jsonObjectValueAdd tok).1, ?_, ?_⟩
  · have hswitch : jsonSwitch E tok = jsonObjectValueAdd tok := by
      rw [jsonSwitch, hat.srec, hlevel]
    rw [hswitch, jsonObjectValueAdd, hat.srec, hobj, if_neg (not_not_intro hput)]
  · have hskip : skipWs tok.str = skipWs text := by
      rw [hat.str]
      obtain ⟨c, cs, hcons, hc⟩ := h
      rw [hcons, skipWs_cons_of_solid hc]
    rw [jsonObjectValueAdd, hat.srec, hobj, if_neg (not_not_intro hput)]
    exact ⟨hat.outer, rfl, hskip, hat.head, hat.high⟩

theorem stops_objectValueAdd (hE : E.Bounded) (hlevel : level.state = .objectValueAdd)
    {text : List UInt8} (h : HeadIs IsSolid (skipWs text))
    (hput : (jsonMapPutValue level.current (level.objFieldName.getD []) v).2 ≠ 0) :
    Stops (jsonStep E) (JsonEats (level :: outer) .finish v name text) Rejects := by
  refine (moves_finish hE h).stops (stops_of_fail fun tok htok ↦ ?_)
  obtain ⟨hat, hobj⟩ := htok
  have hswitch : jsonSwitch E tok = jsonObjectValueAdd tok := by rw [jsonSwitch, hat.srec, hlevel]
  refine ⟨(jsonObjectValueAdd tok).1, .errorMemory, ?_, by decide⟩
  rw [hswitch, jsonObjectValueAdd, hat.srec, hobj, if_pos hput]
  rfl

/-- The characters that end neither an element nor a member, and start neither white space nor a comment. -/
structure Misplaced (c : UInt8) : Prop where
  solid : IsSolid c
  ne_bracket : c ≠ ']'.toUInt8
  ne_brace : c ≠ '}'.toUInt8
  ne_comma : c ≠ ','.toUInt8

/-- A text is rejected when something follows a value directly. -/
theorem stops_misplaced (hE : E.Bounded) (hlevel : level.Waits) {c : UInt8} (hc : Misplaced c)
    (cs : List UInt8) :
    Stops (jsonStep E) (JsonEats (level :: outer) .finish v name (c :: cs)) Rejects := by
  have hskip : skipWs (c :: cs) = c :: cs := skipWs_cons_of_solid hc.solid cs
  have hhead : HeadIs IsSolid (skipWs (c :: cs)) := by
    rw [hskip]
    exact headIs_cons hc.solid cs
  have hchar : ∀ {srec : JsonSrec D} {tok : JsonTok D},
      JsonAt outer srec (skipWs (c :: cs)) tok → tok.c = c := by
    intro srec tok htok
    rw [hskip] at htok
    exact htok.c_eq
  cases hlevel.state with
  | inl harray =>
    refine (moves_arrayAdd hE harray hhead).stops ((moves_eats hE hhead).stops ?_)
    refine stops_of_fail fun tok htok ↦ ⟨tok, .errorParseArray, ?_, by decide⟩
    rw [jsonSwitch, htok.srec]
    dsimp only
    rw [jsonArraySep, hchar htok, if_neg hc.ne_bracket, if_neg hc.ne_comma]
  | inr hobject =>
    by_cases hput : (jsonMapPutValue level.current (level.objFieldName.getD []) v).2 = 0
    · refine (moves_objectValueAdd hE hobject hhead hput).stops ((moves_eats hE hhead).stops ?_)
      refine stops_of_fail fun tok htok ↦ ⟨tok, .errorParseObjectValueSep, ?_, by decide⟩
      rw [jsonSwitch, htok.srec]
      dsimp only
      rw [jsonObjectSep, hchar htok, if_neg hc.ne_brace, if_neg hc.ne_comma]
    · exact stops_objectValueAdd hE hobject hhead hput

end Steps

end LatteC
