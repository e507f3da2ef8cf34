import LatteC.Json.Words
import LatteC.Json.Strings

/-!
# Arrays and objects

A value within an array or an object is read on a level of its own, and stored in the level below when the
character after it is there. With the texts of scalars this gives the tokener on every text of a value: it
has the value of the text, or the tokener refuses it.
-/

namespace LatteC

open StepMachine

section Containers

variable {D : Type} {E : JsonEnv D} {outer : List (JsonSrec D)} {level : JsonSrec D}
  {saved : JsonState} {v : Value D} {name : Option (List UInt8)}

/-! ## White space and single characters -/

theorem reads_ws (hE : E.Bounded) (hend : saved ≠ .finish ∨ outer ≠ []) (ws : JsonWs)
    (ok : UInt8 → Prop) :
    Reads (jsonStep E) Rejects (JsonEats outer saved v name) ws.1 (JsonEats outer saved v name)
      Rejects ok := by
  have hblank : ∀ p, p <+: ws.1 → Stops (jsonStep E) (JsonEats outer saved v name p) Rejects := by
    intro p hp
    refine refuses_blank hE ?_ hend
    have hskip := skipWs_append_of_ws (fun c hc ↦ ws.2 c (hp.subset hc)) []
    rwa [List.append_nil] at hskip
  refine ⟨fun rest _ ↦ ?_, hblank ws.1 List.prefix_rfl, fun p hp _ ↦ hblank p hp⟩
  rw [jsonEats_congr (skipWs_append_of_ws ws.2 rest)]
  exact .refl

/-- White space may come first. -/
theorem outcome_ws {β : Type} {s : List UInt8} {B : β → List UInt8 → JsonTok D → Prop}
    {W : β → JsonReply D → Prop} {ok : UInt8 → Prop} {o : Option β} (hE : E.Bounded)
    (hend : saved ≠ .finish ∨ outer ≠ []) (ws : JsonWs) (hs : s ≠ [])
    (h : Outcome (jsonStep E) Rejects (JsonEats outer saved v name) s B W ok o) :
    Outcome (jsonStep E) Rejects (JsonEats outer saved v name) (ws.1 ++ s) B W ok o :=
  Outcome.after (reads_ws hE hend ws _) h fun hnil ↦ absurd hnil hs

/-- A character by which a level goes to another state. -/
structure JsonToken (E : JsonEnv D) (saved : JsonState) (v : Value D) (name : Option (List UInt8))
    (c : UInt8) (saved' : JsonState) (v' : Value D) (name' : Option (List UInt8)) : Prop where
  solid : IsSolid c
  ne_zero : c ≠ 0
  switch : ∀ tok : JsonTok D, tok.srec = ⟨saved, saved, v, name⟩ → tok.c = c →
    ∃ tok' : JsonTok D, jsonSwitch E tok = (tok', .next) ∧
      tok'.srec = ⟨.eatws, saved', v', name'⟩ ∧ tok' = { tok with srec := tok'.srec }

theorem JsonToken.reads {c : UInt8} {saved' : JsonState} {v' : Value D}
    {name' : Option (List UInt8)} (h : JsonToken E saved v name c saved' v' name') (hE : E.Bounded)
    (hend : saved ≠ .finish ∨ outer ≠ []) (ok : UInt8 → Prop) :
    Reads (jsonStep E) Rejects (JsonEats outer saved v name) [c] (JsonEats outer saved' v' name')
      (· = jsonEndReply outer ⟨.eatws, saved', v', name'⟩) ok := by
  refine reads_token_eats hE h.solid h.ne_zero hend (fun rest tok htok ↦ ?_) ok
  exact h.switch tok htok.srec htok.c_eq

/-- A character after which more has to come. -/
theorem JsonToken.outcome {β : Type} {c : UInt8} {saved' : JsonState} {v' : Value D}
    {name' : Option (List UInt8)} {s : List UInt8} {B : β → List UInt8 → JsonTok D → Prop}
    {W : β → JsonReply D → Prop} {ok : UInt8 → Prop} {o : Option β}
    (h : JsonToken E saved v name c saved' v' name') (hE : E.Bounded) (hsaved : saved ≠ .finish)
    (hsaved' : saved' ≠ .finish) (hs : s ≠ [])
    (houtcome : Outcome (jsonStep E) Rejects (JsonEats outer saved' v' name') s B W ok o) :
    Outcome (jsonStep E) Rejects (JsonEats outer saved v name) (c :: s) B W ok o := by
  have hreads : Reads (jsonStep E) Rejects (JsonEats outer saved v name) [c]
      (JsonEats outer saved' v' name') (· = jsonEndReply outer ⟨.eatws, saved', v', name'⟩)
      fun _ ↦ True := h.reads hE (.inl hsaved) _
  rw [jsonEndReply_of_saved hsaved'] at hreads
  exact Outcome.after hreads houtcome fun hnil ↦ absurd hnil hs

/-- A character that leaves the value and the name as they are. -/
theorem jsonToken_of_setStates {c : UInt8} {saved' : JsonState} (hsolid : IsSolid c) (hne : c ≠ 0)
    (h : ∀ tok : JsonTok D, tok.srec.state = saved → tok.c = c →
      jsonSwitch E tok = (tok.setStates saved' .eatws, .next)) :
    JsonToken E saved v name c saved' v name where
  solid := hsolid
  ne_zero := hne
  switch tok hsrec hc := by
    refine ⟨_, h tok (by rw [hsrec]) hc, ?_, rfl⟩
    rw [JsonTok.setStates, hsrec]

theorem jsonToken_bracket :
    JsonToken E .start .null none '['.toUInt8 .array (.array []) none where
  solid := by decide
  ne_zero := by decide
  switch tok hsrec hc := by
    refine ⟨(tok.setStates .array .eatws).setCurrent (.array []), ?_, ?_, rfl⟩
    · rw [jsonSwitch, hsrec]
      dsimp only
      rw [jsonStart, hc, if_neg (by decide), if_pos rfl]
    · rw [JsonTok.setCurrent, JsonTok.setStates, hsrec]

theorem jsonToken_brace :
    JsonToken E .start .null none '{'.toUInt8 .objectFieldStart (.map []) none where
  solid := by decide
  ne_zero := by decide
  switch tok hsrec hc := by
    refine ⟨(tok.setStates .objectFieldStart .eatws).setCurrent (.map []), ?_, ?_, rfl⟩
    · rw [jsonSwitch, hsrec]
      dsimp only
      rw [jsonStart, hc, if_pos rfl]
    · rw [JsonTok.setCurrent, JsonTok.setStates, hsrec]

/-- The bracket of an array without elements. -/
theorem jsonToken_array_close : JsonToken E .array v name ']'.toUInt8 .finish v name := by
  refine jsonToken_of_setStates (by decide) (by decide) fun tok hstate hc ↦ ?_
  rw [jsonSwitch, hstate]
  dsimp only
  rw [jsonArray, hc, if_pos rfl, hstate, if_neg (by simp)]

theorem jsonToken_arraySep_close : JsonToken E .arraySep v name ']'.toUInt8 .finish v name := by
  refine jsonToken_of_setStates (by decide) (by decide) fun tok hstate hc ↦ ?_
  rw [jsonSwitch, hstate]
  dsimp only
  rw [jsonArraySep, hc, if_pos rfl]

theorem jsonToken_arraySep_comma :
    JsonToken E .arraySep v name ','.toUInt8 .arrayAfterSep v name := by
  refine jsonToken_of_setStates (by decide) (by decide) fun tok hstate hc ↦ ?_
  rw [jsonSwitch, hstate]
  dsimp only
  rw [jsonArraySep, hc, if_neg (by decide), if_pos rfl]

/-- The brace of an object without members. -/
theorem jsonToken_object_close :
    JsonToken E .objectFieldStart v name '}'.toUInt8 .finish v name := by
  refine jsonToken_of_setStates (by decide) (by decide) fun tok hstate hc ↦ ?_
  rw [jsonSwitch, hstate]
  dsimp only
  rw [jsonObjectFieldStart, hc, if_pos rfl, hstate, if_neg (by simp)]

theorem jsonToken_objectSep_close : JsonToken E .objectSep v name '}'.toUInt8 .finish v name := by
  refine jsonToken_of_setStates (by decide) (by decide) fun tok hstate hc ↦ ?_
  rw [jsonSwitch, hstate]
  dsimp only
  rw [jsonObjectSep, hc, if_pos rfl]

theorem jsonToken_objectSep_comma :
    JsonToken E .objectSep v name ','.toUInt8 .objectFieldStartAfterSep v name := by
  refine jsonToken_of_setStates (by decide) (by decide) fun tok hstate hc ↦ ?_
  rw [jsonSwitch, hstate]
  dsimp only
  rw [jsonObjectSep, hc, if_neg (by decide), if_pos rfl]

theorem jsonToken_colon : JsonToken E .objectFieldEnd v name ':'.toUInt8 .objectValue v name := by
  refine jsonToken_of_setStates (by decide) (by decide) fun tok hstate hc ↦ ?_
  rw [jsonSwitch, hstate]
  dsimp only
  rw [jsonObjectFieldEnd, hc, if_pos rfl]

/-! ## Starts of values -/

/-- A character with which an element of an array may start. -/
def StartsElement (c : UInt8) : Prop := IsSolid c ∧ c ≠ ']'.toUInt8

instance (c : UInt8) : Decidable (StartsElement c) := inferInstanceAs (Decidable (_ ∧ _))

theorem Misplaced.startsElement {c : UInt8} (h : Misplaced c) : StartsElement c :=
  ⟨h.solid, h.ne_bracket⟩

theorem startsElement_of_isDigitChar {c : UInt8} (hc : isDigitChar c = true) : StartsElement c := by
  refine ⟨⟨?_, ne_of_isDigitChar hc rfl⟩, ne_of_isDigitChar hc rfl⟩
  simp only [isWsChar, decide_eq_false_iff_not, not_or]
  exact ⟨ne_of_isDigitChar hc rfl, ne_of_isDigitChar hc rfl, ne_of_isDigitChar hc rfl,
    ne_of_isDigitChar hc rfl⟩

theorem headIs_skipWs_of_headIs {s : List UInt8} (h : HeadIs StartsElement s) :
    HeadIs StartsElement (skipWs s) := by
  obtain ⟨c, cs, rfl, hc⟩ := h
  rw [skipWs_cons_of_solid hc.1]
  exact headIs_cons hc cs

theorem headIs_minusText_append {minus : Bool} {s : List UInt8} (h : HeadIs StartsElement s) :
    HeadIs StartsElement (minusText minus ++ s) := by
  cases minus with
  | false => exact h
  | true => exact headIs_cons (by decide) s

theorem JsonWord.headIs_text (w : JsonWord) : HeadIs StartsElement w.text := by
  obtain ⟨c, cs, hcons⟩ := List.exists_cons_of_ne_nil w.letters_ne
  refine headIs_minusText_append ⟨c, cs, hcons, ?_⟩
  exact (w.isLetter c (by rw [hcons]; exact List.mem_cons_self)).misplaced.startsElement

theorem JsonNumber.headIs_text (n : JsonNumber) : HeadIs StartsElement n.text := by
  obtain ⟨d, ds, hcons⟩ := List.exists_cons_of_ne_nil n.int.2.1
  refine headIs_minusText_append (HeadIs.append ⟨d, ds, hcons, ?_⟩ n.tail)
  exact startsElement_of_isDigitChar (n.int.2.2 d (by rw [hcons]; exact List.mem_cons_self))

theorem headIs_ne_nil {ok : UInt8 → Prop} {s : List UInt8} (h : HeadIs ok s) : s ≠ [] := by
  obtain ⟨c, cs, rfl, -⟩ := h
  exact List.cons_ne_nil c cs

/-- Every value starts with a character of its own, after white space. -/
theorem JsonDoc.headIs_render (d : JsonDoc) : HeadIs StartsElement (skipWs d.render) := by
  cases d with
  | word w => exact headIs_skipWs_of_headIs w.headIs_text
  | number n => exact headIs_skipWs_of_headIs n.headIs_text
  | string chars => exact headIs_skipWs_of_headIs (headIs_cons (by decide) _)
  | array ws elements => exact headIs_skipWs_of_headIs (headIs_cons (by decide) _)
  | object ws members => exact headIs_skipWs_of_headIs (headIs_cons (by decide) _)
  | padded before d after =>
    rw [JsonDoc.render, skipWs_append_of_ws before.2]
    have hd := d.headIs_render
    rw [skipWs_append_of_head (headIs_ne_nil hd)]
    exact hd.append after.1

theorem JsonDoc.render_ne_nil (d : JsonDoc) : d.render ≠ [] := by
  intro hnil
  have hd := d.headIs_render
  rw [hnil] at hd
  exact headIs_ne_nil hd rfl

/-! ## Levels -/

theorem moves_push (hE : E.Bounded) {waits : JsonState} {text : List UInt8}
    (hs : HeadIs StartsElement (skipWs text)) (hdepth : ¬E.maxDepth ≤ outer.length + 1)
    (hswitch : ∀ tok : JsonTok D, tok.srec.state = saved → tok.c ≠ ']'.toUInt8 →
      jsonSwitch E tok = jsonPush E tok waits) :
    Moves (jsonStep E) (JsonEats outer saved v name text)
      (JsonEats (⟨waits, saved, v, name⟩ :: outer) .start .null none text) := by
  obtain ⟨c, cs, hcons, hc⟩ := hs
  refine (moves_eats hE ⟨c, cs, hcons, hc.1⟩).trans (moves_of_redo fun tok htok ↦ ?_)
  have hchar : tok.c = c := by
    rw [hcons] at htok
    exact htok.c_eq
  refine ⟨{ tok with outer := ⟨waits, saved, v, name⟩ :: outer, srec := jsonTokenerResetLevel }, ?_, ?_⟩
  · rw [hswitch tok (by rw [htok.srec]) (by rw [hchar]; exact hc.2), jsonPush, JsonTok.depth,
      htok.outer, if_neg hdepth, htok.srec]
  · refine ⟨rfl, rfl, ?_, htok.head, htok.high⟩
    change skipWs tok.str = _
    rw [htok.str, hcons, skipWs_cons_of_solid hc.1]

theorem stops_push (hE : E.Bounded) {waits : JsonState} {text : List UInt8}
    (hs : HeadIs StartsElement (skipWs text)) (hdepth : E.maxDepth ≤ outer.length + 1)
    (hswitch : ∀ tok : JsonTok D, tok.srec.state = saved → tok.c ≠ ']'.toUInt8 →
      jsonSwitch E tok = jsonPush E tok waits) :
    Stops (jsonStep E) (JsonEats outer saved v name text) Rejects := by
  obtain ⟨c, cs, hcons, hc⟩ := hs
  refine (moves_eats hE ⟨c, cs, hcons, hc.1⟩).stops (stops_of_fail fun tok htok ↦ ?_)
  have hchar : tok.c = c := by
    rw [hcons] at htok
    exact htok.c_eq
  refine ⟨tok, .errorDepth, ?_, by decide⟩
  rw [hswitch tok (by rw [htok.srec]) (by rw [hchar]; exact hc.2), jsonPush, JsonTok.depth,
    htok.outer, if_pos hdepth]

/-- **A value gets a level of its own**, unless there are too many. -/
theorem outcome_push {β : Type} {s : List UInt8} {B : β → List UInt8 → JsonTok D → Prop}
    {W : β → JsonReply D → Prop} {ok : UInt8 → Prop} {o : Option β} (hE : E.Bounded)
    {waits : JsonState} (hsaved : saved ≠ .finish) (hs : HeadIs StartsElement (skipWs s))
    (hswitch : ∀ tok : JsonTok D, tok.srec.state = saved → tok.c ≠ ']'.toUInt8 →
      jsonSwitch E tok = jsonPush E tok waits)
    (h : Outcome (jsonStep E) Rejects (JsonEats (⟨waits, saved, v, name⟩ :: outer) .start .null none)
      s B W ok o) :
    Outcome (jsonStep E) Rejects (JsonEats outer saved v name) s B W ok
      (if E.maxDepth ≤ outer.length + 1 then none else o) := by
  split_ifs with hdepth
  · refine ⟨fun rest _ ↦ stops_push hE ?_ hdepth hswitch, fun p hp ↦ ?_⟩
    · rw [skipWs_append_of_head (headIs_ne_nil hs)]
      exact hs.append rest
    · by_cases hblank : skipWs p = []
      · exact refuses_blank hE hblank (.inl hsaved)
      · obtain ⟨q, rfl⟩ := hp
        rw [skipWs_append_of_head hblank] at hs
        exact stops_push hE (hs.of_prefix hblank (List.prefix_append _ q)) hdepth hswitch
  · exact outcome_turn hE (.inl hsaved) hs (fun text htext ↦ moves_push hE htext hdepth hswitch) h

/-- What the tokener does with the text of a value within a container. -/
def ReadsDoc (E : JsonEnv D) (d : JsonDoc) : Prop :=
  ∀ (level : JsonSrec D) (outer : List (JsonSrec D)), level.Waits →
    Outcome (jsonStep E) Rejects (JsonEats (level :: outer) .start .null none) d.render
      (fun v ↦ JsonEats (level :: outer) .finish v none) (fun _ ↦ Rejects) EndsValue
      (docValue E (outer.length + 1) d)

/-- What the tokener does with the text of an array or an object, or with the rest of one. -/
def EndsContainer (E : JsonEnv D) (outer : List (JsonSrec D)) (saved : JsonState) (v : Value D)
    (s : List UInt8) (o : Option (Value D)) : Prop :=
  Outcome (jsonStep E) Rejects (JsonEats outer saved v none) s
    (fun v ↦ JsonEats outer .finish v none)
    (fun v ↦ (· = jsonEndReply outer ⟨.eatws, .finish, v, none⟩)) (fun _ ↦ True) o

/-! ## Arrays -/

theorem jsonSwitch_array {tok : JsonTok D} (hsaved : saved = .array ∨ saved = .arrayAfterSep)
    (hstate : tok.srec.state = saved) (hc : tok.c ≠ ']'.toUInt8) :
    jsonSwitch E tok = jsonPush E tok .arrayAdd := by
  have hswitch : jsonSwitch E tok = jsonArray E tok := by
    rw [jsonSwitch, hstate]
    obtain rfl | rfl := hsaved <;> rfl
  rw [hswitch, jsonArray, if_neg hc]

/-- What the tokener does with the elements of an array, at its start and after some elements. -/
structure ReadsElements (E : JsonEnv D) (ds : List JsonDoc) : Prop where
  first : ∀ outer, EndsContainer E outer .array (.array []) (renderElements ds)
    (elementsValue E outer.length ds [])
  more : ∀ outer vs, EndsContainer E outer .arraySep (.array vs) (renderMoreElements ds)
    (elementsValue E outer.length ds vs)

theorem readsElements_nil (hE : E.Bounded) : ReadsElements E [] where
  first _ := jsonToken_array_close.reads hE (.inl (by simp)) _
  more _ _ := jsonToken_arraySep_close.reads hE (.inl (by simp)) _

/-- An element and the rest of the array. -/
theorem outcome_element (hE : E.Bounded) {d : JsonDoc} {ds : List JsonDoc} (hd : ReadsDoc E d)
    (hds : ReadsElements E ds) (hsaved : saved = .array ∨ saved = .arrayAfterSep)
    (vs : List (Value D)) :
    EndsContainer E outer saved (.array vs) (d.render ++ renderMoreElements ds)
      (elementsValue E outer.length (d :: ds) vs) := by
  have hfinish : saved ≠ .finish := by obtain rfl | rfl := hsaved <;> simp
  refine Outcome.bind (outcome_push hE hfinish d.headIs_render
    (fun tok ↦ jsonSwitch_array hsaved) (hd _ outer ⟨.inl rfl⟩)) (headIs_renderMoreElements ds)
    fun v _ ↦ ?_
  have hs : HeadIs IsSolid (renderMoreElements ds) := by
    cases ds with
    | nil => exact headIs_cons (by decide) []
    | cons d ds => exact headIs_cons (by decide) _
  refine outcome_char_turn hE (.inr (List.cons_ne_nil _ _)) hs (fun c cs hc ↦ ?_)
    (hds.more outer (vs ++ [v]))
  refine moves_arrayAdd hE rfl ?_
  rw [skipWs_cons_of_solid hc]
  exact headIs_cons hc cs

theorem readsElements_cons (hE : E.Bounded) {d : JsonDoc} {ds : List JsonDoc} (hd : ReadsDoc E d)
    (hds : ReadsElements E ds) : ReadsElements E (d :: ds) where
  first _ := outcome_element hE hd hds (.inl rfl) []
  more _ vs := jsonToken_arraySep_comma.outcome hE (by simp) (by simp)
    (List.append_ne_nil_of_left_ne_nil d.render_ne_nil _)
    (outcome_element hE hd hds (.inr rfl) vs)

theorem renderElements_ne_nil (ds : List JsonDoc) : renderElements ds ≠ [] := by
  cases ds with
  | nil => exact List.cons_ne_nil _ _
  | cons d ds => exact List.append_ne_nil_of_left_ne_nil d.render_ne_nil _

/-- **Arrays.** -/
theorem outcome_array (hE : E.Bounded) {ds : List JsonDoc} (hds : ReadsElements E ds) (ws : JsonWs) :
    EndsContainer E outer .start .null (JsonDoc.array ws ds).render
      (docValue E outer.length (.array ws ds)) :=
  jsonToken_bracket.outcome hE (by simp) (by simp)
    (List.append_ne_nil_of_right_ne_nil _ (renderElements_ne_nil ds))
    (outcome_ws hE (.inl (by simp)) ws (renderElements_ne_nil ds) (hds.first outer))

/-! ## Strings and member names -/

/-- A string in a state that a quote leads to. -/
theorem outcome_quoted (hE : E.Bounded) {st : JsonState} {ok : UInt8 → Prop}
    {done : List UInt8 → Value D → Option (List UInt8) → JsonSrec D} (hsaved : saved ≠ .finish)
    (hscan : StringScan E st done)
    (hend : ∀ total, jsonEndReply outer (done total v name) = .reject)
    (hswitch : ∀ tok : JsonTok D, tok.srec.state = saved → tok.c = 34 →
      jsonSwitch E tok = ({ printbufReset (tok.setState st) with quoteChar := 34 }, .next))
    (chars : List JsonChar) :
    Outcome (jsonStep E) Rejects (JsonEats outer saved v name) (34 :: stringTail chars)
      (fun total ↦ JsonAt outer (done total v name)) (fun _ ↦ Rejects) ok
      (fitting E (stringBytes 0 chars)) := by
  have hquote : Reads (jsonStep E) Rejects (JsonEats outer saved v name) [34]
      (StringAt outer ⟨st, saved, v, name⟩ 0 []) (· = jsonEndReply outer ⟨st, saved, v, name⟩)
      fun _ ↦ True := by
    refine reads_token hE (by decide) (by decide) (.inl hsaved) (fun rest tok htok ↦ ?_) _
    have hsrec : ({ tok.srec with state := st } : JsonSrec D) = ⟨st, saved, v, name⟩ := by
      rw [htok.srec]
    refine ⟨_, hswitch tok (by rw [htok.srec]) htok.c_eq,
      ⟨htok.outer, hsrec, htok.str, htok.c_eq⟩, ?_⟩
    rintro d ds rfl
    exact ⟨htok.outer, hsrec, htok.high, rfl, rfl, rfl, rfl⟩
  rw [jsonEndReply_of_state hscan.ne_eatws] at hquote
  exact Outcome.after hquote
    ((readsString hE hscan hend chars).scan saved [] [] (Nat.zero_le _)
      fun c hc ↦ absurd hc List.not_mem_nil)
    fun hnil ↦ absurd hnil (stringTail_ne_nil chars)

theorem nameKey_eq_map (chars : List JsonChar) :
    nameKey E chars = (fitting E (stringBytes 0 chars)).map cString := by
  rw [nameKey, fitting]
  split_ifs <;> rfl

/-- **Strings.** Their characters are read, and no value is stored. -/
theorem readsDoc_string (hE : E.Bounded) (chars : List JsonChar) : ReadsDoc E (.string chars) := by
  intro level outer _
  have hstring : Outcome (jsonStep E) Rejects (JsonEats (level :: outer) .start .null none)
      (34 :: stringTail chars) (fun _ ↦ JsonAt (level :: outer) ⟨.eatws, .finish, .null, none⟩)
      (fun _ ↦ Rejects) EndsValue (fitting E (stringBytes 0 chars)) := by
    refine outcome_quoted hE (by simp) (stringScan_string hE) (fun _ ↦ jsonEndReply_cons level)
      (fun tok hstate hc ↦ ?_) chars
    rw [jsonSwitch, hstate]
    dsimp only
    rw [jsonStart, hc, hE.strict]
    rfl
  rw [docValue, nameKey_eq_map, Option.map_map]
  exact Outcome.map (hstring.mono_right fun _ _ _ htok ↦ htok.eats)

theorem jsonSwitch_quote {tok : JsonTok D}
    (hsaved : saved = .objectFieldStart ∨ saved = .objectFieldStartAfterSep)
    (hstate : tok.srec.state = saved) (hc : tok.c = 34) :
    jsonSwitch E tok =
      ({ printbufReset (tok.setState .objectField) with quoteChar := 34 }, .next) := by
  have hswitch : jsonSwitch E tok = jsonObjectFieldStart E tok := by
    rw [jsonSwitch, hstate]
    obtain rfl | rfl := hsaved <;> rfl
  rw [hswitch, jsonObjectFieldStart, if_neg (by rw [hc]; decide), if_pos (.inl hc), hc]

theorem JsonName.text_ne_nil (k : JsonName) : k.text ≠ [] :=
  List.append_ne_nil_of_right_ne_nil _ (List.cons_ne_nil _ _)

/-- **Member names.** -/
theorem outcome_name (hE : E.Bounded)
    (hsaved : saved = .objectFieldStart ∨ saved = .objectFieldStartAfterSep) (k : JsonName) :
    Outcome (jsonStep E) Rejects (JsonEats outer saved v none) k.text
      (fun key ↦ JsonEats outer .objectValue v (some key)) (fun _ ↦ Rejects) (fun _ ↦ True)
      (nameKey E k.chars) := by
  have hfinish : saved ≠ .finish := by obtain rfl | rfl := hsaved <;> simp
  have hquoted : Outcome (jsonStep E) Rejects (JsonEats outer saved v none)
      (34 :: stringTail k.chars)
      (fun total ↦ JsonAt outer ⟨.eatws, .objectFieldEnd, v, some (cString total)⟩)
      (fun _ ↦ Rejects) (fun _ ↦ True) (fitting E (stringBytes 0 k.chars)) :=
    outcome_quoted hE hfinish (stringScan_objectField hE)
      (fun _ ↦ jsonEndReply_of_saved (by simp)) (fun tok ↦ jsonSwitch_quote hsaved) k.chars
  have hname : Outcome (jsonStep E) Rejects (JsonEats outer saved v none)
      (34 :: stringTail k.chars) (fun key ↦ JsonEats outer .objectFieldEnd v (some key))
      (fun _ ↦ Rejects) (fun _ ↦ True) (nameKey E k.chars) := by
    rw [nameKey_eq_map]
    exact Outcome.map (hquoted.mono_right fun _ _ _ htok ↦ htok.eats)
  have hcolon : ∀ key, Outcome (jsonStep E) Rejects (JsonEats outer .objectFieldEnd v (some key))
      (k.after.1 ++ [':'.toUInt8]) (fun key ↦ JsonEats outer .objectValue v (some key))
      (fun _ ↦ Rejects) (fun _ ↦ True) (some key) := by
    intro key
    have hreads : Reads (jsonStep E) Rejects (JsonEats outer .objectFieldEnd v (some key))
        [':'.toUInt8] (JsonEats outer .objectValue v (some key))
        (· = jsonEndReply outer ⟨.eatws, .objectValue, v, some key⟩) fun _ ↦ True :=
      jsonToken_colon.reads hE (.inl (by simp)) _
    rw [jsonEndReply_of_saved (by simp)] at hreads
    exact outcome_ws hE (.inl (by simp)) k.after (List.cons_ne_nil _ _) hreads
  have htext : k.text = k.before.1 ++ ((34 :: stringTail k.chars) ++ (k.after.1 ++ [':'.toUInt8])) :=
    rfl
  rw [htext, ← Option.bind_fun_some (nameKey E k.chars)]
  refine outcome_ws hE (.inl hfinish) k.before (List.cons_ne_nil _ _) ?_
  refine Outcome.bind hname ?_ fun key _ ↦ hcolon key
  obtain ⟨c, cs, hcons⟩ := List.exists_cons_of_ne_nil
    (List.append_ne_nil_of_right_ne_nil k.after.1 (List.cons_ne_nil ':'.toUInt8 []))
  exact ⟨c, cs, hcons, trivial⟩

/-! ## Objects -/

theorem jsonMapPutValue_of_new {key : List UInt8} {ms : List (List UInt8 × Value D)}
    (h : key ∉ ms.map Prod.fst) : jsonMapPutValue (.map ms) key v = (.map (ms ++ [(key, v)]), 0) := by
  rw [jsonMapPutValue, if_neg]
  simpa using h

theorem jsonMapPutValue_of_mem {key : List UInt8} {ms : List (List UInt8 × Value D)}
    (h : key ∈ ms.map Prod.fst) : (jsonMapPutValue (.map ms) key v).2 = 1 := by
  rw [jsonMapPutValue, if_pos]
  simpa using h

/-- What the tokener does with the members of an object, at its start and after some members. -/
structure ReadsMembers (E : JsonEnv D) (ms : List (JsonName × JsonDoc)) : Prop where
  first : ∀ outer, EndsContainer E outer .objectFieldStart (.map []) (renderMembers ms)
    (membersValue E outer.length ms [])
  more : ∀ outer acc, EndsContainer E outer .objectSep (.map acc) (renderMoreMembers ms)
    (membersValue E outer.length ms acc)

theorem readsMembers_nil (hE : E.Bounded) : ReadsMembers E [] where
  first _ := jsonToken_object_close.reads hE (.inl (by simp)) _
  more _ _ := jsonToken_objectSep_close.reads hE (.inl (by simp)) _

/-- A value of a member and the rest of the object. A key that is there already is refused. -/
theorem outcome_member_value (hE : E.Bounded) {d : JsonDoc} {ms : List (JsonName × JsonDoc)}
    (hd : ReadsDoc E d) (hms : ReadsMembers E ms) (acc : List (List UInt8 × Value D))
    (key : List UInt8) :
    Outcome (jsonStep E) Rejects (JsonEats outer .objectValue (.map acc) (some key))
      (d.render ++ renderMoreMembers ms) (fun v ↦ JsonEats outer .finish v none)
      (fun v ↦ (· = jsonEndReply outer ⟨.eatws, .finish, v, none⟩)) (fun _ ↦ True)
      ((if E.maxDepth ≤ outer.length + 1 then none else docValue E (outer.length + 1) d).bind
        fun v ↦ if key ∈ acc.map Prod.fst then none
          else membersValue E outer.length ms (acc ++ [(key, v)])) := by
  have hswitch : ∀ tok : JsonTok D, tok.srec.state = .objectValue → tok.c ≠ ']'.toUInt8 →
      jsonSwitch E tok = jsonPush E tok .objectValueAdd := fun tok hstate _ ↦ by
    rw [jsonSwitch, hstate]
    rfl
  refine Outcome.bind (outcome_push hE (by simp) d.headIs_render hswitch (hd _ outer ⟨.inr rfl⟩))
    (headIs_renderMoreMembers ms) fun v _ ↦ ?_
  have hs : HeadIs IsSolid (renderMoreMembers ms) := by
    cases ms with
    | nil => exact headIs_cons (by decide) []
    | cons m ms =>
      obtain ⟨k, d⟩ := m
      exact headIs_cons (by decide) _
  have hsolid : ∀ {c : UInt8}, IsSolid c → ∀ cs, HeadIs IsSolid (skipWs (c :: cs)) := by
    intro c hc cs
    rw [skipWs_cons_of_solid hc]
    exact headIs_cons hc cs
  split_ifs with hmem
  · have hstops : ∀ c cs, IsSolid c → Stops (jsonStep E)
        (JsonEats (⟨.objectValueAdd, .objectValue, .map acc, some key⟩ :: outer) .finish v none
          (c :: cs)) Rejects := by
      refine fun c cs hc ↦ stops_objectValueAdd hE rfl (hsolid hc cs) ?_
      have hput : (jsonMapPutValue (.map acc) key v).2 = 1 := jsonMapPutValue_of_mem hmem
      exact fun hzero ↦ absurd (hput.symm.trans hzero) Nat.one_ne_zero
    obtain ⟨c, cs, hcons, hc⟩ := hs
    rw [hcons]
    refine ⟨fun rest _ ↦ hstops c (cs ++ rest) hc, fun p hp ↦ ?_⟩
    obtain rfl | ⟨p', rfl, -⟩ := List.prefix_cons_iff.mp hp
    · exact refuses_blank hE rfl (.inr (List.cons_ne_nil _ _))
    · exact hstops c p' hc
  · have hput : jsonMapPutValue (.map acc) key v = (.map (acc ++ [(key, v)]), 0) :=
      jsonMapPutValue_of_new hmem
    refine outcome_char_turn hE (.inr (List.cons_ne_nil _ _)) hs (fun c cs hc ↦ ?_)
      (hms.more outer (acc ++ [(key, v)]))
    have hmoves : Moves (jsonStep E)
        (JsonEats (⟨.objectValueAdd, .objectValue, .map acc, some key⟩ :: outer) .finish v none
          (c :: cs))
        (JsonEats outer .objectSep (jsonMapPutValue (.map acc) key v).1 none (c :: cs)) :=
      moves_objectValueAdd hE rfl (hsolid hc cs) (congrArg Prod.snd hput)
    rwa [hput] at hmoves

/-- A member and the rest of the object. -/
theorem outcome_member (hE : E.Bounded) {d : JsonDoc} {ms : List (JsonName × JsonDoc)}
    (hd : ReadsDoc E d) (hms : ReadsMembers E ms)
    (hsaved : saved = .objectFieldStart ∨ saved = .objectFieldStartAfterSep) (k : JsonName)
    (acc : List (List UInt8 × Value D)) :
    EndsContainer E outer saved (.map acc) (k.text ++ (d.render ++ renderMoreMembers ms))
      (membersValue E outer.length ((k, d) :: ms) acc) := by
  obtain ⟨c, cs, hcons⟩ := List.exists_cons_of_ne_nil
    (List.append_ne_nil_of_left_ne_nil d.render_ne_nil (renderMoreMembers ms))
  exact Outcome.bind (outcome_name hE hsaved k) ⟨c, cs, hcons, trivial⟩
    fun key _ ↦ outcome_member_value hE hd hms acc key

theorem readsMembers_cons (hE : E.Bounded) {d : JsonDoc} {ms : List (JsonName × JsonDoc)}
    (hd : ReadsDoc E d) (hms : ReadsMembers E ms) (k : JsonName) :
    ReadsMembers E ((k, d) :: ms) where
  first _ := outcome_member hE hd hms (.inl rfl) k []
  more _ acc := jsonToken_objectSep_comma.outcome hE (by simp) (by simp)
    (List.append_ne_nil_of_left_ne_nil k.text_ne_nil _)
    (outcome_member hE hd hms (.inr rfl) k acc)

theorem renderMembers_ne_nil (ms : List (JsonName × JsonDoc)) : renderMembers ms ≠ [] := by
  cases ms with
  | nil => exact List.cons_ne_nil _ _
  | cons m ms =>
    obtain ⟨k, d⟩ := m
    exact List.append_ne_nil_of_left_ne_nil k.text_ne_nil _

/-- **Objects.** -/
theorem outcome_object (hE : E.Bounded) {ms : List (JsonName × JsonDoc)} (hms : ReadsMembers E ms)
    (ws : JsonWs) :
    EndsContainer E outer .start .null (JsonDoc.object ws ms).render
      (docValue E outer.length (.object ws ms)) :=
  jsonToken_brace.outcome hE (by simp) (by simp)
    (List.append_ne_nil_of_right_ne_nil _ (renderMembers_ne_nil ms))
    (outcome_ws hE (.inl (by simp)) ws (renderMembers_ne_nil ms) (hms.first outer))

/-! ## Values -/

/-- A container within a container. -/
theorem readsDoc_of_endsContainer {d : JsonDoc}
    (h : ∀ outer, EndsContainer E outer .start .null d.render (docValue E outer.length d)) :
    ReadsDoc E d := by
  intro level outer _
  refine Outcome.mono ?_ fun _ _ ↦ trivial
  have hcontainer := h (level :: outer)
  simp only [EndsContainer, jsonEndReply_cons] at hcontainer
  exact hcontainer

/-- White space around a value. -/
theorem readsDoc_padded (hE : E.Bounded) {d : JsonDoc} (hd : ReadsDoc E d) (before after : JsonWs) :
    ReadsDoc E (.padded before d after) := by
  intro level outer hlevel
  have hdoc := hd level outer hlevel
  rw [JsonDoc.render, docValue]
  refine outcome_ws hE (.inl (by simp)) before
    (List.append_ne_nil_of_left_ne_nil d.render_ne_nil _) ?_
  obtain ⟨ws, hws⟩ := after
  cases ws with
  | nil => rwa [List.append_nil]
  | cons c cs =>
    rw [← Option.bind_fun_some (docValue E (outer.length + 1) d)]
    refine Outcome.bind hdoc (headIs_cons (.inr (.inr (.inr (hws c List.mem_cons_self)))) cs) ?_
    exact fun v _ ↦ reads_ws hE (.inr (List.cons_ne_nil _ _)) ⟨c :: cs, hws⟩ _

mutual

/-- **The tokener on the text of a value within a container.** -/
theorem readsDoc (hE : E.Bounded) (d : JsonDoc) : ReadsDoc E d := by
  cases d with
  | word w => exact fun level outer hlevel ↦ outcome_word hE hlevel w
  | number n => exact fun level outer _ ↦ outcome_number_value hE n
  | string chars => exact readsDoc_string hE chars
  | array ws elements =>
    exact readsDoc_of_endsContainer fun _ ↦ outcome_array hE (readsElements hE elements) ws
  | object ws members =>
    exact readsDoc_of_endsContainer fun _ ↦ outcome_object hE (readsMembers hE members) ws
  | padded before d after => exact readsDoc_padded hE (readsDoc hE d) before after

theorem readsElements (hE : E.Bounded) (ds : List JsonDoc) : ReadsElements E ds := by
  cases ds with
  | nil => exact readsElements_nil hE
  | cons d ds => exact readsElements_cons hE (readsDoc hE d) (readsElements hE ds)

theorem readsMembers (hE : E.Bounded) (ms : List (JsonName × JsonDoc)) : ReadsMembers E ms := by
  cases ms with
  | nil => exact readsMembers_nil hE
  | cons m ms =>
    obtain ⟨k, d⟩ := m
    exact readsMembers_cons hE (readsDoc hE d) (readsMembers hE ms) k

end

end Containers

end LatteC
