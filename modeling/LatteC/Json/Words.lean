import LatteC.Json.Numbers

/-!
# Words

A word within an array or an object: the tokener takes it for a literal or rejects the text. The characters
of `true`, `false` and `NaN` are matched one at a time, and the character after the literal ends it. What
starts like an infinity is one after its first letter.
-/

namespace LatteC

open StepMachine

section Words

variable {D : Type} {E : JsonEnv D} {tok : JsonTok D} {outer : List (JsonSrec D)} {level : JsonSrec D}
  {v : Value D} {name : Option (List UInt8)}

/-! ## Letters -/

theorem IsLetter.tolower {c : UInt8} (hc : IsLetter c) : IsLetter (tolower c) := by
  rw [LatteC.tolower]
  split_ifs with hupper
  · refine .inr ?_
    have hlow := UInt8.le_iff_toNat_le.mp hupper.1
    have hhigh := UInt8.le_iff_toNat_le.mp hupper.2
    simp only [UInt8.le_iff_toNat_le, UInt8.toNat_add]
    change 65 ≤ c.toNat at hlow
    change c.toNat ≤ 90 at hhigh
    change 97 ≤ (c.toNat + 32) % 256 ∧ (c.toNat + 32) % 256 ≤ 122
    omega
  · exact hc

theorem tolower_cases {c x : UInt8} (h : tolower c = x) : c = x ∨ c = x - 32 := by
  rw [tolower] at h
  split_ifs at h
  · exact .inr (by rw [← h, UInt8.add_sub_cancel])
  · exact .inl h

theorem IsLetter.ne {c d : UInt8} (hc : IsLetter c) (hd : ¬IsLetter d) : c ≠ d := by
  rintro rfl
  exact hd hc

theorem IsLetter.isDigitChar_eq {c : UInt8} (hc : IsLetter c) : isDigitChar c = false := by
  rw [isDigitChar, decide_eq_false_iff_not]
  intro hrange
  have hhigh := UInt8.le_iff_toNat_le.mp hrange.2
  simp only [IsLetter, UInt8.le_iff_toNat_le] at hc
  change c.toNat ≤ 57 at hhigh
  change 65 ≤ c.toNat ∧ c.toNat ≤ 90 ∨ 97 ≤ c.toNat ∧ c.toNat ≤ 122 at hc
  omega

theorem IsLetter.isWsChar_eq {c : UInt8} (hc : IsLetter c) : isWsChar c = false := by
  simp only [isWsChar, decide_eq_false_iff_not, not_or]
  exact ⟨hc.ne (by decide), hc.ne (by decide), hc.ne (by decide), hc.ne (by decide)⟩

theorem IsLetter.misplaced {c : UInt8} (hc : IsLetter c) : Misplaced c :=
  ⟨⟨hc.isWsChar_eq, hc.ne (by decide)⟩, hc.ne (by decide), hc.ne (by decide), hc.ne (by decide)⟩

theorem IsLetter.ne_zero {c : UInt8} (hc : IsLetter c) : c ≠ 0 := by
  rintro rfl
  exact absurd hc (by decide)

/-- What ends a value is no letter. -/
theorem EndsValue.tolower_ne {c x : UInt8} (hc : EndsValue c) (hx : IsLetter x) :
    tolower c ≠ tolower x := by
  have hfixed : tolower c = c ∧ ¬IsLetter c := by
    simp only [EndsValue, isWsChar, decide_eq_true_eq] at hc
    obtain rfl | rfl | rfl | rfl | rfl | rfl | rfl := hc <;> decide
  intro h
  rw [hfixed.1] at h
  refine hfixed.2 ?_
  rw [h]
  exact hx.tolower

/-! ## Literals -/

theorem jsonLiteralEq_iff (hstrict : E.strict = false) (lit buf : List UInt8) (n : ℕ) :
    jsonLiteralEq E lit buf n = true ↔ (lit.take n).map tolower = (buf.take n).map tolower := by
  rw [jsonLiteralEq, hstrict]
  simp only [Bool.not_false, Bool.true_and, Bool.or_eq_true, beq_iff_eq]
  refine ⟨fun h ↦ h.elim id fun heq ↦ by rw [heq], .inl⟩

/-- A literal does not match a buffer that starts with another character. -/
theorem jsonLiteralEq_of_head (hstrict : E.strict = false) {lit buf : List UInt8} {n : ℕ} (hn : 0 < n)
    (h : (buf.map tolower).head? ≠ (lit.map tolower).head?) : jsonLiteralEq E lit buf n = false := by
  rw [Bool.eq_false_iff]
  intro heq
  rw [jsonLiteralEq_iff hstrict, List.map_take, List.map_take] at heq
  have hhead := congrArg List.head? heq
  rw [List.head?_take, List.head?_take, if_neg hn.ne', if_neg hn.ne'] at hhead
  exact h hhead.symm

/-- The comparison while the literal is not over. -/
theorem jsonLiteralEq_append (hstrict : E.strict = false) {lit pb : List UInt8} (c : UInt8)
    (hlt : pb.length < lit.length) :
    jsonLiteralEq E lit (pb ++ [c]) (min (pb.length + 1) lit.length) = true ↔
      (pb ++ [c]).map tolower = (lit.take (pb.length + 1)).map tolower := by
  have htake : (pb ++ [c]).take (pb.length + 1) = pb ++ [c] :=
    List.take_of_length_le (by rw [List.length_append, List.length_singleton])
  rw [jsonLiteralEq_iff hstrict, Nat.min_eq_left hlt, htake]
  exact eq_comm

/-- The comparison when the literal is over. -/
theorem jsonLiteralEq_over (hstrict : E.strict = false) {lit pb : List UInt8} (c : UInt8)
    (hpb : pb.map tolower = lit.map tolower) :
    jsonLiteralEq E lit (pb ++ [c]) (min (pb.length + 1) lit.length) = true := by
  have hlen : pb.length = lit.length := by
    have h := congrArg List.length hpb
    rwa [List.length_map, List.length_map] at h
  rw [jsonLiteralEq_iff hstrict, Nat.min_eq_right (by omega), ← hlen, List.take_left, hlen,
    List.take_length, hpb]

/-- There is room for what is matched. -/
theorem jsonMemappend_of_room (hE : E.Bounded) {s : List UInt8} {andThen : JsonTok D → JsonPass D}
    (h : tok.pb.length + s.length ≤ E.limit) :
    jsonMemappend E tok s andThen = andThen { tok with pb := tok.pb ++ s } := by
  rw [jsonMemappend_eq hE, if_pos h]

/-- A literal that the tokener matches in a state of its own, and the error if it does not match. -/
structure IsLiteral (E : JsonEnv D) (st : JsonState) (lit : List UInt8) (v : Value D)
    (err : JsonError) : Prop where
  ne_nil : lit ≠ []
  length_le : lit.length ≤ 5
  isLetter : ∀ x ∈ lit, IsLetter x
  err_ne : err ≠ .success
  switch : ∀ tok : JsonTok D, tok.srec.state = st →
    ((tok.pb ++ [tok.c]).map tolower).head? = (lit.map tolower).head? → tok.pb.length ≤ 5 →
      jsonSwitch E tok =
        let tok' := { tok with pb := tok.pb ++ [tok.c] }
        jsonMatch E lit v tok'.pb tok' (tok'.fail err)

theorem jsonMatch_of_head (hstrict : E.strict = false) (lit : List UInt8) {buf : List UInt8}
    {otherwise : JsonPass D}
    (h : (buf.map tolower).head? ≠ (lit.map tolower).head?) (hlit : lit ≠ []) :
    jsonMatch E lit v buf tok otherwise = otherwise := by
  have hpos : 0 < min (tok.stPos + 1) lit.length :=
    Nat.lt_min.mpr ⟨Nat.succ_pos _, List.length_pos_iff.mpr hlit⟩
  rw [jsonMatch, jsonLiteralEq_of_head hstrict hpos h]
  exact if_neg Bool.false_ne_true

theorem room_of_short (hE : E.Bounded) (h : tok.pb.length ≤ 5) : tok.pb.length + [tok.c].length ≤ E.limit := by
  have hroom := hE.limit_initial
  rw [List.length_singleton]
  omega

theorem isLiteral_true (hE : E.Bounded) :
    IsLiteral E .boolean jsonTrueStr (.boolean true) .errorParseBoolean where
  ne_nil := List.cons_ne_nil _ _
  length_le := by decide
  isLetter := isLetter_of_all rfl
  err_ne := by decide
  switch tok hstate hhead hlen := by
    have hswitch : jsonSwitch E tok = jsonBoolean E tok := by rw [jsonSwitch, hstate]
    have hother : ((tok.pb ++ [tok.c]).map tolower).head? ≠ (jsonFalseStr.map tolower).head? := by
      rw [hhead]
      decide
    rw [hswitch, jsonBoolean, jsonMemappend_of_room hE (room_of_short hE hlen)]
    dsimp only
    rw [jsonMatch_of_head hE.strict jsonFalseStr hother (List.cons_ne_nil _ _)]

theorem isLiteral_false (hE : E.Bounded) :
    IsLiteral E .boolean jsonFalseStr (.boolean false) .errorParseBoolean where
  ne_nil := List.cons_ne_nil _ _
  length_le := by decide
  isLetter := isLetter_of_all rfl
  err_ne := by decide
  switch tok hstate hhead hlen := by
    have hswitch : jsonSwitch E tok = jsonBoolean E tok := by rw [jsonSwitch, hstate]
    have hother : ((tok.pb ++ [tok.c]).map tolower).head? ≠ (jsonTrueStr.map tolower).head? := by
      rw [hhead]
      decide
    rw [hswitch, jsonBoolean, jsonMemappend_of_room hE (room_of_short hE hlen)]
    dsimp only
    rw [jsonMatch_of_head hE.strict jsonTrueStr hother (List.cons_ne_nil _ _)]

/-- The address of the print buffer does not begin like `null`. -/
theorem head_bufAddress_ne (n : ℕ) :
    ((Block.leBytes 8 (E.bufAddress n).toNat).map tolower).head? ≠ (jsonNullStr.map tolower).head? := by
  have haligned := E.bufAddress_aligned n
  generalize (E.bufAddress n).toNat = address at haligned
  rw [Block.leBytes, List.map_cons, List.head?_cons]
  intro h
  have hlow : tolower (UInt8.ofNat (address % 256)) = 110 := Option.some.inj h
  have hnat : (UInt8.ofNat (address % 256)).toNat = address % 256 := by
    rw [UInt8.toNat_ofNat']
    omega
  rw [tolower] at hlow
  split_ifs at hlow with hupper
  · have hsum := congrArg UInt8.toNat hlow
    rw [UInt8.toNat_add, hnat] at hsum
    change (address % 256 + 32) % 256 = 110 at hsum
    omega
  · have hbyte := congrArg UInt8.toNat hlow
    rw [hnat] at hbyte
    change address % 256 = 110 at hbyte
    omega

theorem isLiteral_nan (hE : E.Bounded) :
    IsLiteral E .null jsonNanStr (.double E.nan) .errorParseNull where
  ne_nil := List.cons_ne_nil _ _
  length_le := by decide
  isLetter := isLetter_of_all rfl
  err_ne := by decide
  switch tok hstate hhead hlen := by
    have hswitch : jsonSwitch E tok = jsonNull E tok := by rw [jsonSwitch, hstate]
    have haddress := head_bufAddress_ne (E := E) (tok.pb ++ [tok.c]).length
    rw [hswitch, jsonNull, jsonMemappend_of_room hE (room_of_short hE hlen)]
    dsimp only
    rw [jsonMatch_of_head hE.strict jsonNullStr haddress (List.cons_ne_nil _ _)]

/-- The characters of a word that have been matched. -/
structure LiteralAt (outer : List (JsonSrec D)) (st : JsonState) (matched : List UInt8)
    (text : List UInt8) (tok : JsonTok D) : Prop extends
    JsonAt outer ⟨st, .start, .null, none⟩ text tok where
  pb : tok.pb.map tolower = matched
  stPos : tok.stPos = tok.pb.length

section Literal

variable {st : JsonState} {lit m text : List UInt8} {err : JsonError}

theorem LiteralAt.length_eq (htok : LiteralAt outer st m text tok) : tok.pb.length = m.length := by
  rw [← htok.pb, List.length_map]

/-- A literal ends with the character after it. -/
theorem IsLiteral.over (hE : E.Bounded) (hlit : IsLiteral E st lit v err)
    (htok : LiteralAt outer st (lit.map tolower) text tok) :
    jsonSwitch E tok = { tok with pb := tok.pb ++ [tok.c] }.complete v := by
  have hlen : tok.pb.length = lit.length := htok.length_eq.trans (List.length_map _)
  have hne : tok.pb ≠ [] := fun hnil ↦ by
    rw [hnil] at hlen
    exact hlit.ne_nil (List.length_eq_zero_iff.mp hlen.symm)
  have hhead : ((tok.pb ++ [tok.c]).map tolower).head? = (lit.map tolower).head? := by
    rw [List.map_append, htok.pb, List.head?_append_of_ne_nil]
    rw [← htok.pb]
    exact mt List.map_eq_nil_iff.mp hne
  rw [hlit.switch tok (by rw [htok.srec]) hhead (hlen.trans_le hlit.length_le)]
  dsimp only
  rw [jsonMatch]
  dsimp only
  rw [htok.stPos, if_pos (jsonLiteralEq_over hE.strict tok.c htok.pb), if_pos hlen]

/-- The next character is that of the literal. -/
theorem IsLiteral.goes (hE : E.Bounded) (hlit : IsLiteral E st lit v err)
    (htok : LiteralAt outer st m text tok) (hlt : m.length < lit.length)
    (hm : m ++ [tolower tok.c] = (lit.map tolower).take (m.length + 1)) :
    jsonSwitch E tok = ({ tok with pb := tok.pb ++ [tok.c], stPos := tok.stPos + 1 }, .next) := by
  have hlen := htok.length_eq
  have hmap : (tok.pb ++ [tok.c]).map tolower = (lit.take (tok.pb.length + 1)).map tolower := by
    rw [List.map_append, htok.pb, List.map_cons, List.map_nil, hlen, hm, List.map_take]
  have hhead : ((tok.pb ++ [tok.c]).map tolower).head? = (lit.map tolower).head? := by
    rw [hmap, List.map_take, List.head?_take, if_neg (Nat.succ_ne_zero _)]
  have hlt' : tok.pb.length < lit.length := hlen.trans_lt hlt
  rw [hlit.switch tok (by rw [htok.srec]) hhead (hlt'.le.trans hlit.length_le)]
  dsimp only
  rw [jsonMatch]
  dsimp only
  rw [htok.stPos, if_pos ((jsonLiteralEq_append hE.strict tok.c hlt').mpr hmap), if_neg hlt'.ne]

/-- The next character is another one. -/
theorem IsLiteral.differs (hE : E.Bounded) (hlit : IsLiteral E st lit v err)
    (htok : LiteralAt outer st m text tok) (hlt : m.length < lit.length) (hne : m ≠ [])
    (hm : m = (lit.map tolower).take m.length)
    (hdiff : m ++ [tolower tok.c] ≠ (lit.map tolower).take (m.length + 1)) :
    jsonSwitch E tok = { tok with pb := tok.pb ++ [tok.c] }.fail err := by
  have hlen := htok.length_eq
  have hmap : (tok.pb ++ [tok.c]).map tolower ≠ (lit.take (tok.pb.length + 1)).map tolower := by
    rw [List.map_append, htok.pb, List.map_cons, List.map_nil, hlen, List.map_take]
    exact hdiff
  have hhead : ((tok.pb ++ [tok.c]).map tolower).head? = (lit.map tolower).head? := by
    rw [List.map_append, htok.pb, List.head?_append_of_ne_nil _ hne, hm, List.head?_take, if_neg]
    exact mt List.length_eq_zero_iff.mp hne
  have hlt' : tok.pb.length < lit.length := hlen.trans_lt hlt
  rw [hlit.switch tok (by rw [htok.srec]) hhead (hlt'.le.trans hlit.length_le)]
  dsimp only
  rw [jsonMatch]
  dsimp only
  rw [htok.stPos, if_neg (mt (jsonLiteralEq_append hE.strict tok.c hlt').mp hmap)]

/-- The value of letters that follow the matched ones. -/
def literalValue (lit : List UInt8) (v : Value D) (matched : List UInt8) : Option (Value D) :=
  if matched = lit.map tolower then some v else none

theorem literalAt_not_nil : ¬LiteralAt outer st m [] tok := fun h ↦ h.toJsonAt.not_nil

theorem moves_literal_over (hE : E.Bounded) (hlit : IsLiteral E st lit v err) (text : List UInt8) :
    Moves (jsonStep E) (LiteralAt outer st (lit.map tolower) text) (JsonEats outer .finish v none text) := by
  refine moves_of_redo fun tok htok ↦ ⟨_, hlit.over hE htok, ?_⟩
  refine ⟨htok.outer, ?_, by rw [← htok.str]; rfl, htok.head, htok.high⟩
  rw [JsonTok.setStates, JsonTok.setCurrent, htok.srec]

theorem stops_literal_differs (hE : E.Bounded) (hlit : IsLiteral E st lit v err)
    (hlt : m.length < lit.length) (hne : m ≠ []) (hm : m = (lit.map tolower).take m.length)
    {c : UInt8} (hdiff : m ++ [tolower c] ≠ (lit.map tolower).take (m.length + 1))
    (cs : List UInt8) : Stops (jsonStep E) (LiteralAt outer st m (c :: cs)) Rejects := by
  refine stops_of_fail fun tok htok ↦
    ⟨{ tok with pb := tok.pb ++ [tok.c] }, err, hlit.differs hE htok hlt hne hm ?_, hlit.err_ne⟩
  rwa [htok.toJsonAt.c_eq]

/-- A letter of a literal, on any level. -/
theorem reads_literal_letter (hE : E.Bounded) (hlit : IsLiteral E st lit v err)
    (hlt : m.length < lit.length) {c : UInt8} (hc : c ≠ 0)
    (hm : m ++ [tolower c] = (lit.map tolower).take (m.length + 1)) :
    Reads (jsonStep E) Rejects (LiteralAt outer st m) [c] (LiteralAt outer st (m ++ [tolower c]))
      (· = jsonEndReply outer ⟨st, .start, .null, none⟩) fun _ ↦ True := by
  refine reads_step hE hc (fun tok ↦ literalAt_not_nil) (fun rest tok htok ↦ ?_) _
  have hchar : tok.c = c := htok.toJsonAt.c_eq
  refine ⟨_, hlit.goes hE htok hlt (by rwa [hchar]), ?_, ?_⟩
  · exact ⟨htok.outer, htok.srec, htok.str, hchar⟩
  · rintro d ds rfl
    refine ⟨⟨htok.outer, htok.srec, rfl, rfl, htok.high⟩, ?_, ?_⟩
    · rw [List.map_append, htok.pb, hchar]
      rfl
    · rw [htok.stPos, List.length_append, List.length_singleton]

theorem reads_literal_goes (hE : E.Bounded) (hlit : IsLiteral E st lit v err)
    (hlt : m.length < lit.length) {c : UInt8} (hc : c ≠ 0)
    (hm : m ++ [tolower c] = (lit.map tolower).take (m.length + 1)) :
    Reads (jsonStep E) Rejects (LiteralAt (level :: outer) st m) [c]
      (LiteralAt (level :: outer) st (m ++ [tolower c])) Rejects fun _ ↦ True := by
  have hreads := @reads_literal_letter _ _ (level :: outer) _ _ _ _ _ hE hlit hlt _ hc hm
  rwa [jsonEndReply_cons] at hreads

theorem exists_of_take_eq {c : UInt8} {n : ℕ} (h : m ++ [tolower c] = (lit.map tolower).take n) :
    ∃ x ∈ lit, tolower c = tolower x := by
  have hmem : tolower c ∈ lit.map tolower :=
    List.mem_of_mem_take (h ▸ List.mem_append_right m List.mem_cons_self)
  obtain ⟨x, hx, heq⟩ := List.mem_map.mp hmem
  exact ⟨x, hx, heq.symm⟩

theorem length_lt_of_take_eq (hm : m = (lit.map tolower).take m.length) (hne : m ≠ lit.map tolower) :
    m.length < lit.length := by
  by_contra hle
  rw [List.take_of_length_le (by rw [List.length_map]; omega)] at hm
  exact hne hm

/-- **Letters against a literal.** -/
theorem outcome_literal (hE : E.Bounded) (hlit : IsLiteral E st lit v err) (hlevel : level.Waits)
    (w : List UInt8) (hw : ∀ c ∈ w, IsLetter c) (m : List UInt8)
    (hm : m = (lit.map tolower).take m.length)
    (hhead : m ≠ [] ∨ ∃ c cs, w = c :: cs ∧ [tolower c] = (lit.map tolower).take 1) :
    Outcome (jsonStep E) Rejects (LiteralAt (level :: outer) st m) w
      (fun v ↦ JsonEats (level :: outer) .finish v none) (fun _ ↦ Rejects) EndsValue
      (literalValue lit v (m ++ w.map tolower)) := by
  induction w generalizing m with
  | nil =>
    rw [List.map_nil, List.append_nil]
    have hnil : m ≠ [] := by
      refine hhead.resolve_right ?_
      rintro ⟨c, cs, h, -⟩
      cases h
    by_cases heq : m = lit.map tolower
    · rw [literalValue, if_pos heq, heq]
      refine ⟨fun rest _ ↦ moves_literal_over hE hlit rest, fun tok htok ↦ ?_, fun p hp hne ↦ ?_⟩
      · exact absurd htok literalAt_not_nil
      · exact absurd (List.prefix_nil.mp hp) hne
    · rw [literalValue, if_neg heq]
      refine ⟨?_, fun p hp tok htok ↦ ?_⟩
      · rintro rest ⟨c, cs, rfl, hc⟩
        refine stops_literal_differs hE hlit (length_lt_of_take_eq hm heq) hnil hm (fun h ↦ ?_) cs
        obtain ⟨x, hx, hcx⟩ := exists_of_take_eq h
        exact hc.tolower_ne (hlit.isLetter x hx) hcx
      · rw [List.prefix_nil.mp hp] at htok
        exact absurd htok literalAt_not_nil
  | cons c w ih =>
    have hletter := hw c List.mem_cons_self
    -- Whatever the text is, it is refused with its first character.
    have hrefuses : (∀ cs, Stops (jsonStep E) (LiteralAt (level :: outer) st m (c :: cs)) Rejects) →
        Refuses (jsonStep E) Rejects (LiteralAt (level :: outer) st m) (c :: w) EndsValue := by
      refine fun hstops ↦ ⟨fun rest _ ↦ hstops (w ++ rest), fun p hp ↦ ?_⟩
      obtain rfl | ⟨p', rfl, -⟩ := List.prefix_cons_iff.mp hp
      · exact fun tok htok ↦ absurd htok literalAt_not_nil
      · exact hstops p'
    by_cases heq : m = lit.map tolower
    · rw [literalValue, if_neg (by simp [heq])]
      refine hrefuses fun cs ↦ ?_
      rw [heq]
      exact (moves_literal_over hE hlit _).stops (stops_misplaced hE hlevel hletter.misplaced cs)
    · by_cases hgo : m ++ [tolower c] = (lit.map tolower).take (m.length + 1)
      · have hlen : (m ++ [tolower c]).length = m.length + 1 := by
          rw [List.length_append, List.length_singleton]
        have hreads : Reads (jsonStep E) Rejects (LiteralAt (level :: outer) st m) [c]
            (LiteralAt (level :: outer) st (m ++ [tolower c])) Rejects fun _ ↦ True :=
          reads_literal_goes hE hlit (length_lt_of_take_eq hm heq) hletter.ne_zero hgo
        have hw' : ∀ d ∈ w, IsLetter d := fun d hd ↦ hw d (List.mem_cons_of_mem c hd)
        have hrest := ih hw' (m ++ [tolower c]) (by rw [hlen]; exact hgo)
          (.inl (List.append_ne_nil_of_right_ne_nil m (List.cons_ne_nil _ _)))
        rw [List.append_assoc] at hrest
        exact Outcome.after hreads hrest fun _ _ _ h ↦ h
      · have hnil : m ≠ [] := by
          rintro rfl
          obtain ⟨d, cs, h, htake⟩ := hhead.resolve_left (not_not_intro rfl)
          obtain ⟨rfl, -⟩ := List.cons_eq_cons.mp h
          exact hgo htake
        have hnone : m ++ (c :: w).map tolower ≠ lit.map tolower := by
          intro h
          refine hgo ?_
          rw [← h, List.map_cons, List.take_length_add_append]
          rfl
        rw [literalValue, if_neg hnone]
        exact hrefuses fun cs ↦ stops_literal_differs hE hlit (length_lt_of_take_eq hm heq) hnil hm hgo cs

end Literal

/-! ## Infinities -/

/-- The first letter of an infinity, after a minus sign or not. -/
structure InfAt (outer : List (JsonSrec D)) (minus : Bool) (text : List UInt8) (tok : JsonTok D) :
    Prop extends JsonAt outer ⟨.inf, .start, .null, none⟩ text tok where
  pb : tok.pb = minusText minus
  stPos : tok.stPos = 0

/-- The infinity of a sign. -/
def infinityOf (E : JsonEnv D) (minus : Bool) : D := if minus then E.negInfinity else E.infinity

theorem InfAt.jsonSwitch_eq {minus : Bool} {c : UInt8} {cs : List UInt8}
    (hc : c = 'i'.toUInt8 ∨ c = 'I'.toUInt8) (hstrict : E.strict = false)
    (h : InfAt outer minus (c :: cs) tok) :
    jsonSwitch E tok =
      jsonAdvancePeek E { tok with stPos := 1 } (fun tok ↦ (tok, .out)) fun tok ↦
        tok.complete (.double
          (if tok.pb.head? = some '-'.toUInt8 then E.negInfinity else E.infinity)) := by
  have hswitch : jsonSwitch E tok = jsonInf E tok := by rw [jsonSwitch, h.srec]
  have hmatch : ¬(jsonInfStr[tok.stPos]? ≠ some (tok.str.headD 0) ∧
      (E.strict ∨ jsonInfStrInvert[tok.stPos]? ≠ some (tok.str.headD 0))) := by
    rw [h.stPos, h.str, hstrict]
    obtain rfl | rfl := hc
    · exact fun hne ↦ hne.2.elim Bool.false_ne_true fun hi ↦ hi rfl
    · exact fun hne ↦ hne.1 rfl
  have hpos : tok.stPos < jsonInfStr.length := by
    rw [h.stPos]
    decide
  rw [hswitch, jsonInf, if_pos hpos]
  dsimp only
  rw [if_neg hmatch, h.stPos]

/-- One letter is an infinity. -/
theorem reads_inf (hE : E.Bounded) {minus : Bool} {c : UInt8} (hc : c = 'i'.toUInt8 ∨ c = 'I'.toUInt8) :
    Reads (jsonStep E) Rejects (InfAt (level :: outer) minus) [c]
      (JsonEats (level :: outer) .finish (.double (infinityOf E minus)) none) Rejects
      fun _ ↦ True where
  moves rest hrest := by
    obtain ⟨d, ds, rfl, -⟩ := hrest
    refine moves_of_redo fun tok htok ↦ ?_
    have hswitch := htok.jsonSwitch_eq (E := E) hc hE.strict
    have hstr : ({ tok with stPos := 1 } : JsonTok D).str = c :: d :: ds := htok.str
    rw [jsonAdvancePeek_cons hE.validateUtf8 hstr] at hswitch
    refine ⟨_, hswitch, ?_⟩
    have hvalue : (if tok.pb.head? = some '-'.toUInt8 then E.negInfinity else E.infinity) =
        infinityOf E minus := by
      rw [htok.pb]
      cases minus <;> rfl
    have hat : JsonAt (level :: outer) ⟨.inf, .start, .null, none⟩ (d :: ds)
        { tok with stPos := 1, str := d :: ds, c := d } :=
      ⟨htok.outer, htok.srec, rfl, rfl, htok.high⟩
    rw [← hvalue]
    exact hat.complete _
  whole := by
    refine .of_step fun tok htok ↦ ⟨.reject, ?_, rfl⟩
    have hstate : tok.srec.state ≠ .eatws := by
      rw [htok.srec]
      simp
    have hswitch := htok.jsonSwitch_eq (E := E) hc hE.strict
    have hstr : ({ tok with stPos := 1 } : JsonTok D).str = [c] := htok.str
    rw [jsonAdvancePeek_last hstr hstate] at hswitch
    rw [jsonStep_out hswitch, jsonOut_of_err (by simp)]
  cut p hp hne := by
    obtain rfl | ⟨p', rfl, hp'⟩ := List.prefix_cons_iff.mp hp
    · exact fun tok htok ↦ absurd htok.toJsonAt JsonAt.not_nil
    · exact absurd (by rw [List.prefix_nil.mp hp']) hne

/-- Letters right after a value. -/
theorem outcome_over (hE : E.Bounded) (hlevel : level.Waits) {cs : List UInt8}
    (hcs : ∀ c ∈ cs, IsLetter c) :
    Outcome (jsonStep E) Rejects (JsonEats (level :: outer) .finish v none) cs
      (fun v ↦ JsonEats (level :: outer) .finish v none) (fun _ ↦ Rejects) EndsValue
      (if cs = [] then some v else none) := by
  have hblank : Stops (jsonStep E) (JsonEats (level :: outer) .finish v none []) Rejects :=
    refuses_blank hE rfl (.inr (List.cons_ne_nil level outer))
  cases cs with
  | nil =>
    rw [if_pos rfl]
    exact ⟨fun rest _ ↦ .refl, hblank, fun p hp hne ↦ absurd (List.prefix_nil.mp hp) hne⟩
  | cons c cs =>
    rw [if_neg (List.cons_ne_nil c cs)]
    have hgoes : ∀ text, Stops (jsonStep E) (JsonEats (level :: outer) .finish v none (c :: text))
        Rejects := stops_misplaced hE hlevel (hcs c List.mem_cons_self).misplaced
    refine ⟨fun rest _ ↦ hgoes (cs ++ rest), fun p hp ↦ ?_⟩
    obtain rfl | ⟨p', rfl, -⟩ := List.prefix_cons_iff.mp hp
    · exact hblank
    · exact hgoes p'

/-- **Letters that start like an infinity.** -/
theorem outcome_inf (outer : List (JsonSrec D)) (hE : E.Bounded) (hlevel : level.Waits) (minus : Bool) {c : UInt8}
    {cs : List UInt8} (hc : c = 'i'.toUInt8 ∨ c = 'I'.toUInt8) (hcs : ∀ c ∈ cs, IsLetter c) :
    Outcome (jsonStep E) Rejects (InfAt (level :: outer) minus) (c :: cs)
      (fun v ↦ JsonEats (level :: outer) .finish v none) (fun _ ↦ Rejects) EndsValue
      (if cs = [] then some (.double (infinityOf E minus)) else none) :=
  Outcome.after (s := [c]) (reads_inf hE hc) (outcome_over hE hlevel hcs) fun _ _ _ h ↦ h

/-! ## Words -/

theorem IsLetter.solid {c : UInt8} (hc : IsLetter c) : IsSolid c := hc.misplaced.solid

/-- A word that starts like a literal. -/
theorem outcome_start_literal (outer : List (JsonSrec D)) {st : JsonState} {lit : List UInt8}
    {err : JsonError} {c : UInt8}
    {cs : List UInt8} (hE : E.Bounded) (hlevel : level.Waits) (hlit : IsLiteral E st lit v err)
    (hhead : [tolower c] = (lit.map tolower).take 1) (hcs : ∀ d ∈ c :: cs, IsLetter d)
    (hstart : ∀ tok : JsonTok D, tok.c = c →
      jsonStart E tok = ({ printbufReset (tok.setState st) with stPos := 0 }, .redo)) :
    Outcome (jsonStep E) Rejects (JsonEats (level :: outer) .start .null none) (c :: cs)
      (fun v ↦ JsonEats (level :: outer) .finish v none) (fun _ ↦ Rejects) EndsValue
      (literalValue lit v ((c :: cs).map tolower)) := by
  refine outcome_char_turn hE (.inl (by simp)) (headIs_cons (rfl : c = c) cs) (fun d ds hd ↦ ?_)
    (outcome_literal hE hlit hlevel (c :: cs) hcs [] rfl (.inr ⟨c, cs, rfl, hhead⟩))
  obtain rfl : c = d := hd
  refine moves_start hE (hcs c List.mem_cons_self).solid fun tok htok ↦ ?_
  refine ⟨_, hstart tok htok.c_eq, ⟨htok.outer, ?_, htok.str, htok.head, htok.high⟩, rfl, rfl⟩
  change { tok.srec with state := st } = _
  rw [htok.srec]

/-- A word that starts like an infinity. -/
theorem outcome_start_inf (outer : List (JsonSrec D)) {c : UInt8} {cs : List UInt8}
    (hE : E.Bounded) (hlevel : level.Waits)
    (hc : c = 'i'.toUInt8 ∨ c = 'I'.toUInt8) (hcs : ∀ d ∈ c :: cs, IsLetter d) :
    Outcome (jsonStep E) Rejects (JsonEats (level :: outer) .start .null none) (c :: cs)
      (fun v ↦ JsonEats (level :: outer) .finish v none) (fun _ ↦ Rejects) EndsValue
      (if cs = [] then some (.double E.infinity) else none) := by
  refine outcome_char_turn hE (.inl (by simp)) (headIs_cons (rfl : c = c) cs) (fun d ds hd ↦ ?_)
    (outcome_inf outer hE hlevel false hc fun d hd ↦ hcs d (List.mem_cons_of_mem c hd))
  obtain rfl : c = d := hd
  refine moves_start hE (hcs c List.mem_cons_self).solid fun tok htok ↦ ?_
  refine ⟨{ printbufReset (tok.setState .inf) with stPos := 0 }, ?_,
    ⟨htok.outer, ?_, htok.str, htok.head, htok.high⟩, rfl, rfl⟩
  · rw [jsonStart, htok.c_eq]
    obtain rfl | rfl := hc <;> rfl
  · change { tok.srec with state := .inf } = _
    rw [htok.srec]

/-- A word that starts like no literal. -/
theorem refuses_letters {c : UInt8} {cs : List UInt8} {ok : UInt8 → Prop} (hE : E.Bounded)
    (hc : IsLetter c) (hother : c ∉ [73, 105, 78, 110, 84, 116, 70, 102]) :
    Refuses (jsonStep E) Rejects (JsonEats (level :: outer) .start .null none) (c :: cs) ok := by
  have hstops : ∀ ds, Stops (jsonStep E)
      (JsonEats (level :: outer) .start .null none (c :: ds)) Rejects := by
    refine fun ds ↦ stops_start hE hc.solid fun tok htok ↦ ?_
    rw [jsonStart, htok.c_eq]
    simp only [List.mem_cons, List.not_mem_nil, or_false, not_or] at hother
    obtain ⟨hI, hi, hN, hn, hT, ht, hF, hf⟩ := hother
    dsimp only
    rw [if_neg (hc.ne (by decide)), if_neg (hc.ne (by decide)), if_neg (fun h ↦ h.elim hI hi),
      if_neg (fun h ↦ h.elim hN hn), if_neg (fun h ↦ hc.ne (by decide) h.1),
      if_neg (fun h ↦ h.elim (hc.ne (by decide)) (hc.ne (by decide))),
      if_neg (fun h ↦ h.elim hT fun h ↦ h.elim ht fun h ↦ h.elim hF hf), hc.isDigitChar_eq]
    exact if_neg fun h ↦ h.elim Bool.false_ne_true (hc.ne (by decide))
  refine ⟨fun rest _ ↦ hstops (cs ++ rest), fun p hp ↦ ?_⟩
  obtain rfl | ⟨p', rfl, -⟩ := List.prefix_cons_iff.mp hp
  · exact refuses_blank hE rfl (.inl (by simp))
  · exact hstops p'

theorem wordValue_letters {letters : List UInt8} (hne : letters ≠ [])
    (h : ∀ c ∈ letters, IsLetter c) :
    wordValue E ⟨false, letters, hne, h⟩ =
      if letters.map tolower = [105] then some (.double E.infinity)
      else if letters.map tolower = [110, 97, 110] then some (.double E.nan)
      else if letters.map tolower = [116, 114, 117, 101] then some (.boolean true)
      else if letters.map tolower = [102, 97, 108, 115, 101] then some (.boolean false)
      else none := rfl

/-- **Words without a sign.** -/
theorem outcome_letters (hE : E.Bounded) (hlevel : level.Waits) {letters : List UInt8}
    (hne : letters ≠ []) (hletters : ∀ c ∈ letters, IsLetter c) :
    Outcome (jsonStep E) Rejects (JsonEats (level :: outer) .start .null none) letters
      (fun v ↦ JsonEats (level :: outer) .finish v none) (fun _ ↦ Rejects) EndsValue
      (wordValue E ⟨false, letters, hne, hletters⟩) := by
  obtain ⟨c, cs, rfl⟩ := List.exists_cons_of_ne_nil hne
  rw [wordValue_letters]
  by_cases htrue : c = 84 ∨ c = 116
  · have hlower : (c :: cs).map tolower = 116 :: cs.map tolower := by
      obtain rfl | rfl := htrue <;> rfl
    have houtcome := outcome_start_literal outer hE hlevel (isLiteral_true hE)
      (by obtain rfl | rfl := htrue <;> rfl) hletters fun tok htok ↦ by
        rw [jsonStart, htok]
        obtain rfl | rfl := htrue <;> rfl
    have hlit : jsonTrueStr.map tolower = [116, 114, 117, 101] := rfl
    rw [literalValue, hlower, hlit] at houtcome
    rw [hlower]
    simpa using houtcome
  by_cases hfalse : c = 70 ∨ c = 102
  · have hlower : (c :: cs).map tolower = 102 :: cs.map tolower := by
      obtain rfl | rfl := hfalse <;> rfl
    have houtcome := outcome_start_literal outer hE hlevel (isLiteral_false hE)
      (by obtain rfl | rfl := hfalse <;> rfl) hletters fun tok htok ↦ by
        rw [jsonStart, htok]
        obtain rfl | rfl := hfalse <;> rfl
    have hlit : jsonFalseStr.map tolower = [102, 97, 108, 115, 101] := rfl
    rw [literalValue, hlower, hlit] at houtcome
    rw [hlower]
    simpa using houtcome
  by_cases hnan : c = 78 ∨ c = 110
  · have hlower : (c :: cs).map tolower = 110 :: cs.map tolower := by
      obtain rfl | rfl := hnan <;> rfl
    have houtcome := outcome_start_literal outer hE hlevel (isLiteral_nan hE)
      (by obtain rfl | rfl := hnan <;> rfl) hletters fun tok htok ↦ by
        rw [jsonStart, htok]
        obtain rfl | rfl := hnan <;> rfl
    have hlit : jsonNanStr.map tolower = [110, 97, 110] := rfl
    rw [literalValue, hlower, hlit] at houtcome
    rw [hlower]
    simpa using houtcome
  by_cases hinf : c = 105 ∨ c = 73
  · have hlower : (c :: cs).map tolower = 105 :: cs.map tolower := by
      obtain rfl | rfl := hinf <;> rfl
    rw [hlower]
    simpa using outcome_start_inf (E := E) outer hE hlevel hinf hletters
  · have hhead : ∀ x, x = 105 ∨ x = 110 ∨ x = 116 ∨ x = 102 → tolower c ≠ x := by
      rintro x hx hcx
      obtain heq | heq := tolower_cases hcx
      · obtain rfl | rfl | rfl | rfl := hx
        · exact hinf (.inl heq)
        · exact hnan (.inr heq)
        · exact htrue (.inr heq)
        · exact hfalse (.inr heq)
      · obtain rfl | rfl | rfl | rfl := hx
        · exact hinf (.inr heq)
        · exact hnan (.inl heq)
        · exact htrue (.inl heq)
        · exact hfalse (.inl heq)
    have hne' : ∀ (x : UInt8) (xs : List UInt8), x = 105 ∨ x = 110 ∨ x = 116 ∨ x = 102 →
        (c :: cs).map tolower ≠ x :: xs := by
      intro x xs hx heq
      exact hhead x hx (List.cons_eq_cons.mp heq).1
    rw [if_neg (hne' _ _ (by simp)), if_neg (hne' _ _ (by simp)), if_neg (hne' _ _ (by simp)),
      if_neg (hne' _ _ (by simp))]
    refine refuses_letters hE (hletters c List.mem_cons_self) ?_
    simp only [List.mem_cons, List.not_mem_nil, or_false, not_or] at htrue hfalse hnan hinf ⊢
    exact ⟨hinf.2, hinf.1, hnan.1, hnan.2, htrue.1, htrue.2, hfalse.1, hfalse.2⟩

/-- A minus sign before an infinity. -/
theorem reads_minus (hE : E.Bounded) :
    Reads (jsonStep E) Rejects (NumberAt (level :: outer)) ['-'.toUInt8]
      (InfAt (level :: outer) true) Rejects fun c ↦ c = 'i'.toUInt8 ∨ c = 'I'.toUInt8 where
  moves rest hrest := by
    obtain ⟨c, cs, rfl, hc⟩ := hrest
    refine moves_of_redo fun tok htok ↦ ?_
    have hswitch := htok.jsonSwitch_append (E := E) (s := ['-'.toUInt8])
      (g := ⟨false, false, false, false⟩) hE (List.cons_ne_nil _ _) rfl
      (by obtain rfl | rfl := hc <;> decide)
    have hpb : (tok.numberTok ⟨false, false, false, false⟩ (c :: cs) c).pb = [] := htok.pb
    have hends : jsonEndsNumber c = true := by obtain rfl | rfl := hc <;> rfl
    dsimp only at hswitch
    rw [if_neg (not_not_intro hends), jsonMemappend_of_room hE, hpb, jsonNumberEnd,
      if_pos ⟨rfl, le_rfl, hc⟩] at hswitch
    · refine ⟨_, hswitch, ⟨htok.outer, ?_, rfl, rfl, htok.high⟩, rfl, rfl⟩
      change { tok.srec with state := .inf } = _
      rw [htok.srec]
    · rw [hpb]
      exact le_trans (by decide) hE.limit_initial
  whole := stops_number_cut hE (List.cons_ne_nil _ _) rfl
  cut p hp hne := by
    obtain rfl | ⟨p', rfl, hp'⟩ := List.prefix_cons_iff.mp hp
    · exact fun tok htok ↦ absurd htok NumberAt.not_nil
    · exact absurd (by rw [List.prefix_nil.mp hp']) hne

/-- A minus sign before a letter that starts neither an infinity nor an exponent. -/
theorem stops_minus_letter (hE : E.Bounded) {c : UInt8} (hc : jsonEndsNumber c = false)
    (htakes : ¬(⟨false, false, false, false⟩ : NumberFlags).takes c) (cs : List UInt8) :
    Stops (jsonStep E) (NumberAt (level :: outer) ('-'.toUInt8 :: c :: cs)) Rejects := by
  refine stops_of_fail fun tok htok ↦ ?_
  have hswitch := htok.jsonSwitch_append (E := E) (s := ['-'.toUInt8]) hE (List.cons_ne_nil _ _)
    rfl htakes
  dsimp only at hswitch
  rw [if_pos (by rw [hc]; exact Bool.false_ne_true)] at hswitch
  exact ⟨_, .errorParseNumber, hswitch, by decide⟩

/-- An exponent without digits is trimmed, and the sign in front of it is no number. -/
theorem stops_minus_exponent (hE : E.Bounded) {c d : UInt8} (hc : c = 'e'.toUInt8 ∨ c = 'E'.toUInt8)
    (hd : ¬(⟨true, true, true, true⟩ : NumberFlags).takes d) (ds : List UInt8) :
    Stops (jsonStep E) (NumberAt (level :: outer) ('-'.toUInt8 :: c :: d :: ds)) Rejects := by
  refine stops_of_fail fun tok htok ↦ ?_
  have hrun : numberFlagsInit.run ['-'.toUInt8, c] = some ⟨true, true, true, true⟩ := by
    obtain rfl | rfl := hc <;> rfl
  have hswitch := htok.jsonSwitch_append (E := E) (s := ['-'.toUInt8, c]) hE (List.cons_ne_nil _ _)
    hrun hd
  have hpb : (tok.numberTok ⟨true, true, true, true⟩ (d :: ds) d).pb = [] := htok.pb
  have htrim : (jsonTrimReverse ['-'.toUInt8, c].reverse).reverse = ['-'.toUInt8] := by
    obtain rfl | rfl := hc <;> rfl
  have hvalue : jsonNumberValue E true ['-'.toUInt8] = none := by
    rw [jsonNumberValue, if_pos rfl, E.string2ld_minus]
    rfl
  dsimp only at hswitch
  by_cases hends : jsonEndsNumber d = true
  · have hdouble : (tok.numberTok ⟨true, true, true, true⟩ (d :: ds) d).isDouble = true := rfl
    rw [if_neg (not_not_intro hends), jsonMemappend_of_room hE, hpb, List.nil_append, jsonNumberEnd,
      if_neg (fun h ↦ absurd h.2.1 (by simp))] at hswitch
    · dsimp only at hswitch
      rw [if_pos ⟨hdouble, by rw [hE.strict]; exact Bool.false_ne_true⟩] at hswitch
      dsimp only at hswitch
      rw [htrim, hdouble, hvalue] at hswitch
      exact ⟨_, .errorParseNumber, hswitch, by decide⟩
    · rw [hpb]
      exact le_trans (by simp) hE.limit_initial
  · rw [if_pos hends] at hswitch
    exact ⟨_, .errorParseNumber, hswitch, by decide⟩

/-- A letter or what ends a value is no part of an exponent. -/
theorem not_takes_exponent {d : UInt8} (hd : IsLetter d ∨ EndsValue d) :
    ¬(⟨true, true, true, true⟩ : NumberFlags).takes d := by
  obtain hletter | hends := hd
  · rintro ⟨-, h | h | h | h | h⟩
    · exact absurd h (by rw [hletter.isDigitChar_eq]; exact Bool.false_ne_true)
    · exact h.1 rfl
    · exact hletter.ne (by decide) h.2
    · exact hletter.ne (by decide) h.2
    · exact h.1 rfl
  · simp only [EndsValue, isWsChar, decide_eq_true_eq] at hends
    obtain rfl | rfl | rfl | rfl | rfl | rfl | rfl := hends <;> decide

theorem IsLetter.jsonEndsNumber_eq {c : UInt8} (hc : IsLetter c) (hinf : ¬(c = 105 ∨ c = 73)) :
    jsonEndsNumber c = false := by
  rw [jsonEndsNumber, decide_eq_false_iff_not, hc.isWsChar_eq]
  rintro (h | h | h | h | h | h | h)
  · exact hc.ne (by decide) h
  · exact hc.ne (by decide) h
  · exact hc.ne (by decide) h
  · exact hc.ne (by decide) h
  · exact hinf (.inr h)
  · exact hinf (.inl h)
  · exact Bool.false_ne_true h

theorem IsLetter.not_takes {c : UInt8} (hc : IsLetter c) (hexp : ¬(c = 101 ∨ c = 69)) :
    ¬(⟨false, false, false, false⟩ : NumberFlags).takes c := by
  rintro ⟨-, h | h | h | h | h⟩
  · exact absurd h (by rw [hc.isDigitChar_eq]; exact Bool.false_ne_true)
  · exact hexp (of_decide_eq_true h.2)
  · exact Bool.false_ne_true h.1
  · exact Bool.false_ne_true h.1
  · exact hc.ne (by decide) h.2

/-- A minus sign before a letter that starts no infinity. -/
theorem refuses_minus (hE : E.Bounded) {c : UInt8} {cs : List UInt8} (hinf : ¬(c = 105 ∨ c = 73))
    (hletters : ∀ d ∈ c :: cs, IsLetter d) :
    Refuses (jsonStep E) Rejects (NumberAt (level :: outer)) ('-'.toUInt8 :: c :: cs) EndsValue := by
  have hc := hletters c List.mem_cons_self
  have hstops : ∀ text, text = [] ∨ HeadIs (fun d ↦ IsLetter d ∨ EndsValue d) text →
      Stops (jsonStep E) (NumberAt (level :: outer) ('-'.toUInt8 :: c :: text)) Rejects := by
    intro text htext
    by_cases hexp : c = 101 ∨ c = 69
    · obtain rfl | ⟨d, ds, rfl, hd⟩ := htext
      · exact stops_number_cut hE (List.cons_ne_nil _ _) (by obtain rfl | rfl := hexp <;> rfl)
      · exact stops_minus_exponent hE hexp (not_takes_exponent hd) ds
    · exact stops_minus_letter hE (hc.jsonEndsNumber_eq hinf) (hc.not_takes hexp) text
  have hhead : ∀ {ds : List UInt8}, (∀ d ∈ ds, IsLetter d) → ds ≠ [] →
      HeadIs (fun d ↦ IsLetter d ∨ EndsValue d) ds := by
    intro ds hds hnil
    obtain ⟨d, ds, rfl⟩ := List.exists_cons_of_ne_nil hnil
    exact headIs_cons (.inl (hds d List.mem_cons_self)) ds
  have hcs : ∀ d ∈ cs, IsLetter d := fun d hd ↦ hletters d (List.mem_cons_of_mem c hd)
  refine ⟨fun rest hrest ↦ hstops (cs ++ rest) (.inr ?_), fun p hp ↦ ?_⟩
  · by_cases hnil : cs = []
    · rw [hnil]
      exact hrest.mono fun d hd ↦ .inr hd
    · exact (hhead hcs hnil).append rest
  · obtain rfl | ⟨p', rfl, hp'⟩ := List.prefix_cons_iff.mp hp
    · exact fun tok htok ↦ absurd htok NumberAt.not_nil
    obtain rfl | ⟨ds, rfl, hds⟩ := List.prefix_cons_iff.mp hp'
    · exact stops_number_cut hE (List.cons_ne_nil _ _) rfl
    · refine hstops ds (or_iff_not_imp_left.mpr fun hnil ↦ hhead (fun d hd ↦ hcs d ?_) hnil)
      exact hds.subset hd

theorem wordValue_minus {letters : List UInt8} (hne : letters ≠ []) (h : ∀ c ∈ letters, IsLetter c) :
    wordValue E ⟨true, letters, hne, h⟩ =
      if letters.map tolower = [105] then some (.double E.negInfinity) else none := rfl

/-- **Letters after a minus sign.** -/
theorem outcome_minus (hE : E.Bounded) (hlevel : level.Waits) {letters : List UInt8}
    (hne : letters ≠ []) (hletters : ∀ c ∈ letters, IsLetter c) :
    Outcome (jsonStep E) Rejects (NumberAt (level :: outer)) ('-'.toUInt8 :: letters)
      (fun v ↦ JsonEats (level :: outer) .finish v none) (fun _ ↦ Rejects) EndsValue
      (wordValue E ⟨true, letters, hne, hletters⟩) := by
  obtain ⟨c, cs, rfl⟩ := List.exists_cons_of_ne_nil hne
  rw [wordValue_minus]
  by_cases hinf : c = 105 ∨ c = 73
  · have hlower : (c :: cs).map tolower = 105 :: cs.map tolower := by
      obtain rfl | rfl := hinf <;> rfl
    have hinfinity := outcome_inf (E := E) outer hE hlevel true hinf
      fun d hd ↦ hletters d (List.mem_cons_of_mem c hd)
    rw [hlower]
    have houtcome : Outcome (jsonStep E) Rejects (NumberAt (level :: outer))
        (['-'.toUInt8] ++ (c :: cs)) (fun v ↦ JsonEats (level :: outer) .finish v none)
        (fun _ ↦ Rejects) EndsValue
        ((some ()).bind fun _ ↦ if cs = [] then some (.double (infinityOf E true)) else none) :=
      Outcome.bind (B := fun _ ↦ InfAt (level :: outer) true) (reads_minus hE) ⟨c, cs, rfl, hinf⟩
        fun _ _ ↦ hinfinity
    simpa [infinityOf] using houtcome
  · rw [if_neg]
    · exact refuses_minus hE hinf hletters
    · intro heq
      obtain h | h := tolower_cases (List.cons_eq_cons.mp heq).1
      · exact hinf (.inl h)
      · exact hinf (.inr h)

/-! ## Numbers and words as values -/

theorem ne_of_isDigitChar {c : UInt8} (hc : isDigitChar c = true) {d : UInt8}
    (hd : isDigitChar d = false) : c ≠ d := by
  rintro rfl
  rw [hc] at hd
  cases hd

/-- A number or a word with a minus sign starts. -/
theorem moves_start_number (hE : E.Bounded) {c : UInt8}
    (hc : isDigitChar c = true ∨ c = '-'.toUInt8) (cs : List UInt8) :
    Moves (jsonStep E) (JsonEats outer .start .null none (c :: cs)) (NumberAt outer (c :: cs)) := by
  have hsolid : IsSolid c := by
    obtain hdigit | rfl := hc
    · refine ⟨?_, ne_of_isDigitChar hdigit rfl⟩
      simp only [isWsChar, decide_eq_false_iff_not, not_or]
      exact ⟨ne_of_isDigitChar hdigit rfl, ne_of_isDigitChar hdigit rfl,
        ne_of_isDigitChar hdigit rfl, ne_of_isDigitChar hdigit rfl⟩
    · decide
  refine moves_start hE hsolid fun tok htok ↦ ?_
  refine ⟨{ printbufReset (tok.setState .number) with isDouble := false }, ?_,
    ⟨htok.outer, ?_, htok.str, htok.head, htok.high⟩, rfl, rfl⟩
  · rw [jsonStart, htok.c_eq]
    obtain hdigit | rfl := hc
    · have hne : ∀ {d : UInt8}, isDigitChar d = false → c ≠ d := ne_of_isDigitChar hdigit
      dsimp only
      rw [if_neg (hne rfl), if_neg (hne rfl), if_neg (fun h ↦ h.elim (hne rfl) (hne rfl)),
        if_neg (fun h ↦ h.elim (hne rfl) (hne rfl)), if_neg (fun h ↦ hne rfl h.1),
        if_neg (fun h ↦ h.elim (hne rfl) (hne rfl)),
        if_neg (fun h ↦ h.elim (hne rfl) fun h ↦ h.elim (hne rfl) fun h ↦ h.elim (hne rfl) (hne rfl)),
        if_pos (.inl hdigit)]
    · rfl
  · change { tok.srec with state := .number } = _
    rw [htok.srec]

theorem outcome_start_number {s : List UInt8} {o : Option (Value D)} (hE : E.Bounded)
    (hs : HeadIs (fun c ↦ isDigitChar c = true ∨ c = '-'.toUInt8) s)
    (h : Outcome (jsonStep E) Rejects (NumberAt (level :: outer)) s
      (fun v ↦ JsonEats (level :: outer) .finish v none) (fun _ ↦ Rejects) EndsValue o) :
    Outcome (jsonStep E) Rejects (JsonEats (level :: outer) .start .null none) s
      (fun v ↦ JsonEats (level :: outer) .finish v none) (fun _ ↦ Rejects) EndsValue o :=
  outcome_char_turn hE (.inl (by simp)) hs (fun _ cs hc ↦ moves_start_number hE hc cs) h

theorem JsonNumber.headIs_digit_or_minus (n : JsonNumber) :
    HeadIs (fun c ↦ isDigitChar c = true ∨ c = '-'.toUInt8) n.text := by
  obtain ⟨minus, int, frac, exponent⟩ := n
  obtain ⟨d, ds, hcons⟩ := List.exists_cons_of_ne_nil int.2.1
  cases minus with
  | false => exact ⟨d, _, by rw [JsonNumber.text, hcons]; rfl, .inl (int.2.2 d (by rw [hcons]; simp))⟩
  | true => exact headIs_cons (.inr rfl) _

/-- **Words.** -/
theorem outcome_word (hE : E.Bounded) (hlevel : level.Waits) (w : JsonWord) :
    Outcome (jsonStep E) Rejects (JsonEats (level :: outer) .start .null none) w.text
      (fun v ↦ JsonEats (level :: outer) .finish v none) (fun _ ↦ Rejects) EndsValue
      (wordValue E w) := by
  obtain ⟨minus, letters, hne, hletters⟩ := w
  cases minus with
  | false => exact outcome_letters hE hlevel hne hletters
  | true =>
    exact outcome_start_number hE (headIs_cons (.inr rfl) letters)
      (outcome_minus hE hlevel hne hletters)

/-- **Numbers.** -/
theorem outcome_number_value (hE : E.Bounded) (n : JsonNumber) :
    Outcome (jsonStep E) Rejects (JsonEats (level :: outer) .start .null none) n.text
      (fun v ↦ JsonEats (level :: outer) .finish v none) (fun _ ↦ Rejects) EndsValue
      (numberRead E n) :=
  outcome_start_number hE n.headIs_digit_or_minus (outcome_number hE n)

end Words

end LatteC
