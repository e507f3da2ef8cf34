import LatteC.Json.Position
import Mathlib.Data.Finset.Lattice.Fold

/-!
# The room in the print buffer

Whether the print buffer takes more characters depends on how it has grown, and so on all that the tokener
has read before. But the tokener does, up to any point, what it does with a buffer that takes some number of
characters and no more, and this number is within a few of `INT_MAX` whatever has been read. So what
it does with every such buffer it does with its own.

The number is known only afterwards: it is the one that the buffer has in the end. A pass is compared
with the same pass for every number that fits the size with which it leaves the buffer.
-/

namespace LatteC

open StepMachine

section Room

variable {D : Type}

/-- The tokener with a buffer that takes so many characters. -/
def JsonEnv.within (E : JsonEnv D) (room : ℕ) : JsonEnv D := { E with room := some room }

/-- The state with another size of the buffer. -/
def JsonTok.withSize (tok : JsonTok D) (size : ℕ) : JsonTok D := { tok with pbSize := size }

theorem JsonEnv.Zeroed.within {E : JsonEnv D} (hE : E.Zeroed) {room : ℕ} (h : intMax - 9 ≤ room) :
    (E.within room).Bounded where
  strict := hE.strict
  allowTrailingChars := hE.allowTrailingChars
  validateUtf8 := hE.validateUtf8
  highSurrogate := hE.highSurrogate
  namesNull := hE.namesNull
  room := rfl
  limit_initial := Nat.le_trans (by decide) h

/-- A buffer of this size takes so many characters, from now on if it does not grow any more. -/
structure RoomFits (size room : ℕ) : Prop where
  le : intMax - 9 ≤ room
  frozen : size ≤ intMax - 8 ∨ room = size - 1

/-- What is left after the last pass is the room that the buffer has. -/
structure PassFits (p : JsonPass D) (room : ℕ) : Prop extends RoomFits p.1.pbSize room where
  out : p.2 = .out → room = (⟨p.1.pbSize, 0⟩ : JsonPrintbuf).room

/-- A pass from a buffer of this size, and the same pass with a buffer that takes so many characters. -/
structure Agrees (a size : ℕ) (f : JsonPass D) (g : ℕ → JsonPass D) : Prop where
  kept : size ≤ intMax - 8 ∨ f.1.pbSize = size
  le : f.1.pbSize ≤ intMax
  eq : ∀ room, PassFits f room → g room = (f.1.withSize a, f.2)

variable {E : JsonEnv D} {a size : ℕ} {tok : JsonTok D}

/-- A pass that does not append. -/
theorem Agrees.same {f : JsonPass D} {g : ℕ → JsonPass D} (hle : size ≤ intMax) (hsize : f.1.pbSize = size)
    (hg : ∀ room, g room = (f.1.withSize a, f.2)) : Agrees a size f g :=
  ⟨.inr hsize, hsize.trans_le hle, fun room _ ↦ hg room⟩

theorem agrees_ite {c : Prop} [Decidable c] {f f' : JsonPass D} {g g' : ℕ → JsonPass D}
    (h : c → Agrees a size f g) (h' : ¬c → Agrees a size f' g') :
    Agrees a size (if c then f else f') (fun room ↦ if c then g room else g' room) := by
  by_cases hc : c
  · simp only [if_pos hc]
    exact h hc
  · simp only [if_neg hc]
    exact h' hc

/-- A pass that appends, and goes on if there is room. -/
theorem agrees_memappend (hE : E.room = none) (tok : JsonTok D) (hle : size ≤ intMax) (hsize : tok.pbSize = size)
    {s : List UInt8} {k : JsonTok D → JsonPass D} {k' : ℕ → JsonTok D → JsonPass D}
    (hk : ∀ size' ≤ intMax, Agrees a size' (k { tok with pb := tok.pb ++ s, pbSize := size' })
      (fun room ↦ k' room { tok with pb := tok.pb ++ s, pbSize := a })) :
    Agrees a size (jsonMemappend E tok s k)
      (fun room ↦ jsonMemappend (E.within room) (tok.withSize a) s (k' room)) := by
  have hmax : intMax = 2147483647 := rfl
  obtain rfl := hsize
  have hroom : ∀ room, jsonMemappend (E.within room) (tok.withSize a) s (k' room) =
      if tok.pb.length + s.length ≤ room then k' room { tok with pb := tok.pb ++ s, pbSize := a }
      else (tok.withSize a).fail .errorMemory :=
    fun room ↦ jsonMemappend_of_room_eq rfl (tok.withSize a) s (k' room)
  simp only [hroom]
  have happend : E.memappend ⟨tok.pbSize, tok.pb.length⟩ s.length =
      jsonPrintbufMemappend ⟨tok.pbSize, tok.pb.length⟩ s.length := by
    rw [JsonEnv.memappend, hE]
  cases hp : jsonPrintbufMemappend ⟨tok.pbSize, tok.pb.length⟩ s.length with
  | none =>
    obtain ⟨hlimit, hfull⟩ := jsonPrintbufMemappend_eq_none hle hp
    have hpass : jsonMemappend E tok s k = tok.fail .errorMemory := by
      simp only [jsonMemappend, happend, hp]
    rw [hpass]
    refine ⟨.inr rfl, hle, fun room hfits ↦ ?_⟩
    have hout : room = max (intMax - 9) (tok.pbSize - 1) := hfits.out rfl
    simp only at hlimit hfull
    rw [if_neg (by omega)]
    rfl
  | some p =>
    obtain ⟨-, hple, hgrows⟩ := jsonPrintbufMemappend_eq_some hle hp
    have hpass : jsonMemappend E tok s k = k { tok with pb := tok.pb ++ s, pbSize := p.size } := by
      simp only [jsonMemappend, happend, hp]
    rw [hpass]
    have hagrees := hk p.size hple
    have hkept := hagrees.kept
    simp only at hgrows
    refine ⟨by omega, hagrees.le, fun room hfits ↦ ?_⟩
    have hfrozen := hfits.frozen
    have hroom := hfits.le
    rw [if_pos (by omega)]
    exact hagrees.eq room hfits

/-! ## Characters -/

theorem jsonPeekChar_within (room : ℕ) (tok : JsonTok D) :
    jsonPeekChar (E.within room) (tok.withSize a) =
      ((jsonPeekChar E tok).1.withSize a, (jsonPeekChar E tok).2) ∧
        (jsonPeekChar E tok).1.pbSize = tok.pbSize := by
  rw [jsonPeekChar, jsonPeekChar]
  have hstr : (tok.withSize a).str = tok.str := rfl
  rw [hstr]
  cases tok.str with
  | nil =>
    by_cases hend : tok.depth = 0 ∧ tok.srec.state = .eatws ∧ tok.srec.savedState = .finish
    · rw [if_pos hend]
      exact ⟨if_pos hend, rfl⟩
    · rw [if_neg hend]
      exact ⟨if_neg hend, rfl⟩
  | cons chr rest =>
    cases hvalid : E.validateUtf8 with
    | false => exact ⟨if_neg (by rw [JsonEnv.within, hvalid]; exact Bool.false_ne_true), rfl⟩
    | true =>
      simp only [JsonEnv.within, JsonTok.withSize, hvalid, if_true]
      cases jsonTokenerValidateUtf8 chr tok.nBytes with
      | none => exact ⟨rfl, rfl⟩
      | some n => exact ⟨rfl, rfl⟩

theorem agrees_advancePeek (tok : JsonTok D) (hsize : tok.pbSize = size) {out go : JsonTok D → JsonPass D}
    {out' go' : ℕ → JsonTok D → JsonPass D}
    (hout : ∀ tok : JsonTok D, tok.pbSize = size →
      Agrees a size (out tok) (fun room ↦ out' room (tok.withSize a)))
    (hgo : ∀ tok : JsonTok D, tok.pbSize = size →
      Agrees a size (go tok) (fun room ↦ go' room (tok.withSize a))) :
    Agrees a size (jsonAdvancePeek E tok out go)
      (fun room ↦ jsonAdvancePeek (E.within room) (tok.withSize a) (out' room) (go' room)) := by
  have hpeek := fun room ↦ jsonPeekChar_within (E := E) (a := a) room (jsonAdvanceChar tok)
  have hpeek' : ∀ room, jsonPeekChar (E.within room) (jsonAdvanceChar (tok.withSize a)) = _ :=
    fun room ↦ (hpeek room).1
  have hkept : (jsonPeekChar E (jsonAdvanceChar tok)).1.pbSize = size := (hpeek 0).2.trans hsize
  simp only [jsonAdvancePeek, hpeek']
  revert hkept
  obtain ⟨tok', b⟩ := jsonPeekChar E (jsonAdvanceChar tok)
  intro hkept
  cases b with
  | false => exact hout tok' hkept
  | true => exact hgo tok' hkept

section Loops

variable {out found : JsonTok D → List UInt8 → JsonPass D} {out' found' : ℕ → JsonTok D → List UInt8 → JsonPass D}
  (hout : ∀ (tok : JsonTok D) (passed : List UInt8), tok.pbSize = size →
    Agrees a size (out tok passed) (fun room ↦ out' room (tok.withSize a) passed))
  (hfound : ∀ (tok : JsonTok D) (passed : List UInt8), tok.pbSize = size →
    Agrees a size (found tok passed) (fun room ↦ found' room (tok.withSize a) passed))

include hout hfound

theorem agrees_scan (stop : UInt8 → Bool) (text : List UInt8) :
    ∀ (tok : JsonTok D) (passed : List UInt8), tok.pbSize = size →
      Agrees a size (jsonScan E stop out found text tok passed)
        (fun room ↦ jsonScan (E.within room) stop (out' room) (found' room) text (tok.withSize a) passed) := by
  induction text with
  | nil => exact hout
  | cons c text ih =>
    intro tok passed hsize
    refine agrees_ite (fun _ ↦ hfound tok passed hsize) fun _ ↦ ?_
    refine agrees_ite (fun _ ↦ hout (jsonAdvanceChar tok) _ hsize) fun _ ↦ ?_
    exact agrees_advancePeek tok hsize (fun tok htok ↦ hout tok _ htok) (fun tok htok ↦ ih tok _ htok)

theorem agrees_numberLoop (text : List UInt8) :
    ∀ (tok : JsonTok D) (passed : List UInt8) (isExponent negSignOk posSignOk : Bool), tok.pbSize = size →
      Agrees a size (jsonNumberLoop E out found text tok passed isExponent negSignOk posSignOk)
        (fun room ↦ jsonNumberLoop (E.within room) (out' room) (found' room) text (tok.withSize a) passed
          isExponent negSignOk posSignOk) := by
  induction text with
  | nil => exact fun tok passed _ _ _ ↦ hout tok passed
  | cons c text ih =>
    intro tok passed isExponent negSignOk posSignOk hsize
    refine agrees_ite (fun _ ↦ ?_) fun _ ↦ hfound tok passed hsize
    let startsExponent : Bool := tok.c = 'e'.toUInt8 ∨ tok.c = 'E'.toUInt8
    refine agrees_advancePeek
      { tok with isDouble := tok.isDouble || (startsExponent || tok.c = '.'.toUInt8) } hsize
      (fun tok htok ↦ ?_) (fun tok htok ↦ ?_)
    · exact hout tok _ htok
    · exact ih tok _ _ _ _ htok

end Loops

theorem agrees_scanOut (hE : E.room = none) (hle : size ≤ intMax) (tok : JsonTok D) (passed : List UInt8)
    (hsize : tok.pbSize = size) :
    Agrees a size (jsonScanOut E tok passed)
      (fun room ↦ jsonScanOut (E.within room) (tok.withSize a) passed) :=
  agrees_memappend hE _ hle hsize fun _ hle' ↦ .same hle' rfl fun _ ↦ rfl

/-! ## The states -/

section States

variable (hE : E.room = none) (hle : size ≤ intMax) (hsize : tok.pbSize = size)

theorem jsonEatwsLoop_within (room : ℕ) (text : List UInt8) : ∀ tok : JsonTok D,
    jsonEatwsLoop (E.within room) text (tok.withSize a) =
      ((jsonEatwsLoop E text tok).1.withSize a, (jsonEatwsLoop E text tok).2) ∧
        (jsonEatwsLoop E text tok).1.pbSize = tok.pbSize := by
  induction text with
  | nil => exact fun tok ↦ ⟨rfl, rfl⟩
  | cons c text ih =>
    intro tok
    have hc : (tok.withSize a).c = tok.c := rfl
    rw [jsonEatwsLoop, jsonEatwsLoop, hc]
    split_ifs
    · obtain ⟨hpeek, hkept⟩ := jsonPeekChar_within (E := E) (a := a) room (jsonAdvanceChar tok)
      have hpeek' : jsonPeekChar (E.within room) (jsonAdvanceChar (tok.withSize a)) = _ := hpeek
      simp only [jsonAdvancePeek, hpeek']
      revert hkept
      obtain ⟨tok', b⟩ := jsonPeekChar E (jsonAdvanceChar tok)
      intro hkept
      cases b with
      | false => exact ⟨rfl, hkept⟩
      | true => exact ⟨(ih tok').1, (ih tok').2.trans hkept⟩
    · exact ⟨rfl, rfl⟩

include hle hsize

theorem agrees_start : Agrees a size (jsonStart E tok)
    (fun room ↦ jsonStart (E.within room) (tok.withSize a)) := by
  repeat' refine agrees_ite (fun _ ↦ ?_) (fun _ ↦ ?_)
  all_goals exact .same hle hsize fun _ ↦ rfl

theorem agrees_finish : Agrees a size (jsonFinish tok) (fun _ ↦ jsonFinish (tok.withSize a)) := by
  obtain ⟨outer, srec, pb, pbSize, isDouble, stPos, err, ucsChar, high, quote, c, nBytes, obj, str⟩ := tok
  cases outer with
  | nil => exact .same hle hsize fun _ ↦ rfl
  | cons srec outer => exact .same hle hsize fun _ ↦ rfl

theorem agrees_inf : Agrees a size (jsonInf E tok)
    (fun room ↦ jsonInf (E.within room) (tok.withSize a)) := by
  refine agrees_ite (fun _ ↦ agrees_ite (fun _ ↦ .same hle hsize fun _ ↦ rfl) fun _ ↦ ?_)
    (fun _ ↦ .same hle hsize fun _ ↦ rfl)
  refine agrees_advancePeek { tok with stPos := tok.stPos + 1 } hsize (fun tok htok ↦ ?_) (fun tok htok ↦ ?_)
  · exact .same hle htok fun _ ↦ rfl
  · exact .same hle htok fun _ ↦ rfl

theorem agrees_match {lit buf : List UInt8} {v : Value D} {f : JsonPass D} {g : ℕ → JsonPass D}
    (h : Agrees a size f g) : Agrees a size (jsonMatch E lit v buf tok f)
      (fun room ↦ jsonMatch (E.within room) lit v buf (tok.withSize a) (g room)) :=
  agrees_ite (fun _ ↦ agrees_ite (fun _ ↦ .same hle hsize fun _ ↦ rfl) fun _ ↦ .same hle hsize fun _ ↦ rfl)
    fun _ ↦ h

include hE

theorem agrees_eatws : Agrees a size (jsonEatws E tok)
    (fun room ↦ jsonEatws (E.within room) (tok.withSize a)) := by
  have hloop : ∀ room, jsonEatwsLoop (E.within room) (tok.withSize a).str (tok.withSize a) = _ :=
    fun room ↦ (jsonEatwsLoop_within (E := E) (a := a) room tok.str tok).1
  have hkept := (jsonEatwsLoop_within (E := E) (a := a) 0 tok.str tok).2.trans hsize
  simp only [jsonEatws, hloop]
  revert hkept
  obtain ⟨tok', b⟩ := jsonEatwsLoop E tok.str tok
  intro hkept
  cases b with
  | false => exact .same hle hkept fun _ ↦ rfl
  | true =>
    refine agrees_ite (fun _ ↦ ?_) (fun _ ↦ .same hle hkept fun _ ↦ rfl)
    exact agrees_memappend hE (printbufReset tok') hle hkept fun _ hle' ↦ .same hle' rfl fun _ ↦ rfl

theorem agrees_comment :
    Agrees a size (jsonComment E tok) (fun room ↦ jsonComment (E.within room) (tok.withSize a)) :=
  agrees_scan (agrees_scanOut hE hle) (fun _ _ htok ↦ agrees_memappend hE _ hle htok fun _ hle' ↦
    .same hle' rfl fun _ ↦ rfl) _ tok.str tok [] hsize

theorem agrees_commentEol :
    Agrees a size (jsonCommentEol E tok) (fun room ↦ jsonCommentEol (E.within room) (tok.withSize a)) :=
  agrees_scan (agrees_scanOut hE hle) (fun _ _ htok ↦ agrees_memappend hE _ hle htok fun _ hle' ↦
    .same hle' rfl fun _ ↦ rfl) _ tok.str tok [] hsize

theorem agrees_commentStart :
    Agrees a size (jsonCommentStart E tok) (fun room ↦ jsonCommentStart (E.within room) (tok.withSize a)) :=
  agrees_ite
    (fun _ ↦ agrees_memappend hE (tok.setState .comment) hle hsize fun _ hle' ↦ .same hle' rfl fun _ ↦ rfl)
    fun _ ↦ agrees_ite
      (fun _ ↦ agrees_memappend hE (tok.setState .commentEol) hle hsize fun _ hle' ↦ .same hle' rfl fun _ ↦ rfl)
      fun _ ↦ .same hle hsize fun _ ↦ rfl

theorem agrees_commentEnd :
    Agrees a size (jsonCommentEnd E tok) (fun room ↦ jsonCommentEnd (E.within room) (tok.withSize a)) :=
  agrees_memappend hE _ hle hsize fun _ hle' ↦
    agrees_ite (fun _ ↦ .same hle' rfl fun _ ↦ rfl) fun _ ↦ .same hle' rfl fun _ ↦ rfl

theorem agrees_null : Agrees a size (jsonNull E tok) (fun room ↦ jsonNull (E.within room) (tok.withSize a)) :=
  agrees_memappend hE _ hle hsize fun _ hle' ↦
    agrees_match hle' rfl (agrees_match hle' rfl (.same hle' rfl fun _ ↦ rfl))

theorem agrees_boolean :
    Agrees a size (jsonBoolean E tok) (fun room ↦ jsonBoolean (E.within room) (tok.withSize a)) :=
  agrees_memappend hE _ hle hsize fun _ hle' ↦
    agrees_match hle' rfl (agrees_match hle' rfl (.same hle' rfl fun _ ↦ rfl))

theorem agrees_string :
    Agrees a size (jsonString E tok) (fun room ↦ jsonString (E.within room) (tok.withSize a)) := by
  refine agrees_scan (agrees_scanOut hE hle) (fun _ _ htok ↦ ?_) _ tok.str tok [] hsize
  refine agrees_ite (fun _ ↦ ?_) fun _ ↦ agrees_ite (fun _ ↦ ?_) fun _ ↦ .same hle htok fun _ ↦ rfl
  all_goals exact agrees_memappend hE _ hle htok fun _ hle' ↦ .same hle' rfl fun _ ↦ rfl

theorem agrees_objectField :
    Agrees a size (jsonObjectField E tok) (fun room ↦ jsonObjectField (E.within room) (tok.withSize a)) := by
  refine agrees_scan (agrees_scanOut hE hle) (fun _ _ htok ↦ ?_) _ tok.str tok [] hsize
  refine agrees_ite (fun _ ↦ ?_) fun _ ↦ ?_
  all_goals exact agrees_memappend hE _ hle htok fun _ hle' ↦ .same hle' rfl fun _ ↦ rfl

theorem agrees_stringEscape :
    Agrees a size (jsonStringEscape E tok) (fun room ↦ jsonStringEscape (E.within room) (tok.withSize a)) := by
  repeat' refine agrees_ite (fun _ ↦ ?_) (fun _ ↦ ?_)
  all_goals first
    | exact .same hle hsize fun _ ↦ rfl
    | exact agrees_memappend hE _ hle hsize fun _ hle' ↦ .same hle' rfl fun _ ↦ rfl

theorem agrees_unicodeAppend : Agrees a size (jsonUnicodeAppend E tok)
    (fun room ↦ jsonUnicodeAppend (E.within room) (tok.withSize a)) :=
  agrees_ite (fun _ ↦ .same hle hsize fun _ ↦ rfl) fun _ ↦
    agrees_memappend hE _ hle hsize fun _ hle' ↦ .same hle' rfl fun _ ↦ rfl

theorem agrees_unicodeDone : Agrees a size (jsonUnicodeDone E tok)
    (fun room ↦ jsonUnicodeDone (E.within room) (tok.withSize a)) := by
  refine agrees_ite (fun _ ↦ agrees_ite (fun _ ↦ ?_) fun _ ↦ ?_) fun _ ↦ agrees_unicodeAppend hE hle hsize
  · exact @agrees_unicodeAppend _ E a size { tok with ucsChar := _, highSurrogate := 0 } hE hle hsize
  · exact agrees_memappend hE _ hle hsize fun size' hle' ↦
      @agrees_unicodeAppend _ E a size' { tok with pb := _, pbSize := size', highSurrogate := 0 } hE hle' rfl

theorem agrees_unicodeReplace (state : JsonState) : Agrees a size (jsonUnicodeReplace E tok state)
    (fun room ↦ jsonUnicodeReplace (E.within room) (tok.withSize a) state) :=
  agrees_memappend hE _ hle hsize fun _ hle' ↦ .same hle' rfl fun _ ↦ rfl

theorem agrees_number :
    Agrees a size (jsonNumber E tok) (fun room ↦ jsonNumber (E.within room) (tok.withSize a)) := by
  have hend : ∀ (caseLen : ℕ) {size : ℕ} {tok : JsonTok D}, size ≤ intMax → tok.pbSize = size →
      Agrees a size (jsonNumberEnd E caseLen tok)
        (fun room ↦ jsonNumberEnd (E.within room) caseLen (tok.withSize a)) := by
    intro caseLen size tok hle hsize
    have hvalue : ∀ room pb, jsonNumberValue (E.within room) tok.isDouble pb = jsonNumberValue E tok.isDouble pb :=
      fun _ _ ↦ rfl
    refine agrees_ite (fun _ ↦ .same hle hsize fun _ ↦ rfl) fun _ ↦ ?_
    by_cases htrim : tok.isDouble ∧ ¬E.strict
    · have htrim' : ∀ room, (tok.withSize a).isDouble ∧ ¬(E.within room).strict := fun _ ↦ htrim
      simp only [if_pos htrim, if_pos (htrim' _)]
      simp only [JsonTok.withSize, hvalue]
      cases jsonNumberValue E tok.isDouble (jsonTrimReverse tok.pb.reverse).reverse with
      | none => exact .same hle hsize fun _ ↦ rfl
      | some v => exact .same hle hsize fun _ ↦ rfl
    · have htrim' : ∀ room, ¬((tok.withSize a).isDouble ∧ ¬(E.within room).strict) := fun _ ↦ htrim
      simp only [if_neg htrim, if_neg (htrim' _)]
      simp only [JsonTok.withSize, hvalue]
      cases jsonNumberValue E tok.isDouble tok.pb with
      | none => exact .same hle hsize fun _ ↦ rfl
      | some v => exact .same hle hsize fun _ ↦ rfl
  refine agrees_numberLoop (agrees_scanOut hE hle) (fun _ _ htok ↦ ?_) tok.str tok [] _ _ _ hsize
  refine agrees_ite (fun _ ↦ .same hle htok fun _ ↦ rfl) fun _ ↦ agrees_ite (fun _ ↦ hend 0 hle htok) fun _ ↦ ?_
  exact agrees_memappend hE _ hle htok fun _ hle' ↦ hend _ hle' rfl

theorem agrees_enumscapeUnicode : Agrees a size (jsonEnumscapeUnicode E tok)
    (fun room ↦ jsonEnumscapeUnicode (E.within room) (tok.withSize a)) := by
  have hloop : ∀ (text : List UInt8) (tok : JsonTok D), tok.pbSize = size →
      Agrees a size (jsonUnicodeLoop E text tok)
        (fun room ↦ jsonUnicodeLoop (E.within room) text (tok.withSize a)) := by
    intro text
    induction text with
    | nil => exact fun tok htok ↦ .same hle htok fun _ ↦ rfl
    | cons c text ih =>
      intro tok htok
      let digit := jtHexdigit tok.c <<< ((3 - tok.stPos) * 4)
      refine agrees_ite (fun _ ↦ .same hle htok fun _ ↦ rfl) fun _ ↦ agrees_ite (fun _ ↦ ?_) fun _ ↦ ?_
      · exact @agrees_unicodeDone _ E a size { tok with ucsChar := tok.ucsChar ||| digit, stPos := 0 } hE hle htok
      · refine agrees_advancePeek { tok with ucsChar := tok.ucsChar ||| digit, stPos := tok.stPos + 1 } htok
          (fun tok htok ↦ ?_) (fun tok htok ↦ ?_)
        · exact .same hle htok fun _ ↦ rfl
        · exact ih tok htok
  exact hloop tok.str tok hsize

theorem agrees_unicodeNeedEscape : Agrees a size (jsonUnicodeNeedEscape E tok)
    (fun room ↦ jsonUnicodeNeedEscape (E.within room) (tok.withSize a)) :=
  agrees_ite (fun _ ↦ agrees_unicodeReplace hE hle hsize _) fun _ ↦ .same hle hsize fun _ ↦ rfl

theorem agrees_unicodeNeedU : Agrees a size (jsonUnicodeNeedU E tok)
    (fun room ↦ jsonUnicodeNeedU (E.within room) (tok.withSize a)) :=
  agrees_ite (fun _ ↦ agrees_unicodeReplace hE hle hsize _) fun _ ↦ .same hle hsize fun _ ↦ rfl

omit hE in
theorem agrees_array : Agrees a size (jsonArray E tok)
    (fun room ↦ jsonArray (E.within room) (tok.withSize a)) := by
  repeat' refine agrees_ite (fun _ ↦ ?_) (fun _ ↦ ?_)
  all_goals exact .same hle hsize fun _ ↦ rfl

omit hE in
theorem agrees_arraySep : Agrees a size (jsonArraySep tok) (fun _ ↦ jsonArraySep (tok.withSize a)) := by
  repeat' refine agrees_ite (fun _ ↦ ?_) (fun _ ↦ ?_)
  all_goals exact .same hle hsize fun _ ↦ rfl

omit hE in
theorem agrees_objectFieldStart : Agrees a size (jsonObjectFieldStart E tok)
    (fun room ↦ jsonObjectFieldStart (E.within room) (tok.withSize a)) := by
  repeat' refine agrees_ite (fun _ ↦ ?_) (fun _ ↦ ?_)
  all_goals exact .same hle hsize fun _ ↦ rfl

omit hE in
theorem agrees_objectFieldEnd : Agrees a size (jsonObjectFieldEnd tok)
    (fun _ ↦ jsonObjectFieldEnd (tok.withSize a)) :=
  agrees_ite (fun _ ↦ .same hle hsize fun _ ↦ rfl) fun _ ↦ .same hle hsize fun _ ↦ rfl

omit hE in
theorem agrees_objectValue :
    Agrees a size (jsonObjectValue E tok) (fun room ↦ jsonObjectValue (E.within room) (tok.withSize a)) :=
  agrees_ite (fun _ ↦ .same hle hsize fun _ ↦ rfl) fun _ ↦ .same hle hsize fun _ ↦ rfl

omit hE in
theorem agrees_objectValueAdd : Agrees a size (jsonObjectValueAdd tok)
    (fun _ ↦ jsonObjectValueAdd (tok.withSize a)) :=
  agrees_ite (fun _ ↦ .same hle hsize fun _ ↦ rfl) fun _ ↦ .same hle hsize fun _ ↦ rfl

omit hE in
theorem agrees_objectSep : Agrees a size (jsonObjectSep tok) (fun _ ↦ jsonObjectSep (tok.withSize a)) := by
  repeat' refine agrees_ite (fun _ ↦ ?_) (fun _ ↦ ?_)
  all_goals exact .same hle hsize fun _ ↦ rfl

end States

theorem agrees_switch (hE : E.room = none) (tok : JsonTok D) (hle : tok.pbSize ≤ intMax) :
    Agrees a tok.pbSize (jsonSwitch E tok) (fun room ↦ jsonSwitch (E.within room) (tok.withSize a)) := by
  have hstate : (tok.withSize a).srec.state = tok.srec.state := rfl
  simp only [jsonSwitch, hstate]
  cases tok.srec.state with
  | eatws => exact agrees_eatws hE hle rfl
  | start => exact agrees_start hle rfl
  | finish => exact agrees_finish hle rfl
  | inf => exact agrees_inf hle rfl
  | null => exact agrees_null hE hle rfl
  | commentStart => exact agrees_commentStart hE hle rfl
  | comment => exact agrees_comment hE hle rfl
  | commentEol => exact agrees_commentEol hE hle rfl
  | commentEnd => exact agrees_commentEnd hE hle rfl
  | string => exact agrees_string hE hle rfl
  | stringEscape => exact agrees_stringEscape hE hle rfl
  | enumscapeUnicode => exact agrees_enumscapeUnicode hE hle rfl
  | enumscapeUnicodeNeedEscape => exact agrees_unicodeNeedEscape hE hle rfl
  | enumscapeUnicodeNeedU => exact agrees_unicodeNeedU hE hle rfl
  | boolean => exact agrees_boolean hE hle rfl
  | number => exact agrees_number hE hle rfl
  | array => exact agrees_array hle rfl
  | arrayAfterSep => exact agrees_array hle rfl
  | arrayAdd => exact .same hle rfl fun _ ↦ rfl
  | arraySep => exact agrees_arraySep hle rfl
  | objectFieldStart => exact agrees_objectFieldStart hle rfl
  | objectFieldStartAfterSep => exact agrees_objectFieldStart hle rfl
  | objectField => exact agrees_objectField hE hle rfl
  | objectFieldEnd => exact agrees_objectFieldEnd hle rfl
  | objectValue => exact agrees_objectValue hle rfl
  | objectValueAdd => exact agrees_objectValueAdd hle rfl
  | objectSep => exact agrees_objectSep hle rfl

/-! ## Steps -/

theorem jsonOut_within (room : ℕ) (tok : JsonTok D) :
    jsonOut (E.within room) (tok.withSize a) = jsonOut E tok := rfl

theorem jsonWhile_within (room : ℕ) (tok : JsonTok D) :
    jsonWhile (E.within room) (tok.withSize a) = (jsonWhile E tok).map (·.withSize a) id ∧
      ∀ tok', jsonWhile E tok = .inl tok' → tok'.pbSize = tok.pbSize := by
  obtain ⟨hpeek, hkept⟩ := jsonPeekChar_within (E := E) (a := a) room tok
  rw [jsonWhile, jsonWhile, hpeek]
  revert hkept
  obtain ⟨tok', b⟩ := jsonPeekChar E tok
  intro hkept
  cases b with
  | false => exact ⟨rfl, fun _ h ↦ by cases h⟩
  | true => exact ⟨rfl, fun _ h ↦ Sum.inl.inj h ▸ hkept⟩

/-- The step after a pass. -/
theorem jsonStep_within {room : ℕ} (tok : JsonTok D)
    (h : jsonSwitch (E.within room) (tok.withSize a) = ((jsonSwitch E tok).1.withSize a, (jsonSwitch E tok).2)) :
    jsonStep (E.within room) (tok.withSize a) = (jsonStep E tok).map (·.withSize a) id := by
  rw [jsonStep, jsonStep, h]
  obtain ⟨tok', flow⟩ := jsonSwitch E tok
  cases flow with
  | redo => rfl
  | out => rfl
  | next =>
    have hc : (tok'.withSize a).c = tok'.c := rfl
    simp only [hc]
    split_ifs with hnul
    · rfl
    · exact (jsonWhile_within room (jsonAdvanceChar tok')).1

/-- A step that is not the last comes from a pass that has not gone out, and leaves its buffer. -/
theorem jsonStep_eq_inl {tok tok' : JsonTok D} (h : jsonStep E tok = .inl tok') :
    (jsonSwitch E tok).2 ≠ .out ∧ tok'.pbSize = (jsonSwitch E tok).1.pbSize := by
  rw [jsonStep] at h
  revert h
  obtain ⟨tok₁, flow⟩ := jsonSwitch E tok
  intro h
  cases flow with
  | redo => exact ⟨by simp, Sum.inl.inj h ▸ rfl⟩
  | out => cases h
  | next =>
    simp only at h
    split_ifs at h with hnul
    exact ⟨by simp, (jsonWhile_within (a := 0) 0 (jsonAdvanceChar tok₁)).2 tok' h⟩

theorem roomFits_room (size : ℕ) : RoomFits size (⟨size, 0⟩ : JsonPrintbuf).room :=
  ⟨le_room _, (Nat.lt_or_ge (intMax - 8) size).elim (fun h ↦ .inr (room_eq _ h)) .inl⟩

/-- **The room in a run.** Up to any step the tokener does what it does with some room. -/
theorem exists_after_within (hE : E.room = none) (N : ℕ) (tok : JsonTok D) (hle : tok.pbSize ≤ intMax) :
    ∃ room, room < intMax ∧ RoomFits tok.pbSize room ∧ ∀ n ≤ N,
      after (jsonStep (E.within room)) n (tok.withSize a) = (after (jsonStep E) n tok).map (·.withSize a) id := by
  induction N generalizing tok with
  | zero =>
    refine ⟨_, room_lt hle, roomFits_room _, fun n hn ↦ ?_⟩
    obtain rfl := Nat.le_zero.mp hn
    rfl
  | succ N ih =>
    have hagrees := agrees_switch (a := a) hE tok hle
    -- What is left of the run decides on the room, and the pass keeps what has been decided.
    have hstep : ∀ room, PassFits (jsonSwitch E tok) room → RoomFits tok.pbSize room ∧
        jsonStep (E.within room) (tok.withSize a) = (jsonStep E tok).map (·.withSize a) id := by
      intro room hfits
      have hkept := hagrees.kept
      have hfrozen := hfits.frozen
      exact ⟨⟨hfits.le, by omega⟩, jsonStep_within tok (hagrees.eq room hfits)⟩
    cases hs : jsonStep E tok with
    | inr reply =>
      have hfits : PassFits (jsonSwitch E tok) (⟨(jsonSwitch E tok).1.pbSize, 0⟩ : JsonPrintbuf).room :=
        ⟨roomFits_room _, fun _ ↦ rfl⟩
      obtain ⟨hroom, heq⟩ := hstep _ hfits
      refine ⟨_, room_lt hagrees.le, hroom, fun n hn ↦ ?_⟩
      rw [hs] at heq
      cases n with
      | zero => rfl
      | succ n => rw [after_succ_of_inr hs, after_succ_of_inr heq]; rfl
    | inl tok' =>
      obtain ⟨hout, hsize⟩ := jsonStep_eq_inl hs
      obtain ⟨room, hlt, hroom, hafter⟩ := ih tok' (hsize ▸ hagrees.le)
      rw [hsize] at hroom
      obtain ⟨hroom, heq⟩ := hstep room ⟨hroom, fun h ↦ absurd h hout⟩
      refine ⟨room, hlt, hroom, fun n hn ↦ ?_⟩
      rw [hs] at heq
      cases n with
      | zero => rfl
      | succ n =>
        rw [after_succ_of_inl hs, after_succ_of_inl heq]
        exact hafter n (Nat.le_of_succ_le_succ hn)

/-- The buffer never has more than `INT_MAX` bytes. -/
theorem pbSize_le_of_reaches (hE : E.room = none) {tok tok' : JsonTok D} (h : Reaches (jsonStep E) tok tok')
    (hle : tok.pbSize ≤ intMax) : tok'.pbSize ≤ intMax := by
  induction h with
  | refl => exact hle
  | tail _ hstep ih =>
    have hagrees := agrees_switch (a := 0) hE _ ih
    exact (jsonStep_eq_inl hstep).2.trans_le hagrees.le

/-- What comes of a state with every room comes of it with the buffer, for one of the rooms. -/
theorem exists_after_of_within (hE : E.room = none) {tok : JsonTok D} (hle : tok.pbSize ≤ intMax)
    {Q : ℕ → JsonTok D ⊕ JsonReply D → Prop}
    (h : ∀ room, intMax - 9 ≤ room → room < intMax → ∃ n, Q room (after (jsonStep (E.within room)) n tok)) :
    ∃ room n, intMax - 9 ≤ room ∧ room < intMax ∧
      Q room ((after (jsonStep E) n tok).map (·.withSize tok.pbSize) id) := by
  have hsteps : ∀ room, ∃ n, intMax - 9 ≤ room → room < intMax →
      Q room (after (jsonStep (E.within room)) n tok) := by
    intro room
    by_cases hroom : intMax - 9 ≤ room ∧ room < intMax
    · obtain ⟨n, hn⟩ := h room hroom.1 hroom.2
      exact ⟨n, fun _ _ ↦ hn⟩
    · exact ⟨0, fun hle hlt ↦ absurd ⟨hle, hlt⟩ hroom⟩
  choose n hn using hsteps
  obtain ⟨room, hlt, hfits, hafter⟩ :=
    exists_after_within (a := tok.pbSize) hE ((Finset.range intMax).sup n) tok hle
  have hroom := hafter (n room) (Finset.le_sup (Finset.mem_range.mpr hlt))
  refine ⟨room, n room, hfits.le, hlt, ?_⟩
  rw [← hroom]
  exact hn room hfits.le hlt

theorem exists_ends_of_within (hE : E.room = none) {tok : JsonTok D} (hle : tok.pbSize ≤ intMax)
    {A : JsonTok D → Prop} (htok : A tok) {P : ℕ → JsonReply D → Prop}
    (h : ∀ room, intMax - 9 ≤ room → room < intMax → Stops (jsonStep (E.within room)) A (P room)) :
    ∃ room reply, intMax - 9 ≤ room ∧ room < intMax ∧ Ends (jsonStep E) tok reply ∧ P room reply := by
  have hrun := exists_after_of_within (Q := fun room s ↦ ∃ reply, s = .inr reply ∧ P room reply) hE hle
    fun room hroom hlt ↦ by
      obtain ⟨reply, hends, hreply⟩ := h room hroom hlt tok htok
      obtain ⟨n, hn⟩ := ends_iff_after.mp hends
      exact ⟨n, reply, hn, hreply⟩
  obtain ⟨room, n, hroom, hlt, reply, hn, hreply⟩ := hrun
  refine ⟨room, reply, hroom, hlt, ends_iff_after.mpr ⟨n, ?_⟩, hreply⟩
  cases hafter : after (jsonStep E) n tok with
  | inl tok' =>
    rw [hafter] at hn
    cases hn
  | inr reply' =>
    rw [hafter] at hn
    exact hn

theorem exists_reaches_of_within (hE : E.room = none) {tok : JsonTok D} (hle : tok.pbSize ≤ intMax)
    {A B : JsonTok D → Prop} (htok : A tok)
    (h : ∀ room, intMax - 9 ≤ room → room < intMax → Moves (jsonStep (E.within room)) A B) :
    ∃ tok', Reaches (jsonStep E) tok tok' ∧ B (tok'.withSize tok.pbSize) := by
  have hrun := exists_after_of_within (Q := fun _ s ↦ ∃ tok', s = .inl tok' ∧ B tok') hE hle
    fun room hroom hlt ↦ by
      obtain ⟨tok', hreaches, htok'⟩ := h room hroom hlt tok htok
      obtain ⟨n, hn⟩ := reaches_iff_after.mp hreaches
      exact ⟨n, tok', hn, htok'⟩
  obtain ⟨room, n, -, -, tok', hn, htok'⟩ := hrun
  cases hafter : after (jsonStep E) n tok with
  | inl tok₁ =>
    rw [hafter] at hn
    obtain rfl := Sum.inl.inj hn
    exact ⟨tok₁, reaches_iff_after.mpr ⟨n, hafter⟩, htok'⟩
  | inr reply =>
    rw [hafter] at hn
    cases hn

end Room

end LatteC
