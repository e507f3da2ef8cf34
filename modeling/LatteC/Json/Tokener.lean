import LatteC.Foundation.Block
import LatteC.Foundation.StepMachine
import LatteC.Json.Basic
import LatteC.Set.Basic
import LatteC.Utils.Numeric

/-!
# The JSON tokener

`sds_to_json_verbose` and `sds_to_json` of `src/json/latte_json.c`: an automaton over the characters of a
text, with one level for every container that is open. A step is one pass through the `switch`, from
`redo_char` on; a pass ends by going back to `redo_char` with the same character, by the `break` that leads
on to the next character, or by `goto out`.
-/

namespace LatteC

open StepMachine

section Passes

variable {D : Type} (E : JsonEnv D)

/-! ## White space and comments -/

/-- The loop of `json_tokener_state_eatws`, and whether there is a character. -/
def jsonEatwsLoop : List UInt8 → JsonTok D → JsonTok D × Bool
  | [], tok => (tok, false)
  | _ :: rest, tok =>
    if isWsChar tok.c then
      jsonAdvancePeek E tok (fun tok ↦ (tok, false)) fun tok ↦ jsonEatwsLoop rest tok
    else (tok, true)

/-- `json_tokener_state_eatws`. -/
def jsonEatws (tok : JsonTok D) : JsonPass D :=
  match jsonEatwsLoop E tok.str tok with
  | (tok, false) => (tok, .out)
  | (tok, true) =>
    if tok.c = '/'.toUInt8 ∧ ¬E.strict then
      jsonMemappend E (printbufReset tok) [tok.c] fun tok ↦ (tok.setState .commentStart, .next)
    else (tok.setState tok.srec.savedState, .redo)

/-- `json_tokener_state_comment_start`. -/
def jsonCommentStart (tok : JsonTok D) : JsonPass D :=
  if tok.c = '*'.toUInt8 then
    jsonMemappend E (tok.setState .comment) [tok.c] fun tok ↦ (tok, .next)
  else if tok.c = '/'.toUInt8 then
    jsonMemappend E (tok.setState .commentEol) [tok.c] fun tok ↦ (tok, .next)
  else tok.fail .errorParseComment

/-- `json_tokener_state_comment`. -/
def jsonComment (tok : JsonTok D) : JsonPass D :=
  let found (tok : JsonTok D) (passed : List UInt8) : JsonPass D :=
    jsonMemappend E tok (passed ++ [tok.c]) fun tok ↦ (tok.setState .commentEnd, .next)
  jsonScan E (· = '*'.toUInt8) (jsonScanOut E) found tok.str tok []

/-- `json_tokener_state_comment_eol`. -/
def jsonCommentEol (tok : JsonTok D) : JsonPass D :=
  let found (tok : JsonTok D) (passed : List UInt8) : JsonPass D :=
    jsonMemappend E tok passed fun tok ↦ (tok.setState .eatws, .next)
  jsonScan E (· = 10) (jsonScanOut E) found tok.str tok []

/-- `json_tokener_state_comment_end`. -/
def jsonCommentEnd (tok : JsonTok D) : JsonPass D :=
  jsonMemappend E tok [tok.c] fun tok ↦
    if tok.c = '/'.toUInt8 then (tok.setState .eatws, .next) else (tok.setState .comment, .next)

/-! ## The start and the end of a value -/

/-- `json_tokener_state_start`. -/
def jsonStart (tok : JsonTok D) : JsonPass D :=
  let c := tok.c
  if c = '{'.toUInt8 then
    ((tok.setStates .objectFieldStart .eatws).setCurrent (.map []), .next)
  else if c = '['.toUInt8 then ((tok.setStates .array .eatws).setCurrent (.array []), .next)
  else if c = 'I'.toUInt8 ∨ c = 'i'.toUInt8 then
    ({ printbufReset (tok.setState .inf) with stPos := 0 }, .redo)
  else if c = 'N'.toUInt8 ∨ c = 'n'.toUInt8 then
    ({ printbufReset (tok.setState .null) with stPos := 0 }, .redo)
  else if c = 39 ∧ E.strict then tok.fail .errorParseUnexpected
  else if c = 39 ∨ c = 34 then
    ({ printbufReset (tok.setState .string) with quoteChar := c }, .next)
  else if c = 'T'.toUInt8 ∨ c = 't'.toUInt8 ∨ c = 'F'.toUInt8 ∨ c = 'f'.toUInt8 then
    ({ printbufReset (tok.setState .boolean) with stPos := 0 }, .redo)
  else if isDigitChar c ∨ c = '-'.toUInt8 then
    ({ printbufReset (tok.setState .number) with isDouble := false }, .redo)
  else tok.fail .errorParseUnexpected

/-- `json_tokener_state_finish`. -/
def jsonFinish (tok : JsonTok D) : JsonPass D :=
  match tok.outer with
  | [] => (tok, .out)
  | srec :: outer => ({ tok with obj := tok.srec.current, srec := srec, outer := outer }, .redo)

/-! ## Literals -/

/-- `json_null_str`, `json_inf_str`, `json_inf_str_invert`, `json_nan_str`, `json_true_str` and
`json_false_str`. -/
def jsonNullStr : List UInt8 := [110, 117, 108, 108]

def jsonInfStr : List UInt8 := [73, 110, 102, 105, 110, 105, 116, 121]

def jsonInfStrInvert : List UInt8 := [105, 78, 70, 73, 78, 73, 84, 89]

def jsonNanStr : List UInt8 := [78, 97, 78]

def jsonTrueStr : List UInt8 := [116, 114, 117, 101]

def jsonFalseStr : List UInt8 := [102, 97, 108, 115, 101]

/-- `strncasecmp(lit, buf, n) == 0`, for a literal of at least `n` characters, or `strncmp` in strict
mode. -/
def jsonLiteralEq (lit buf : List UInt8) (n : ℕ) : Bool :=
  !E.strict && ((lit.take n).map tolower == (buf.take n).map tolower) || lit.take n == buf.take n

/-- `json_tokener_state_inf`. The value is created within the loop. -/
def jsonInf (tok : JsonTok D) : JsonPass D :=
  if tok.stPos < jsonInfStr.length then
    let infChar := tok.str.headD 0
    if jsonInfStr[tok.stPos]? ≠ some infChar ∧
        (E.strict ∨ jsonInfStrInvert[tok.stPos]? ≠ some infChar) then
      tok.fail .errorParseUnexpected
    else
      jsonAdvancePeek E { tok with stPos := tok.stPos + 1 } (fun tok ↦ (tok, .out)) fun tok ↦
        let isNegative := tok.pb.head? = some '-'.toUInt8
        tok.complete (.double (if isNegative then E.negInfinity else E.infinity))
  else (tok, .next)

/-- What `json_tokener_state_null` and `json_tokener_state_boolean` do with each of their literals, where the
characters that are compared are in `buf`. -/
def jsonMatch (lit : List UInt8) (v : Value D) (buf : List UInt8) (tok : JsonTok D)
    (otherwise : JsonPass D) : JsonPass D :=
  let size := min (tok.stPos + 1) lit.length
  if jsonLiteralEq E lit buf size then
    if tok.stPos = lit.length then tok.complete v
    else ({ tok with stPos := tok.stPos + 1 }, .next)
  else otherwise

/-- `json_tokener_state_null`. The characters are compared with the bytes of the print buffer's own
structure, which begins with the address of the characters, and then with the buffer. -/
def jsonNull (tok : JsonTok D) : JsonPass D :=
  jsonMemappend E tok [tok.c] fun tok ↦
    let pb := Block.leBytes 8 (E.bufAddress tok.pb.length).toNat
    jsonMatch E jsonNullStr .null pb tok <|
      jsonMatch E jsonNanStr (.double E.nan) tok.pb tok <| tok.fail .errorParseNull

/-- `json_tokener_state_boolean`. -/
def jsonBoolean (tok : JsonTok D) : JsonPass D :=
  jsonMemappend E tok [tok.c] fun tok ↦
    jsonMatch E jsonTrueStr (.boolean true) tok.pb tok <|
      jsonMatch E jsonFalseStr (.boolean false) tok.pb tok <| tok.fail .errorParseBoolean

/-! ## Strings -/

/-- `json_tokener_state_string`. The string that is made is not kept. -/
def jsonString (tok : JsonTok D) : JsonPass D :=
  let isControl (c : UInt8) : Bool := E.strict && (c ≤ 0x1f || 0x80 ≤ c)
  let found (tok : JsonTok D) (passed : List UInt8) : JsonPass D :=
    if tok.c = tok.quoteChar then
      jsonMemappend E tok passed fun tok ↦ (tok.setStates .finish .eatws, .next)
    else if tok.c = 92 then
      jsonMemappend E tok passed fun tok ↦ (tok.setStates .string .stringEscape, .next)
    else tok.fail .errorParseString
  jsonScan E (fun c ↦ c = tok.quoteChar || c = 92 || isControl c) (jsonScanOut E) found tok.str tok []

/-- `json_tokener_state_string_escape`. -/
def jsonStringEscape (tok : JsonTok D) : JsonPass D :=
  let append (chr : UInt8) :=
    jsonMemappend E tok [chr] fun tok ↦ (tok.setState tok.srec.savedState, .next)
  let c := tok.c
  if c = 34 ∨ c = 92 ∨ c = '/'.toUInt8 then append c
  else if c = 'b'.toUInt8 then append 8
  else if c = 'n'.toUInt8 then append 10
  else if c = 'r'.toUInt8 then append 13
  else if c = 't'.toUInt8 then append 9
  else if c = 'f'.toUInt8 then append 12
  else if c = 'u'.toUInt8 then
    ({ tok.setState .enumscapeUnicode with ucsChar := 0, stPos := 0 }, .next)
  else tok.fail .errorParseString

/-- `IS_HIGH_SURROGATE`. -/
def isHighSurrogate (uc : ℕ) : Bool := uc &&& 0xFC00 = 0xD800

/-- `IS_LOW_SURROGATE`. -/
def isLowSurrogate (uc : ℕ) : Bool := uc &&& 0xFC00 = 0xDC00

/-- `DECODE_SURROGATE_PAIR`. -/
def decodeSurrogatePair (hi lo : ℕ) : ℕ := ((hi &&& 0x3FF) <<< 10) + (lo &&& 0x3FF) + 0x10000

/-- `utf8_replacement_char`. -/
def utf8ReplacementChar : List UInt8 := [0xEF, 0xBF, 0xBD]

/-- `unescaped_utf`. -/
def unescapedUtf (uc : ℕ) : List UInt8 :=
  if uc < 0x80 then [UInt8.ofNat uc]
  else if uc < 0x800 then [UInt8.ofNat (0xc0 ||| uc >>> 6), UInt8.ofNat (0x80 ||| uc &&& 0x3f)]
  else if isLowSurrogate uc then utf8ReplacementChar
  else if uc < 0x10000 then
    [UInt8.ofNat (0xe0 ||| uc >>> 12), UInt8.ofNat (0x80 ||| uc >>> 6 &&& 0x3f),
      UInt8.ofNat (0x80 ||| uc &&& 0x3f)]
  else if uc < 0x110000 then
    [UInt8.ofNat (0xf0 ||| uc >>> 18 &&& 0x07), UInt8.ofNat (0x80 ||| uc >>> 12 &&& 0x3f),
      UInt8.ofNat (0x80 ||| uc >>> 6 &&& 0x3f), UInt8.ofNat (0x80 ||| uc &&& 0x3f)]
  else utf8ReplacementChar

/-- The end of `json_tokener_state_enumscape_unicode`: a high surrogate waits for the next sequence. -/
def jsonUnicodeAppend (tok : JsonTok D) : JsonPass D :=
  if 0x800 ≤ tok.ucsChar ∧ isHighSurrogate tok.ucsChar then
    ({ tok.setState .enumscapeUnicodeNeedEscape with highSurrogate := tok.ucsChar, ucsChar := 0 },
      .next)
  else
    jsonMemappend E tok (unescapedUtf tok.ucsChar) fun tok ↦
      (tok.setState tok.srec.savedState, .next)

/-- `json_tokener_state_enumscape_unicode`, when there is a full sequence. -/
def jsonUnicodeDone (tok : JsonTok D) : JsonPass D :=
  if tok.highSurrogate ≠ 0 then
    if isLowSurrogate tok.ucsChar then
      jsonUnicodeAppend E
        { tok with
          ucsChar := decodeSurrogatePair tok.highSurrogate tok.ucsChar, highSurrogate := 0 }
    else
      jsonMemappend E tok utf8ReplacementChar fun tok ↦
        jsonUnicodeAppend E { tok with highSurrogate := 0 }
  else jsonUnicodeAppend E tok

/-- `json_tokener_state_enumscape_unicode`: the digits of the sequence. -/
def jsonUnicodeLoop : List UInt8 → JsonTok D → JsonPass D
  | [], tok => (tok, .out)
  | _ :: rest, tok =>
    if tok.c = 0 ∨ ¬isHexChar tok.c then tok.fail .errorParseString
    else
      let digit := jtHexdigit tok.c <<< ((3 - tok.stPos) * 4)
      let tok := { tok with ucsChar := tok.ucsChar ||| digit, stPos := tok.stPos + 1 }
      if 4 ≤ tok.stPos then jsonUnicodeDone E { tok with stPos := 0 }
      else jsonAdvancePeek E tok (fun tok ↦ (tok, .out)) fun tok ↦ jsonUnicodeLoop rest tok

/-- `json_tokener_state_enumscape_unicode`. -/
def jsonEnumscapeUnicode (tok : JsonTok D) : JsonPass D := jsonUnicodeLoop E tok.str tok

/-- A high surrogate without another sequence is replaced, and its character is read again. -/
def jsonUnicodeReplace (tok : JsonTok D) (state : JsonState) : JsonPass D :=
  jsonMemappend E tok utf8ReplacementChar fun tok ↦
    ({ tok.setState state with highSurrogate := 0, ucsChar := 0, stPos := 0 }, .redo)

/-- `json_tokener_state_enumscape_unicode_need_escape`. -/
def jsonUnicodeNeedEscape (tok : JsonTok D) : JsonPass D :=
  if tok.c ≠ 92 then jsonUnicodeReplace E tok tok.srec.savedState
  else (tok.setState .enumscapeUnicodeNeedU, .next)

/-- `json_tokener_state_enumscape_unicode_need_u`. -/
def jsonUnicodeNeedU (tok : JsonTok D) : JsonPass D :=
  if tok.c ≠ 'u'.toUInt8 then jsonUnicodeReplace E tok .stringEscape
  else (tok.setState .enumscapeUnicode, .next)

/-! ## Numbers -/

/-- `string2ull`. -/
def string2ull (s : List UInt8) : Option ℕ :=
  match string2ll (cString s) with
  | some ll => if ll < 0 then none else some ll.toNat
  | none => E.strtoull s

/-- The loop that passes the characters of a number, and what comes after it. -/
def jsonNumberLoop (out found : JsonTok D → List UInt8 → JsonPass D) :
    List UInt8 → JsonTok D → List UInt8 → (isExponent negSignOk posSignOk : Bool) → JsonPass D
  | [], tok, passed, _, _, _ => out tok passed
  | _ :: rest, tok, passed, isExponent, negSignOk, posSignOk =>
    let c := tok.c
    let startsExponent : Bool := c = 'e'.toUInt8 ∨ c = 'E'.toUInt8
    if c ≠ 0 ∧ (isDigitChar c ∨ ¬isExponent ∧ startsExponent ∨ negSignOk ∧ c = '-'.toUInt8 ∨
        posSignOk ∧ c = '+'.toUInt8 ∨ ¬tok.isDouble ∧ c = '.'.toUInt8) then
      let signOk := startsExponent || c = '.'.toUInt8
      jsonAdvancePeek E { tok with isDouble := tok.isDouble || signOk }
        (fun tok ↦ out tok (passed ++ [c])) fun tok ↦
          jsonNumberLoop out found rest tok (passed ++ [c]) (isExponent || startsExponent) signOk signOk
    else found tok passed

/-- Trim the characters after which no number can end, from a buffer in reverse. -/
def jsonTrimReverse : List UInt8 → List UInt8
  | c :: d :: cs =>
    if c = 'e'.toUInt8 ∨ c = 'E'.toUInt8 ∨ c = '-'.toUInt8 ∨ c = '+'.toUInt8 then
      jsonTrimReverse (d :: cs)
    else c :: d :: cs
  | cs => cs

/-- The value of the number in the print buffer, if it is one. -/
def jsonNumberValue (isDouble : Bool) (pb : List UInt8) : Option (Value D) :=
  if isDouble then (E.string2ld pb).map .double
  else if pb.head? = some '-'.toUInt8 then
    match string2ll pb with
    | some num64 => if E.errnoRange pb ∧ E.strict then none else some (.int (.ofInt num64))
    | none => none
  else
    match string2ull E pb with
    | some numuint64 =>
      if E.errnoRange pb ∧ E.strict then none
      else if numuint64 ≠ 0 ∧ pb.head? = some '0'.toUInt8 ∧ E.strict then none
      else if numuint64 < 2 ^ 63 then some (.int (.ofInt numuint64))
      else some (.uint (.ofNat numuint64))
    | none => none

/-- `json_tokener_state_number`, after the number. -/
def jsonNumberEnd (caseLen : ℕ) (tok : JsonTok D) : JsonPass D :=
  if tok.pb.head? = some '-'.toUInt8 ∧ caseLen ≤ 1 ∧ (tok.c = 'i'.toUInt8 ∨ tok.c = 'I'.toUInt8) then
    ({ tok.setState .inf with stPos := 0 }, .redo)
  else
    let tok :=
      if tok.isDouble ∧ ¬E.strict then { tok with pb := (jsonTrimReverse tok.pb.reverse).reverse }
      else tok
    match jsonNumberValue E tok.isDouble tok.pb with
    | some v => tok.complete v
    | none => tok.fail .errorParseNumber

/-- The characters after which a number within a container ends. -/
def jsonEndsNumber (c : UInt8) : Bool :=
  c = ','.toUInt8 ∨ c = ']'.toUInt8 ∨ c = '}'.toUInt8 ∨ c = '/'.toUInt8 ∨ c = 'I'.toUInt8 ∨
    c = 'i'.toUInt8 ∨ isWsChar c

/-- `json_tokener_state_number`, after its loop. -/
def jsonNumberFound (tok : JsonTok D) (passed : List UInt8) : JsonPass D :=
  if 0 < tok.depth ∧ ¬jsonEndsNumber tok.c then tok.fail .errorParseNumber
  else if passed = [] then jsonNumberEnd E 0 tok
  else jsonMemappend E tok passed (jsonNumberEnd E passed.length)

/-- `json_tokener_state_number`. What can follow depends on what has been saved. -/
def jsonNumber (tok : JsonTok D) : JsonPass D :=
  let saved := cString tok.pb
  let eLoc := saved.findIdx? (· = 'e'.toUInt8) <|> saved.findIdx? (· = 'E'.toUInt8)
  let negSignOk : Bool := eLoc.all fun i ↦ i + 1 = tok.pb.length
  let posSignOk : Bool := eLoc.any fun i ↦ i + 1 = tok.pb.length
  jsonNumberLoop E (jsonScanOut E) (jsonNumberFound E) tok.str tok [] eLoc.isSome negSignOk posSignOk

/-! ## Arrays and objects -/

/-- `tok->depth++` with a level that has been reset, unless the stack is full. -/
def jsonPush (tok : JsonTok D) (state : JsonState) : JsonPass D :=
  if E.maxDepth ≤ tok.depth + 1 then tok.fail .errorDepth
  else
    ({ tok with outer := { tok.srec with state := state } :: tok.outer,
                srec := jsonTokenerResetLevel }, .redo)

/-- `json_tokener_state_array` and `json_tokener_state_array_after_sep`. -/
def jsonArray (tok : JsonTok D) : JsonPass D :=
  if tok.c = ']'.toUInt8 then
    if tok.srec.state = .arrayAfterSep ∧ E.strict then tok.fail .errorParseUnexpected
    else (tok.setStates .finish .eatws, .next)
  else jsonPush E tok .arrayAdd

/-- `json_array_put_value`, which returns 0 in both cases. -/
def jsonArrayPutValue (root element : Value D) : Value D :=
  match root with
  | .array elements => .array (elements ++ [element])
  | root => root

/-- `json_tokener_state_array_add`. -/
def jsonArrayAdd (tok : JsonTok D) : JsonPass D :=
  ((tok.setCurrent (jsonArrayPutValue tok.srec.current tok.obj)).setStates .arraySep .eatws, .redo)

/-- `json_tokener_state_array_sep`. -/
def jsonArraySep (tok : JsonTok D) : JsonPass D :=
  if tok.c = ']'.toUInt8 then (tok.setStates .finish .eatws, .next)
  else if tok.c = ','.toUInt8 then (tok.setStates .arrayAfterSep .eatws, .next)
  else tok.fail .errorParseArray

/-- `json_tokener_state_object_field_start` and `json_tokener_state_object_field_start_after_sep`. -/
def jsonObjectFieldStart (tok : JsonTok D) : JsonPass D :=
  if tok.c = '}'.toUInt8 then
    if tok.srec.state = .objectFieldStartAfterSep ∧ E.strict then tok.fail .errorParseUnexpected
    else (tok.setStates .finish .eatws, .next)
  else if tok.c = 34 ∨ tok.c = 39 then
    ({ printbufReset (tok.setState .objectField) with quoteChar := tok.c }, .next)
  else tok.fail .errorParseObjectKeyName

/-- `json_tokener_set_fieldname`. -/
def jsonSetFieldname (tok : JsonTok D) (name : Option (List UInt8)) : JsonTok D :=
  { tok with srec := { tok.srec with objFieldName := name } }

/-- `json_tokener_state_object_field`. -/
def jsonObjectField (tok : JsonTok D) : JsonPass D :=
  let found (tok : JsonTok D) (passed : List UInt8) : JsonPass D :=
    if tok.c = tok.quoteChar then
      jsonMemappend E tok passed fun tok ↦
        ((jsonSetFieldname tok (some (cString tok.pb))).setStates .objectFieldEnd .eatws, .next)
    else
      jsonMemappend E tok passed fun tok ↦ (tok.setStates .objectField .stringEscape, .next)
  jsonScan E (fun c ↦ c = tok.quoteChar || c = 92) (jsonScanOut E) found tok.str tok []

/-- `json_tokener_state_object_field_end`. -/
def jsonObjectFieldEnd (tok : JsonTok D) : JsonPass D :=
  if tok.c = ':'.toUInt8 then (tok.setStates .objectValue .eatws, .next)
  else tok.fail .errorParseObjectKeySep

/-- `json_tokener_state_object_value`. -/
def jsonObjectValue (tok : JsonTok D) : JsonPass D := jsonPush E tok .objectValueAdd

/-- `json_map_put_value`: the map after it and what is returned, which is `DICT_OK` for a key that is new, 1
for a key whose value is replaced, and 0 where there is no map. -/
def jsonMapPutValue (root : Value D) (key : List UInt8) (v : Value D) : Value D × ℕ :=
  match root with
  | .map members =>
    if members.any (·.1 = key) then
      (.map (members.map fun m ↦ if m.1 = key then (m.1, v) else m), 1)
    else (.map (members ++ [(key, v)]), 0)
  | root => (root, 0)

/-- `json_tokener_state_object_value_add`. -/
def jsonObjectValueAdd (tok : JsonTok D) : JsonPass D :=
  let put := jsonMapPutValue tok.srec.current (tok.srec.objFieldName.getD []) tok.obj
  let tok := tok.setCurrent put.1
  if put.2 ≠ 0 then tok.fail .errorMemory
  else ((jsonSetFieldname tok none).setStates .objectSep .eatws, .redo)

/-- `json_tokener_state_object_sep`. -/
def jsonObjectSep (tok : JsonTok D) : JsonPass D :=
  if tok.c = '}'.toUInt8 then (tok.setStates .finish .eatws, .next)
  else if tok.c = ','.toUInt8 then (tok.setStates .objectFieldStartAfterSep .eatws, .next)
  else tok.fail .errorParseObjectValueSep

/-! ## The automaton -/

/-- The `switch`. -/
def jsonSwitch (tok : JsonTok D) : JsonPass D :=
  match tok.srec.state with
  | .eatws => jsonEatws E tok
  | .start => jsonStart E tok
  | .finish => jsonFinish tok
  | .inf => jsonInf E tok
  | .null => jsonNull E tok
  | .commentStart => jsonCommentStart E tok
  | .comment => jsonComment E tok
  | .commentEol => jsonCommentEol E tok
  | .commentEnd => jsonCommentEnd E tok
  | .string => jsonString E tok
  | .stringEscape => jsonStringEscape E tok
  | .enumscapeUnicode => jsonEnumscapeUnicode E tok
  | .enumscapeUnicodeNeedEscape => jsonUnicodeNeedEscape E tok
  | .enumscapeUnicodeNeedU => jsonUnicodeNeedU E tok
  | .boolean => jsonBoolean E tok
  | .number => jsonNumber E tok
  | .array | .arrayAfterSep => jsonArray E tok
  | .arrayAdd => jsonArrayAdd tok
  | .arraySep => jsonArraySep tok
  | .objectFieldStart | .objectFieldStartAfterSep => jsonObjectFieldStart E tok
  | .objectField => jsonObjectField E tok
  | .objectFieldEnd => jsonObjectFieldEnd tok
  | .objectValue => jsonObjectValue E tok
  | .objectValueAdd => jsonObjectValueAdd tok
  | .objectSep => jsonObjectSep tok

/-- What is returned, and what is stored in `*result` if anything is. -/
structure JsonReply (D : Type) where
  rc : ℕ
  result : Option (Value D)

/-- The text is accepted. -/
def JsonReply.accept (v : Value D) : JsonReply D := ⟨1, some v⟩

/-- The text is rejected, and `*result` is NULL. -/
def JsonReply.reject : JsonReply D := ⟨0, some .null⟩

/-- The error with which the tokener leaves, after `out`. -/
def jsonOutErr (tok : JsonTok D) : JsonError :=
  if tok.c = 0 then
    if tok.srec.state ≠ .finish ∧ tok.srec.savedState ≠ .finish then .errorParseEof
    else if E.validateUtf8 ∧ tok.nBytes ≠ 0 then .errorParseUtf8String
    else tok.err
  else if tok.srec.state = .finish ∧ tok.depth = 0 ∧ E.strict ∧ ¬E.allowTrailingChars then
    .errorParseUnexpected
  else if E.validateUtf8 ∧ tok.nBytes ≠ 0 then .errorParseUtf8String
  else tok.err

/-- From `out` on. -/
def jsonOut (tok : JsonTok D) : JsonReply D :=
  if jsonOutErr E tok = .success then .accept tok.srec.current else .reject

/-- `while (PEEK_CHAR(c, tok))`. -/
def jsonWhile (tok : JsonTok D) : JsonTok D ⊕ JsonReply D :=
  match jsonPeekChar E tok with
  | (tok, true) => .inl tok
  | (tok, false) => .inr (jsonOut E tok)

/-- A pass through the `switch` and what follows it. -/
def jsonStep (tok : JsonTok D) : JsonTok D ⊕ JsonReply D :=
  match jsonSwitch E tok with
  | (tok, .redo) => .inl tok
  | (tok, .next) =>
    if tok.c = 0 then .inr (jsonOut E (jsonAdvanceChar tok)) else jsonWhile E (jsonAdvanceChar tok)
  | (tok, .out) => .inr (jsonOut E tok)

/-- The tokener and the variables of `sds_to_json_verbose` before its loop. -/
def jsonTokInit (text : List UInt8) : JsonTok D where
  outer := []
  srec := jsonTokenerResetLevel
  pb := []
  pbSize := jsonPrintbufNew.size
  isDouble := false
  stPos := 0
  err := .success
  ucsChar := 0
  highSurrogate := E.highSurrogate
  quoteChar := 0
  c := 1
  nBytes := 0
  obj := .null
  str := text

/-- The automaton on a text. -/
def jsonRun (fuel : ℕ) (text : List UInt8) : Option (JsonReply D) :=
  match jsonWhile E (jsonTokInit E text) with
  | .inl tok => run (jsonStep E) fuel tok
  | .inr reply => some reply

/-- `sds_to_json_verbose`. A text of unknown length ends with its first NUL, and is passed with it. -/
def sdsToJsonVerbose (fuel : ℕ) (str : List UInt8) (len : ℤ) : Option (JsonReply D) :=
  if len < -1 ∨ len = -1 ∧ 2 ^ 31 ≤ (cString str).length then some ⟨0, none⟩
  else jsonRun E fuel (if len = -1 then cString str ++ [0] else str.take len.toNat)

/-- `sds_to_json`. There is no reply if `json_tokener_new` deletes a name that is not NULL: it resets levels
that have only been allocated, and `sds_delete` follows whatever they hold. -/
def sdsToJson (fuel : ℕ) (str : List UInt8) : Option (JsonReply D) :=
  if E.namesNull then sdsToJsonVerbose (jsonTokenerNew E) fuel str (sdsLenInt str) else none

end Passes

end LatteC
