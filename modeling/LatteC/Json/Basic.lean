import LatteC.Json.Printbuf
import LatteC.Value.Basic

/-!
# The state of the JSON tokener

The types of `src/json/latte_json.h`, and what `sds_to_json_verbose` of `src/json/latte_json.c` does to read
the next character or to append to the print buffer.

The level in use stands apart from the levels that enclose it. Of the levels above it only the name is read
before they are reset: `json_tokener_reset_level` deletes it. Characters are bytes, and the text is what of
it has not been passed; `*str` is its first byte.

Floating point numbers and their conversions are left open. `realloc` is taken to give the memory for which
the print buffer asks.
-/

namespace LatteC

/-- `json_tokener_state_enum`. -/
inductive JsonState where
  | eatws
  | start
  | finish
  | null
  | commentStart
  | comment
  | commentEol
  | commentEnd
  | string
  | stringEscape
  | enumscapeUnicode
  | enumscapeUnicodeNeedEscape
  | enumscapeUnicodeNeedU
  | boolean
  | number
  | array
  | arrayAdd
  | arraySep
  | objectFieldStart
  | objectField
  | objectFieldEnd
  | objectValue
  | objectValueAdd
  | objectSep
  | arrayAfterSep
  | objectFieldStartAfterSep
  | inf
  deriving DecidableEq

/-- `json_tokener_error_enum`. -/
inductive JsonError where
  | success
  | continued
  | errorDepth
  | errorParseEof
  | errorParseUnexpected
  | errorParseNull
  | errorParseBoolean
  | errorParseNumber
  | errorParseArray
  | errorParseObjectKeyName
  | errorParseObjectKeySep
  | errorParseObjectValueSep
  | errorParseString
  | errorParseComment
  | errorParseUtf8String
  | errorSize
  | errorMemory
  deriving DecidableEq

/-- What the tokener works with: its flags, its depth, what a fresh one holds in `high_surrogate` and in the
names of its levels, its print buffer, where the buffer of a given length lies, and the floating point
numbers. `strtoull` is the number if the whole string is one and `errno` stays clear. -/
structure JsonEnv (D : Type) where
  strict : Bool
  allowTrailingChars : Bool
  validateUtf8 : Bool
  highSurrogate : ℕ
  /-- Every level that is allocated holds NULL in `obj_field_name`. -/
  namesNull : Bool
  maxDepth : ℕ
  /-- The buffer as it is, or one that takes so many characters and no more. -/
  room : Option ℕ
  bufAddress : ℕ → UInt64
  bufAddress_aligned : ∀ n, (bufAddress n).toNat % 8 = 0
  infinity : D
  negInfinity : D
  nan : D
  string2ld : List UInt8 → Option D
  /-- A sign alone is no number. -/
  string2ld_minus : string2ld ['-'.toUInt8] = none
  strtoull : List UInt8 → Option ℕ
  /-- `errno == ERANGE` after the conversion of a number. -/
  errnoRange : List UInt8 → Bool

/-- `json_tokener_new`. -/
def jsonTokenerNew {D : Type} (E : JsonEnv D) : JsonEnv D := { E with maxDepth := 32, room := none }

/-- `json_printbuf_memappend`, or what a buffer with so much room makes of it. -/
def JsonEnv.memappend {D : Type} (E : JsonEnv D) (p : JsonPrintbuf) (size : ℕ) : Option JsonPrintbuf :=
  match E.room with
  | none => jsonPrintbufMemappend p size
  | some room => if p.bpos + size ≤ room then some { p with bpos := p.bpos + size } else none

/-- `json_tokener_srec_t`. -/
structure JsonSrec (D : Type) where
  state : JsonState
  savedState : JsonState
  current : Value D
  objFieldName : Option (List UInt8)

/-- `json_tokener_t`, with the variables `c`, `nBytes`, `obj` and `str` of the function. -/
structure JsonTok (D : Type) where
  /-- The levels below the one in use, the innermost first. -/
  outer : List (JsonSrec D)
  srec : JsonSrec D
  pb : List UInt8
  /-- The size of the print buffer. -/
  pbSize : ℕ
  isDouble : Bool
  stPos : ℕ
  err : JsonError
  ucsChar : ℕ
  highSurrogate : ℕ
  quoteChar : UInt8
  c : UInt8
  nBytes : ℕ
  obj : Value D
  str : List UInt8

/-- How a pass through the `switch` ends. -/
inductive JsonFlow where
  | redo
  | next
  | out
  deriving DecidableEq

/-- A pass through the `switch`. -/
abbrev JsonPass (D : Type) := JsonTok D × JsonFlow

namespace JsonTok

variable {D : Type}

/-- `tok->depth`. -/
def depth (tok : JsonTok D) : ℕ := tok.outer.length

/-- `json_tokener_set_state`. -/
def setState (tok : JsonTok D) (s : JsonState) : JsonTok D :=
  { tok with srec := { tok.srec with state := s } }

/-- `json_tokener_set_saved_state` and `json_tokener_set_state`. -/
def setStates (tok : JsonTok D) (saved s : JsonState) : JsonTok D :=
  { tok with srec := { tok.srec with savedState := saved, state := s } }

/-- `json_tokener_set_current`. -/
def setCurrent (tok : JsonTok D) (v : Value D) : JsonTok D :=
  { tok with srec := { tok.srec with current := v } }

/-- `tok->err = …; goto out`. -/
def fail (tok : JsonTok D) (err : JsonError) : JsonPass D := ({ tok with err := err }, .out)

/-- Go on with a value that is complete. -/
def complete (tok : JsonTok D) (v : Value D) : JsonPass D :=
  ((tok.setCurrent v).setStates .finish .eatws, .redo)

end JsonTok

/-- A level after `json_tokener_reset_level`. -/
def jsonTokenerResetLevel {D : Type} : JsonSrec D := ⟨.eatws, .start, .null, none⟩

/-! ## Characters -/

/-- `is_ws_char`. -/
def isWsChar (c : UInt8) : Bool := c = 32 ∨ c = 9 ∨ c = 10 ∨ c = 13

/-- A decimal digit. -/
def isDigitChar (c : UInt8) : Bool := '0'.toUInt8 ≤ c ∧ c ≤ '9'.toUInt8

/-- `is_hex_char`. -/
def isHexChar (c : UInt8) : Bool :=
  '0'.toUInt8 ≤ c ∧ c ≤ '9'.toUInt8 ∨ 'A'.toUInt8 ≤ c ∧ c ≤ 'F'.toUInt8 ∨
    'a'.toUInt8 ≤ c ∧ c ≤ 'f'.toUInt8

/-- `jt_hexdigit`. -/
def jtHexdigit (c : UInt8) : ℕ :=
  if c ≤ '9'.toUInt8 then c.toNat - 48 else (c &&& 7).toNat + 9

/-- `json_tokener_validate_utf8`: the bytes still to come, unless the character is not allowed. -/
def jsonTokenerValidateUtf8 (chr : UInt8) (nBytes : ℕ) : Option ℕ :=
  if nBytes = 0 then
    if 0x80 ≤ chr then
      if chr &&& 0xe0 = 0xc0 then some 1
      else if chr &&& 0xf0 = 0xe0 then some 2
      else if chr &&& 0xf8 = 0xf0 then some 3
      else none
    else some 0
  else if chr &&& 0xC0 ≠ 0x80 then none
  else some (nBytes - 1)

section Passes

variable {D : Type} (E : JsonEnv D)

/-- `PEEK_CHAR`. -/
def jsonPeekChar (tok : JsonTok D) : JsonTok D × Bool :=
  match tok.str with
  | [] =>
    if tok.depth = 0 ∧ tok.srec.state = .eatws ∧ tok.srec.savedState = .finish then
      ({ tok with err := .success }, false)
    else ({ tok with err := .continued }, false)
  | chr :: _ =>
    if E.validateUtf8 then
      match jsonTokenerValidateUtf8 chr tok.nBytes with
      | none => ({ tok with err := .errorParseUtf8String }, false)
      | some n => ({ tok with nBytes := n, c := chr }, true)
    else ({ tok with c := chr }, true)

/-- `ADVANCE_CHAR`, which returns the character that is passed. -/
def jsonAdvanceChar (tok : JsonTok D) : JsonTok D := { tok with str := tok.str.tail }

/-- `ADVANCE_CHAR` and `PEEK_CHAR`: what follows without another character, and with one. -/
def jsonAdvancePeek {β : Type} (tok : JsonTok D) (out go : JsonTok D → β) : β :=
  match jsonPeekChar E (jsonAdvanceChar tok) with
  | (tok, false) => out tok
  | (tok, true) => go tok

/-- `json_printbuf_memappend_checked`. -/
def jsonMemappend (tok : JsonTok D) (s : List UInt8) (andThen : JsonTok D → JsonPass D) :
    JsonPass D :=
  match E.memappend ⟨tok.pbSize, tok.pb.length⟩ s.length with
  | none => tok.fail .errorMemory
  | some p => andThen { tok with pb := tok.pb ++ s, pbSize := p.size }

/-- `printbuf_reset`. -/
def printbufReset (tok : JsonTok D) : JsonTok D := { tok with pb := [] }

/-- The loops that pass characters until one of them is a `stop`, and go on with the characters from
`case_start` on. The list is the text, for the recursion. -/
def jsonScan (stop : UInt8 → Bool) (out found : JsonTok D → List UInt8 → JsonPass D) :
    List UInt8 → JsonTok D → List UInt8 → JsonPass D
  | [], tok, passed => out tok passed
  | _ :: rest, tok, passed =>
    if stop tok.c then found tok passed
    else
      let passed := passed ++ [tok.c]
      if tok.c = 0 then out (jsonAdvanceChar tok) passed
      else
        jsonAdvancePeek E tok (fun tok ↦ out tok passed) fun tok ↦
          jsonScan stop out found rest tok passed

/-- The end of the text within such a loop. -/
def jsonScanOut (tok : JsonTok D) (passed : List UInt8) : JsonPass D :=
  jsonMemappend E tok passed fun tok ↦ (tok, .out)

end Passes

end LatteC
