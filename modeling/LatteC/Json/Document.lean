import LatteC.Json.Position

/-!
# JSON texts

The texts of arrays and objects, with white space wherever there may be any: numbers and strings in the form
of the format, and words, which are letters with a minus sign in front of them or not. The value of a text
is what the tokener makes of it, without an automaton: words other than a few, and a name that an object
has twice, have none.
-/

namespace LatteC

open StepMachine

/-! ## Pieces of a text -/

def IsLetter (c : UInt8) : Prop :=
  'A'.toUInt8 ≤ c ∧ c ≤ 'Z'.toUInt8 ∨ 'a'.toUInt8 ≤ c ∧ c ≤ 'z'.toUInt8

instance (c : UInt8) : Decidable (IsLetter c) := inferInstanceAs (Decidable (_ ∨ _))

theorem isLetter_of_all {letters : List UInt8} (h : letters.all (fun c ↦ decide (IsLetter c)) = true) :
    ∀ c ∈ letters, IsLetter c :=
  fun c hc ↦ of_decide_eq_true (List.all_eq_true.mp h c hc)

/-- White space. -/
abbrev JsonWs := { ws : List UInt8 // ∀ c ∈ ws, isWsChar c = true }

/-- No white space. -/
def noWs : JsonWs := ⟨[], by simp⟩

/-- At least one digit. -/
abbrev JsonDigits := { ds : List UInt8 // ds ≠ [] ∧ ∀ c ∈ ds, isDigitChar c = true }

abbrev JsonHexDigit := { c : UInt8 // isHexChar c = true }

/-- At least one letter, with a minus sign or not. -/
structure JsonWord where
  minus : Bool
  letters : List UInt8
  letters_ne : letters ≠ []
  isLetter : ∀ c ∈ letters, IsLetter c

/-- The text of an exponent. -/
structure JsonExponent where
  capital : Bool
  /-- A minus sign, a plus sign or none. -/
  sign : Option Bool
  digits : JsonDigits

/-- The text of a number. -/
structure JsonNumber where
  minus : Bool
  int : JsonDigits
  frac : Option JsonDigits
  exponent : Option JsonExponent

/-- The escapes other than those of a code. -/
inductive JsonEscape where
  | quote
  | backslash
  | slash
  | b
  | f
  | n
  | r
  | t
  deriving DecidableEq

/-- A byte of a string that stands for itself, or an escape. -/
inductive JsonChar where
  | plain (c : { c : UInt8 // c ≠ 0 ∧ c ≠ 34 ∧ c ≠ 92 })
  | escape (e : JsonEscape)
  | unicode (d₃ d₂ d₁ d₀ : JsonHexDigit)

/-- A member name with the white space around it. -/
structure JsonName where
  before : JsonWs
  chars : List JsonChar
  after : JsonWs

/-- The text of a value. -/
inductive JsonDoc where
  | word (w : JsonWord)
  | number (n : JsonNumber)
  | string (chars : List JsonChar)
  | array (ws : JsonWs) (elements : List JsonDoc)
  | object (ws : JsonWs) (members : List (JsonName × JsonDoc))
  | padded (before : JsonWs) (d : JsonDoc) (after : JsonWs)

/-! ## Texts -/

def minusText (minus : Bool) : List UInt8 := if minus then ['-'.toUInt8] else []

def JsonWord.text (w : JsonWord) : List UInt8 := minusText w.minus ++ w.letters

def JsonExponent.text (e : JsonExponent) : List UInt8 :=
  (if e.capital then 'E'.toUInt8 else 'e'.toUInt8) ::
    ((e.sign.map fun minus ↦ if minus then '-'.toUInt8 else '+'.toUInt8).toList ++ e.digits.1)

/-- What comes after the digits in front of the point. -/
def JsonNumber.tail (n : JsonNumber) : List UInt8 :=
  (n.frac.elim [] fun ds ↦ '.'.toUInt8 :: ds.1) ++ n.exponent.elim [] JsonExponent.text

def JsonNumber.text (n : JsonNumber) : List UInt8 := minusText n.minus ++ (n.int.1 ++ n.tail)

def JsonNumber.isDouble (n : JsonNumber) : Bool := n.frac.isSome || n.exponent.isSome

/-- The character of an escape. -/
def JsonEscape.char : JsonEscape → UInt8
  | quote => 34
  | backslash => 92
  | slash => '/'.toUInt8
  | b => 'b'.toUInt8
  | f => 'f'.toUInt8
  | n => 'n'.toUInt8
  | r => 'r'.toUInt8
  | t => 't'.toUInt8

/-- The character that an escape is for. -/
def JsonEscape.byte : JsonEscape → UInt8
  | quote => 34
  | backslash => 92
  | slash => '/'.toUInt8
  | b => 8
  | f => 12
  | n => 10
  | r => 13
  | t => 9

def JsonChar.text : JsonChar → List UInt8
  | plain c => [c.1]
  | escape e => [92, e.char]
  | unicode d₃ d₂ d₁ d₀ => [92, 'u'.toUInt8, d₃.1, d₂.1, d₁.1, d₀.1]

/-- A string without its first quote. -/
def stringTail (chars : List JsonChar) : List UInt8 := chars.flatMap JsonChar.text ++ [34]

def JsonName.text (k : JsonName) : List UInt8 :=
  k.before.1 ++ 34 :: (stringTail k.chars ++ (k.after.1 ++ [':'.toUInt8]))

mutual

def JsonDoc.render : JsonDoc → List UInt8
  | .word w => w.text
  | .number n => n.text
  | .string chars => 34 :: stringTail chars
  | .array ws elements => '['.toUInt8 :: (ws.1 ++ renderElements elements)
  | .object ws members => '{'.toUInt8 :: (ws.1 ++ renderMembers members)
  | .padded before d after => before.1 ++ (d.render ++ after.1)

/-- The elements of an array and the bracket after them. -/
def renderElements : List JsonDoc → List UInt8
  | [] => [']'.toUInt8]
  | d :: ds => d.render ++ renderMoreElements ds

def renderMoreElements : List JsonDoc → List UInt8
  | [] => [']'.toUInt8]
  | d :: ds => ','.toUInt8 :: (d.render ++ renderMoreElements ds)

/-- The members of an object and the brace after them. -/
def renderMembers : List (JsonName × JsonDoc) → List UInt8
  | [] => ['}'.toUInt8]
  | (k, d) :: ms => k.text ++ (d.render ++ renderMoreMembers ms)

def renderMoreMembers : List (JsonName × JsonDoc) → List UInt8
  | [] => ['}'.toUInt8]
  | (k, d) :: ms => ','.toUInt8 :: (k.text ++ (d.render ++ renderMoreMembers ms))

end

/-! ## Values -/

/-- The code of four hexadecimal digits. -/
def hexCode (d₃ d₂ d₁ d₀ : JsonHexDigit) : ℕ :=
  ((jtHexdigit d₃.1 <<< 12 ||| jtHexdigit d₂.1 <<< 8) ||| jtHexdigit d₁.1 <<< 4) |||
    jtHexdigit d₀.1 <<< 0

/-- What stands for a high surrogate that has waited in vain, if there is one. -/
def highLead (high : ℕ) : List UInt8 := if high = 0 then [] else utf8ReplacementChar

/-- The code point of a code after a high surrogate. -/
def surrogateCode (high uc : ℕ) : ℕ :=
  if high ≠ 0 ∧ isLowSurrogate uc then decodeSurrogatePair high uc else uc

/-- What stands for the high surrogate before a code. -/
def surrogateLead (high uc : ℕ) : List UInt8 := if isLowSurrogate uc then [] else highLead high

/-- A code point that the tokener takes for a high surrogate. -/
def WaitsForLow (code : ℕ) : Prop := 0x800 ≤ code ∧ isHighSurrogate code

instance (code : ℕ) : Decidable (WaitsForLow code) := inferInstanceAs (Decidable (_ ∧ _))

/-- The bytes of a string, after a high surrogate that still waits or after none. -/
def stringBytes : (high : ℕ) → List JsonChar → List UInt8
  | high, [] => highLead high
  | high, .plain c :: cs => highLead high ++ c.1 :: stringBytes 0 cs
  | high, .escape e :: cs => highLead high ++ e.byte :: stringBytes 0 cs
  | high, .unicode d₃ d₂ d₁ d₀ :: cs =>
    let uc := hexCode d₃ d₂ d₁ d₀
    let code := surrogateCode high uc
    surrogateLead high uc ++
      if WaitsForLow code then stringBytes code cs else unescapedUtf code ++ stringBytes 0 cs

section Values

variable {D : Type} (E : JsonEnv D)

def wordValue (w : JsonWord) : Option (Value D) :=
  let lower := w.letters.map tolower
  if w.minus then if lower = ['i'.toUInt8] then some (.double E.negInfinity) else none
  else if lower = ['i'.toUInt8] then some (.double E.infinity)
  else if lower = jsonNanStr.map tolower then some (.double E.nan)
  else if lower = jsonTrueStr then some (.boolean true)
  else if lower = jsonFalseStr then some (.boolean false)
  else none

def numberValue (n : JsonNumber) : Option (Value D) := jsonNumberValue E n.isDouble n.text

/-- The value of a number, if there is room for its text in the print buffer. -/
def numberRead (n : JsonNumber) : Option (Value D) := if n.text.length ≤ E.limit then numberValue E n else none

/-- The key that a name stands for, if there is room for it in the print buffer. -/
def nameKey (chars : List JsonChar) : Option (List UInt8) :=
  if (stringBytes 0 chars).length ≤ E.limit then some (cString (stringBytes 0 chars)) else none

mutual

/-- The value of a text that stands within so many levels. A string has no value of its own. -/
def docValue : (depth : ℕ) → JsonDoc → Option (Value D)
  | _, .word w => wordValue E w
  | _, .number n => numberRead E n
  | _, .string chars => (nameKey E chars).map fun _ ↦ .null
  | depth, .array _ elements => elementsValue depth elements []
  | depth, .object _ members => membersValue depth members []
  | depth, .padded _ d _ => docValue depth d

/-- The array of some values and of elements that follow. -/
def elementsValue (depth : ℕ) : List JsonDoc → List (Value D) → Option (Value D)
  | [], vs => some (.array vs)
  | d :: ds, vs =>
    (if E.maxDepth ≤ depth + 1 then none else docValue (depth + 1) d).bind fun v ↦
      elementsValue depth ds (vs ++ [v])

/-- The map of some members and of members that follow. -/
def membersValue (depth : ℕ) :
    List (JsonName × JsonDoc) → List (List UInt8 × Value D) → Option (Value D)
  | [], ms => some (.map ms)
  | (k, d) :: rest, ms =>
    (nameKey E k.chars).bind fun key ↦
      (if E.maxDepth ≤ depth + 1 then none else docValue (depth + 1) d).bind fun v ↦
        if key ∈ ms.map Prod.fst then none else membersValue depth rest (ms ++ [(key, v)])

end

end Values

/-- Whether a text is that of an array or an object. -/
def JsonDoc.IsContainer : JsonDoc → Prop
  | .array _ _ => True
  | .object _ _ => True
  | _ => False

/-! ## What may follow a value -/

/-- The characters after which a value ends within an array or an object. -/
def EndsValue (c : UInt8) : Prop :=
  c = ','.toUInt8 ∨ c = ']'.toUInt8 ∨ c = '}'.toUInt8 ∨ isWsChar c = true

instance (c : UInt8) : Decidable (EndsValue c) := inferInstanceAs (Decidable (_ ∨ _))

theorem headIs_renderMoreElements (ds : List JsonDoc) : HeadIs EndsValue (renderMoreElements ds) := by
  cases ds with
  | nil => exact headIs_cons (by decide) []
  | cons d ds => exact headIs_cons (by decide) _

theorem headIs_renderMoreMembers (ms : List (JsonName × JsonDoc)) :
    HeadIs EndsValue (renderMoreMembers ms) := by
  cases ms with
  | nil => exact headIs_cons (by decide) []
  | cons m ms =>
    obtain ⟨k, d⟩ := m
    exact headIs_cons (by decide) _

end LatteC
