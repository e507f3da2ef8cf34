import LatteC.Foundation.ThreeWay
import LatteC.Sds.CString

/-!
# Values

`src/value/value.c`: the tagged union of the library, and `value_cmp` with the comparisons of
`src/cmp/cmp.c` and `src/vector/vector.c` behind it. Floating point numbers are left open, and with
them their comparison; so is `private_dict_cmp`, which has a module of its own.
-/

namespace LatteC

/-- `value_type_enum`. -/
inductive ValueType where
  | undefined
  | constantChar
  | sds
  | int
  | uint
  | double
  | boolean
  | array
  | map
  deriving DecidableEq

/-- The number of a constant of the enumeration. -/
def ValueType.toNat : ValueType → ℕ
  | undefined => 0
  | constantChar => 1
  | sds => 2
  | int => 3
  | uint => 4
  | double => 5
  | boolean => 6
  | array => 7
  | map => 8

theorem ValueType.toNat_injective : Function.Injective ValueType.toNat := by
  intro s t h
  cases s <;> cases t <;> first | rfl | exact absurd h (by decide)

/-- What a `value_t *` points to, or `null`. The members of a map are in the order of their insertion. -/
inductive Value (D : Type) where
  | null
  | undefined
  | constantChar (s : CString)
  | sds (s : List UInt8)
  | int (l : Int64)
  | uint (l : UInt64)
  | double (d : D)
  | boolean (b : Bool)
  | array (elements : List (Value D))
  | map (members : List (List UInt8 × Value D))

namespace Value

variable {D : Type}

/-- `v->type`, a fault at NULL. -/
def type : Value D → Option ValueType
  | null => none
  | undefined => some .undefined
  | constantChar _ => some .constantChar
  | sds _ => some .sds
  | int _ => some .int
  | uint _ => some .uint
  | double _ => some .double
  | boolean _ => some .boolean
  | array _ => some .array
  | map _ => some .map

end Value

/-! ## Comparing -/

/-- `private_str_cmp`. -/
def privateStrCmp (a b : CString) : ℤ := strcmp a.bytes b.bytes

/-- `private_int64_cmp`. -/
def privateInt64Cmp (a b : Int64) : ℤ := if b < a then 1 else if a < b then -1 else 0

/-- `private_uint64_cmp`. -/
def privateUint64Cmp (a b : UInt64) : ℤ := if b < a then 1 else if a < b then -1 else 0

/-- A difference of two sizes that is returned as an `int`. -/
def intOfSizes (m n : ℕ) : ℤ := ((m : ℤ) - n + 2 ^ 31) % 2 ^ 32 - 2 ^ 31

/-- The loop of `private_vector_cmp`, from some element on. -/
def privateVectorCmpLoop {α : Type} (cmp : α → α → Option ℤ) : List α → List α → Option ℤ
  | x :: xs, y :: ys => (cmp x y).bind fun r ↦ if r ≠ 0 then some r else privateVectorCmpLoop cmp xs ys
  | _, _ => some 0

/-- `private_vector_cmp`. -/
def privateVectorCmp {α : Type} (cmp : α → α → Option ℤ) (a b : List α) : Option ℤ :=
  if a.length ≠ b.length then some (intOfSizes a.length b.length) else privateVectorCmpLoop cmp a b

section ValueCmp

variable {D : Type} (longDoubleCmp : D → D → ℤ)
  (dictCmp : List (List UInt8 × Value D) → List (List UInt8 × Value D) → ℤ)

mutual

/-- `private_value_cmp`, which reads the types of both values first. -/
def privateValueCmp (a b : Value D) : Option ℤ :=
  match a.type, b.type with
  | some s, some t =>
    if s ≠ t then some ((s.toNat : ℤ) - t.toNat)
    else
      match a, b with
      | .undefined, _ => some 0
      | .constantChar x, .constantChar y => some (privateStrCmp x y)
      | .sds x, .sds y => some (sdsCmp x y)
      | .int x, .int y => some (privateInt64Cmp x y)
      | .uint x, .uint y => some (privateUint64Cmp x y)
      | .double x, .double y => some (longDoubleCmp x y)
      | .boolean x, .boolean y =>
        some (privateInt64Cmp (if x then 1 else 0) (if y then 1 else 0))
      | .array xs, .array ys =>
        if xs.length ≠ ys.length then some (intOfSizes xs.length ys.length)
        else privateValueCmpElements xs ys
      | .map x, .map y => some (dictCmp x y)
      | _, _ => none
  | _, _ => none

/-- The loop of `private_vector_cmp` with `value_cmp`. -/
def privateValueCmpElements : List (Value D) → List (Value D) → Option ℤ
  | x :: xs, y :: ys =>
    (privateValueCmp x y).bind fun r ↦ if r ≠ 0 then some r else privateValueCmpElements xs ys
  | _, _ => some 0

end

end ValueCmp

end LatteC
