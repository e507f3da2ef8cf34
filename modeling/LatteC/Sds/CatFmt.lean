import LatteC.Sds.Basic
import LatteC.Sds.Number
import LatteC.Sds.Refinement

/-!
# Formats

`sds_cat_fmt` of `src/sds/sds.c`. The scanner goes over the bytes of the format up to its NUL and stores behind
the content, and the string moves whenever there is no room. The memory of a format ends with its NUL, so that
reading on behind it is a fault. The arguments are what the pointers point to, and none of them points into the
string itself.
-/

namespace LatteC

open Block Decimal

/-! ## Arguments -/

/-- Bytes in memory: there are no more of them than a `size_t` counts. -/
structure MemBytes where
  bytes : List UInt8
  length_lt : bytes.length < 2 ^ 64

/-- An argument behind the format. -/
inductive FmtArg where
  /-- A C string. -/
  | cstr (str : MemBytes)
  /-- An `sds_t`. -/
  | sds (str : MemBytes)
  | int (num : Int32)
  | longLong (num : Int64)
  | unsignedInt (unum : UInt32)
  | unsignedLongLong (unum : UInt64)

/-- The cases of the inner switch. -/
inductive FmtCase where
  | s
  | capitalS
  | i
  | capitalI
  | u
  | capitalU
  /-- `%%` and generally `%<unknown>`. -/
  | verbatim
  deriving DecidableEq, Repr

namespace Sds

end Sds

/-! ## What a format means -/

/-- The text of an argument of the type that a directive asks for. -/
def FmtCase.text : FmtCase → FmtArg → Option (List UInt8)
  | .s, .cstr str => some (cString str.bytes)
  | .capitalS, .sds str => some str.bytes
  | .i, .int num => some (numeral num.toInt)
  | .capitalI, .longLong num => some (numeral num.toInt)
  | .u, .unsignedInt unum => some (natNumeral unum.toNat)
  | .capitalU, .unsignedLongLong unum => some (natNumeral unum.toNat)
  | _, _ => none

namespace Sds

/-- Some request for memory is refused. -/
def Refused (M : ℕ → Zmalloc) : Prop := ∃ k n, (M k).malloc n = none

/-- A call leaves a string as described, or it runs into a fault, or the program is stopped. Which of the first
two it is, `lone` says. -/
def FmtOutcome (M : ℕ → Zmalloc) (tooLarge lone : Prop) (post : Sds → Prop) : SdsResult Sds → Prop
  | .ok s => ¬lone ∧ post s
  | .error .assert => tooLarge
  | .error .oom => Refused M
  | .error .null => False
  | .error .fault => lone

theorem FmtOutcome.mono {M : ℕ → Zmalloc} {big big' lone lone' : Prop} {post post' : Sds → Prop}
    {r : SdsResult Sds} (h : FmtOutcome M big lone post r) (hbig : big → big') (hlone : lone ↔ lone')
    (hpost : ∀ s, post s → post' s) : FmtOutcome M big' lone' post' r := by
  cases r with
  | ok s => exact ⟨mt hlone.mpr h.1, hpost s h.2⟩
  | error e =>
    cases e with
    | assert => exact hbig h
    | oom => exact h
    | null => exact h
    | fault => exact hlone.mp h

/-! ## Storing behind the content -/

/-- The content begins with `b`, there is room for `room` more bytes, and what stands behind `b` is not
known. -/
def Begun (room : ℕ) (b : List UInt8) (s : Sds) : Prop :=
  ∃ t alloc buf, s = rep t b.length alloc buf ∧ Fits t b.length alloc buf ∧
    buf.take b.length = b ∧ b.length + room ≤ alloc

section Begun

variable {M : Zmalloc} {s : Sds} {b : List UInt8} {room : ℕ}

theorem Begun.mono {n : ℕ} (h : Begun room b s) (hn : n ≤ room) : Begun n b s := by
  obtain ⟨t, alloc, buf, hs, hfits, hbuf, hroom⟩ := h
  exact ⟨t, alloc, buf, hs, hfits, hbuf, le_trans (Nat.add_le_add_left hn _) hroom⟩

theorem Begun.len_eq (h : Begun room b s) : s.len = .ok b.length := by
  obtain ⟨t, alloc, buf, rfl, hfits, -⟩ := h
  exact len_rep hfits.len_max

/-- The NUL makes a string of it. -/
theorem Begun.terminate (h : Begun room b s) : ∃ s', s.store b.length [0] = .ok s' ∧ Holds s' b := by
  obtain ⟨t, alloc, buf, rfl, hfits, hbuf, -⟩ := h
  obtain ⟨s', hstore, hholds⟩ := hfits.terminate
  rw [hbuf] at hholds
  exact ⟨s', hstore, hholds⟩

end Begun

/-! ## The loop -/

section Loop

variable {M : ℕ → Zmalloc} {k i : ℕ} {s : Sds} {b f : List UInt8} {ap : List FmtArg}

/-- What is stored first belongs to the text. -/
theorem FmtOutcome.behind {xs rest : List UInt8} {n m : ℕ} {lone lone' : Prop} {r : SdsResult Sds}
    (h : FmtOutcome M (2 ^ 64 ≤ (b ++ xs).length + rest.length + n + maxPrealloc + 18) lone
      (Holds · (b ++ xs ++ rest)) r) (hn : n ≤ m) (hlone : lone ↔ lone') :
    FmtOutcome M (2 ^ 64 ≤ b.length + (xs ++ rest).length + m + maxPrealloc + 18) lone'
      (Holds · (b ++ (xs ++ rest))) r := by
  rw [List.length_append, List.append_assoc] at h
  rw [List.length_append]
  exact h.mono (by omega) hlone fun _ ↦ id

end Loop

end Sds

end LatteC
