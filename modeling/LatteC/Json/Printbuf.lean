import Mathlib.Data.Nat.Basic
import Mathlib.Tactic.SplitIfs

/-!
# The print buffer of the JSON tokener

`json_printbuf_t` of `src/json/latte_json.c`, by its two numbers: the memory that it has and the characters
that it holds. It grows with what is appended, up to a limit within a few bytes of `INT_MAX`; how far it gets
there depends on how it has grown before.
-/

namespace LatteC

/-- `INT_MAX`. -/
def intMax : ℕ := 2147483647

/-- `size` and `bpos` of `json_printbuf_t`. -/
structure JsonPrintbuf where
  size : ℕ
  bpos : ℕ

/-- `json_printbuf_new`. -/
def jsonPrintbufNew : JsonPrintbuf := ⟨32, 0⟩

theorem size_jsonPrintbufNew_le : jsonPrintbufNew.size ≤ intMax := by decide

/-- `json_printbuf_extend`. `realloc` is taken to give the memory, for a buffer that comes from `zmalloc`. -/
def jsonPrintbufExtend (p : JsonPrintbuf) (minSize : ℕ) : Option JsonPrintbuf :=
  if minSize ≤ p.size then some p
  else if intMax - 8 < minSize then none
  else if intMax / 2 < p.size then some { p with size := minSize + 8 }
  else some { p with size := if p.size * 2 < minSize + 8 then minSize + 8 else p.size * 2 }

/-- `json_printbuf_memappend` of so many characters. -/
def jsonPrintbufMemappend (p : JsonPrintbuf) (size : ℕ) : Option JsonPrintbuf :=
  if intMax - p.bpos - 1 < size then none
  else
    (if p.size ≤ p.bpos + size + 1 then jsonPrintbufExtend p (p.bpos + size + 1) else some p).map
      fun p ↦ { p with bpos := p.bpos + size }

variable {p q : JsonPrintbuf} {size : ℕ}

/-- A buffer that has grown past `INT_MAX - 8` does not grow any more. Up to there it always grows. -/
theorem jsonPrintbufMemappend_eq_some (hp : p.size ≤ intMax) (h : jsonPrintbufMemappend p size = some q) :
    q.bpos = p.bpos + size ∧ q.size ≤ intMax ∧
      (p.size ≤ intMax - 8 ∧ p.bpos + size ≤ intMax - 9 ∨
        q.size = p.size ∧ p.bpos + size < p.size) := by
  have hmax : intMax = 2147483647 := rfl
  rw [jsonPrintbufMemappend] at h
  split_ifs at h with hint hsize
  · obtain ⟨q', hextend, rfl⟩ := Option.map_eq_some_iff.mp h
    rw [jsonPrintbufExtend] at hextend
    split_ifs at hextend <;> cases hextend
    · exact ⟨rfl, hp, .inr ⟨rfl, by omega⟩⟩
    · exact ⟨rfl, by simp only; omega, .inl ⟨by omega, by omega⟩⟩
    · exact ⟨rfl, by simp only; omega, .inl ⟨by omega, by omega⟩⟩
    · exact ⟨rfl, by simp only; omega, .inl ⟨by omega, by omega⟩⟩
  · cases h
    exact ⟨rfl, hp, .inr ⟨rfl, by omega⟩⟩

theorem jsonPrintbufMemappend_eq_none (hp : p.size ≤ intMax) (h : jsonPrintbufMemappend p size = none) :
    intMax - 9 < p.bpos + size ∧ p.size ≤ p.bpos + size := by
  have hmax : intMax = 2147483647 := rfl
  rw [jsonPrintbufMemappend] at h
  split_ifs at h with hint hsize
  · omega
  · rw [Option.map_eq_none_iff, jsonPrintbufExtend] at h
    split_ifs at h
    omega
  · cases h

/-- How many characters the buffer takes, given that it does not grow any more. -/
def JsonPrintbuf.room (p : JsonPrintbuf) : ℕ := max (intMax - 9) (p.size - 1)

theorem le_room (p : JsonPrintbuf) : intMax - 9 ≤ p.room := le_max_left _ _

theorem room_lt (hp : p.size ≤ intMax) : p.room < intMax := by
  have hmax : intMax = 2147483647 := rfl
  rw [JsonPrintbuf.room]
  omega

theorem room_eq (p : JsonPrintbuf) (h : intMax - 8 < p.size) : p.room = p.size - 1 := by
  rw [JsonPrintbuf.room]
  omega

end LatteC
