import Mathlib.Data.List.Basic
import Mathlib.Tactic.SplitIfs

/-!
# Literals and back references

A text as a list of tokens: some items as they are, or a number of items that are copied from a distance back.
A copy may be longer than its distance, and then reads what it has written itself.

The compressor's side is `copyBack_take`: a reference whose items have been compared takes a first part of a
text to a longer one. Nothing else is needed about the copy, overlapping or not.
-/

namespace Lz77

variable {α : Type*}

/-- Append `n` items, each the one `d` back. -/
def copyBack (d : ℕ) : (n : ℕ) → List α → Option (List α)
  | 0, acc => some acc
  | n + 1, acc =>
    if d = 0 then none
    else if acc.length < d then none
    else acc[acc.length - d]?.bind fun x ↦ copyBack d n (acc ++ [x])

/-- A piece of a text. -/
inductive Token (α : Type*)
  | lit (xs : List α)
  | ref (d n : ℕ)

/-- The text behind a token. -/
def Token.extend : Token α → List α → Option (List α)
  | .lit xs, acc => some (acc ++ xs)
  | .ref d n, acc => copyBack d n acc

/-- The text behind some tokens. -/
def expand : (ts : List (Token α)) → List α → Option (List α)
  | [], acc => some acc
  | t :: ts, acc => (t.extend acc).bind (expand ts)

@[simp] theorem expand_nil (acc : List α) : expand [] acc = some acc := rfl

theorem expand_cons (t : Token α) (ts : List (Token α)) (acc : List α) :
    expand (t :: ts) acc = (t.extend acc).bind (expand ts) := rfl

theorem expand_append (ts us : List (Token α)) (acc : List α) :
    expand (ts ++ us) acc = (expand ts acc).bind (expand us) := by
  induction ts generalizing acc with
  | nil => rfl
  | cons t ts ih => rw [List.cons_append, expand_cons, expand_cons, Option.bind_assoc, funext ih]

/-- One token more. -/
theorem expand_snoc {ts : List (Token α)} {acc text : List α} (h : expand ts acc = some text) (t : Token α) :
    expand (ts ++ [t]) acc = t.extend text := by
  rw [expand_append, h, Option.bind_some, expand_cons]
  exact Option.bind_fun_some _

theorem copyBack_succ {d : ℕ} {acc : List α} {x : α} (hpos : 0 < d) (hle : d ≤ acc.length)
    (hx : acc[acc.length - d]? = some x) (n : ℕ) : copyBack d (n + 1) acc = copyBack d n (acc ++ [x]) := by
  rw [copyBack, if_neg (Nat.pos_iff_ne_zero.mp hpos), if_neg (Nat.not_lt.mpr hle), hx, Option.bind_some]

/-- A copy of a distance that is there has a result, which goes on from the text. -/
theorem exists_copyBack {d : ℕ} {acc : List α} (hpos : 0 < d) (hle : d ≤ acc.length) (n : ℕ) :
    ∃ xs, copyBack d n acc = some (acc ++ xs) ∧ xs.length = n := by
  induction n generalizing acc with
  | zero => exact ⟨[], by rw [copyBack, List.append_nil], rfl⟩
  | succ n ih =>
    have hlt : acc.length - d < acc.length := by omega
    obtain ⟨x, hx⟩ : ∃ x, acc[acc.length - d]? = some x := ⟨_, List.getElem?_eq_getElem hlt⟩
    have hle' : d ≤ (acc ++ [x]).length := by
      rw [List.length_append]
      exact Nat.le_add_right_of_le hle
    obtain ⟨xs, hxs, hlen⟩ := ih hle'
    exact ⟨x :: xs, by rw [copyBack_succ hpos hle hx, hxs, List.append_assoc]; rfl,
      by rw [List.length_cons, hlen]⟩

/-- **A match that was compared.** When the `n` items behind the first `i` are those `d` before them, copying
takes the first `i` items of a text to the first `i + n`. -/
theorem copyBack_take {text : List α} {d i n : ℕ} (hpos : 0 < d) (hle : d ≤ i) (hfit : i + n ≤ text.length)
    (hmatch : ∀ j < n, text[i - d + j]? = text[i + j]?) :
    copyBack d n (text.take i) = some (text.take (i + n)) := by
  induction n generalizing i with
  | zero => rfl
  | succ n ih =>
    have hi : i < text.length := by omega
    have hlen : (text.take i).length = i := List.length_take_of_le (Nat.le_of_lt hi)
    have hx : (text.take i)[(text.take i).length - d]? = some text[i] := by
      have := hmatch 0 (Nat.succ_pos n)
      rw [Nat.add_zero, Nat.add_zero, List.getElem?_eq_getElem hi] at this
      rw [hlen, List.getElem?_take_of_lt (by omega), this]
    have hmatch' : ∀ j < n, text[i + 1 - d + j]? = text[i + 1 + j]? := fun j hj ↦ by
      have := hmatch (j + 1) (Nat.succ_lt_succ hj)
      rwa [show i - d + (j + 1) = i + 1 - d + j by omega, show i + (j + 1) = i + 1 + j by omega] at this
    rw [copyBack_succ hpos (by rw [hlen]; exact hle) hx, List.take_append_getElem hi,
      ih (by omega) (by omega) hmatch', show i + 1 + n = i + (n + 1) by omega]

/-- A copy that does not overlap what it writes. -/
theorem copyBack_of_le {d n : ℕ} {acc : List α} (hn : n ≤ d) (hpos : 0 < d) (hle : d ≤ acc.length) :
    copyBack d n acc = some (acc ++ (acc.drop (acc.length - d)).take n) := by
  have hlen : ((acc.drop (acc.length - d)).take n).length = n := by
    rw [List.length_take, List.length_drop]
    omega
  have hfit : acc.length + n ≤ (acc ++ (acc.drop (acc.length - d)).take n).length :=
    Nat.le_of_eq (by rw [List.length_append, hlen])
  have hcopy := copyBack_take hpos hle hfit fun j hj ↦ by
    rw [List.getElem?_append_left (by omega), List.getElem?_append_right (Nat.le_add_right _ _),
      Nat.add_sub_cancel_left, List.getElem?_take_of_lt hj, List.getElem?_drop]
  rwa [List.take_left, List.take_of_length_le (Nat.le_of_eq (by rw [List.length_append, hlen]))] at hcopy

/-- How much longer a token makes a text. -/
def Token.size : Token α → ℕ
  | .lit xs => xs.length
  | .ref _ n => n

theorem Token.length_extend {t : Token α} {acc text : List α} (h : t.extend acc = some text) :
    text.length = acc.length + t.size := by
  cases t with
  | lit xs =>
    obtain rfl := Option.some.inj h
    exact List.length_append
  | ref d n =>
    rw [extend] at h
    rw [size]
    induction n generalizing acc with
    | zero =>
      obtain rfl := Option.some.inj h
      rfl
    | succ n ih =>
      rw [copyBack] at h
      split_ifs at h
      obtain ⟨x, -, h⟩ := Option.bind_eq_some_iff.mp h
      rw [ih h, List.length_append, List.length_singleton]
      omega

theorem length_le_of_expand {ts : List (Token α)} {acc text : List α} (h : expand ts acc = some text) :
    acc.length ≤ text.length := by
  induction ts generalizing acc with
  | nil =>
    obtain rfl := Option.some.inj h
    exact Nat.le_refl _
  | cons t ts ih =>
    obtain ⟨longer, hextend, h⟩ := Option.bind_eq_some_iff.mp h
    have hle := ih h
    rw [Token.length_extend hextend] at hle
    exact Nat.le_trans (Nat.le_add_right _ _) hle

end Lz77
