import Mathlib.Data.List.Basic
import Mathlib.Data.List.Induction

/-!
# Arrays of slots

A C array of pointers: a fixed number of slots, some of them NULL, of which the first few are in use.
Reads and writes are checked, and the three loops that data structures run over such arrays (shift
up by one, shift down by one, copy a range) are recursions that perform one assignment after the
other. What they do is stated on a cut of the array into pieces: `P ++ M ++ R`.

Slots behind the ones in use keep whatever was last written there; `shiftDown_spec` says what it is.
-/

namespace SlotArray

variable {α : Type*}

/-- The pointer in slot `i`. A NULL pointer or a slot that is not there is a fault. -/
def read (a : List (Option α)) (i : ℕ) : Option α := a[i]?.join

/-- `a[i] = x`. A write past the last slot is a fault. -/
def write (a : List (Option α)) (i : ℕ) (x : Option α) : Option (List (Option α)) :=
  if i < a.length then some (a.set i x) else none

/-- `for (i = lo + n; i > lo; i--) a[i] = a[i - 1];` -/
def shiftUp (lo : ℕ) : (n : ℕ) → List (Option α) → Option (List (Option α))
  | 0, a => some a
  | n + 1, a => a[lo + n]?.bind fun x ↦ (write a (lo + n + 1) x).bind (shiftUp lo n)

/-- `for (i = lo; i < lo + n; i++) a[i] = a[i + 1];` -/
def shiftDown : (lo n : ℕ) → List (Option α) → Option (List (Option α))
  | _, 0, a => some a
  | lo, n + 1, a => a[lo + 1]?.bind fun x ↦ (write a lo x).bind (shiftDown (lo + 1) n)

/-- `for (i = 0; i < n; i++) a[d + i] = src[s + i];` -/
def copy (src : List (Option α)) : (s d n : ℕ) → List (Option α) → Option (List (Option α))
  | _, _, 0, a => some a
  | s, d, n + 1, a => src[s]?.bind fun x ↦ (write a d x).bind (copy src (s + 1) (d + 1) n)

/-! ## One slot -/

variable {P M R : List (Option α)} {x y z : Option α}

@[simp] theorem getElem?_mid (P R : List (Option α)) (x : Option α) :
    (P ++ x :: R)[P.length]? = some x := by
  rw [List.getElem?_append_right (Nat.le_refl _), Nat.sub_self, List.getElem?_cons_zero]

@[simp] theorem read_mid (P R : List (Option α)) (x : α) : read (P ++ some x :: R) P.length = x := by
  rw [read, getElem?_mid, Option.join_some]

@[simp] theorem write_mid (P R : List (Option α)) (x z : Option α) :
    write (P ++ x :: R) P.length z = some (P ++ z :: R) := by
  rw [write, if_pos (by simp), List.set_append_right _ _ (Nat.le_refl _), Nat.sub_self, List.set_cons_zero]

/-- Reading one of the slots in use. -/
theorem read_map_some {xs : List α} {i : ℕ} {x : α} (h : xs[i]? = some x) (R : List (Option α)) :
    read (xs.map some ++ R) i = some x := by
  have hlt : i < (xs.map some).length := by
    rw [List.length_map]
    exact (List.getElem?_eq_some_iff.mp h).1
  rw [read, List.getElem?_append_left hlt, List.getElem?_map, h]
  rfl

/-! ## Loops -/

/-- Shifting up makes room in slot `lo`, at the price of the slot behind the range. -/
theorem shiftUp_spec : ∀ (M : List (Option α)) (P R : List (Option α)) (y : Option α),
    ∃ x, shiftUp P.length M.length (P ++ M ++ y :: R) = some (P ++ x :: (M ++ R)) := by
  intro M
  induction M using List.reverseRecOn with
  | nil => exact fun P R y ↦ ⟨y, by simp [shiftUp]⟩
  | append_singleton M m ih =>
    intro P R y
    obtain ⟨x, hx⟩ := ih P (m :: R) m
    refine ⟨x, ?_⟩
    have hread : (P ++ (M ++ [m]) ++ y :: R)[P.length + M.length]? = some m := by simp
    have hwrite : write (P ++ (M ++ [m]) ++ y :: R) (P.length + M.length + 1) m =
        some (P ++ M ++ m :: m :: R) := by
      have := write_mid (P ++ M ++ [m]) R y m
      rw [List.length_append, List.length_append] at this
      simpa using this
    rw [List.length_append, List.length_singleton, shiftUp, hread, Option.bind_some, hwrite,
      Option.bind_some, hx, List.append_assoc M, List.singleton_append]

/-- Shifting down removes slot `lo`. The last slot of the range is left as it was. -/
theorem shiftDown_spec : ∀ (M : List (Option α)) (P R : List (Option α)) (x : Option α),
    shiftDown P.length M.length (P ++ x :: (M ++ R)) =
      some (P ++ (M ++ (x :: M).getLast (List.cons_ne_nil x M) :: R)) := by
  intro M
  induction M with
  | nil => exact fun P R x ↦ by simp [shiftDown]
  | cons m M ih =>
    intro P R x
    have hread : (P ++ x :: (m :: M ++ R))[P.length + 1]? = some m := by simp
    have hih := ih (P ++ [m]) R m
    rw [List.length_append, List.length_singleton] at hih
    rw [List.length_cons, shiftDown, hread, Option.bind_some, write_mid, Option.bind_some]
    simpa using hih

/-- Copying overwrites as many slots as it reads. -/
theorem copy_spec : ∀ (M A B P Q R : List (Option α)), Q.length = M.length →
    copy (A ++ M ++ B) A.length P.length M.length (P ++ Q ++ R) = some (P ++ M ++ R) := by
  intro M
  induction M with
  | nil =>
    intro A B P Q R hQ
    rw [List.length_nil, List.length_eq_zero_iff] at hQ
    rw [hQ, List.length_nil, copy]
  | cons m M ih =>
    intro A B P Q R hQ
    obtain ⟨q, Q, rfl⟩ := List.exists_cons_of_length_eq_add_one hQ
    have hread : (A ++ m :: M ++ B)[A.length]? = some m := by
      rw [List.append_assoc, List.cons_append, getElem?_mid]
    have hwrite : write (P ++ q :: Q ++ R) P.length m = some (P ++ m :: Q ++ R) := by
      rw [List.append_assoc, List.cons_append, write_mid, List.append_assoc, List.cons_append]
    have hih := ih (A ++ [m]) B (P ++ [m]) Q R (by simpa using hQ)
    rw [List.length_append, List.length_append, List.length_singleton] at hih
    rw [List.length_cons, copy, hread, Option.bind_some, hwrite, Option.bind_some]
    simpa using hih

/-! ## The slots in use

`Holds cap a xs` says that `a` has `cap` slots, of which the first ones hold `xs`. -/

/-- The array has `cap` slots and starts with the elements `xs`. -/
def Holds (cap : ℕ) (a : List (Option α)) (xs : List α) : Prop :=
  a.length = cap ∧ ∃ R, a = xs.map some ++ R

namespace Holds

variable {cap : ℕ} {a : List (Option α)} {xs X Y : List α} {x y z : α}

theorem replicate (cap : ℕ) : Holds cap (List.replicate cap (none : Option α)) [] :=
  ⟨List.length_replicate, _, rfl⟩

theorem length_le (h : Holds cap a xs) : xs.length ≤ cap := by
  obtain ⟨hlen, R, rfl⟩ := h
  rw [← hlen, List.length_append, List.length_map]
  exact Nat.le_add_right _ _

/-- Fewer slots may be considered to be in use. -/
theorem of_append (h : Holds cap a (X ++ Y)) : Holds cap a X := by
  obtain ⟨hlen, R, rfl⟩ := h
  exact ⟨hlen, Y.map some ++ R, by rw [List.map_append, List.append_assoc]⟩

theorem take (h : Holds cap a xs) : a.take xs.length = xs.map some := by
  obtain ⟨-, R, rfl⟩ := h
  rw [List.take_append_of_le_length (by simp), List.take_of_length_le (by simp)]

theorem read (h : Holds cap a (X ++ x :: Y)) : SlotArray.read a X.length = some x := by
  obtain ⟨-, R, rfl⟩ := h
  exact read_map_some (by rw [List.getElem?_append_right (Nat.le_refl _)]; simp) R

theorem read_of_getElem? (h : Holds cap a xs) {i : ℕ} (hx : xs[i]? = some x) :
    SlotArray.read a i = some x := by
  obtain ⟨-, R, rfl⟩ := h
  exact read_map_some hx R

/-- Overwriting a slot in use. -/
theorem write (h : Holds cap a (X ++ x :: Y)) (z : α) :
    ∃ a', SlotArray.write a X.length (some z) = some a' ∧ Holds cap a' (X ++ z :: Y) := by
  obtain ⟨hlen, R, rfl⟩ := h
  refine ⟨(X ++ z :: Y).map some ++ R, ?_, ?_, R, rfl⟩
  · have := write_mid (X.map some) (Y.map some ++ R) (some x) (some z)
    rw [List.length_map] at this
    simpa using this
  · simpa using hlen

/-- Overwriting two neighbours. -/
theorem write₂ (h : Holds cap a (X ++ x :: y :: Y)) (z w : α) :
    ∃ a₁ a₂, SlotArray.write a X.length (some z) = some a₁ ∧
      SlotArray.write a₁ (X.length + 1) (some w) = some a₂ ∧ Holds cap a₂ (X ++ z :: w :: Y) := by
  obtain ⟨a₁, hwrite₁, h₁⟩ := h.write z
  rw [← List.singleton_append, ← List.append_assoc] at h₁
  obtain ⟨a₂, hwrite₂, h₂⟩ := h₁.write w
  rw [List.length_append, List.length_singleton] at hwrite₂
  exact ⟨a₁, a₂, hwrite₁, hwrite₂, by simpa using h₂⟩

/-- A slot behind the ones in use. -/
theorem exists_free (h : Holds cap a xs) (hlt : xs.length < cap) :
    ∃ y R, a = xs.map some ++ y :: R := by
  obtain ⟨hlen, R, rfl⟩ := h
  rw [List.length_append, List.length_map] at hlen
  obtain ⟨y, R', hR⟩ := List.exists_cons_of_length_pos (l := R) (by omega)
  exact ⟨y, R', by rw [hR]⟩

/-- Writing the first free slot. -/
theorem push (h : Holds cap a xs) (hlt : xs.length < cap) (z : α) :
    ∃ a', SlotArray.write a xs.length (some z) = some a' ∧ Holds cap a' (xs ++ [z]) := by
  obtain ⟨y, R, rfl⟩ := h.exists_free hlt
  refine ⟨(xs ++ [z]).map some ++ R, ?_, ?_, R, rfl⟩
  · have := write_mid (xs.map some) R y (some z)
    rw [List.length_map] at this
    simpa using this
  · simpa using h.1

/-- Shifting up and writing inserts an element, at the price of the slot behind the range. -/
private theorem insert_slot (P M R : List (Option α)) (y : Option α) (z : α) :
    ∃ a₁, shiftUp P.length M.length (P ++ M ++ y :: R) = some a₁ ∧
      SlotArray.write a₁ P.length (some z) = some (P ++ some z :: (M ++ R)) := by
  obtain ⟨x, hx⟩ := shiftUp_spec M P R y
  exact ⟨_, hx, write_mid _ _ _ _⟩

/-- Shifting up and writing inserts an element, if there is a free slot. -/
theorem insert (h : Holds cap a (X ++ Y)) (hlt : (X ++ Y).length < cap) (z : α) :
    ∃ a₁ a₂, shiftUp X.length Y.length a = some a₁ ∧
      SlotArray.write a₁ X.length (some z) = some a₂ ∧ Holds cap a₂ (X ++ z :: Y) := by
  obtain ⟨y, R, ha⟩ := h.exists_free hlt
  obtain ⟨a₁, hshift, hwrite⟩ := insert_slot (X.map some) (Y.map some) R y z
  rw [← List.map_append, ← ha, List.length_map, List.length_map] at hshift
  rw [List.length_map] at hwrite
  refine ⟨a₁, _, hshift, hwrite, ?_, R, by simp⟩
  have hlen := h.1
  rw [ha] at hlen
  rw [← hlen]
  simp only [List.length_append, List.length_cons, List.length_map]
  omega

/-- The same over a slot in use, whose element is lost. -/
theorem insert_over {W : List α} (h : Holds cap a (X ++ Y ++ y :: W)) (z : α) :
    ∃ a₁ a₂, shiftUp X.length Y.length a = some a₁ ∧
      SlotArray.write a₁ X.length (some z) = some a₂ ∧ Holds cap a₂ (X ++ z :: (Y ++ W)) := by
  obtain ⟨hlen, R, ha⟩ := h
  obtain ⟨a₁, hshift, hwrite⟩ :=
    insert_slot (X.map some) (Y.map some) (W.map some ++ R) (some y) z
  have ha' : a = X.map some ++ Y.map some ++ some y :: (W.map some ++ R) := by simp [ha]
  rw [← ha', List.length_map, List.length_map] at hshift
  rw [List.length_map] at hwrite
  refine ⟨a₁, _, hshift, hwrite, ?_, R, by simp⟩
  rw [← hlen, ha']
  simp only [List.length_append, List.length_cons, List.length_map]
  omega

/-- Shifting down removes an element. Its former neighbour, or itself if it was the last, stays behind
in the slot after the ones in use. -/
theorem remove (h : Holds cap a (X ++ x :: Y)) :
    ∃ a', shiftDown X.length Y.length a = some a' ∧
      Holds cap a' (X ++ (Y ++ [(x :: Y).getLast (List.cons_ne_nil x Y)])) := by
  obtain ⟨hlen, R, rfl⟩ := h
  have hspec := shiftDown_spec (Y.map some) (X.map some) R (some x)
  rw [List.length_map, List.length_map] at hspec
  have hlast : (some x :: Y.map some).getLast (List.cons_ne_nil _ _) =
      some ((x :: Y).getLast (List.cons_ne_nil x Y)) := by
    have := List.getLast_map (f := some) (l := x :: Y) (h := by simp)
    simpa using this
  rw [hlast] at hspec
  refine ⟨_, ?_, ?_, R, rfl⟩
  · simpa using hspec
  · rw [← hlen]
    simp only [List.length_append, List.length_map, List.length_cons, List.length_nil]

/-- Copying a range of elements in use into an array, from its slot `d` on. -/
theorem copy {cap' : ℕ} {b : List (Option α)} {Z : List α} (h : Holds cap a (X ++ Y ++ Z))
    {W : List α} (hb : Holds cap' b W) (hfit : W.length + Y.length ≤ cap') :
    ∃ b', SlotArray.copy a X.length W.length Y.length b = some b' ∧ Holds cap' b' (W ++ Y) := by
  obtain ⟨-, R, rfl⟩ := h
  obtain ⟨hlen, Q, rfl⟩ := hb
  rw [List.length_append, List.length_map] at hlen
  have hspec := copy_spec (Y.map some) (X.map some) (Z.map some ++ R) (W.map some)
    (Q.take Y.length) (Q.drop Y.length) (by rw [List.length_take, List.length_map]; omega)
  rw [List.length_map, List.length_map, List.length_map, List.append_assoc (W.map some),
    List.take_append_drop] at hspec
  refine ⟨_, ?_, ?_, Q.drop Y.length, rfl⟩
  · simpa using hspec
  · simp only [List.length_append, List.length_map, List.length_drop]
    omega

end Holds

end SlotArray
