import Mathlib.Algebra.Order.Group.Nat
import Mathlib.Algebra.Order.Ring.Int
import Mathlib.Data.List.Basic
import Mathlib.Tactic.Ring
import Mathlib.Tactic.SplitIfs

/-!
# Blocks of memory

A block is the list of its cells. Every access says how far it reaches, and one that reaches past
the end is a fault. The lemmas split a block where a program does: the cells in front, the cells it
is about, the cells behind.
-/

namespace Block

variable {α : Type*}

/-- The `n` cells from `off` on. -/
def read (b : List α) (off n : ℕ) : Option (List α) :=
  if off + n ≤ b.length then some ((b.drop off).take n) else none

/-- Store `xs` from `off` on. -/
def write (b : List α) (off : ℕ) (xs : List α) : Option (List α) :=
  if off + xs.length ≤ b.length then some (b.take off ++ xs ++ b.drop (off + xs.length)) else none

/-- `memmove` inside one block. -/
def move (b : List α) (dst src n : ℕ) : Option (List α) := (read b src n).bind (write b dst)

theorem read_append (A X C : List α) : read (A ++ X ++ C) A.length X.length = some X := by
  rw [read, if_pos (by simp only [List.length_append]; omega), List.append_assoc, List.drop_left, List.take_left]

/-- Reading behind the first cells of a block. -/
theorem read_prefix_append (A : List α) {b xs : List α} {off n : ℕ} (h : read b off n = some xs) :
    read (A ++ b) (A.length + off) n = some xs := by
  rw [read] at h
  split_ifs at h with hfit
  rw [read, if_pos (by rw [List.length_append]; omega), List.drop_length_add_append]
  exact h

/-- Reading does not see what is behind a block. -/
theorem read_append_of_eq_some {b xs : List α} {off n : ℕ} (h : read b off n = some xs)
    (C : List α) : read (b ++ C) off n = some xs := by
  rw [read] at h
  split_ifs at h with hfit
  rw [read, if_pos (by rw [List.length_append]; omega), List.drop_append_of_le_length (by omega),
    List.take_append_of_le_length (by rw [List.length_drop]; omega)]
  exact h

/-- One of the cells that are read. -/
theorem getElem?_of_read {b xs : List α} {off n i : ℕ} (h : read b off n = some xs) (hi : i < n) :
    b[off + i]? = xs[i]? := by
  rw [read] at h
  split_ifs at h with hfit
  rw [← Option.some.inj h, List.getElem?_take_of_lt hi, List.getElem?_drop]

theorem write_append (A C : List α) {X Y : List α} (h : Y.length = X.length) :
    write (A ++ X ++ C) A.length Y = some (A ++ Y ++ C) := by
  have hdrop : (A ++ X ++ C).drop (A.length + Y.length) = C := by
    rw [h, ← List.length_append, List.drop_left]
  rw [write, if_pos (by simp only [List.length_append]; omega), hdrop, List.append_assoc A X C, List.take_left]

/-- Storing behind the first cells of a block. -/
theorem write_prefix_append (A : List α) {b b' xs : List α} {off : ℕ}
    (h : write b off xs = some b') : write (A ++ b) (A.length + off) xs = some (A ++ b') := by
  rw [write] at h
  split_ifs at h with hfit
  rw [write, if_pos (by rw [List.length_append]; omega), List.take_length_add_append, Nat.add_assoc,
    List.drop_length_add_append, ← Option.some.inj h]
  simp only [List.append_assoc]

/-- What a block holds up to the end of what was stored. -/
theorem write_of_le {b xs : List α} {off : ℕ} (h : off + xs.length ≤ b.length) :
    ∃ b', write b off xs = some b' ∧ b'.length = b.length ∧
      b'.take (off + xs.length) = b.take off ++ xs := by
  have hoff : (b.take off).length = off := by
    rw [List.length_take]
    omega
  refine ⟨_, by rw [write, if_pos h], ?_, ?_⟩
  · simp only [List.length_append, List.length_drop, hoff]
    omega
  · rw [List.take_append_of_le_length (by rw [List.length_append, hoff]),
      List.take_of_length_le (by rw [List.length_append, hoff])]

/-! ## Single cells -/

/-- The cell at a signed index. -/
def cell (b : List α) (i : ℤ) : Option α := if 0 ≤ i then b[i.toNat]? else none

/-- Store a cell at a signed index. -/
def setCell (b : List α) (i : ℤ) (x : α) : Option (List α) :=
  if 0 ≤ i ∧ i < b.length then some (b.set i.toNat x) else none

theorem cell_natCast (b : List α) (i : ℕ) : cell b i = b[i]? := if_pos (Int.natCast_nonneg i)

theorem cell_append (A : List α) (x : α) (C : List α) : cell (A ++ [x] ++ C) A.length = some x := by
  rw [cell_natCast, List.append_assoc, List.singleton_append,
    List.getElem?_append_right (le_refl _), Nat.sub_self]
  rfl

theorem setCell_natCast {b : List α} {i : ℕ} (h : i < b.length) (x : α) :
    setCell b i x = some (b.set i x) := if_pos ⟨Int.natCast_nonneg i, Int.ofNat_lt.mpr h⟩

/-! ## Moving -/

/-- Moving no cells changes nothing. -/
theorem move_zero {b : List α} {dst src : ℕ} (hdst : dst ≤ b.length) (hsrc : src ≤ b.length) :
    move b dst src 0 = some b := by
  rw [move, read, Nat.add_zero, if_pos hsrc, List.take_zero, Option.bind_some, write,
    List.length_nil, Nat.add_zero, if_pos hdst, List.append_nil, List.take_append_drop]

/-- Moving the tail `T` so that the gap in front of it is `k` cells wide. What the gap then holds
is left over. -/
theorem move_tail (A O T S : List α) {k : ℕ} (hk : k ≤ O.length + S.length) :
    ∃ X S', X.length = k ∧ S'.length + k = O.length + S.length ∧
      move (A ++ O ++ T ++ S) (A.length + k) (A.length + O.length) T.length =
        some (A ++ X ++ T ++ S') := by
  have hread : read (A ++ O ++ T ++ S) (A.length + O.length) T.length = some T := by
    rw [← List.length_append, read_append]
  have hfit : A.length + k + T.length ≤ (A ++ O ++ T ++ S).length := by
    simp only [List.length_append]
    omega
  refine ⟨(O ++ T ++ S).take k, (O ++ T ++ S).drop (k + T.length), ?_, ?_, ?_⟩
  · rw [List.length_take]
    simp only [List.length_append]
    omega
  · rw [List.length_drop]
    simp only [List.length_append]
    omega
  · rw [move, hread, Option.bind_some, write, if_pos hfit, List.append_assoc A O T,
      List.append_assoc A (O ++ T) S, List.take_length_add_append, Nat.add_assoc,
      List.drop_length_add_append]

/-- Moving `Y` up over what is behind it. -/
theorem move_up (A Y X T : List α) :
    ∃ Z, Z.length = X.length ∧
      move (A ++ (Y ++ (X ++ T))) (A.length + X.length) A.length Y.length =
        some (A ++ (Z ++ (Y ++ T))) := by
  have hread : read (A ++ (Y ++ (X ++ T))) A.length Y.length = some Y := by
    have := read_append A Y (X ++ T)
    rwa [List.append_assoc] at this
  refine ⟨(Y ++ X).take X.length, ?_, ?_⟩
  · rw [List.length_take, List.length_append]
    omega
  · have hfit : A.length + X.length + Y.length ≤ (A ++ (Y ++ (X ++ T))).length := by
      simp only [List.length_append]
      omega
    have htake : (Y ++ (X ++ T)).take X.length = (Y ++ X).take X.length := by
      rw [← List.append_assoc, List.take_append_of_le_length]
      rw [List.length_append]
      exact Nat.le_add_left _ _
    have hdrop : (Y ++ (X ++ T)).drop (X.length + Y.length) = T := by
      rw [← List.append_assoc, Nat.add_comm, ← List.length_append, List.drop_left]
    rw [move, hread, Option.bind_some, write, if_pos hfit, List.take_length_add_append, htake,
      Nat.add_assoc, List.drop_length_add_append, hdrop]
    simp only [List.append_assoc]

/-- Moving `Y` down over what is in front of it. -/
theorem move_down (A U Y T : List α) :
    ∃ T', move (A ++ (U ++ (Y ++ T))) A.length (A.length + U.length) Y.length =
      some (A ++ (Y ++ T')) := by
  have hread : read (A ++ (U ++ (Y ++ T))) (A.length + U.length) Y.length = some Y := by
    have := read_append (A ++ U) Y T
    rw [List.length_append] at this
    simpa using this
  have hfit : A.length + Y.length ≤ (A ++ (U ++ (Y ++ T))).length := by
    simp only [List.length_append]
    omega
  refine ⟨(U ++ (Y ++ T)).drop Y.length, ?_⟩
  rw [move, hread, Option.bind_some, write, if_pos hfit, List.take_left,
    List.drop_length_add_append, List.append_assoc]

/-! ## Allocation -/

/-- An allocator: what a new block of at least `n` cells holds. -/
structure Allocator (α : Type*) where
  block : ℕ → List α
  le_length : ∀ n, n ≤ (block n).length

/-- A block of zeros of exactly the size asked for is long enough. -/
theorem le_length_zeros (n : ℕ) : n ≤ (List.replicate n (0 : UInt8)).length := by
  rw [List.length_replicate]

theorem le_length_replicate (x : α) (n : ℕ) : n ≤ (List.replicate n x).length := by
  rw [List.length_replicate]

/-- Blocks that hold the same cell everywhere. -/
def Allocator.fill (x : α) : Allocator α := ⟨fun n ↦ List.replicate n x, le_length_replicate x⟩

/-- `realloc`: as much of the old block as fits, then new cells. -/
def Allocator.resize (M : Allocator α) (b : List α) (n : ℕ) : List α :=
  b.take n ++ (M.block n).drop (min n b.length)

/-- Everything in front of the new size survives. -/
theorem Allocator.resize_append (M : Allocator α) (P S : List α) {n : ℕ} (h : P.length ≤ n) :
    ∃ S', M.resize (P ++ S) n = P ++ S' ∧ n ≤ (P ++ S').length := by
  refine ⟨S.take (n - P.length) ++ (M.block n).drop (min n (P ++ S).length), ?_, ?_⟩
  · rw [resize, List.take_append, List.take_of_length_le h, List.append_assoc]
  · have hle := M.le_length n
    simp only [List.length_append, List.length_take, List.length_drop]
    omega

/-! ## Little endian -/

/-- The `w` lowest bytes of a number, the lowest first. -/
def leBytes : (w v : ℕ) → List UInt8
  | 0, _ => []
  | w + 1, v => UInt8.ofNat (v % 256) :: leBytes w (v / 256)

/-- The number whose bytes are given, the lowest first. -/
def leValue : List UInt8 → ℕ
  | [] => 0
  | b :: bs => b.toNat + 256 * leValue bs

@[simp] theorem length_leBytes (w v : ℕ) : (leBytes w v).length = w := by
  induction w generalizing v with
  | zero => rfl
  | succ w ih => rw [leBytes, List.length_cons, ih]

theorem leValue_leBytes {w v : ℕ} (h : v < 256 ^ w) : leValue (leBytes w v) = v := by
  induction w generalizing v with
  | zero =>
    rw [pow_zero] at h
    rw [leBytes, leValue]
    omega
  | succ w ih =>
    have hlow : (UInt8.ofNat (v % 256)).toNat = v % 256 := by simp
    rw [leBytes, leValue, hlow, ih (by rw [pow_succ] at h; omega)]
    omega

/-! ## Signed numbers -/

/-- The numbers that fit into `w` bytes, one bit of them for the sign. -/
def FitsBytes (w : ℕ) (v : ℤ) : Prop := -2 ^ (8 * w - 1) ≤ v ∧ v < 2 ^ (8 * w - 1)

instance (w : ℕ) (v : ℤ) : Decidable (FitsBytes w v) :=
  inferInstanceAs (Decidable (_ ∧ _))

/-- The two's complement of `v` in `w` bytes. -/
def leIntBytes (w : ℕ) (v : ℤ) : List UInt8 := leBytes w (v % 2 ^ (8 * w)).toNat

/-- The number whose two's complement is given. -/
def leIntValue (bs : List UInt8) : ℤ :=
  if leValue bs < 2 ^ (8 * bs.length - 1) then leValue bs else leValue bs - 2 ^ (8 * bs.length)

@[simp] theorem length_leIntBytes (w : ℕ) (v : ℤ) : (leIntBytes w v).length = w := length_leBytes _ _

theorem leIntValue_leIntBytes {w : ℕ} {v : ℤ} (hw : 0 < w) (h : FitsBytes w v) :
    leIntValue (leIntBytes w v) = v := by
  obtain ⟨hlow, hhigh⟩ := h
  -- `m` is the weight of the sign bit
  obtain ⟨m, hm⟩ : ∃ m : ℕ, 2 ^ (8 * w - 1) = m := ⟨_, rfl⟩
  have hdouble : (2 : ℕ) ^ (8 * w) = 2 * m := by
    rw [← hm, ← pow_succ']
    congr 1
    omega
  have hmZ : (2 : ℤ) ^ (8 * w - 1) = m := by rw [← hm]; norm_cast
  have hdoubleZ : (2 : ℤ) ^ (8 * w) = 2 * m := by
    have := congrArg (Nat.cast : ℕ → ℤ) hdouble
    push_cast at this
    exact this
  rw [hmZ] at hlow hhigh
  have hnonneg : 0 ≤ v % (2 * m) := Int.emod_nonneg v (by omega)
  have hlt : v % (2 * m) < 2 * m := Int.emod_lt_of_pos v (by omega)
  have hvalue : leValue (leIntBytes w v) = (v % (2 * m)).toNat := by
    rw [leIntBytes, hdoubleZ, leValue_leBytes]
    rw [show (256 : ℕ) = 2 ^ 8 by rfl, ← pow_mul, hdouble]
    omega
  rw [leIntValue, hvalue, length_leIntBytes, hm, hdoubleZ]
  rcases lt_or_ge v 0 with hneg | hpos
  · have hmod : v % (2 * m) = v + 2 * m := by
      rw [← Int.add_emod_right, Int.emod_eq_of_lt (by omega) (by omega)]
    rw [hmod, if_neg (by omega)]
    omega
  · have hmod : v % (2 * m) = v := Int.emod_eq_of_lt hpos (by omega)
    rw [hmod, if_pos (by omega)]
    omega

theorem FitsBytes.mono {w w' : ℕ} {v : ℤ} (h : FitsBytes w v) (hw : w ≤ w') : FitsBytes w' v := by
  have hpow : (2 : ℤ) ^ (8 * w - 1) ≤ 2 ^ (8 * w' - 1) :=
    pow_le_pow_right₀ (by norm_num) (by omega)
  exact ⟨le_trans (neg_le_neg hpow) h.1, lt_of_lt_of_le h.2 hpow⟩

/-! ## Records of one size -/

section Records

variable {β : Type*} {enc : β → List α} {w : ℕ}

theorem length_flatMap_records (henc : ∀ x, (enc x).length = w) (xs : List β) :
    (xs.flatMap enc).length = xs.length * w := by
  induction xs with
  | nil => simp
  | cons x xs ih =>
    rw [List.flatMap_cons, List.length_append, henc, ih, List.length_cons]
    ring

/-- The `i`-th record of a block of records. -/
theorem read_flatMap_records (henc : ∀ x, (enc x).length = w) {xs : List β} {i : ℕ} {x : β}
    (h : xs[i]? = some x) (S : List α) : read (xs.flatMap enc ++ S) (i * w) w = some (enc x) := by
  obtain ⟨hi, hx⟩ := List.getElem?_eq_some_iff.mp h
  have hsplit : xs.flatMap enc ++ S =
      (xs.take i).flatMap enc ++ enc x ++ ((xs.drop (i + 1)).flatMap enc ++ S) := by
    conv_lhs => rw [← List.take_append_drop i xs, List.drop_eq_getElem_cons hi, hx]
    simp
  have hoff : ((xs.take i).flatMap enc).length = i * w := by
    rw [length_flatMap_records henc, List.length_take, Nat.min_eq_left hi.le]
  have hread := read_append ((xs.take i).flatMap enc) (enc x) ((xs.drop (i + 1)).flatMap enc ++ S)
  rwa [hoff, henc, ← hsplit] at hread

end Records

end Block
