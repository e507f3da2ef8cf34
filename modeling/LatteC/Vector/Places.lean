import LatteC.Vector.Basic

/-!
# Places in a vector

`vector_add` and `vector_remove` of `src/vector/vector.c`, of vectors with gaps: to remove an element is to
set its places to `NULL`, and a new one takes the first place that is free. `NULL` is `none`.
-/

namespace LatteC

open Block

variable {β : Type}

/-- The loop of `vector_add`: the place it returns, and the array. -/
def vectorAddLoop (element : Option β) :
    (k i : ℕ) → (data : List (Option β)) → Option (Option (ℕ × List (Option β)))
  | 0, _, _ => some none
  | k + 1, i, data =>
    (data[i]?).bind fun x ↦
      if x = none then (write data i [element]).map fun data ↦ some (i, data)
      else vectorAddLoop element k (i + 1) data

/-- `vector_add`, with what it returns. -/
def vectorAdd (M : Allocator (Option β)) (v : LatteVector (Option β)) (element : Option β) :
    Option (LatteVector (Option β) × ℕ) :=
  (vectorAddLoop element v.count 0 v.data).bind fun found ↦
    match found with
    | some (i, data) => some ({ v with data := data }, i)
    | none => (vectorPush M v element).map fun v ↦ (v, v.count - 1)

theorem getElem?_length_append (A : List (Option β)) (x : Option β) (C : List (Option β)) :
    (A ++ x :: C)[A.length]? = some x := by
  rw [List.getElem?_append_right (le_refl _), Nat.sub_self]
  rfl

theorem vectorAddLoop_of_notMem (element : Option β) (A xs C : List (Option β)) (hxs : none ∉ xs) :
    vectorAddLoop element xs.length A.length (A ++ (xs ++ C)) = some none := by
  induction xs generalizing A with
  | nil => rfl
  | cons x xs ih =>
    have hget : (A ++ (x :: xs ++ C))[A.length]? = some x := getElem?_length_append A x (xs ++ C)
    have hx : x ≠ none := fun hx ↦ hxs (hx ▸ List.mem_cons_self)
    have h := ih (A ++ [x]) fun hmem ↦ hxs (List.mem_cons_of_mem x hmem)
    rw [List.length_append, List.length_singleton, List.append_assoc] at h
    rw [List.length_cons, vectorAddLoop, hget, Option.bind_some, if_neg hx]
    exact h

/-- The first place that is free is taken. -/
theorem vectorAddLoop_of_free (element : Option β) (A xs C : List (Option β)) (k : ℕ) (hxs : none ∉ xs) :
    vectorAddLoop element (xs.length + (k + 1)) A.length (A ++ (xs ++ none :: C)) =
      some (some (A.length + xs.length, A ++ (xs ++ element :: C))) := by
  induction xs generalizing A with
  | nil =>
    have hget : (A ++ none :: C)[A.length]? = some none := getElem?_length_append A none C
    have hwrite := write_append A C (X := [none]) (Y := [element]) rfl
    rw [List.append_assoc, List.append_assoc] at hwrite
    rw [List.length_nil, Nat.zero_add, vectorAddLoop, List.nil_append, hget, Option.bind_some, if_pos rfl]
    exact congrArg (Option.map _) hwrite
  | cons x xs ih =>
    have hget : (A ++ (x :: xs ++ none :: C))[A.length]? = some x := getElem?_length_append A x (xs ++ none :: C)
    have hx : x ≠ none := fun hx ↦ hxs (hx ▸ List.mem_cons_self)
    have h := ih (A ++ [x]) fun hmem ↦ hxs (List.mem_cons_of_mem x hmem)
    rw [List.length_append, List.length_singleton, List.append_assoc, List.append_assoc] at h
    rw [List.length_cons, Nat.succ_add, vectorAddLoop, hget, Option.bind_some, if_neg hx]
    rw [Nat.add_right_comm] at h
    exact h

/-- Other elements in front of what is not in use. -/
theorem LatteVector.Holds.withData {α : Type} {v : LatteVector α} {xs ys : List α} (h : v.Holds xs)
    (hlen : ys.length = xs.length) : ({ v with data := ys ++ v.data.drop v.count } : LatteVector α).Holds ys where
  take_eq := List.take_left' (hlen.trans h.count_eq.symm)
  count_eq := h.count_eq.trans hlen.symm
  count_le := h.count_le
  capacity_le := by
    have hdata := congrArg List.length h.data_eq
    rw [List.length_append, ← hlen, ← List.length_append] at hdata
    exact h.capacity_le.trans hdata.le

/-- **`vector_add`** takes the first place that is free, or a new one at the end. -/
theorem LatteVector.Holds.add (M : Allocator (Option β)) {v : LatteVector (Option β)} {xs : List (Option β)}
    (h : v.Holds xs) (element : Option β) :
    (∃ A B v', xs = A ++ none :: B ∧ none ∉ A ∧ vectorAdd M v element = some (v', A.length) ∧
      v'.Holds (A ++ element :: B)) ∨
    none ∉ xs ∧ ∃ v', vectorAdd M v element = some (v', xs.length) ∧ v'.Holds (xs ++ [element]) := by
  by_cases hmem : none ∈ xs
  · obtain ⟨A, B, rfl, hA⟩ := List.eq_append_cons_of_mem hmem
    have hcount : v.count = A.length + (B.length + 1) := by rw [h.count_eq, List.length_append, List.length_cons]
    have hdata : v.data = [] ++ (A ++ none :: (B ++ v.data.drop v.count)) := by
      rw [List.nil_append, ← List.cons_append, ← List.append_assoc]
      exact h.data_eq
    have hloop : vectorAddLoop element v.count 0 v.data =
        some (some (A.length, (A ++ element :: B) ++ v.data.drop v.count)) := by
      conv_lhs => rw [hdata, hcount]
      refine (vectorAddLoop_of_free element [] A _ B.length hA).trans ?_
      rw [List.length_nil, Nat.zero_add, List.nil_append, List.append_assoc, List.cons_append, ← hcount]
    have hlen : (A ++ element :: B).length = (A ++ none :: B).length := by
      rw [List.length_append, List.length_append, List.length_cons, List.length_cons]
    exact Or.inl ⟨A, B, _, rfl, hA, by rw [vectorAdd, hloop]; rfl, h.withData hlen⟩
  · have hloop : vectorAddLoop element v.count 0 v.data = some none := by
      rw [h.count_eq, h.data_eq]
      exact vectorAddLoop_of_notMem element [] xs _ hmem
    obtain ⟨v', hpush, hholds⟩ := h.push M element
    have hcount : v'.count - 1 = xs.length := by
      rw [hholds.count_eq, List.length_append, List.length_singleton, Nat.add_sub_cancel]
    refine Or.inr ⟨hmem, v', ?_, hholds⟩
    rw [vectorAdd, hloop, Option.bind_some]
    simp only [hpush, Option.map_some, hcount]

variable [DecidableEq β]

/-- The loop of `vector_remove`, over `k` places from `i` on. -/
def vectorRemoveLoop (element : Option β) :
    (k i : ℕ) → (data : List (Option β)) → Option (List (Option β))
  | 0, _, data => some data
  | k + 1, i, data =>
    (data[i]?).bind fun x ↦
      (if x = element then write data i [none] else some data).bind (vectorRemoveLoop element k (i + 1))

/-- `vector_remove`. -/
def vectorRemove (v : LatteVector (Option β)) (element : Option β) : Option (LatteVector (Option β)) :=
  (vectorRemoveLoop element v.count 0 v.data).map fun data ↦ { v with data := data }

/-- An element without its places. -/
def clearPlace (element x : Option β) : Option β := if x = element then none else x

theorem vectorRemoveLoop_spec (element : Option β) (A xs C : List (Option β)) :
    vectorRemoveLoop element xs.length A.length (A ++ (xs ++ C)) =
      some (A ++ (xs.map (clearPlace element) ++ C)) := by
  induction xs generalizing A with
  | nil => rfl
  | cons x xs ih =>
    have hget : (A ++ (x :: xs ++ C))[A.length]? = some x := getElem?_length_append A x (xs ++ C)
    have hwrite : (if x = element then write (A ++ (x :: xs ++ C)) A.length [none]
        else some (A ++ (x :: xs ++ C))) = some ((A ++ [clearPlace element x]) ++ (xs ++ C)) := by
      rw [clearPlace]
      split_ifs
      · have h := write_append A (xs ++ C) (X := [x]) (Y := [none]) rfl
        rw [List.append_assoc] at h
        exact h
      · rw [List.append_assoc]
        rfl
    have hlen : (A ++ [clearPlace element x]).length = A.length + 1 := by
      rw [List.length_append, List.length_singleton]
    rw [List.length_cons, vectorRemoveLoop, hget, Option.bind_some, hwrite, Option.bind_some, ← hlen, ih,
      List.append_assoc]
    rfl

/-- **`vector_remove`** empties every place of the element. -/
theorem LatteVector.Holds.remove {v : LatteVector (Option β)} {xs : List (Option β)} (h : v.Holds xs)
    (element : Option β) :
    ∃ v', vectorRemove v element = some v' ∧ v'.Holds (xs.map (clearPlace element)) := by
  refine ⟨_, ?_, h.withData (List.length_map _)⟩
  have hloop : vectorRemoveLoop element v.count 0 v.data =
      some (xs.map (clearPlace element) ++ v.data.drop v.count) := by
    conv_lhs => rw [h.count_eq, h.data_eq]
    exact vectorRemoveLoop_spec element [] xs _
  rw [vectorRemove, hloop, Option.map_some]

end LatteC
