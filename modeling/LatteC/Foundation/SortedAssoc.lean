import Mathlib.Data.Finmap
import Mathlib.Order.Defs.LinearOrder

/-!
# Sorted association lists

The contents of a search tree, read from left to right, are an association list with strictly
ascending keys. Every ordered map below is proved against the three list operations of this file,
`put`, `del` and `get`; the lemmas about `++` are what turns one comparison at a node into the
corresponding step on the list. `toMap` then carries a sorted list to the finite map it denotes,
where the three operations become `Finmap.insert`, `Finmap.erase` and `Finmap.lookup`.
-/

namespace SortedAssoc

variable {K V : Type*} [LinearOrder K]

/-- What is decided about keys in a list goes through the decidable equality of the order. -/
instance instLawfulBEqKey : LawfulBEq K := inferInstance

/-- Strictly ascending keys. -/
def Sorted (l : List (K × V)) : Prop := l.Pairwise fun a b ↦ a.1 < b.1

/-- Store `v` under `k`, in place if the key is there and at its sorted position if not. -/
def put (k : K) (v : V) : List (K × V) → List (K × V)
  | [] => [(k, v)]
  | (a, b) :: l =>
    if k < a then (k, v) :: (a, b) :: l else if k = a then (k, v) :: l else (a, b) :: put k v l

/-- Drop the entry of `k`. -/
def del (k : K) : List (K × V) → List (K × V)
  | [] => []
  | (a, b) :: l => if k = a then l else (a, b) :: del k l

/-- The value stored under `k`. -/
def get (k : K) : List (K × V) → Option V
  | [] => none
  | (a, b) :: l => if k = a then some b else get k l

theorem put_cons (k a : K) (v b : V) (l : List (K × V)) :
    put k v ((a, b) :: l) =
      if k < a then (k, v) :: (a, b) :: l else if k = a then (k, v) :: l else (a, b) :: put k v l :=
  rfl

theorem del_cons (k a : K) (b : V) (l : List (K × V)) :
    del k ((a, b) :: l) = if k = a then l else (a, b) :: del k l := rfl

theorem get_cons (k a : K) (b : V) (l : List (K × V)) :
    get k ((a, b) :: l) = if k = a then some b else get k l := rfl

/-! ## Sortedness -/

theorem sorted_append {A B : List (K × V)} :
    Sorted (A ++ B) ↔ Sorted A ∧ Sorted B ∧ ∀ a ∈ A, ∀ b ∈ B, a.1 < b.1 :=
  List.pairwise_append

theorem sorted_cons {a : K × V} {B : List (K × V)} :
    Sorted (a :: B) ↔ (∀ b ∈ B, a.1 < b.1) ∧ Sorted B :=
  List.pairwise_cons

@[simp] theorem sorted_nil : Sorted ([] : List (K × V)) := List.Pairwise.nil

theorem sorted_mid {A B : List (K × V)} {x : K × V} (h : Sorted (A ++ x :: B)) :
    Sorted A ∧ Sorted B ∧ (∀ a ∈ A, a.1 < x.1) ∧ ∀ b ∈ B, x.1 < b.1 := by
  obtain ⟨hA, hB, hAB⟩ := sorted_append.mp h
  obtain ⟨hx, hB⟩ := sorted_cons.mp hB
  exact ⟨hA, hB, fun a ha ↦ hAB a ha x List.mem_cons_self, hx⟩

theorem sorted_mid_iff {A B : List (K × V)} {x : K × V} :
    Sorted (A ++ x :: B) ↔
      Sorted A ∧ Sorted B ∧ (∀ a ∈ A, a.1 < x.1) ∧ ∀ b ∈ B, x.1 < b.1 := by
  refine ⟨sorted_mid, fun ⟨hA, hB, hAx, hxB⟩ ↦
    sorted_append.mpr ⟨hA, sorted_cons.mpr ⟨hxB, hB⟩, fun a ha b hb ↦ ?_⟩⟩
  rcases List.mem_cons.mp hb with rfl | hb
  · exact hAx a ha
  · exact (hAx a ha).trans (hxB b hb)

/-! ## The operations across an append -/

theorem put_append_of_lt {k : K} {v : V} {A B : List (K × V)} (hA : ∀ a ∈ A, a.1 < k) :
    put k v (A ++ B) = A ++ put k v B := by
  induction A with
  | nil => rfl
  | cons a A ih =>
    have ha : a.1 < k := hA a List.mem_cons_self
    rw [List.cons_append, put_cons, if_neg ha.not_gt, if_neg ha.ne', List.cons_append,
      ih fun b hb ↦ hA b (List.mem_cons_of_mem _ hb)]

theorem put_append_of_gt {k : K} {v : V} {A B : List (K × V)} (hB : ∀ b ∈ B, k < b.1) :
    put k v (A ++ B) = put k v A ++ B := by
  induction A with
  | nil =>
    cases B with
    | nil => rfl
    | cons b B => exact if_pos (hB b List.mem_cons_self)
  | cons a A ih =>
    rw [List.cons_append, put_cons, put_cons, ih]
    split_ifs <;> rfl

theorem del_eq_self {k : K} {A : List (K × V)} (hA : ∀ a ∈ A, k ≠ a.1) : del k A = A := by
  induction A with
  | nil => rfl
  | cons a A ih =>
    rw [del_cons, if_neg (hA a List.mem_cons_self), ih fun b hb ↦ hA b (List.mem_cons_of_mem _ hb)]

theorem del_append_of_ne {k : K} {A B : List (K × V)} (hA : ∀ a ∈ A, k ≠ a.1) :
    del k (A ++ B) = A ++ del k B := by
  induction A with
  | nil => rfl
  | cons a A ih =>
    rw [List.cons_append, del_cons, if_neg (hA a List.mem_cons_self), List.cons_append,
      ih fun b hb ↦ hA b (List.mem_cons_of_mem _ hb)]

theorem del_append_of_gt {k : K} {A B : List (K × V)} (hB : ∀ b ∈ B, k < b.1) :
    del k (A ++ B) = del k A ++ B := by
  induction A with
  | nil => exact del_eq_self fun b hb ↦ (hB b hb).ne
  | cons a A ih =>
    rw [List.cons_append, del_cons, del_cons, ih]
    split_ifs <;> rfl

theorem get_eq_none {k : K} {A : List (K × V)} (hA : ∀ a ∈ A, k ≠ a.1) : get k A = none := by
  induction A with
  | nil => rfl
  | cons a A ih =>
    rw [get_cons, if_neg (hA a List.mem_cons_self), ih fun b hb ↦ hA b (List.mem_cons_of_mem _ hb)]

theorem get_append_of_ne {k : K} {A B : List (K × V)} (hA : ∀ a ∈ A, k ≠ a.1) :
    get k (A ++ B) = get k B := by
  induction A with
  | nil => rfl
  | cons a A ih =>
    rw [List.cons_append, get_cons, if_neg (hA a List.mem_cons_self),
      ih fun b hb ↦ hA b (List.mem_cons_of_mem _ hb)]

theorem get_append_of_gt {k : K} {A B : List (K × V)} (hB : ∀ b ∈ B, k < b.1) :
    get k (A ++ B) = get k A := by
  induction A with
  | nil => exact get_eq_none fun b hb ↦ (hB b hb).ne
  | cons a A ih => rw [List.cons_append, get_cons, get_cons, ih]

@[simp] theorem put_cons_self (k : K) (v w : V) (B : List (K × V)) :
    put k v ((k, w) :: B) = (k, v) :: B := by
  rw [put_cons, if_neg (lt_irrefl k), if_pos rfl]

@[simp] theorem del_cons_self (k : K) (w : V) (B : List (K × V)) : del k ((k, w) :: B) = B := by
  rw [del_cons, if_pos rfl]

@[simp] theorem get_cons_self (k : K) (w : V) (B : List (K × V)) :
    get k ((k, w) :: B) = some w := by
  rw [get_cons, if_pos rfl]

theorem put_cons_of_gt {k x : K} {v w : V} {B : List (K × V)} (h : x < k) :
    put k v ((x, w) :: B) = (x, w) :: put k v B := by
  rw [put_cons, if_neg h.not_gt, if_neg h.ne']

theorem del_cons_of_ne {k x : K} {w : V} {B : List (K × V)} (h : k ≠ x) :
    del k ((x, w) :: B) = (x, w) :: del k B := by
  rw [del_cons, if_neg h]

theorem get_cons_of_ne {k x : K} {w : V} {B : List (K × V)} (h : k ≠ x) :
    get k ((x, w) :: B) = get k B := by
  rw [get_cons, if_neg h]

/-! ## Membership and preservation of order -/

theorem mem_put_fst {k : K} {v : V} {l : List (K × V)} {a : K × V} (h : a ∈ put k v l) :
    a.1 = k ∨ a ∈ l := by
  induction l with
  | nil => exact Or.inl (congrArg Prod.fst (List.mem_singleton.mp h))
  | cons b l ih =>
    rw [put_cons] at h
    split_ifs at h
    · rcases List.mem_cons.mp h with rfl | h
      · exact Or.inl rfl
      · exact Or.inr h
    · rcases List.mem_cons.mp h with rfl | h
      · exact Or.inl rfl
      · exact Or.inr (List.mem_cons_of_mem _ h)
    · rcases List.mem_cons.mp h with rfl | h
      · exact Or.inr List.mem_cons_self
      · exact (ih h).imp id (List.mem_cons_of_mem _)

/-- Putting a new key adds one entry. -/
theorem put_perm_of_not_mem {k : K} {v : V} {l : List (K × V)} (h : k ∉ l.map Prod.fst) :
    (put k v l).Perm ((k, v) :: l) := by
  induction l with
  | nil => exact List.Perm.refl _
  | cons e l ih =>
    obtain ⟨b, w⟩ := e
    rw [List.map_cons, List.mem_cons, not_or] at h
    rw [put_cons]
    split_ifs with h₁
    · exact List.Perm.refl _
    · exact absurd ‹k = b› h.1
    · exact ((ih h.2).cons _).trans (List.Perm.swap _ _ _)

theorem mem_keys_put (k a : K) (v : V) (l : List (K × V)) :
    k ∈ (put a v l).map Prod.fst ↔ k = a ∨ k ∈ l.map Prod.fst := by
  induction l with
  | nil => exact List.mem_singleton.trans (or_iff_left List.not_mem_nil).symm
  | cons e l ih =>
    obtain ⟨b, w⟩ := e
    rw [put_cons]
    split_ifs with h₁ h₂
    · simp
    · subst h₂
      simp
    · rw [List.map_cons, List.mem_cons, ih, List.map_cons, List.mem_cons]
      tauto

theorem mem_of_mem_del {k : K} {l : List (K × V)} {a : K × V} (h : a ∈ del k l) : a ∈ l := by
  induction l with
  | nil => exact h
  | cons b l ih =>
    rw [del_cons] at h
    split_ifs at h
    · exact List.mem_cons_of_mem _ h
    · rcases List.mem_cons.mp h with rfl | h
      · exact List.mem_cons_self
      · exact List.mem_cons_of_mem _ (ih h)

theorem sorted_put {k : K} {v : V} {l : List (K × V)} (h : Sorted l) : Sorted (put k v l) := by
  induction l with
  | nil => exact List.pairwise_singleton _ _
  | cons a l ih =>
    obtain ⟨ha, hl⟩ := sorted_cons.mp h
    rw [put_cons]
    split_ifs with h₁ h₂
    · refine sorted_cons.mpr ⟨fun b hb ↦ ?_, h⟩
      rcases List.mem_cons.mp hb with rfl | hb
      · exact h₁
      · exact h₁.trans (ha b hb)
    · subst h₂
      exact sorted_cons.mpr ⟨ha, hl⟩
    · refine sorted_cons.mpr ⟨fun b hb ↦ ?_, ih hl⟩
      rcases mem_put_fst hb with hb | hb
      · exact hb ▸ lt_of_le_of_ne (not_lt.mp h₁) (Ne.symm h₂)
      · exact ha b hb

theorem sorted_del {k : K} {l : List (K × V)} (h : Sorted l) : Sorted (del k l) := by
  induction l with
  | nil => exact h
  | cons a l ih =>
    obtain ⟨ha, hl⟩ := sorted_cons.mp h
    rw [del_cons]
    split_ifs
    · exact hl
    · exact sorted_cons.mpr ⟨fun b hb ↦ ha b (mem_of_mem_del hb), ih hl⟩

/-- In a sorted list deletion is a filter. -/
theorem del_eq_filter {k : K} {l : List (K × V)} (h : Sorted l) :
    del k l = l.filter fun e ↦ e.1 ≠ k := by
  induction l with
  | nil => rfl
  | cons e l ih =>
    obtain ⟨b, w⟩ := e
    obtain ⟨hlt, hl⟩ := sorted_cons.mp h
    rw [del_cons]
    split_ifs with hk
    · subst hk
      have hall : ∀ e ∈ l, e.1 ≠ k := fun e he ↦ (hlt e he).ne'
      rw [List.filter_cons_of_neg (by simp), List.filter_eq_self.mpr]
      simpa using hall
    · rw [List.filter_cons_of_pos (by simpa using Ne.symm hk), ih hl]

/-! ## The finite map a list denotes -/

/-- The finite map with the entries of `l`. -/
def toMap (l : List (K × V)) : Finmap fun _ : K ↦ V := (l.map Prod.toSigma).toFinmap

@[simp] theorem toMap_nil : toMap ([] : List (K × V)) = ∅ := rfl

theorem lookup_toMap (k : K) (l : List (K × V)) : (toMap l).lookup k = get k l := by
  rw [toMap, Finmap.dlookup_list_toFinmap]
  induction l with
  | nil => rfl
  | cons a l ih =>
    rw [get_cons, List.map_cons]
    by_cases h : k = a.1
    · subst h
      rw [if_pos rfl]
      exact List.dlookup_cons_eq _ _ _
    · rw [if_neg h, ← ih]
      exact List.dlookup_cons_ne _ _ h

theorem get_put (k k' : K) (v : V) (l : List (K × V)) :
    get k' (put k v l) = if k' = k then some v else get k' l := by
  induction l with
  | nil => rfl
  | cons a l ih =>
    rw [put_cons]
    split_ifs with h₁ h₂ h₃ h₄ h₅
    · rw [h₂, get_cons_self]
    · rw [get_cons, if_neg h₂]
    · rw [h₄, get_cons_self]
    · rw [get_cons_of_ne h₄, get_cons, if_neg (h₃ ▸ h₄)]
    · rw [get_cons, if_neg (h₅ ▸ h₃), ih, if_pos h₅]
    · rw [get_cons, get_cons, ih, if_neg h₅]

theorem get_del (k k' : K) {l : List (K × V)} (hl : Sorted l) :
    get k' (del k l) = if k' = k then none else get k' l := by
  induction l with
  | nil => exact (ite_self none).symm
  | cons a l ih =>
    obtain ⟨ha, hl⟩ := sorted_cons.mp hl
    rw [del_cons]
    split_ifs with h₁ h₂ h₃
    · subst h₂ h₁
      exact get_eq_none fun b hb ↦ (ha b hb).ne
    · rw [get_cons, if_neg (h₁ ▸ h₂)]
    · rw [get_cons, if_neg (h₃ ▸ h₁), ih hl, if_pos h₃]
    · rw [get_cons, get_cons, ih hl, if_neg h₃]

theorem toMap_put (k : K) (v : V) (l : List (K × V)) :
    toMap (put k v l) = (toMap l).insert k v := by
  refine Finmap.ext_lookup fun x ↦ ?_
  rw [lookup_toMap, get_put]
  by_cases h : x = k
  · subst h
    rw [if_pos rfl, Finmap.lookup_insert]
  · rw [if_neg h, Finmap.lookup_insert_of_ne _ h, lookup_toMap]

theorem toMap_del (k : K) {l : List (K × V)} (hl : Sorted l) :
    toMap (del k l) = (toMap l).erase k := by
  refine Finmap.ext_lookup fun x ↦ ?_
  rw [lookup_toMap, get_del k x hl]
  by_cases h : x = k
  · subst h
    rw [if_pos rfl, Finmap.lookup_erase]
  · rw [if_neg h, Finmap.lookup_erase_ne h, lookup_toMap]

theorem keys_toMap (l : List (K × V)) : (toMap l).keys = (l.map Prod.fst).toFinset := by
  ext x
  rw [Finmap.mem_keys, toMap, Finmap.mem_list_toFinmap, List.mem_toFinset, List.mem_map]
  constructor
  · rintro ⟨b, hb⟩
    obtain ⟨a, ha, heq⟩ := List.mem_map.mp hb
    exact ⟨a, ha, congrArg Sigma.fst heq⟩
  · rintro ⟨a, ha, rfl⟩
    exact ⟨a.2, List.mem_map.mpr ⟨a, ha, rfl⟩⟩

theorem nodup_keys {l : List (K × V)} (hl : Sorted l) : (l.map Prod.fst).Nodup :=
  List.pairwise_map.mpr (hl.imp fun h ↦ h.ne)

theorem card_keys_toMap {l : List (K × V)} (hl : Sorted l) :
    (toMap l).keys.card = l.length := by
  rw [keys_toMap, List.toFinset_card_of_nodup (nodup_keys hl), List.length_map]

/-! ## Sequences of stores -/

/-- The last value stored under a key. -/
def lastStored (k : K) (calls : List (K × V)) : Option V :=
  ((calls.filter fun c ↦ c.1 = k).getLast?).map Prod.snd

/-- The entries a map has after the calls. -/
def putAll (calls : List (K × V)) : List (K × V) := calls.foldl (fun l c ↦ put c.1 c.2 l) []

theorem putAll_concat (calls : List (K × V)) (c : K × V) :
    putAll (calls ++ [c]) = put c.1 c.2 (putAll calls) := by
  rw [putAll, List.foldl_append]
  rfl

theorem get_putAll (k : K) (calls : List (K × V)) : get k (putAll calls) = lastStored k calls := by
  induction calls using List.reverseRecOn with
  | nil => rfl
  | append_singleton calls c ih =>
    rw [putAll_concat, get_put, lastStored, List.filter_append]
    by_cases hc : c.1 = k
    · simp [hc]
    · have hne : ¬k = c.1 := fun h ↦ hc h.symm
      rw [if_neg hne, ih, lastStored]
      simp [hc]

theorem mem_keys_putAll (k : K) (calls : List (K × V)) :
    k ∈ (putAll calls).map Prod.fst ↔ k ∈ calls.map Prod.fst := by
  induction calls using List.reverseRecOn with
  | nil => rfl
  | append_singleton calls c ih =>
    rw [putAll_concat, mem_keys_put, ih, List.map_append, List.mem_append]
    simp [or_comm]

theorem sorted_putAll (calls : List (K × V)) : Sorted (putAll calls) := by
  induction calls using List.reverseRecOn with
  | nil => exact sorted_nil
  | append_singleton calls c ih =>
    rw [putAll_concat]
    exact sorted_put ih

/-- There is one entry for each key that was stored. -/
theorem length_putAll (calls : List (K × V)) :
    (putAll calls).length = (calls.map Prod.fst).toFinset.card := by
  have hkeys : ((putAll calls).map Prod.fst).toFinset = (calls.map Prod.fst).toFinset := by
    ext k
    rw [List.mem_toFinset, List.mem_toFinset, mem_keys_putAll]
  rw [← hkeys, List.toFinset_card_of_nodup (nodup_keys (sorted_putAll calls)), List.length_map]

end SortedAssoc
