import Mathlib.Data.List.Perm.Basic
import Mathlib.Data.List.Basic

/-!
# Arrays of chains

A chained hash table is an array of lists in which every element sits in the chain its index
function names. The only write the table operations perform is to replace one whole chain, so one
lemma about `List.set` per property is enough.
-/

namespace Buckets

variable {α : Type*} {bs : List (List α)} {i : ℕ} {b b' : List α} {ix : α → ℕ}

/-- Every element sits in the chain that `ix` names. -/
def Placed (ix : α → ℕ) (bs : List (List α)) : Prop :=
  ∀ i b, bs[i]? = some b → ∀ a ∈ b, ix a = i

/-- Cut the array at one of its chains. -/
theorem exists_split (h : bs[i]? = some b) :
    ∃ L R, bs = L ++ b :: R ∧ ∀ b', bs.set i b' = L ++ b' :: R := by
  obtain ⟨hi, rfl⟩ := List.getElem?_eq_some_iff.mp h
  refine ⟨bs.take i, bs.drop (i + 1), ?_, fun b' ↦ List.set_eq_take_append_cons_drop.trans ?_⟩
  · rw [← List.drop_eq_getElem_cons hi, List.take_append_drop]
  · rw [if_pos hi]

/-- Replacing a chain exchanges its elements and leaves all others alone. -/
theorem flatten_set_perm (h : bs[i]? = some b) (b' : List α) :
    ∃ rest : List α, bs.flatten.Perm (b ++ rest) ∧ (bs.set i b').flatten.Perm (b' ++ rest) := by
  obtain ⟨L, R, hbs, hset⟩ := exists_split h
  refine ⟨L.flatten ++ R.flatten, ?_, ?_⟩
  · rw [hbs, List.flatten_append, List.flatten_cons, ← List.append_assoc, ← List.append_assoc]
    exact (List.perm_append_comm).append_right _
  · rw [hset, List.flatten_append, List.flatten_cons, ← List.append_assoc, ← List.append_assoc]
    exact (List.perm_append_comm).append_right _

theorem flatten_set_cons_perm (h : bs[i]? = some b) (a : α) :
    (bs.set i (a :: b)).flatten.Perm (a :: bs.flatten) := by
  obtain ⟨rest, h₁, h₂⟩ := flatten_set_perm h (a :: b)
  exact h₂.trans ((h₁.symm).cons a)

theorem placed_set (hp : Placed ix bs) (hb' : ∀ a ∈ b', ix a = i) :
    Placed ix (bs.set i b') := by
  intro j c hc a ha
  rw [List.getElem?_set] at hc
  split_ifs at hc with hij hlt
  · obtain rfl := Option.some.inj hc
    exact hij ▸ hb' a ha
  · exact hp j c hc a ha

/-- A placed element is found in the chain its index names. -/
theorem mem_of_mem_flatten (hp : Placed ix bs) {a : α} (ha : a ∈ bs.flatten)
    (hb : bs[ix a]? = some b) : a ∈ b := by
  obtain ⟨c, hc, hac⟩ := List.mem_flatten.mp ha
  obtain ⟨j, hj⟩ := List.mem_iff_getElem?.mp hc
  have : ix a = j := hp j c hj a hac
  rw [this, hj] at hb
  exact Option.some.inj hb ▸ hac

theorem mem_flatten_of_mem (hb : bs[i]? = some b) {a : α} (ha : a ∈ b) : a ∈ bs.flatten :=
  List.mem_flatten.mpr ⟨b, List.mem_of_getElem? hb, ha⟩

theorem placed_replicate (n : ℕ) : Placed ix (List.replicate n []) := by
  intro i b hb a ha
  rw [List.getElem?_replicate] at hb
  split_ifs at hb
  rw [← Option.some.inj hb] at ha
  simp at ha

theorem flatten_replicate_nil (n : ℕ) : (List.replicate n ([] : List α)).flatten = [] := by
  simp

/-- Erasing the first match of a chain takes out the element a search returns. -/
theorem perm_cons_eraseP {p : α → Bool} {a : α} (h : b.find? p = some a) :
    b.Perm (a :: b.eraseP p) := by
  induction b with
  | nil => simp at h
  | cons x b ih =>
    by_cases hx : p x = true
    · rw [List.find?_cons_of_pos hx] at h
      rw [List.eraseP_cons_of_pos hx, Option.some.inj h]
    · rw [List.find?_cons_of_neg hx] at h
      rw [List.eraseP_cons_of_neg hx]
      exact ((ih h).cons x).trans (List.Perm.swap a x _)

end Buckets
