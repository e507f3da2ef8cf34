import Mathlib.Data.Finmap

/-!
# Lists indexed by a key

A container that keeps its entries in no particular order is a list up to permutation. If no two
entries share a key, the list denotes a finite map from keys to entries; this file carries the list
operations over to `Finmap`. The key of an entry is given by a function, so that a key may be taken
modulo whatever the container considers equal.
-/

namespace KeyedList

variable {α κ : Type*} [DecidableEq κ] (key : α → κ)

/-- The entries of `l`, filed under their keys. -/
def toMap (l : List α) : Finmap fun _ : κ ↦ α := (l.map fun a ↦ ⟨key a, a⟩).toFinmap

@[simp] theorem toMap_nil : toMap key [] = ∅ := rfl

theorem toMap_cons (a : α) (l : List α) :
    toMap key (a :: l) = (toMap key l).insert (key a) a :=
  Finmap.toFinmap_cons _ _ _

variable {key} {l l' : List α}

theorem lookup_toMap_eq_none {k : κ} (h : ∀ a ∈ l, key a ≠ k) : (toMap key l).lookup k = none := by
  induction l with
  | nil => rfl
  | cons b l ih =>
    rw [toMap_cons, Finmap.lookup_insert_of_ne _ (h b List.mem_cons_self).symm,
      ih fun a ha ↦ h a (List.mem_cons_of_mem _ ha)]

theorem lookup_toMap_of_mem {a : α} (hnd : (l.map key).Nodup) (ha : a ∈ l) :
    (toMap key l).lookup (key a) = some a := by
  induction l with
  | nil => simp at ha
  | cons b l ih =>
    rw [List.map_cons, List.nodup_cons] at hnd
    rw [toMap_cons]
    rcases List.mem_cons.mp ha with rfl | ha
    · exact Finmap.lookup_insert _
    · have hne : key a ≠ key b := fun h ↦ hnd.1 (h ▸ List.mem_map_of_mem ha)
      rw [Finmap.lookup_insert_of_ne _ hne, ih hnd.2 ha]

/-- Reordering the entries does not change the map. -/
theorem toMap_perm (hnd : (l.map key).Nodup) (h : l.Perm l') : toMap key l = toMap key l' := by
  refine Finmap.ext_lookup fun k ↦ ?_
  by_cases hk : ∃ a ∈ l, key a = k
  · obtain ⟨a, ha, rfl⟩ := hk
    rw [lookup_toMap_of_mem hnd ha,
      lookup_toMap_of_mem ((h.map key).nodup_iff.mp hnd) (h.mem_iff.mp ha)]
  · rw [lookup_toMap_eq_none fun a ha hak ↦ hk ⟨a, ha, hak⟩,
      lookup_toMap_eq_none fun a ha hak ↦ hk ⟨a, h.mem_iff.mpr ha, hak⟩]

/-- Taking one entry out of the container erases its key. -/
theorem toMap_erase {a : α} (hnd : (l.map key).Nodup) (h : l.Perm (a :: l')) :
    toMap key l' = (toMap key l).erase (key a) := by
  have hnd' : ((a :: l').map key).Nodup := (h.map key).nodup_iff.mp hnd
  rw [toMap_perm hnd h, toMap_cons]
  refine Finmap.ext_lookup fun k ↦ ?_
  by_cases hk : k = key a
  · subst hk
    rw [Finmap.lookup_erase]
    rw [List.map_cons, List.nodup_cons] at hnd'
    exact lookup_toMap_eq_none fun b hb hab ↦ hnd'.1 (hab ▸ List.mem_map_of_mem hb)
  · rw [Finmap.lookup_erase_ne hk, Finmap.lookup_insert_of_ne _ hk]

/-- The map determines the entries up to their order. -/
theorem perm_of_toMap_eq (hnd : (l.map key).Nodup) (hnd' : (l'.map key).Nodup)
    (h : toMap key l = toMap key l') : l.Perm l' := by
  have hmem : ∀ {l₁ l₂ : List α}, (l₁.map key).Nodup → (l₂.map key).Nodup →
      toMap key l₁ = toMap key l₂ → ∀ a ∈ l₁, a ∈ l₂ := by
    intro l₁ l₂ h₁ h₂ heq a ha
    have hlook := heq ▸ lookup_toMap_of_mem h₁ ha
    by_contra hna
    by_cases hb : ∃ b ∈ l₂, key b = key a
    · obtain ⟨b, hb, hba⟩ := hb
      rw [← hba, lookup_toMap_of_mem h₂ hb] at hlook
      exact hna (Option.some.inj hlook ▸ hb)
    · rw [lookup_toMap_eq_none fun b hb' hba ↦ hb ⟨b, hb', hba⟩] at hlook
      exact absurd hlook (Option.some_ne_none a).symm
  rw [List.perm_ext_iff_of_nodup hnd.of_map hnd'.of_map]
  exact fun a ↦ ⟨hmem hnd hnd' h a, hmem hnd' hnd h.symm a⟩

theorem card_keys_toMap (hnd : (l.map key).Nodup) : (toMap key l).keys.card = l.length := by
  have hkeys : (toMap key l).keys = (l.map key).toFinset := by
    ext k
    rw [Finmap.mem_keys, toMap, Finmap.mem_list_toFinmap, List.mem_toFinset, List.mem_map]
    constructor
    · rintro ⟨b, hb⟩
      obtain ⟨a, ha, heq⟩ := List.mem_map.mp hb
      exact ⟨a, ha, congrArg Sigma.fst heq⟩
    · rintro ⟨a, ha, rfl⟩
      exact ⟨a, List.mem_map.mpr ⟨a, ha, rfl⟩⟩
  rw [hkeys, List.toFinset_card_of_nodup hnd, List.length_map]

end KeyedList
