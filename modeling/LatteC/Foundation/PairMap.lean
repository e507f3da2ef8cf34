import Mathlib.Data.Finmap

/-!
# Lists of pairs as finite maps

A list of keys and values denotes a finite map, the first pair of a key being the one that counts. One map is
part of another if it agrees with it wherever it is defined; and then the two are equal if they are of the
same size, which is how two containers are compared with a single pass over one of them.
-/

namespace PairMap

variable {κ β : Type*} [DecidableEq κ]

/-- The map of a list of pairs. -/
def ofPairs (l : List (κ × β)) : Finmap fun _ : κ ↦ β := (l.map Prod.toSigma).toFinmap

theorem lookup_ofPairs_nil (k : κ) : (ofPairs ([] : List (κ × β))).lookup k = none := rfl

theorem lookup_ofPairs_cons (p : κ × β) (l : List (κ × β)) (k : κ) :
    (ofPairs (p :: l)).lookup k = if p.1 = k then some p.2 else (ofPairs l).lookup k := by
  have hcons : ofPairs (p :: l) = (ofPairs l).insert p.1 p.2 := Finmap.toFinmap_cons _ _ _
  rw [hcons]
  split_ifs with hk
  · rw [← hk, Finmap.lookup_insert]
  · exact Finmap.lookup_insert_of_ne _ (Ne.symm hk)

variable {l : List (κ × β)}

/-- If the keys are distinct, all pairs count. -/
theorem lookup_ofPairs_iff (hnd : (l.map Prod.fst).Nodup) {k : κ} {v : β} :
    (ofPairs l).lookup k = some v ↔ (k, v) ∈ l := by
  induction l with
  | nil => exact iff_of_false (fun h ↦ by cases h) List.not_mem_nil
  | cons p l ih =>
    rw [List.map_cons, List.nodup_cons] at hnd
    rw [lookup_ofPairs_cons, List.mem_cons]
    split_ifs with hk
    · subst hk
      rw [Option.some.injEq]
      constructor
      · rintro rfl
        exact Or.inl rfl
      · rintro (h | h)
        · rw [← h]
        · exact absurd (List.mem_map_of_mem h) hnd.1
    · rw [ih hnd.2]
      refine (or_iff_right fun h ↦ hk ?_).symm
      rw [← h]

theorem mem_keys_ofPairs_iff {k : κ} : k ∈ (ofPairs l).keys ↔ k ∈ l.map Prod.fst := by
  rw [Finmap.mem_keys, ofPairs, Finmap.mem_list_toFinmap, List.mem_map]
  constructor
  · rintro ⟨v, hv⟩
    obtain ⟨p, hp, heq⟩ := List.mem_map.mp hv
    exact ⟨p, hp, congrArg Sigma.fst heq⟩
  · rintro ⟨p, hp, rfl⟩
    exact ⟨p.2, List.mem_map.mpr ⟨p, hp, rfl⟩⟩

theorem card_keys_ofPairs (hnd : (l.map Prod.fst).Nodup) : (ofPairs l).keys.card = l.length := by
  have hkeys : (ofPairs l).keys = (l.map Prod.fst).toFinset := by
    ext k
    rw [mem_keys_ofPairs_iff, List.mem_toFinset]
  rw [hkeys, List.toFinset_card_of_nodup hnd, List.length_map]

/-! ## Parts of a map -/

/-- Where the first map is defined, the second is and has the same value. -/
def Sub (m m' : Finmap fun _ : κ ↦ β) : Prop := ∀ k v, m.lookup k = some v → m'.lookup k = some v

variable {m m' : Finmap fun _ : κ ↦ β}

theorem Sub.keys_subset (h : Sub m m') : m.keys ⊆ m'.keys := by
  intro k hk
  rw [Finmap.mem_keys, Finmap.mem_iff] at hk ⊢
  obtain ⟨v, hv⟩ := hk
  exact ⟨v, h k v hv⟩

/-- A part of the same size is all of it. -/
theorem Sub.eq_of_card_le (h : Sub m m') (hcard : m'.keys.card ≤ m.keys.card) : m = m' := by
  have hkeys := Finset.eq_of_subset_of_card_le h.keys_subset hcard
  refine Finmap.ext_lookup fun k ↦ ?_
  cases hk : m.lookup k with
  | some v => exact (h k v hk).symm
  | none =>
    rw [Finmap.lookup_eq_none, ← Finmap.mem_keys, hkeys, Finmap.mem_keys, ← Finmap.lookup_eq_none] at hk
    exact hk.symm

/-- One pass over the pairs. -/
theorem sub_ofPairs_iff (hnd : (l.map Prod.fst).Nodup) :
    Sub (ofPairs l) m ↔ ∀ p ∈ l, m.lookup p.1 = some p.2 := by
  constructor
  · exact fun h p hp ↦ h p.1 p.2 ((lookup_ofPairs_iff hnd).mpr hp)
  · exact fun h k v hv ↦ h (k, v) ((lookup_ofPairs_iff hnd).mp hv)

/-- **Comparing** two lists of pairs: of the same length, and each pair of the first is found in the second. -/
theorem ofPairs_eq_iff {l' : List (κ × β)} (hnd : (l.map Prod.fst).Nodup) (hnd' : (l'.map Prod.fst).Nodup) :
    ofPairs l = ofPairs l' ↔ l.length = l'.length ∧ ∀ p ∈ l, (ofPairs l').lookup p.1 = some p.2 := by
  rw [← sub_ofPairs_iff hnd, ← card_keys_ofPairs hnd, ← card_keys_ofPairs hnd']
  constructor
  · intro h
    rw [h]
    exact ⟨rfl, fun _ _ hv ↦ hv⟩
  · exact fun h ↦ h.2.eq_of_card_le h.1.ge

/-! ## Unions -/

theorem lookup_union (m m' : Finmap fun _ : κ ↦ β) (k : κ) :
    (m ∪ m').lookup k = (m.lookup k).or (m'.lookup k) := by
  cases hk : m.lookup k with
  | none => rw [Finmap.lookup_union_right (Finmap.lookup_eq_none.mp hk), Option.none_or]
  | some v => rw [Finmap.lookup_union_left (Finmap.mem_of_lookup_eq_some hk), hk, Option.some_or]

/-- A part of a map adds nothing to it. -/
theorem Sub.union_eq (h : Sub m m') : m ∪ m' = m' := by
  refine Finmap.ext_lookup fun k ↦ ?_
  rw [lookup_union]
  cases hk : m.lookup k with
  | none => rfl
  | some v => exact (h k v hk).symm

/-- The order of pairs with distinct keys does not matter. -/
theorem ofPairs_perm {l' : List (κ × β)} (hperm : l.Perm l') (hnd : (l.map Prod.fst).Nodup) :
    ofPairs l = ofPairs l' := by
  have hnd' := (hperm.map Prod.fst).nodup_iff.mp hnd
  refine Finmap.ext_lookup fun k ↦ Option.ext fun v ↦ ?_
  exact (lookup_ofPairs_iff hnd).trans (hperm.mem_iff.trans (lookup_ofPairs_iff hnd').symm)

/-- Inserting pair by pair. -/
theorem foldl_insert_eq_union (hnd : (l.map Prod.fst).Nodup) (m : Finmap fun _ : κ ↦ β) :
    l.foldl (fun m p ↦ m.insert p.1 p.2) m = ofPairs l ∪ m := by
  induction l generalizing m with
  | nil => exact Finmap.empty_union.symm
  | cons p l ih =>
    rw [List.map_cons, List.nodup_cons] at hnd
    rw [List.foldl_cons, ih hnd.2]
    refine Finmap.ext_lookup fun k ↦ ?_
    rw [lookup_union, lookup_union, lookup_ofPairs_cons]
    split_ifs with hk
    · subst hk
      have hnone : (ofPairs l).lookup p.1 = none := by
        rw [Finmap.lookup_eq_none, ← Finmap.mem_keys, mem_keys_ofPairs_iff]
        exact hnd.1
      rw [hnone, Option.none_or, Finmap.lookup_insert, Option.some_or]
    · rw [Finmap.lookup_insert_of_ne _ (Ne.symm hk)]

/-- The union of maps in order. Where two are defined, the later one counts. -/
def unionAll (m : Finmap fun _ : κ ↦ β) (maps : List (Finmap fun _ : κ ↦ β)) : Finmap fun _ : κ ↦ β :=
  maps.foldl (fun m new ↦ new ∪ m) m

theorem unionAll_append (m : Finmap fun _ : κ ↦ β) (maps maps' : List (Finmap fun _ : κ ↦ β)) :
    unionAll m (maps ++ maps') = unionAll (unionAll m maps) maps' := List.foldl_append

end PairMap
