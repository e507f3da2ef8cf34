import LatteC.Skiplist.Flat

/-!
# Ranges of the skiplist

`skiplist_firstInRange` and `skiplist_lastInRange`. Both dereference a pointer without a check after
the descent; `slIsInRange` has looked at the first and the last node before, and that is enough.
-/

namespace LatteC

open SkipLinks

variable {S : Type} [LinearOrder S] [LinearOrder (SkiplistItem S)]

/-- The score is in the range. -/
def Zrangespec.Contains (zs : Zrangespec S) (score : S) : Prop :=
  (if zs.minex then zs.min < score else zs.min ≤ score) ∧
    if zs.maxex then score < zs.max else score ≤ zs.max

instance (zs : Zrangespec S) (score : S) : Decidable (zs.Contains score) := by
  unfold Zrangespec.Contains
  infer_instance

section Bounds

variable (cmp : SkiplistComparator S) (zs : Zrangespec S)

theorem slValueGteMin_iff (score : S) :
    slValueGteMin cmp score zs = true ↔ if zs.minex then zs.min < score else zs.min ≤ score := by
  rw [slValueGteMin]
  cases zs.minex with
  | true => simp [cmp.score_pos_iff]
  | false => simp [← not_lt, cmp.score_neg_iff]

theorem slValueLteMax_iff (score : S) :
    slValueLteMax cmp score zs = true ↔ if zs.maxex then score < zs.max else score ≤ zs.max := by
  rw [slValueLteMax]
  cases zs.maxex with
  | true => simp [cmp.score_neg_iff]
  | false => simp [← not_lt, cmp.score_pos_iff]

theorem zrangespec_contains_iff (score : S) :
    zs.Contains score ↔ slValueGteMin cmp score zs = true ∧ slValueLteMax cmp score zs = true := by
  rw [slValueGteMin_iff, slValueLteMax_iff]
  exact Iff.rfl

theorem slValueGteMin_mono {s t : S} (hst : s ≤ t) (h : slValueGteMin cmp s zs = true) :
    slValueGteMin cmp t zs = true := by
  rw [slValueGteMin_iff] at h ⊢
  split_ifs at h ⊢
  · exact h.trans_le hst
  · exact h.trans hst

theorem slValueLteMax_mono {s t : S} (hst : s ≤ t) (h : slValueLteMax cmp t zs = true) :
    slValueLteMax cmp s zs = true := by
  rw [slValueLteMax_iff] at h ⊢
  split_ifs at h ⊢
  · exact hst.trans_lt h
  · exact hst.trans h

/-- The first test of `slIsInRange`. -/
theorem not_contains_of_empty
    (h : 0 < cmp.comparator none zs.min none zs.max ∨
      cmp.comparator none zs.min none zs.max = 0 ∧ (zs.minex ∨ zs.maxex)) (score : S) :
    ¬zs.Contains score := by
  rintro ⟨hmin, hmax⟩
  have hlow : zs.min ≤ score := by
    split_ifs at hmin
    · exact hmin.le
    · exact hmin
  have hhigh : score ≤ zs.max := by
    split_ifs at hmax
    · exact hmax.le
    · exact hmax
  rcases h with h | ⟨h, hex⟩
  · exact absurd ((cmp.score_pos_iff _ _).mp h) (hlow.trans hhigh).not_gt
  · have hmaxmin : zs.max ≤ zs.min := by
      rw [← not_lt, ← cmp.score_neg_iff, h]
      exact lt_irrefl 0
    rcases hex with hex | hex
    · rw [hex, if_pos rfl] at hmin
      exact absurd (hhigh.trans hmaxmin) hmin.not_ge
    · rw [hex, if_pos rfl] at hmax
      exact absurd (hmaxmin.trans hlow) hmax.not_ge

end Bounds

/-! ## The queries -/

section Queries

variable (cmp : SkiplistComparator S) (zs : Zrangespec S) {sl : Skiplist S} {ts : List (Tower S)}
  (h : sl.WellFormed ts) (hscore : ∀ a b : SkiplistItem S, a ≤ b → a.score ≤ b.score)

include h hscore

namespace Skiplist.WellFormed

/-- The scores on both sides of a node. -/
theorem score_split {A B : List (Tower S)} {t : Tower S} (hts : ts = A ++ t :: B) :
    (∀ u ∈ A, u.item.score ≤ t.item.score) ∧ ∀ u ∈ B, t.item.score ≤ u.item.score := by
  have hsorted := h.sorted
  rw [hts, List.map_append, List.map_cons, List.pairwise_append, List.pairwise_cons] at hsorted
  obtain ⟨-, ⟨hB, -⟩, hA⟩ := hsorted
  exact ⟨fun u hu ↦ hscore _ _ (hA _ (List.mem_map_of_mem hu) _ List.mem_cons_self),
    fun u hu ↦ hscore _ _ (hB _ (List.mem_map_of_mem hu))⟩

theorem score_le_getLast {t u : Tower S} (ht : ts.getLast? = some t) (hu : u ∈ ts) :
    u.item.score ≤ t.item.score := by
  obtain ⟨init, hinit⟩ := List.getLast?_eq_some_iff.mp ht
  rw [hinit] at hu
  rcases List.mem_append.mp hu with hu | hu
  · exact (h.score_split hscore hinit).1 u hu
  · rw [List.mem_singleton.mp hu]

theorem head_score_le {t u : Tower S} (ht : ts.head? = some t) (hu : u ∈ ts) :
    t.item.score ≤ u.item.score := by
  obtain ⟨rest, hrest⟩ := List.head?_eq_some_iff.mp ht
  rw [hrest] at hu
  rcases List.mem_cons.mp hu with rfl | hu
  · exact le_rfl
  · exact (h.score_split (A := []) hscore hrest).2 u hu

/-- **`slIsInRange`** does not fault. Where it says no there is no node in the range; where it says yes
the last node is not below the range and the first one not above. -/
theorem slIsInRange_eq :
    ∃ inRange, slIsInRange cmp sl zs = some inRange ∧
      if inRange then
        (∃ t, ts.getLast? = some t ∧ slValueGteMin cmp t.item.score zs = true) ∧
        ∃ t, ts.head? = some t ∧ slValueLteMax cmp t.item.score zs = true
      else ∀ t ∈ ts, ¬zs.Contains t.item.score := by
  rw [slIsInRange]
  by_cases hempty : 0 < cmp.comparator none zs.min none zs.max ∨
      cmp.comparator none zs.min none zs.max = 0 ∧ (zs.minex ∨ zs.maxex)
  · exact ⟨false, if_pos hempty, fun t _ ↦ not_contains_of_empty _ zs hempty t.item.score⟩
  · simp only [if_neg hempty, h.tail]
    cases hlast : ts.getLast? with
    | none =>
      refine ⟨false, rfl, ?_⟩
      rw [List.getLast?_eq_none_iff.mp hlast]
      exact fun t ht ↦ absurd ht List.not_mem_nil
    | some t =>
      have ht : t ∈ ts := List.mem_of_getLast? hlast
      simp only [Option.map_some, h.scoreAt_eq ht, Option.bind_some]
      cases hge : slValueGteMin cmp t.item.score zs with
      | false =>
        refine ⟨false, rfl, fun u hu hin ↦ ?_⟩
        rw [zrangespec_contains_iff cmp] at hin
        rw [slValueGteMin_mono cmp zs (h.score_le_getLast hscore hlast hu) hin.1] at hge
        cases hge
      | true =>
        obtain ⟨u, hu⟩ : ∃ u, ts.head? = some u := by
          rw [← Option.isSome_iff_exists, List.isSome_head?]
          exact List.ne_nil_of_mem ht
        have hu' : u ∈ ts := List.mem_of_head? hu
        have hcol : sl.levelAt sl.header 0 = some (linkTo 0 (ts.map Tower.post)) :=
          h.column_zero (L := []) rfl
        simp only [Bool.not_true, Bool.false_eq_true, if_false, hcol, Option.bind_some,
          h.next_zero fun _ ↦ id, hu, Option.map_some, h.scoreAt_eq hu']
        cases hle : slValueLteMax cmp u.item.score zs with
        | false =>
          refine ⟨false, rfl, fun v hv hin ↦ ?_⟩
          rw [zrangespec_contains_iff cmp] at hin
          rw [slValueLteMax_mono cmp zs (h.head_score_le hscore hu hv) hin.2] at hle
          cases hle
        | true => exact ⟨true, rfl, ⟨t, rfl, hge⟩, u, rfl, hle⟩

variable {fuel : ℕ} (hfuel : ts.length < fuel)

include hfuel

theorem skiplistFirstInRange_eq :
    skiplistFirstInRange cmp fuel sl zs =
      some ((ts.find? fun t ↦ decide (zs.Contains t.item.score)).map Tower.addr) := by
  obtain ⟨inRange, hin, hcase⟩ := h.slIsInRange_eq cmp zs hscore
  rw [skiplistFirstInRange, hin, Option.bind_some]
  cases inRange with
  | false =>
    rw [List.find?_eq_none.mpr fun t ht ↦ by simpa using hcase t ht]
    rfl
  | true =>
    obtain ⟨⟨t, ht, hge⟩, -⟩ := hcase
    -- the nodes below the range, and the others
    have hp : ∀ a b : SkiplistItem S, a ≤ b → (!slValueGteMin cmp b.score zs) = true →
        (!slValueGteMin cmp a.score zs) = true := by
      intro a b hab hb
      cases ha : slValueGteMin cmp a.score zs with
      | false => rfl
      | true =>
        rw [slValueGteMin_mono cmp zs (hscore a b hab) ha] at hb
        cases hb
    have hcut := filter_append_filter_not hp h.sorted
    have hgo : ∀ t ∈ ts, slBelowMin cmp sl zs t.addr = some !slValueGteMin cmp t.item.score zs := by
      intro t ht
      rw [slBelowMin, h.scoreAt_eq ht, Option.map_some]
    obtain ⟨ups, rank, hdesc, hhead⟩ := h.slDescend_head hp hgo hfuel
    have hcol := h.column_zero hcut
    rw [Skiplist.column] at hcol
    simp only [Bool.not_true, Bool.false_eq_true, if_false, hdesc, Option.bind_some, hhead, hcol,
      h.next_zero fun t ht ↦ List.mem_of_mem_filter ht]
    cases hR : ts.filter fun t ↦ !!slValueGteMin cmp t.item.score zs with
    | nil =>
      have hmem := List.filter_eq_nil_iff.mp hR t (List.mem_of_getLast? ht)
      rw [hge] at hmem
      exact absurd rfl hmem
    | cons u R =>
      have hu : u ∈ ts.filter fun t ↦ !!slValueGteMin cmp t.item.score zs := by
        rw [hR]
        exact List.mem_cons_self
      obtain ⟨hu, hgeu⟩ := List.mem_filter.mp hu
      rw [List.head?_cons, Option.map_some, Option.bind_some, h.scoreAt_eq hu, Option.map_some]
      rw [hR] at hcut
      have hfront : (ts.filter fun t ↦ !slValueGteMin cmp t.item.score zs).find?
          (fun t ↦ decide (zs.Contains t.item.score)) = none := by
        refine List.find?_eq_none.mpr fun v hv ↦ ?_
        obtain ⟨-, hv⟩ := List.mem_filter.mp hv
        rw [decide_eq_true_iff, zrangespec_contains_iff cmp]
        exact fun hin ↦ by simp [hin.1] at hv
      rw [hcut, List.find?_append, hfront, Option.none_or]
      cases hle : slValueLteMax cmp u.item.score zs with
      | true =>
        have hin : zs.Contains u.item.score :=
          (zrangespec_contains_iff cmp zs _).mpr ⟨by simpa using hgeu, hle⟩
        rw [List.find?_cons_of_pos (by simpa using hin)]
        rfl
      | false =>
        have hnone : (u :: R).find? (fun t ↦ decide (zs.Contains t.item.score)) = none := by
          refine List.find?_eq_none.mpr fun v hv ↦ ?_
          rw [decide_eq_true_iff, zrangespec_contains_iff cmp]
          rintro ⟨-, hlev⟩
          have hscores : u.item.score ≤ v.item.score := by
            rcases List.mem_cons.mp hv with rfl | hv
            · exact le_rfl
            · exact (h.score_split hscore hcut).2 v hv
          rw [slValueLteMax_mono cmp zs hscores hlev] at hle
          cases hle
        rw [hnone]
        rfl

theorem skiplistLastInRange_eq :
    skiplistLastInRange cmp fuel sl zs =
      some ((ts.reverse.find? fun t ↦ decide (zs.Contains t.item.score)).map Tower.addr) := by
  obtain ⟨inRange, hin, hcase⟩ := h.slIsInRange_eq cmp zs hscore
  rw [skiplistLastInRange, hin, Option.bind_some]
  cases inRange with
  | false =>
    rw [List.find?_eq_none.mpr fun t ht ↦ by simpa using hcase t (List.mem_reverse.mp ht)]
    rfl
  | true =>
    obtain ⟨-, t, ht, hle⟩ := hcase
    -- the nodes that are not above the range, and the others
    have hp : ∀ a b : SkiplistItem S, a ≤ b → slValueLteMax cmp b.score zs = true →
        slValueLteMax cmp a.score zs = true :=
      fun a b hab ↦ slValueLteMax_mono cmp zs (hscore a b hab)
    have hcut := filter_append_filter_not hp h.sorted
    have hgo : ∀ t ∈ ts, slUpToMax cmp sl zs t.addr = some (slValueLteMax cmp t.item.score zs) := by
      intro t ht
      rw [slUpToMax, h.scoreAt_eq ht, Option.map_some]
    obtain ⟨ups, rank, hdesc, hhead⟩ := h.slDescend_head hp hgo hfuel
    simp only [Bool.not_true, Bool.false_eq_true, if_false, hdesc, Option.bind_some, hhead]
    have hback : (ts.filter fun t ↦ !slValueLteMax cmp t.item.score zs).reverse.find?
        (fun t ↦ decide (zs.Contains t.item.score)) = none := by
      refine List.find?_eq_none.mpr fun v hv ↦ ?_
      obtain ⟨-, hv⟩ := List.mem_filter.mp (List.mem_reverse.mp hv)
      rw [decide_eq_true_iff, zrangespec_contains_iff cmp]
      exact fun hin ↦ by simp [hin.2] at hv
    cases hL : ts.filter fun t ↦ slValueLteMax cmp t.item.score zs using List.reverseRecOn with
    | nil =>
      have hmem := List.filter_eq_nil_iff.mp hL t (List.mem_of_head? ht)
      exact absurd hle hmem
    | append_singleton L u =>
      have hu : u ∈ ts.filter fun t ↦ slValueLteMax cmp t.item.score zs := by
        rw [hL]
        simp
      obtain ⟨hu, hleu⟩ := List.mem_filter.mp hu
      rw [hL, List.append_assoc, List.singleton_append] at hcut
      have hrev : ts.reverse = (ts.filter fun t ↦ !slValueLteMax cmp t.item.score zs).reverse ++
          u :: L.reverse := by
        rw [hcut, List.reverse_append, List.reverse_cons, List.append_assoc, ← hcut]
        rfl
      rw [List.getLast?_append, List.getLast?_singleton, Option.some_or, Option.map_some,
        Option.getD_some, h.scoreAt_eq hu, Option.map_some, hrev, List.find?_append, hback,
        Option.none_or]
      cases hge : slValueGteMin cmp u.item.score zs with
      | true =>
        have hin : zs.Contains u.item.score := (zrangespec_contains_iff cmp zs _).mpr ⟨hge, hleu⟩
        rw [List.find?_cons_of_pos (by simpa using hin)]
        rfl
      | false =>
        have hnone : (u :: L.reverse).find? (fun t ↦ decide (zs.Contains t.item.score)) = none := by
          refine List.find?_eq_none.mpr fun v hv ↦ ?_
          rw [decide_eq_true_iff, zrangespec_contains_iff cmp]
          rintro ⟨hgev, -⟩
          have hscores : v.item.score ≤ u.item.score := by
            rcases List.mem_cons.mp hv with rfl | hv
            · exact le_rfl
            · exact (h.score_split hscore hcut).1 v (List.mem_reverse.mp hv)
          rw [slValueGteMin_mono cmp zs hscores hgev] at hge
          cases hge
        rw [hnone]
        rfl

end Skiplist.WellFormed

end Queries

/-- **Range queries.** On a well-formed skiplist neither query faults. They return the first and the last
node whose score is in the range, and NULL exactly if there is none. -/
theorem skiplist_range (cmp : SkiplistScoreComparator S) (zs : Zrangespec S) {sl : Skiplist S}
    {ts : List (Tower S)} (h : sl.WellFormed ts) {fuel : ℕ} (hfuel : ts.length < fuel) :
    ∃ first last,
      skiplistFirstInRange cmp.toSkiplistComparator fuel sl zs = some first ∧
      skiplistLastInRange cmp.toSkiplistComparator fuel sl zs = some last ∧
      first = (ts.find? fun t ↦ decide (zs.Contains t.item.score)).map Tower.addr ∧
      last = (ts.reverse.find? fun t ↦ decide (zs.Contains t.item.score)).map Tower.addr ∧
      (first = none ↔ ∀ t ∈ ts, ¬zs.Contains t.item.score) ∧
      (last = none ↔ ∀ t ∈ ts, ¬zs.Contains t.item.score) := by
  refine ⟨_, _, h.skiplistFirstInRange_eq _ zs cmp.score_le hfuel,
    h.skiplistLastInRange_eq _ zs cmp.score_le hfuel, rfl, rfl, ?_, ?_⟩
  · rw [Option.map_eq_none_iff, List.find?_eq_none]
    simp only [decide_eq_true_iff]
  · rw [Option.map_eq_none_iff, List.find?_eq_none]
    simp only [decide_eq_true_iff, List.mem_reverse]

/-- The scores from 2 on, in the list of 1, 2, 3. -/
theorem skiplist_range_flat : ∃ first last,
    skiplistFirstInRange intComparator.toSkiplistComparator 4 (flatSkiplist 3) ⟨2, 7, false, true⟩ =
      some first ∧
    skiplistLastInRange intComparator.toSkiplistComparator 4 (flatSkiplist 3) ⟨2, 7, false, true⟩ =
      some last ∧
    first = some 2 ∧ last = some 3 := by
  obtain ⟨first, last, hfirst, hlast, heq, heq', -⟩ := skiplist_range intComparator
    ⟨2, 7, false, true⟩ (flatSkiplist_wellFormed (n := 3) (by decide)) (show 3 < 4 by decide)
  exact ⟨first, last, hfirst, hlast, heq.trans (by decide), heq'.trans (by decide)⟩

end LatteC
