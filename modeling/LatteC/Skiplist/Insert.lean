import LatteC.Skiplist.Flat
import Mathlib.Tactic.NormNum

/-!
# Insertion into the skiplist

On every level the new node is linked at its seat, and the two spans there come from the ranks of the
descent. Those ranks are of type `int`, while spans and lengths are of type `unsigned long`; in a list of 2³¹
elements or more the difference of two ranks need not be the distance. `RankFits` says where it is.
-/

namespace LatteC

open SkipLinks

variable {S : Type}

/-! ## One level -/

section Column

variable {col : SlAddr → Option SkiplistLevel} {i : ℕ} {hd x b : SlAddr × ℕ}
  {L R P Q : List (SlAddr × ℕ)}

variable (hcol : ColumnLinks col i (hd :: (L ++ R)))
  (hnd : ((hd :: (L ++ x :: R)).map Prod.fst).Nodup)

include hcol hnd

/-- Where only the seat and the new node get new links, the others are right. -/
private theorem insert_links {col' : SlAddr → Option SkiplistLevel}
    (hsplit : hd :: L = P ++ b :: Q) (hb : i < b.2) (hQ : Low Prod.snd i Q)
    (hother : ∀ y, y ≠ b.1 → y ≠ x.1 → col' y = col y)
    (hseat : col' b.1 = some (linkTo i (Q ++ x :: R)))
    (hnew : i < x.2 → col' x.1 = some (linkTo i R)) :
    ColumnLinks col' i (hd :: (L ++ x :: R)) := by
  intro P' c Q' hsplit' hc
  rw [← List.cons_append] at hsplit' hnd
  rcases split_insert hsplit' with ⟨Q'', hfront, rfl⟩ | ⟨rfl, -, rfl⟩ | ⟨A, hbehind, -⟩
  · -- `c` is in front of the position
    have hcx : c.1 ≠ x.1 :=
      fst_ne_of_nodup hnd rfl (by rw [hfront]; simp) List.mem_cons_self
    rcases seat_or_mem hsplit hb hQ hfront hc with ⟨-, rfl, rfl⟩ | ⟨hlow, hmem⟩
    · exact hseat
    · have hcb : c.1 ≠ b.1 := by
        have hcut : hd :: L ++ x :: R = (P' ++ [c]) ++ (Q'' ++ x :: R) := by
          rw [hfront]
          simp
        exact fst_ne_of_nodup hnd hcut (by simp) (List.mem_append_left _ hmem)
      rw [hother c.1 hcb hcx, hcol.front hfront hc, linkTo, linkTo, next_insert_of_not_low hlow]
  · exact hnew hc
  · -- `c` is behind the new node
    have hmem : c ∈ R := by
      rw [hbehind]
      simp
    have hcx : x.1 ≠ c.1 := by
      have hcut : hd :: L ++ x :: R = (hd :: L ++ [x]) ++ R := by simp
      exact fst_ne_of_nodup hnd hcut (by simp) hmem
    have hcb : b.1 ≠ c.1 :=
      fst_ne_of_nodup hnd rfl (by rw [hsplit]; simp) (List.mem_cons_of_mem _ hmem)
    rw [hother c.1 hcb.symm hcx.symm, hcol.behind hbehind hc]

end Column

/-! ## The loops -/

/-- A new span for `update[i]`. -/
def spanColumn (f : ℕ → ℕ) (up : SlAddr × ℤ) (col : SlAddr → Option SkiplistLevel) :
    Option (SlAddr → Option SkiplistLevel) :=
  (col up.1).map fun l ↦ Function.update col up.1 (some { l with span := f l.span })

theorem columnBody_span (f : ℕ → ℕ) :
    ColumnBody (fun i up (sl : Skiplist S) ↦ (sl.levelAt up.1 i).bind fun l ↦
      sl.setLevel up.1 i { l with span := f l.span }) (spanColumn f) := by
  intro i up sl
  simp only [Skiplist.levelAt_eq, spanColumn]
  cases hl : sl.column i up.1 with
  | none => exact Or.inl ⟨rfl, rfl⟩
  | some l =>
    rcases sl.setLevel_eq up.1 i { l with span := f l.span } with
      ⟨hnone, -⟩ | ⟨sl', hset, -, hshape, hcol, hother⟩
    · rw [hl] at hnone
      cases hnone
    · exact Or.inr ⟨sl', hset, hshape, by rw [hcol]; rfl, hother⟩

/-- The new node `x` linked behind `u`, which had the link `l`. -/
def relink (col : SlAddr → Option SkiplistLevel) (x u : SlAddr) (l : SkiplistLevel) (d d1 : ℤ) :
    SlAddr → Option SkiplistLevel :=
  Function.update (Function.update col x (some ⟨l.forward, slUlong (l.span - d)⟩)) u
    (some ⟨some x, slUlong d1⟩)

/-- The new node linked behind `update[i]`. -/
def linkColumn (x : SlAddr) (rank0 : ℤ) (up : SlAddr × ℤ) (col : SlAddr → Option SkiplistLevel) :
    Option (SlAddr → Option SkiplistLevel) :=
  (col up.1).bind fun l ↦
    (slIntResult (rank0 - up.2)).bind fun d ↦
      (slIntResult (d + 1)).bind fun d1 ↦
        (col x).map fun _ ↦ relink col x up.1 l d d1

theorem columnBody_link (x : SlAddr) (rank0 : ℤ) :
    ColumnBody (slLinkBody (S := S) x rank0) (linkColumn x rank0) := by
  intro i up sl
  rw [slLinkBody, linkColumn, Skiplist.levelAt_eq]
  cases hl : sl.column i up.1 with
  | none => exact Or.inl ⟨rfl, rfl⟩
  | some l =>
    cases hd : slIntResult (rank0 - up.2) with
    | none => exact Or.inl ⟨rfl, rfl⟩
    | some d =>
      cases hd1 : slIntResult (d + 1) with
      | none =>
        refine Or.inl ⟨?_, ?_⟩ <;> simp only [Option.bind_some, hd1, Option.bind_none]
      | some d1 =>
        simp only [Option.bind_some, hd1]
        rcases sl.setLevel_eq x i ⟨l.forward, slUlong (l.span - d)⟩ with
          ⟨hnone, hset⟩ | ⟨sl₁, hset, hsome, hshape, hcol, hother⟩
        · exact Or.inl ⟨by rw [hnone]; rfl, by rw [hset]; rfl⟩
        · obtain ⟨lx, hlx⟩ := Option.isSome_iff_exists.mp hsome
          rcases sl₁.setLevel_eq up.1 i ⟨some x, slUlong d1⟩ with
            ⟨hnone, -⟩ | ⟨sl₂, hset', -, hshape', hcol', hother'⟩
          · -- a level that was there is still there
            rw [hcol] at hnone
            by_cases hx : up.1 = x
            · rw [hx, Function.update_self] at hnone
              cases hnone
            · rw [Function.update_of_ne hx, hl] at hnone
              cases hnone
          · refine Or.inr ⟨sl₂, ?_, hshape.trans hshape', ?_, fun j hj ↦
              (hother' j hj).trans (hother j hj)⟩
            · rw [hset, Option.bind_some, hset']
            · rw [hlx, Option.map_some, hcol', hcol, relink]

/-! ## New levels -/

theorem linkTo_of_low {i : ℕ} {ps : List (SlAddr × ℕ)} (hps : Low Prod.snd i ps) :
    linkTo i ps = ⟨none, ps.length⟩ := by
  have hnext := next_append_of_low hps []
  rw [List.append_nil] at hnext
  rw [linkTo, hnext]
  rfl

section Open

variable [LE (SkiplistItem S)] {sl : Skiplist S} {ts : List (Tower S)} (h : sl.WellFormed ts)
  {level : ℕ} (hlevel : level ≤ zskiplistMaxlevel)

include h

/-- No node reaches a level that is not in use. -/
theorem Skiplist.WellFormed.low {i : ℕ} (hi : sl.level ≤ i) : Low Prod.snd i (ts.map Tower.post) := by
  intro p hp
  obtain ⟨t, ht, rfl⟩ := List.mem_map.mp hp
  exact (h.height_le t ht).trans hi

include hlevel

/-- Opening new levels: the header is linked on them as on the others. -/
theorem Skiplist.WellFormed.slOpen :
    ∃ sl₁, slForEach (slOpenBody sl.length) (List.replicate (level - sl.level) (sl.header, 0))
        sl.level sl = some sl₁ ∧ SameShape sl sl₁ ∧
      sl₁.Links (sl.header, max level sl.level) (ts.map Tower.post) ∧
      ∀ i, max level sl.level ≤ i → i < zskiplistMaxlevel →
        ∃ span, sl₁.column i sl.header = some ⟨none, span⟩ := by
  rcases slForEach_spec (columnBody_span fun _ ↦ sl.length)
      (List.replicate (level - sl.level) (sl.header, 0)) sl.level sl with
    ⟨-, k, up, hup, hnone⟩ | ⟨sl₁, hrun, hshape, hcol, hother⟩
  · -- the header has all the levels
    rw [List.getElem?_replicate, Option.ite_none_right_eq_some] at hup
    obtain ⟨hk, hup⟩ := hup
    obtain rfl := Option.some.inj hup
    obtain ⟨span, hspan⟩ := h.unused (sl.level + k) (Nat.le_add_right _ _) (by omega)
    rw [spanColumn, hspan] at hnone
    cases hnone
  · have hnew : ∀ i, sl.level ≤ i → i < level → sl₁.column i sl.header = some ⟨none, sl.length⟩ := by
      intro i hle hlt
      obtain ⟨span, hspan⟩ := h.unused i hle (by omega)
      obtain ⟨k, rfl⟩ := Nat.exists_eq_add_of_le hle
      have hk := hcol k (sl.header, 0) (by rw [List.getElem?_replicate, if_pos (by omega)])
      rw [spanColumn, hspan, Option.map_some] at hk
      rw [← Option.some.inj hk, Function.update_self]
    rw [List.length_replicate] at hother
    refine ⟨sl₁, hrun, hshape, fun i ↦ ?_, fun i hle hlt ↦ ?_⟩
    · intro P b Q hsplit hb
      rcases lt_or_ge i sl.level with hi | hi
      · rw [hother i (Or.inl hi)]
        cases P with
        | nil =>
          obtain ⟨rfl, rfl⟩ := List.cons.inj hsplit
          exact h.links i [] (sl.header, sl.level) _ rfl hi
        | cons p P =>
          obtain ⟨-, hsplit⟩ := List.cons.inj hsplit
          exact h.links i ((sl.header, sl.level) :: P) b Q (by rw [hsplit]; rfl) hb
      · cases P with
        | nil =>
          obtain ⟨rfl, rfl⟩ := List.cons.inj hsplit
          have hb : i < max level sl.level := hb
          rw [hnew i hi (by omega), linkTo_of_low (h.low hi), List.length_map, h.length]
        | cons p P =>
          obtain ⟨-, hsplit⟩ := List.cons.inj hsplit
          exact absurd hb (not_lt.mpr (h.low hi b (by rw [hsplit]; simp)))
    · rw [hother i (Or.inr (by omega))]
      exact h.unused i (by omega) hlt

end Open

/-! ## Ranks -/

/-- Two ranks of type `int`, that of a position behind `n` elements and that of a node `gap` elements
before it, have their distance as the difference, and there is room for one more. -/
def RankFits (n gap : ℕ) : Prop := slInt n - slInt ((n : ℤ) - gap) = gap ∧ gap + 1 < 2 ^ 31

instance (n gap : ℕ) : Decidable (RankFits n gap) := inferInstanceAs (Decidable (_ ∧ _))

/-- Short lists are no problem. -/
theorem rankFits_of_lt {n gap : ℕ} (hn : n + 1 < 2 ^ 31) (hgap : gap ≤ n) : RankFits n gap := by
  refine ⟨?_, by omega⟩
  simp only [slInt]
  omega

theorem slIntResult_eq_some {z w : ℤ} (h : slIntResult z = some w) :
    w = z ∧ -2 ^ 31 ≤ z ∧ z < 2 ^ 31 := by
  rw [slIntResult, Option.ite_none_right_eq_some] at h
  exact ⟨(Option.some.inj h.2).symm, h.1⟩

section Level

variable {col : SlAddr → Option SkiplistLevel} {i : ℕ} {hd x : SlAddr × ℕ}
  {L R : List (SlAddr × ℕ)} (hcol : ColumnLinks col i (hd :: (L ++ R)))
  (hnd : ((hd :: (L ++ x :: R)).map Prod.fst).Nodup) (hhd : i < hd.2)
  (hlen : (L ++ R).length < 2 ^ 61)

include hcol hnd hhd hlen

/-- **A level that the new node reaches.** -/
theorem linkColumn_spec (hx : i < x.2) (hsome : (col x.1).isSome) :
    (RankFits L.length (seat Prod.snd i hd L).2 →
      ∃ col', linkColumn x.1 (slInt L.length) (seatAt hd L i) col = some col' ∧
        ColumnLinks col' i (hd :: (L ++ x :: R))) ∧
    ∀ col', linkColumn x.1 (slInt L.length) (seatAt hd L i) col = some col' →
      ColumnLinks col' i (hd :: (L ++ x :: R)) → RankFits L.length (seat Prod.snd i hd L).2 := by
  obtain ⟨P, b, Q, hsplit, hb, hQ, hseat⟩ := exists_seat hhd L
  obtain ⟨lx, hlx⟩ := Option.isSome_iff_exists.mp hsome
  have hfront := hcol.front hsplit hb
  have hbx : b.1 ≠ x.1 := by
    rw [← List.cons_append] at hnd
    exact fst_ne_of_nodup hnd rfl (by rw [hsplit]; simp) List.mem_cons_self
  have hlenQ : Q.length + R.length < 2 ^ 61 := by
    have hlen' := congrArg List.length hsplit
    simp only [List.length_cons, List.length_append] at hlen hlen'
    omega
  have hlink : linkTo i (Q ++ R) = ⟨(linkTo i R).forward, Q.length + (linkTo i R).span⟩ := by
    rw [linkTo, next_append_of_low hQ, linkTo]
  have hspan : (linkTo i R).span ≤ R.length := next_snd_le R
  have hnew : linkTo i (Q ++ x :: R) = ⟨some x.1, Q.length + 1⟩ := by
    rw [linkTo, next_of_first hQ hx]
    rfl
  have hseatAt : seatAt hd L i = (b.1, slInt ((L.length : ℤ) - Q.length)) := by
    rw [seatAt, seatRank, hseat]
  have hform : linkColumn x.1 (slInt L.length) (seatAt hd L i) col =
      (slIntResult (slInt L.length - slInt ((L.length : ℤ) - Q.length))).bind fun d ↦
        (slIntResult (d + 1)).bind fun d1 ↦ some (relink col x.1 b.1 (linkTo i (Q ++ R)) d d1) := by
    rw [hseatAt, linkColumn]
    dsimp only
    rw [hfront, Option.bind_some, hlx]
    rfl
  rw [hseat, hform]
  constructor
  · rintro ⟨hdiff, hgap⟩
    have hresult : slIntResult (Q.length : ℤ) = some (Q.length : ℤ) := if_pos (by omega)
    have hresult' : slIntResult ((Q.length : ℤ) + 1) = some ((Q.length : ℤ) + 1) :=
      if_pos (by omega)
    rw [hdiff, hresult, Option.bind_some, hresult', Option.bind_some]
    refine ⟨_, rfl, insert_links hcol hnd hsplit hb hQ (fun y hyb hyx ↦ ?_) ?_ fun _ ↦ ?_⟩
    · exact (Function.update_of_ne hyb _ _).trans (Function.update_of_ne hyx _ _)
    · refine (Function.update_self _ _ _).trans ?_
      rw [hnew, slUlong_eq (Nat.cast_succ Q.length).symm (by omega)]
    · refine ((Function.update_of_ne hbx.symm _ _).trans (Function.update_self _ _ _)).trans ?_
      rw [hlink]
      have hrest : slUlong (((Q.length + (linkTo i R).span : ℕ) : ℤ) - Q.length) =
          (linkTo i R).span := slUlong_eq (by omega) (by omega)
      rw [hrest]
  · intro col' hcol' hlinks
    obtain ⟨d, hd, hcol'⟩ := Option.bind_eq_some_iff.mp hcol'
    obtain ⟨d1, hd1, hcol'⟩ := Option.bind_eq_some_iff.mp hcol'
    obtain ⟨hd, hdlow, hdhigh⟩ := slIntResult_eq_some hd
    obtain ⟨hd1, hd1low, hd1high⟩ := slIntResult_eq_some hd1
    have hat := hlinks P b (Q ++ x :: R)
      (by rw [← List.cons_append, hsplit, List.append_assoc]; rfl) hb
    rw [← Option.some.inj hcol', hnew] at hat
    replace hat := (Function.update_self _ _ _).symm.trans hat
    -- a negative difference would be a span close to 2⁶⁴
    obtain ⟨-, hspan'⟩ := SkiplistLevel.mk.inj (Option.some.inj hat)
    rw [slUlong, hd1] at hspan'
    have hgap : d = Q.length := by omega
    exact ⟨hd.symm.trans hgap, by omega⟩

/-- **A level above the new node.** -/
theorem spanColumn_spec (hx : x.2 ≤ i) :
    ∃ col', spanColumn (fun s ↦ slUlong (s + 1)) (seatAt hd L i) col = some col' ∧
      ColumnLinks col' i (hd :: (L ++ x :: R)) := by
  obtain ⟨P, b, Q, hsplit, hb, hQ, hseat⟩ := exists_seat hhd L
  have hfront := hcol.front hsplit hb
  have hseatAt : (seatAt hd L i).1 = b.1 := by rw [seatAt, hseat]
  have hlenQ : (Q ++ R).length < 2 ^ 61 := by
    have hlen' := congrArg List.length hsplit
    simp only [List.length_cons, List.length_append] at hlen hlen' ⊢
    omega
  have hspan : (linkTo i (Q ++ R)).span ≤ (Q ++ R).length := next_snd_le (Q ++ R)
  rw [spanColumn, hseatAt, hfront, Option.map_some]
  refine ⟨_, rfl, insert_links hcol hnd hsplit hb hQ (fun y hyb _ ↦ Function.update_of_ne hyb _ _) ?_
    fun hx' ↦ absurd hx' (not_lt.mpr hx)⟩
  rw [Function.update_self, slUlong_eq (Nat.cast_succ _).symm (by omega), linkTo, linkTo,
    next_insert_of_low hQ hx]

end Level

/-! ## Before the loops -/

/-- The seats on the levels in use and the header on the new ones are the seats on all levels. -/
theorem map_seatAt_append {n : ℕ} {L : List (SlAddr × ℕ)} (hlow : ∀ i, n ≤ i → Low Prod.snd i L)
    (header : SlAddr) (level : ℕ) :
    (List.range n).map (seatAt (header, n) L) ++ List.replicate (level - n) (header, 0) =
      (List.range (max level n)).map (seatAt (header, max level n) L) := by
  have hmax : max level n = n + (level - n) := by omega
  rw [hmax, List.range_add, List.map_append, List.map_map]
  congr 1
  · refine List.map_congr_left fun i _ ↦ ?_
    rw [seatAt, seatAt, seatRank, seatRank]
    rcases seat_head Prod.snd i (header, n) (header, n + (level - n)) L with
      ⟨h₁, h₂⟩ | heq
    · rw [h₁, h₂]
    · rw [heq]
  · refine (List.eq_replicate_iff.mpr ⟨by simp, fun up hup ↦ ?_⟩).symm
    obtain ⟨k, -, rfl⟩ := List.mem_map.mp hup
    rw [Function.comp_apply, seatAt, seatRank, seat_of_low (hlow _ (Nat.le_add_right n k)),
      sub_self, slInt_zero]

/-- The state before the loops: the new node `x` is there, and the header is open on its levels. -/
structure InsertReady (sl sl' : Skiplist S) (ts : List (Tower S)) (x : Tower S) : Prop where
  header : sl'.header = sl.header
  tail : sl'.tail = sl.tail
  length : sl'.length = sl.length
  level : sl'.level = max x.height sl.level
  info : sl'.infoAt =
    Function.update sl.infoAt x.addr (some (some x.item.ele, some x.item.score, x.height))
  back : sl'.backAt = Function.update sl.backAt x.addr (some none)
  links : sl'.Links (sl.header, max x.height sl.level) (ts.map Tower.post)
  unused : ∀ i, max x.height sl.level ≤ i → i < zskiplistMaxlevel →
    ∃ span, sl'.column i sl.header = some ⟨none, span⟩
  new : ∀ i < x.height, (sl'.column i x.addr).isSome

section Insert

variable [LinearOrder (SkiplistItem S)] {sl : Skiplist S} {ts : List (Tower S)}
  (h : sl.WellFormed ts) {x : Tower S} (hheight : x.height ≤ zskiplistMaxlevel)
  (hfresh : sl.heap x.addr = none)

include h hfresh

/-- The new node is none of the others. -/
theorem Skiplist.WellFormed.fresh : x.addr ≠ sl.header ∧ ∀ t ∈ ts, x.addr ≠ t.addr := by
  have hinfo : sl.infoAt x.addr = none := by rw [Skiplist.infoAt, hfresh, Option.map_none]
  refine ⟨fun heq ↦ ?_, fun t ht heq ↦ ?_⟩
  · rw [heq, h.header] at hinfo
    cases hinfo
  · rw [heq, h.node t ht] at hinfo
    cases hinfo

include hheight

theorem Skiplist.WellFormed.insertReady :
    ∃ opened, slForEach (slOpenBody sl.length) (List.replicate (x.height - sl.level) (sl.header, 0))
        sl.level sl = some opened ∧
      InsertReady sl (Skiplist.setNode { opened with level := max x.height sl.level } x.addr
        (skipListCreateNode x.height (some x.item.score) (some x.item.ele))) ts x := by
  obtain ⟨opened, hopen, hshape, hlinks, hunused⟩ := h.slOpen hheight
  obtain ⟨hheader, hts⟩ := h.fresh hfresh
  refine ⟨opened, hopen, hshape.header, hshape.tail, hshape.length, rfl, ?_, ?_, fun i ↦ ?_,
    fun i hle hlt ↦ ?_, fun i hi ↦ ?_⟩
  · rw [Skiplist.infoAt_setNode, ← hshape.info, skipListCreateNode, List.length_replicate]
    rfl
  · rw [Skiplist.backAt_setNode, ← hshape.back]
    rfl
  · intro P b Q hsplit hb
    have hbx : b.1 ≠ x.addr := by
      have hmem : b ∈ (sl.header, max x.height sl.level) :: ts.map Tower.post := by
        rw [hsplit]
        simp
      rcases List.mem_cons.mp hmem with rfl | hmem
      · exact hheader.symm
      · obtain ⟨t, ht, rfl⟩ := List.mem_map.mp hmem
        exact (hts t ht).symm
    rw [Skiplist.column_setNode, Function.update_of_ne hbx]
    exact hlinks i P b Q hsplit hb
  · obtain ⟨span, hspan⟩ := hunused i hle hlt
    refine ⟨span, ?_⟩
    rw [Skiplist.column_setNode, Function.update_of_ne hheader.symm]
    exact hspan
  · rw [Skiplist.column_setNode, Function.update_self, skipListCreateNode,
      List.getElem?_replicate_of_lt hi]
    rfl

end Insert

/-! ## The loops and the end -/

section Loops

variable [LinearOrder (SkiplistItem S)] {sl sl₂ : Skiplist S} {L R : List (Tower S)} {x : Tower S}

/-- The two loops, on the seats of the new node. -/
def slInsertLoops (sl₂ : Skiplist S) (L : List (Tower S)) (x : Tower S) (hd : SlAddr × ℕ) :
    Option (Skiplist S) :=
  (slForEach (slLinkBody x.addr (slInt L.length))
      (((List.range hd.2).map (seatAt hd (L.map Tower.post))).take x.height) 0 sl₂).bind fun sl ↦
    slForEach slSpanBody (((List.range hd.2).map (seatAt hd (L.map Tower.post))).drop x.height)
      x.height sl

omit [LinearOrder (SkiplistItem S)] in
/-- What the two loops do to the levels. -/
theorem slInsertLoops_spec (sl₂ : Skiplist S) (L : List (Tower S)) (x : Tower S) {hd : SlAddr × ℕ}
    (hx : x.height ≤ hd.2) :
    (slInsertLoops sl₂ L x hd = none ∧ ∃ i < x.height, linkColumn x.addr (slInt L.length)
        (seatAt hd (L.map Tower.post) i) (sl₂.column i) = none) ∨
    (slInsertLoops sl₂ L x hd = none ∧ ∃ i, x.height ≤ i ∧ i < hd.2 ∧
      spanColumn (fun s ↦ slUlong (s + 1)) (seatAt hd (L.map Tower.post) i) (sl₂.column i) = none) ∨
    ∃ sl₄, slInsertLoops sl₂ L x hd = some sl₄ ∧ SameShape sl₂ sl₄ ∧
      (∀ i < x.height, linkColumn x.addr (slInt L.length) (seatAt hd (L.map Tower.post) i)
        (sl₂.column i) = some (sl₄.column i)) ∧
      (∀ i, x.height ≤ i → i < hd.2 → spanColumn (fun s ↦ slUlong (s + 1))
        (seatAt hd (L.map Tower.post) i) (sl₂.column i) = some (sl₄.column i)) ∧
      ∀ i, hd.2 ≤ i → sl₄.column i = sl₂.column i := by
  have htake : ∀ k, (((List.range hd.2).map (seatAt hd (L.map Tower.post))).take x.height)[k]? =
      if k < x.height then some (seatAt hd (L.map Tower.post) k) else none := by
    intro k
    rw [List.getElem?_take, List.getElem?_map]
    split_ifs with hk
    · rw [List.getElem?_range (by omega), Option.map_some]
    · rfl
  have hdrop : ∀ k, (((List.range hd.2).map (seatAt hd (L.map Tower.post))).drop x.height)[k]? =
      if x.height + k < hd.2 then some (seatAt hd (L.map Tower.post) (x.height + k)) else none := by
    intro k
    rw [List.getElem?_drop, List.getElem?_map]
    split_ifs with hk
    · rw [List.getElem?_range hk, Option.map_some]
    · rw [List.getElem?_eq_none (by rw [List.length_range]; omega), Option.map_none]
  have hlen : (((List.range hd.2).map (seatAt hd (L.map Tower.post))).take x.height).length =
      x.height := by
    rw [List.length_take, List.length_map, List.length_range]
    omega
  have hlen' : (((List.range hd.2).map (seatAt hd (L.map Tower.post))).drop x.height).length =
      hd.2 - x.height := by
    rw [List.length_drop, List.length_map, List.length_range]
  rw [slInsertLoops]
  rcases slForEach_spec (columnBody_link x.addr (slInt L.length))
      (((List.range hd.2).map (seatAt hd (L.map Tower.post))).take x.height) 0 sl₂ with
    ⟨hnone, k, up, hup, hF⟩ | ⟨sl₃, hrun, hshape, hcol, hother⟩
  · rw [htake, Option.ite_none_right_eq_some] at hup
    obtain ⟨hk, hup⟩ := hup
    obtain rfl := Option.some.inj hup
    rw [Nat.zero_add] at hF
    exact Or.inl ⟨by rw [hnone, Option.bind_none], k, hk, hF⟩
  · rw [hlen] at hother
    rw [hrun, Option.bind_some]
    rcases slForEach_spec (columnBody_span fun s ↦ slUlong (s + 1))
        (((List.range hd.2).map (seatAt hd (L.map Tower.post))).drop x.height) x.height sl₃ with
      ⟨hnone, k, up, hup, hF⟩ | ⟨sl₄, hrun', hshape', hcol', hother'⟩
    · rw [hdrop, Option.ite_none_right_eq_some] at hup
      obtain ⟨hk, hup⟩ := hup
      obtain rfl := Option.some.inj hup
      rw [hother _ (Or.inr (by omega))] at hF
      exact Or.inr (Or.inl ⟨hnone, x.height + k, Nat.le_add_right _ _, hk, hF⟩)
    · rw [hlen'] at hother'
      refine Or.inr (Or.inr ⟨sl₄, hrun', hshape.trans hshape', fun i hi ↦ ?_, fun i hle hi ↦ ?_,
        fun i hi ↦ ?_⟩)
      · have hk := hcol i _ (by rw [htake, if_pos hi])
        rw [Nat.zero_add] at hk
        rw [hother' i (Or.inl hi)]
        exact hk
      · obtain ⟨k, rfl⟩ := Nat.exists_eq_add_of_le hle
        have hk := hcol' k _ (by rw [hdrop, if_pos hi])
        rw [hother _ (Or.inr (by omega))] at hk
        exact hk
      · rw [hother' i (Or.inr (by omega)), hother i (Or.inr (by omega))]

variable (hready : InsertReady sl sl₂ (L ++ R) x)
  (hnd : (sl.header :: (L ++ x :: R).map Tower.addr).Nodup) (hlen : (L ++ R).length < 2 ^ 61)

include hready hnd hlen

omit [LinearOrder (SkiplistItem S)] in
/-- The levels before the loops, in terms of addresses and heights. -/
private theorem InsertReady.columns (i : ℕ) :
    ColumnLinks (sl₂.column i) i ((sl.header, max x.height sl.level) ::
      (L.map Tower.post ++ R.map Tower.post)) ∧
    (((sl.header, max x.height sl.level) ::
      (L.map Tower.post ++ x.post :: R.map Tower.post)).map Prod.fst).Nodup ∧
    (L.map Tower.post ++ R.map Tower.post).length < 2 ^ 61 := by
  refine ⟨?_, ?_, ?_⟩
  · rw [← List.map_append]
    exact hready.links i
  · simpa [Tower.post, Function.comp_def] using hnd
  · rwa [← List.map_append, List.length_map]

omit [LinearOrder (SkiplistItem S)] in
/-- **The loops link the new node** on all levels if the ranks fit. -/
theorem InsertReady.loops (hheight : ∀ t ∈ L ++ R, t.height ≤ sl.level)
    (hfits : ∀ i < x.height, RankFits L.length (gap Tower.height i L)) :
    ∃ sl₄, slInsertLoops sl₂ L x (sl.header, max x.height sl.level) = some sl₄ ∧
      SameShape sl₂ sl₄ ∧
      sl₄.Links (sl.header, max x.height sl.level) ((L ++ x :: R).map Tower.post) ∧
      ∀ i, max x.height sl.level ≤ i → sl₄.column i = sl₂.column i := by
  have hlink : ∀ i < x.height, ∃ col', linkColumn x.addr (slInt L.length)
      (seatAt (sl.header, max x.height sl.level) (L.map Tower.post) i) (sl₂.column i) = some col' ∧
      ColumnLinks col' i ((sl.header, max x.height sl.level) ::
        (L.map Tower.post ++ x.post :: R.map Tower.post)) := by
    intro i hi
    obtain ⟨hcol, hnd', hlen'⟩ := hready.columns hnd hlen i
    have hspec := (linkColumn_spec hcol hnd' (lt_max_of_lt_left hi) hlen' hi (hready.new i hi)).1
    rw [seat_snd, gap_map, List.length_map] at hspec
    exact hspec (hfits i hi)
  have hspan : ∀ i, x.height ≤ i → i < max x.height sl.level → ∃ col',
      spanColumn (fun s ↦ slUlong (s + 1)) (seatAt (sl.header, max x.height sl.level)
        (L.map Tower.post) i) (sl₂.column i) = some col' ∧
      ColumnLinks col' i ((sl.header, max x.height sl.level) ::
        (L.map Tower.post ++ x.post :: R.map Tower.post)) := by
    intro i hle hi
    obtain ⟨hcol, hnd', hlen'⟩ := hready.columns hnd hlen i
    exact spanColumn_spec hcol hnd' hi hlen' hle
  rcases slInsertLoops_spec sl₂ L x
      (show x.height ≤ (sl.header, max x.height sl.level).2 from le_max_left _ _) with
    ⟨-, i, hi, hnone⟩ | ⟨-, i, hle, hi, hnone⟩ | ⟨sl₄, hrun, hshape, hcol, hcol', hother⟩
  · obtain ⟨col', hsome, -⟩ := hlink i hi
    rw [hsome] at hnone
    cases hnone
  · obtain ⟨col', hsome, -⟩ := hspan i hle hi
    rw [hsome] at hnone
    cases hnone
  · refine ⟨sl₄, hrun, hshape, Skiplist.links_of_lt (fun p hp ↦ ?_) fun i hi' ↦ ?_, hother⟩
    · obtain ⟨t, ht, rfl⟩ := List.mem_map.mp hp
      rcases List.mem_append.mp ht with ht | ht
      · exact (hheight t (List.mem_append_left _ ht)).trans (le_max_right _ _)
      · rcases List.mem_cons.mp ht with rfl | ht
        · exact le_max_left _ _
        · exact (hheight t (List.mem_append_right _ ht)).trans (le_max_right _ _)
    · rw [List.map_append, List.map_cons]
      rcases lt_or_ge i x.height with hi | hi
      · obtain ⟨col', hsome, hlinks⟩ := hlink i hi
        rwa [← Option.some.inj ((hcol i hi).symm.trans hsome)] at hlinks
      · obtain ⟨col', hsome, hlinks⟩ := hspan i hi hi'
        rwa [← Option.some.inj ((hcol' i hi hi').symm.trans hsome)] at hlinks

omit [LinearOrder (SkiplistItem S)] in
/-- The loops do not link it right if they do not. -/
theorem InsertReady.fits_of_loops {sl₄ : Skiplist S}
    (hrun : slInsertLoops sl₂ L x (sl.header, max x.height sl.level) = some sl₄)
    (hlinks : sl₄.Links (sl.header, max x.height sl.level) ((L ++ x :: R).map Tower.post)) :
    ∀ i < x.height, RankFits L.length (gap Tower.height i L) := by
  intro i hi
  obtain ⟨hcol, hnd', hlen'⟩ := hready.columns hnd hlen i
  have hspec := (linkColumn_spec hcol hnd' (lt_max_of_lt_left hi) hlen' hi (hready.new i hi)).2
  rw [seat_snd, gap_map, List.length_map] at hspec
  have hlinks_i := hlinks i
  rw [List.map_append, List.map_cons] at hlinks_i
  rcases slInsertLoops_spec sl₂ L x
      (show x.height ≤ (sl.header, max x.height sl.level).2 from le_max_left _ _) with
    ⟨hnone, -⟩ | ⟨hnone, -⟩ | ⟨sl₅, hrun', -, hcol', -⟩
  · rw [hrun] at hnone
    cases hnone
  · rw [hrun] at hnone
    cases hnone
  · obtain rfl : sl₄ = sl₅ := Option.some.inj (hrun.symm.trans hrun')
    exact hspec _ (hcol' i hi) hlinks_i

end Loops

section End

variable {sl : Skiplist S} {x u : SlAddr}

/-- The end of an insertion leaves the levels alone. -/
theorem slInsertEnd_column {sl' : Skiplist S} (h : slInsertEnd sl x u = some sl') :
    sl'.column = sl.column ∧ sl'.header = sl.header ∧ sl'.level = sl.level := by
  rw [slInsertEnd] at h
  rcases sl.setBackward_eq x (if u = sl.header then none else some u) with
    ⟨-, hnone⟩ | ⟨sl₁, hset, hheader, -, -, hlevel, -, -, hcol⟩
  · rw [hnone] at h
    cases h
  · rw [hset, Option.bind_some] at h
    obtain ⟨l, -, h⟩ := Option.bind_eq_some_iff.mp h
    cases hl : l.forward with
    | none =>
      rw [hl] at h
      obtain rfl := Option.some.inj h
      exact ⟨hcol, hheader, hlevel⟩
    | some f =>
      rw [hl] at h
      rcases sl₁.setBackward_eq f (some x) with
        ⟨-, hnone⟩ | ⟨sl₂, hset', hheader', -, -, hlevel', -, -, hcol'⟩
      · simp only [hnone, Option.map_none, reduceCtorEq] at h
      · simp only [hset', Option.map_some, Option.some.injEq] at h
        subst h
        exact ⟨hcol'.trans hcol, hheader'.trans hheader, hlevel'.trans hlevel⟩

/-- The end of an insertion between a node, or the header, and what follows it. -/
theorem slInsertEnd_spec {back : Option SlAddr} {l : SkiplistLevel}
    (hx : (sl.infoAt x).isSome) (hback : (if u = sl.header then none else some u) = back)
    (hl : sl.column 0 x = some l) (hf : ∀ f, l.forward = some f → (sl.infoAt f).isSome) :
    ∃ sl', slInsertEnd sl x u = some sl' ∧ sl'.column = sl.column ∧ sl'.infoAt = sl.infoAt ∧
      sl'.header = sl.header ∧ sl'.level = sl.level ∧ sl'.length = slUlong (sl.length + 1) ∧
      match l.forward with
      | none => sl'.tail = some x ∧ sl'.backAt = Function.update sl.backAt x (some back)
      | some f => sl'.tail = sl.tail ∧ sl'.backAt =
          Function.update (Function.update sl.backAt x (some back)) f (some (some x)) := by
  rw [slInsertEnd, hback]
  rcases sl.setBackward_eq x back with
    ⟨hnone, -⟩ | ⟨sl₁, hset, hheader, htail, hlength, hlevel, hinfo, hback', hcol⟩
  · rw [hnone] at hx
    cases hx
  · rw [hset, Option.bind_some, Skiplist.levelAt_eq, hcol, hl, Option.bind_some]
    cases hfwd : l.forward with
    | none =>
      refine ⟨_, rfl, hcol, hinfo, hheader, hlevel, ?_, rfl, hback'⟩
      rw [← hlength]
    | some f =>
      rcases sl₁.setBackward_eq f (some x) with
        ⟨hnone, -⟩ | ⟨sl₂, hset', hheader', htail', hlength', hlevel', hinfo', hback'', hcol'⟩
      · have hsome := hf f hfwd
        rw [← hinfo, hnone] at hsome
        cases hsome
      · refine ⟨{ sl₂ with length := slUlong (sl₂.length + 1) },
          by simp only [hset', Option.map_some], hcol'.trans hcol, hinfo'.trans hinfo,
          hheader'.trans hheader, hlevel'.trans hlevel, ?_, htail'.trans htail, ?_⟩
        · rw [hlength', hlength]
        · rw [← hback']
          exact hback''

end End

/-! ## The insertion -/

/-- Backward pointers behind an insertion: the new node has the last one in front of it, the node behind
has the new one, and the others are as before. -/
theorem backward_insert {L R : List (Tower S)} {x : Tower S}
    {back back' : SlAddr → Option (Option SlAddr)}
    (hold : ∀ P t Q, L ++ R = P ++ t :: Q → back t.addr = some (P.getLast?.map Tower.addr))
    (hnd : ((L ++ x :: R).map Tower.addr).Nodup)
    (hx : back' x.addr = some (L.getLast?.map Tower.addr))
    (hnext : ∀ f, R.head? = some f → back' f.addr = some (some x.addr))
    (hother : ∀ y, y ≠ x.addr → (∀ f, R.head? = some f → y ≠ f.addr) → back' y = back y) :
    ∀ P t Q, L ++ x :: R = P ++ t :: Q → back' t.addr = some (P.getLast?.map Tower.addr) := by
  have hne : ∀ {A B : List (Tower S)} {t u : Tower S}, L ++ x :: R = A ++ B → t ∈ A → u ∈ B →
      t.addr ≠ u.addr := by
    intro A B t u hcut ht hu
    rw [hcut, List.map_append, List.nodup_append] at hnd
    exact hnd.2.2 _ (List.mem_map_of_mem ht) _ (List.mem_map_of_mem hu)
  intro P t Q hsplit
  rcases split_insert hsplit with ⟨Q', hfront, rfl⟩ | ⟨rfl, rfl, rfl⟩ | ⟨A, hbehind, rfl⟩
  · have ht : t ∈ L := by
      rw [hfront]
      simp
    rw [hother t.addr (hne rfl ht List.mem_cons_self) fun f hf ↦
      hne rfl ht (List.mem_cons_of_mem _ (List.mem_of_head? hf))]
    exact hold P t (Q' ++ R) (by rw [hfront, List.append_assoc]; rfl)
  · exact hx
  · have hcut : L ++ x :: R = (L ++ [x]) ++ R := by simp
    have ht : t ∈ R := by
      rw [hbehind]
      simp
    cases A with
    | nil =>
      rw [hnext t (by rw [hbehind]; rfl)]
      simp
    | cons a A =>
      have hat : a.addr ≠ t.addr := by
        refine hne (A := L ++ [x, a]) (B := A ++ t :: Q) ?_ (by simp) (by simp)
        rw [hbehind]
        simp
      rw [hother t.addr (hne hcut (by simp) ht).symm fun f hf ↦ ?_,
        hold (L ++ a :: A) t Q (by rw [hbehind, List.append_assoc])]
      · simp [List.getLast?_append, List.getLast?_cons]
      · rw [hbehind] at hf
        obtain rfl := Option.some.inj hf
        exact hat.symm

section Towers

variable [LinearOrder (SkiplistItem S)]

/-- A node at its sorted position. -/
def insertTower (ts : List (Tower S)) (x : Tower S) : List (Tower S) :=
  towersBefore ts x.item ++ x :: towersFrom ts x.item

/-- The condition for an insertion: on every level of the new node, the rank of its position and the
rank of the last node before it that reaches the level, or of the header, fit. -/
def SkipListRanksFit (ts : List (Tower S)) (x : Tower S) : Prop :=
  ∀ i < x.height, RankFits (towersBefore ts x.item).length
    (gap Tower.height i (towersBefore ts x.item))

theorem mem_insertTower {ts : List (Tower S)} {x t : Tower S} :
    t ∈ insertTower ts x ↔ t = x ∨ t ∈ ts := by
  rw [insertTower, towersBefore, towersFrom, List.mem_append, List.mem_cons, List.mem_filter,
    List.mem_filter]
  by_cases ht : t.item < x.item <;> simp [ht, or_comm]

theorem sorted_insertTower {ts : List (Tower S)} (x : Tower S)
    (h : (ts.map Tower.item).Pairwise (· ≤ ·)) :
    ((insertTower ts x).map Tower.item).Pairwise (· ≤ ·) := by
  rw [List.pairwise_map] at h ⊢
  refine List.pairwise_append.mpr ⟨h.filter _, List.pairwise_cons.mpr ⟨fun t ht ↦ ?_, h.filter _⟩,
    fun t ht u hu ↦ ?_⟩
  · obtain ⟨-, ht⟩ := List.mem_filter.mp ht
    simpa using ht
  · obtain ⟨-, ht⟩ := List.mem_filter.mp ht
    have ht : t.item < x.item := by simpa using ht
    rcases List.mem_cons.mp hu with rfl | hu
    · exact ht.le
    · obtain ⟨-, hu⟩ := List.mem_filter.mp hu
      exact ht.le.trans (by simpa using hu)

end Towers

section Done

variable [LinearOrder (SkiplistItem S)] {sl sl₂ sl' : Skiplist S} {L R : List (Tower S)} {x : Tower S}

/-- What the insertion of a node between `L` and `R` leaves behind. -/
structure InsertDone (sl sl' : Skiplist S) (L R : List (Tower S)) (x : Tower S) : Prop where
  header : sl'.header = sl.header
  level : sl'.level = max x.height sl.level
  length : sl'.length = slUlong (sl.length + 1)
  info : sl'.infoAt =
    Function.update sl.infoAt x.addr (some (some x.item.ele, some x.item.score, x.height))
  links : sl'.Links (sl.header, max x.height sl.level) ((L ++ x :: R).map Tower.post)
  unused : ∀ i, max x.height sl.level ≤ i → i < zskiplistMaxlevel →
    ∃ span, sl'.column i sl.header = some ⟨none, span⟩
  back_new : sl'.backAt x.addr = some (L.getLast?.map Tower.addr)
  back_next : ∀ f, R.head? = some f → sl'.backAt f.addr = some (some x.addr)
  back_other : ∀ y, y ≠ x.addr → (∀ f, R.head? = some f → y ≠ f.addr) → sl'.backAt y = sl.backAt y
  tail_last : R = [] → sl'.tail = some x.addr
  tail_kept : R ≠ [] → sl'.tail = sl.tail

/-- The loops and the end, if the ranks fit. -/
theorem InsertReady.exists_insertDone (hready : InsertReady sl sl₂ (L ++ R) x) (h : sl.WellFormed (L ++ R))
    (hnd : (sl.header :: (L ++ x :: R).map Tower.addr).Nodup) (hpos : 1 ≤ x.height)
    (hfresh : sl.heap x.addr = none) (hfits : ∀ i < x.height, RankFits L.length (gap Tower.height i L)) :
    ∃ sl₄ sl', slInsertLoops sl₂ L x (sl.header, max x.height sl.level) = some sl₄ ∧
      slInsertEnd sl₄ x.addr ((L.getLast?.map Tower.addr).getD sl.header) = some sl' ∧
        InsertDone sl sl' L R x := by
  obtain ⟨-, hts⟩ := h.fresh hfresh
  obtain ⟨sl₄, hloops, hshape, hlinks, hhigh⟩ := hready.loops hnd h.length_lt h.height_le hfits
  -- the node behind the new one, and the one in front
  have hcol : sl₄.column 0 x.addr = some (linkTo 0 (R.map Tower.post)) :=
    hlinks 0 ((sl.header, max x.height sl.level) :: L.map Tower.post) x.post (R.map Tower.post) (by simp) hpos
  have hfwd : (linkTo 0 (R.map Tower.post)).forward = R.head?.map Tower.addr :=
    h.next_zero fun t ht ↦ List.mem_append_right _ ht
  have hinfo : sl₄.infoAt = Function.update sl.infoAt x.addr
      (some (some x.item.ele, some x.item.score, x.height)) := hshape.info.trans hready.info
  have hback : (if (L.getLast?.map Tower.addr).getD sl.header = sl₄.header then none
      else some ((L.getLast?.map Tower.addr).getD sl.header)) = L.getLast?.map Tower.addr := by
    rw [hshape.header, hready.header]
    cases hlast : L.getLast? with
    | none => simp
    | some t =>
      have ht : t.addr ∈ (L ++ R).map Tower.addr :=
        List.mem_map_of_mem (List.mem_append_left _ (List.mem_of_getLast? hlast))
      have hne : t.addr ≠ sl.header := fun heq ↦ (List.nodup_cons.mp h.nodup).1 (heq ▸ ht)
      simp [hne]
  have hf : ∀ f, (linkTo 0 (R.map Tower.post)).forward = some f → (sl₄.infoAt f).isSome := by
    intro f hf
    rw [hfwd, Option.map_eq_some_iff] at hf
    obtain ⟨t, ht, rfl⟩ := hf
    have ht : t ∈ L ++ R := List.mem_append_right _ (List.mem_of_head? ht)
    rw [hinfo, Function.update_of_ne (hts t ht).symm, h.node t ht]
    rfl
  obtain ⟨sl', hend, hcol', hinfo', hheader', hlevel', hlength', hlast⟩ :=
    slInsertEnd_spec (by rw [hinfo, Function.update_self]; rfl) hback hcol hf
  rw [hfwd] at hlast
  have hheader₄ : sl₄.header = sl.header := hshape.header.trans hready.header
  have hback₄ : sl₄.backAt = Function.update sl.backAt x.addr (some none) := hshape.back.trans hready.back
  refine ⟨sl₄, sl', hloops, hend, hheader'.trans hheader₄, hlevel'.trans (hshape.level.trans hready.level),
    by rw [hlength', hshape.length, hready.length], hinfo'.trans hinfo, fun i ↦ hcol' ▸ hlinks i,
    fun i hle hlt ↦ ?_, ?_, fun f hf ↦ ?_, fun y hyx hyf ↦ ?_, fun hnil ↦ ?_, fun hne ↦ ?_⟩
  · rw [hcol', hhigh i hle]
    exact hready.unused i hle hlt
  · cases R with
    | nil => rw [hlast.2, Function.update_self]
    | cons f R => rw [hlast.2, Function.update_of_ne (hts f (by simp)), Function.update_self]
  · rw [hf] at hlast
    rw [hlast.2, Function.update_self]
  · cases R with
    | nil => rw [hlast.2, Function.update_of_ne hyx, hback₄, Function.update_of_ne hyx]
    | cons f R =>
      rw [hlast.2, Function.update_of_ne (hyf f rfl), Function.update_of_ne hyx, hback₄,
        Function.update_of_ne hyx]
  · subst hnil
    exact hlast.1
  · obtain ⟨f, R, rfl⟩ := List.exists_cons_of_ne_nil hne
    rw [hlast.1, hshape.tail, hready.tail]

/-- The list with the new node in its place. -/
theorem InsertDone.wellFormed (hdone : InsertDone sl sl' L R x) (h : sl.WellFormed (L ++ R))
    (hnd : (sl.header :: (L ++ x :: R).map Tower.addr).Nodup) (hpos : 1 ≤ x.height)
    (hheight : x.height ≤ zskiplistMaxlevel)
    (hsorted : ((L ++ x :: R).map Tower.item).Pairwise (· ≤ ·)) : sl'.WellFormed (L ++ x :: R) := by
  obtain ⟨hheader, hnodup⟩ := List.nodup_cons.mp hnd
  have hmem : ∀ t ∈ L ++ x :: R, t = x ∨ t ∈ L ++ R := by
    intro t ht
    rwa [List.mem_append, List.mem_cons, or_left_comm, ← List.mem_append] at ht
  have hne : ∀ t ∈ L ++ R, t.addr ≠ x.addr := by
    have hperm : ((L ++ x :: R).map Tower.addr).Perm (x.addr :: (L ++ R).map Tower.addr) :=
      List.perm_middle.map Tower.addr
    intro t ht heq
    exact (List.nodup_cons.mp (hperm.nodup_iff.mp hnodup)).1 (heq ▸ List.mem_map_of_mem ht)
  constructor
  case nodup => rwa [hdone.header]
  case header =>
    have hx : sl.header ≠ x.addr := by
      rintro heq
      exact hheader (heq ▸ List.mem_map_of_mem (List.mem_append_right _ List.mem_cons_self))
    rw [hdone.info, hdone.header, Function.update_of_ne hx, h.header]
  case node =>
    intro t ht
    rw [hdone.info]
    rcases hmem t ht with rfl | ht
    · rw [Function.update_self]
    · rw [Function.update_of_ne (hne t ht), h.node t ht]
  case links =>
    rw [hdone.header, hdone.level]
    exact hdone.links
  case unused =>
    rw [hdone.header, hdone.level]
    exact hdone.unused
  case level_pos => exact hdone.level ▸ hpos.trans (le_max_left _ _)
  case level_le => exact hdone.level ▸ max_le hheight h.level_le
  case height_pos =>
    intro t ht
    rcases hmem t ht with rfl | ht
    · exact hpos
    · exact h.height_pos t ht
  case height_le =>
    intro t ht
    rw [hdone.level]
    rcases hmem t ht with rfl | ht
    · exact le_max_left _ _
    · exact (h.height_le t ht).trans (le_max_right _ _)
  case level_used =>
    rw [hdone.level]
    rcases le_total sl.level x.height with hle | hle
    · exact Or.inr ⟨x, by simp, (max_eq_left hle).symm⟩
    · rw [max_eq_right hle]
      refine h.level_used.imp id fun ⟨t, ht, heq⟩ ↦ ⟨t, ?_, heq⟩
      rcases List.mem_append.mp ht with ht | ht <;> simp [ht]
  case backward =>
    exact backward_insert h.backward hnodup hdone.back_new hdone.back_next hdone.back_other
  case tail =>
    cases R with
    | nil =>
      rw [hdone.tail_last rfl]
      simp
    | cons f R =>
      rw [hdone.tail_kept (List.cons_ne_nil f R), h.tail]
      simp [List.getLast?_append, List.getLast?_cons]
  case length =>
    have hlt := h.length_lt
    have hlen : (L ++ x :: R).length = (L ++ R).length + 1 := by
      simp only [List.length_append, List.length_cons]
      omega
    rw [hdone.length, h.length, hlen]
    exact slUlong_eq (Nat.cast_succ _).symm (by omega)
  case sorted => exact hsorted

end Done

section Insertion

variable [LinearOrder S] [LinearOrder (SkiplistItem S)] (cmp : SkiplistComparator S)
  {sl : Skiplist S} {ts : List (Tower S)} (h : sl.WellFormed ts) {x : Tower S}
  (hpos : 1 ≤ x.height) (hheight : x.height ≤ zskiplistMaxlevel) (hfresh : sl.heap x.addr = none)
  {fuel : ℕ} (hfuel : ts.length < fuel)

include h

include hfresh

omit [LinearOrder S] in
theorem Skiplist.WellFormed.nodup_insertTower :
    (sl.header :: (insertTower ts x).map Tower.addr).Nodup := by
  have hnodup := h.nodup
  obtain ⟨hheader, hts⟩ := h.fresh hfresh
  have hx : x.addr ∉ sl.header :: ts.map Tower.addr := by
    rw [List.mem_cons, List.mem_map]
    rintro (heq | ⟨t, ht, heq⟩)
    · exact hheader heq
    · exact hts t ht heq.symm
  have hperm : (sl.header :: (insertTower ts x).map Tower.addr).Perm
      (x.addr :: sl.header :: ts.map Tower.addr) := by
    refine List.Perm.trans (List.Perm.cons _ ?_) (List.Perm.swap _ _ _)
    have hcut := h.eq_before_append_from x.item
    nth_rewrite 2 [hcut]
    exact (List.perm_middle.map Tower.addr)
  exact hperm.nodup_iff.mpr (List.nodup_cons.mpr ⟨hx, hnodup⟩)

include hpos hheight hfuel

/-- **`skipListInsert`** as the two loops and the end, on a list that is ready for them. -/
theorem Skiplist.WellFormed.skipListInsert_eq :
    ∃ sl₂, InsertReady sl sl₂ ts x ∧ skipListInsert cmp fuel x.height x.addr sl x.item =
      (slInsertLoops sl₂ (towersBefore ts x.item) x (sl.header, max x.height sl.level)).bind
        fun sl₄ ↦ (slInsertEnd sl₄ x.addr
          (((towersBefore ts x.item).getLast?.map Tower.addr).getD sl.header)).map
            fun sl ↦ (sl, x.addr) := by
  obtain ⟨opened, hopen, hready⟩ := h.insertReady hheight hfresh
  refine ⟨_, hready, ?_⟩
  have hbefore : ∀ t ∈ towersBefore ts x.item, t ∈ ts := fun t ht ↦ List.mem_of_mem_filter ht
  have hdesc : slDescend sl (slBefore cmp sl x.item) fuel sl.level sl.header 0 =
      some ((List.range sl.level).map
        (seatAt (sl.header, sl.level) ((towersBefore ts x.item).map Tower.post))) :=
    h.slDescend_eq (before_of_le x.item) (fun t ht ↦ h.slBefore_eq cmp ht x.item) hfuel
  have hseats := map_seatAt_append (L := (towersBefore ts x.item).map Tower.post) (n := sl.level)
    (fun i hi p hp ↦ by
      obtain ⟨t, ht, rfl⟩ := List.mem_map.mp hp
      exact (h.height_le t (hbefore t ht)).trans hi) sl.header x.height
  have hhead := h.head_seats hbefore (sl.header, max x.height sl.level)
    (hpos.trans (le_max_left x.height sl.level))
  rw [skipListInsert, hdesc, Option.bind_some]
  simp only [hopen, Option.bind_some, hseats, hhead]
  rw [slInsertLoops, Option.bind_assoc]

/-- **Insertion is right if the ranks fit.** -/
theorem Skiplist.WellFormed.skipListInsert
    (hfits : SkipListRanksFit ts x) :
    ∃ sl', LatteC.skipListInsert cmp fuel x.height x.addr sl x.item = some (sl', x.addr) ∧
      sl'.WellFormed (insertTower ts x) := by
  obtain ⟨sl₂, hready, hrun⟩ := h.skipListInsert_eq cmp hpos hheight hfresh hfuel
  have hcut := h.eq_before_append_from x.item
  have hnd := h.nodup_insertTower hfresh
  have hsorted := sorted_insertTower x h.sorted
  rw [SkipListRanksFit] at hfits
  rw [insertTower] at hnd hsorted ⊢
  generalize towersBefore ts x.item = L at *
  generalize towersFrom ts x.item = R at *
  subst hcut
  obtain ⟨sl₄, sl', hloops, hend, hdone⟩ := hready.exists_insertDone h hnd hpos hfresh hfits
  refine ⟨sl', ?_, hdone.wellFormed h hnd hpos hheight hsorted⟩
  rw [hrun, hloops, Option.bind_some, hend, Option.map_some]

/-- If the ranks do not fit, the result is not well formed, or there is none. -/
theorem Skiplist.WellFormed.ranksFit_of_insert {sl' : Skiplist S}
    (hrun : LatteC.skipListInsert cmp fuel x.height x.addr sl x.item = some (sl', x.addr))
    (h' : sl'.WellFormed (insertTower ts x)) : SkipListRanksFit ts x := by
  obtain ⟨sl₂, hready, heq⟩ := h.skipListInsert_eq cmp hpos hheight hfresh hfuel
  have hcut := h.eq_before_append_from x.item
  have hnd := h.nodup_insertTower hfresh
  have hlt := h.length_lt
  rw [hcut] at hready hlt
  rw [heq, Option.bind_eq_some_iff] at hrun
  obtain ⟨sl₄, hloops, hrun⟩ := hrun
  obtain ⟨sl₅, hend, hrun⟩ := Option.map_eq_some_iff.mp hrun
  obtain rfl : sl₅ = sl' := congrArg Prod.fst hrun
  obtain ⟨hcol, hheader', hlevel'⟩ := slInsertEnd_column hend
  refine hready.fits_of_loops hnd hlt hloops fun i ↦ ?_
  have hlinks := h'.links i
  have hshape : SameShape sl₂ sl₄ := by
    rcases slInsertLoops_spec sl₂ (towersBefore ts x.item) x
        (show x.height ≤ (sl.header, max x.height sl.level).2 from le_max_left _ _) with
      ⟨hnone, -⟩ | ⟨hnone, -⟩ | ⟨sl₆, hrun', hshape, -⟩
    · rw [hloops] at hnone
      cases hnone
    · rw [hloops] at hnone
      cases hnone
    · rwa [← Option.some.inj (hloops.symm.trans hrun')] at hshape
  rwa [hcol, hheader', hlevel', hshape.header, hshape.level, hready.header, hready.level]
    at hlinks

end Insertion

/-! ## Short and long lists -/

/-- In a list of fewer than 2³¹ - 1 nodes the ranks fit. -/
theorem skipListRanksFit_of_lt [LinearOrder (SkiplistItem S)] {ts : List (Tower S)} (x : Tower S)
    (hts : ts.length + 1 < 2 ^ 31) : SkipListRanksFit ts x := by
  intro i _
  have hle : (towersBefore ts x.item).length ≤ ts.length := List.length_filter_le _ _
  refine rankFits_of_lt (by omega) ?_
  rw [gap]
  exact (List.takeWhile_sublist _).length_le.trans (List.length_reverse).le

/-- In a flat list of 2³¹ - 1 nodes or more they do not fit for a node that goes to the end. -/
theorem not_ranksFit_flat {n : ℕ} (hn : 2 ^ 31 ≤ n + 1) {x : Tower ℤ} (hheight : 2 ≤ x.height)
    (hlast : (n : ℤ) < x.item.score) : ¬SkipListRanksFit (flatTowers n) x := by
  intro hfits
  have hall : towersBefore (flatTowers n) x.item = flatTowers n := by
    refine List.filter_eq_self.mpr fun t ht ↦ ?_
    obtain ⟨k, -, hle, rfl⟩ := mem_flatTowers.mp ht
    rw [decide_eq_true_iff, skiplistItem_lt_iff]
    exact Or.inl ((Int.ofNat_le.mpr hle).trans_lt hlast)
  -- the header is the last one that reaches level 1
  have hgap : gap Tower.height 1 (flatTowers n) = n := by
    rw [gap_of_low, length_flatTowers]
    intro t ht
    obtain ⟨k, -, -, rfl⟩ := mem_flatTowers.mp ht
    exact le_refl 1
  have hlevel := (hfits 1 hheight).2
  rw [hall, hgap] at hlevel
  omega

/-- A node with two levels at the end of such a list. -/
theorem flatSkiplist_insert {n : ℕ} (hn : 2 ^ 31 ≤ n + 1) (hlt : n + 1 < 2 ^ 61) {x : Tower ℤ}
    (hx : x = ⟨flatAddr (n + 1), 2, ⟨n + 1, []⟩⟩) (sl' : Skiplist ℤ) :
    ¬(skipListInsert intComparator.toSkiplistComparator (n + 1) x.height x.addr (flatSkiplist n)
        x.item = some (sl', x.addr) ∧ sl'.WellFormed (insertTower (flatTowers n) x)) := by
  rintro ⟨hrun, hwf⟩
  have hheight : x.height = 2 := by rw [hx]
  have hflat : (flatSkiplist n).WellFormed (flatTowers n) := flatSkiplist_wellFormed (by omega)
  have hfresh : (flatSkiplist n).heap x.addr = none := by
    rw [hx]
    exact flatSkiplist_heap_of_lt (Nat.lt_succ_self n) hlt
  have hfuel : (flatTowers n).length < n + 1 := by
    rw [length_flatTowers]
    exact Nat.lt_succ_self n
  refine not_ranksFit_flat hn hheight.ge ?_ (hflat.ranksFit_of_insert _ (hheight ▸ Nat.le_of_ble_eq_true rfl)
    (hheight ▸ Nat.le_of_ble_eq_true rfl) hfresh hfuel hrun hwf)
  rw [hx]
  exact Int.lt_succ n

section Result

variable [LinearOrder S] [LinearOrder (SkiplistItem S)] (cmp : SkiplistComparator S)
  {sl : Skiplist S} {ts : List (Tower S)} (h : sl.WellFormed ts) {x : Tower S}
  (hpos : 1 ≤ x.height) (hheight : x.height ≤ zskiplistMaxlevel) (hfresh : sl.heap x.addr = none)
  {fuel : ℕ} (hfuel : ts.length < fuel)

include h hpos hheight hfresh hfuel

/-- **Insertion** gives a well-formed list, with the new item at its sorted position and everything
else as it was, exactly if the ranks fit. -/
theorem skiplist_insert_iff :
    (∃ sl', LatteC.skipListInsert cmp fuel x.height x.addr sl x.item = some (sl', x.addr) ∧
      sl'.WellFormed (insertTower ts x)) ↔ SkipListRanksFit ts x :=
  ⟨fun ⟨_, hrun, h'⟩ ↦ h.ranksFit_of_insert cmp hpos hheight hfresh hfuel hrun h',
    h.skipListInsert cmp hpos hheight hfresh hfuel⟩

end Result

/-- A node with two levels among those of the scores 1, 2 and 3. -/
theorem skiplist_insert_new :
    ∃ sl', skipListInsert intComparator.toSkiplistComparator 4 2 (flatAddr 4) (flatSkiplist 3) ⟨2, [97]⟩ =
        some (sl', flatAddr 4) ∧
      sl'.WellFormed (insertTower (flatTowers 3) ⟨flatAddr 4, 2, ⟨2, [97]⟩⟩) :=
  (skiplist_insert_iff intComparator.toSkiplistComparator (flatSkiplist_wellFormed (n := 3) (by decide))
    (x := ⟨flatAddr 4, 2, ⟨2, [97]⟩⟩) (by decide) (show 2 ≤ zskiplistMaxlevel by decide)
    (flatSkiplist_heap_of_lt (by decide) (by decide)) (show 3 < 4 by decide)).mpr
      (skipListRanksFit_of_lt _ (show 3 + 1 < 2 ^ 31 by decide))

/-- **A list of 2³¹ nodes** is not well formed any more after the insertion of a node with two levels at its
end. -/
theorem skiplist_insert_fails :
    (flatSkiplist (2 ^ 31)).WellFormed (flatTowers (2 ^ 31)) ∧
    ¬∃ sl', skipListInsert intComparator.toSkiplistComparator (2 ^ 31 + 1) 2 (flatAddr (2 ^ 31 + 1))
        (flatSkiplist (2 ^ 31)) ⟨(2 ^ 31 : ℕ) + 1, []⟩ = some (sl', flatAddr (2 ^ 31 + 1)) ∧
      sl'.WellFormed
        (insertTower (flatTowers (2 ^ 31)) ⟨flatAddr (2 ^ 31 + 1), 2, ⟨(2 ^ 31 : ℕ) + 1, []⟩⟩) :=
  ⟨flatSkiplist_wellFormed (by norm_num), fun ⟨sl', h⟩ ↦
    flatSkiplist_insert (by norm_num) (by norm_num) rfl sl' h⟩

end LatteC
