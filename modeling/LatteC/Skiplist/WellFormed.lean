import LatteC.Foundation.SkipLinks
import LatteC.Skiplist.Basic
import Mathlib.Data.Fintype.Card
import Mathlib.Data.List.GetD

/-!
# Well-formed skiplists

A skiplist is described by its towers, from the first to the last: address, height and item of every node.
`Skiplist.WellFormed` says that all the pointers, spans and counters are what the towers ask for: on level `i`
a node points to the next one that is higher than `i`, and the span is the distance to it.

The loops of `skiplist.c` work on one level at a time, so the links are looked at as columns, one for
each level. `slForEach_spec` turns a loop into what its body does to each column.
-/

namespace LatteC

open SkipLinks

variable {S : Type}

/-- A node of the list. -/
structure Tower (S : Type) where
  addr : SlAddr
  height : ℕ
  item : SkiplistItem S

/-- The address and the height of a node. -/
def Tower.post (t : Tower S) : SlAddr × ℕ := (t.addr, t.height)

/-- The link on level `i` to what follows. -/
def linkTo (i : ℕ) (rest : List (SlAddr × ℕ)) : SkiplistLevel :=
  ⟨(next Prod.snd i rest).1.map Prod.fst, (next Prod.snd i rest).2⟩

/-! ## Columns -/

/-- The links on level `i`. -/
def Skiplist.column (sl : Skiplist S) (i : ℕ) (x : SlAddr) : Option SkiplistLevel := sl.levelAt x i

theorem Skiplist.levelAt_eq (sl : Skiplist S) (x : SlAddr) (i : ℕ) :
    sl.levelAt x i = sl.column i x :=
  rfl

/-- The element, the score and the height of a node. -/
def Skiplist.infoAt (sl : Skiplist S) (x : SlAddr) : Option (Option (List UInt8) × Option S × ℕ) :=
  (sl.heap x).map fun n ↦ (n.ele, n.score, n.level.length)

/-- The backward pointer of a node. -/
def Skiplist.backAt (sl : Skiplist S) (x : SlAddr) : Option (Option SlAddr) :=
  (sl.heap x).map SkiplistNode.backward

/-- What assignments to levels leave alone. -/
structure SameShape (sl sl' : Skiplist S) : Prop where
  header : sl'.header = sl.header
  tail : sl'.tail = sl.tail
  length : sl'.length = sl.length
  level : sl'.level = sl.level
  info : sl'.infoAt = sl.infoAt
  back : sl'.backAt = sl.backAt

theorem SameShape.refl (sl : Skiplist S) : SameShape sl sl := ⟨rfl, rfl, rfl, rfl, rfl, rfl⟩

theorem SameShape.trans {sl sl' sl'' : Skiplist S} (h : SameShape sl sl') (h' : SameShape sl' sl'') :
    SameShape sl sl'' :=
  ⟨h'.header.trans h.header, h'.tail.trans h.tail, h'.length.trans h.length,
    h'.level.trans h.level, h'.info.trans h.info, h'.back.trans h.back⟩

/-- A node put into the heap. -/
theorem Skiplist.column_setNode (sl : Skiplist S) (x : SlAddr) (n : SkiplistNode S) (i : ℕ) :
    (sl.setNode x n).column i = Function.update (sl.column i) x n.level[i]? := by
  funext y
  by_cases hy : y = x
  · subst hy
    simp [column, levelAt, setNode]
  · simp [column, levelAt, setNode, Function.update_of_ne hy]

theorem Skiplist.infoAt_setNode (sl : Skiplist S) (x : SlAddr) (n : SkiplistNode S) :
    (sl.setNode x n).infoAt =
      Function.update sl.infoAt x (some (n.ele, n.score, n.level.length)) := by
  funext y
  by_cases hy : y = x
  · subst hy
    simp [infoAt, setNode]
  · simp [infoAt, setNode, Function.update_of_ne hy]

theorem Skiplist.backAt_setNode (sl : Skiplist S) (x : SlAddr) (n : SkiplistNode S) :
    (sl.setNode x n).backAt = Function.update sl.backAt x (some n.backward) := by
  funext y
  by_cases hy : y = x
  · subst hy
    simp [backAt, setNode]
  · simp [backAt, setNode, Function.update_of_ne hy]

/-- An assignment to one level of one node. -/
theorem Skiplist.setLevel_eq (sl : Skiplist S) (x : SlAddr) (i : ℕ) (l : SkiplistLevel) :
    (sl.column i x = none ∧ sl.setLevel x i l = none) ∨
    ∃ sl', sl.setLevel x i l = some sl' ∧ (sl.column i x).isSome ∧ SameShape sl sl' ∧
      sl'.column i = Function.update (sl.column i) x (some l) ∧
      ∀ j ≠ i, sl'.column j = sl.column j := by
  cases hx : sl.heap x with
  | none => exact Or.inl ⟨by simp [column, levelAt, hx], by simp [setLevel, hx]⟩
  | some n =>
    have hcol : sl.column i x = n.level[i]? := by simp [column, levelAt, hx]
    by_cases hi : i < n.level.length
    · have hinfo : sl.infoAt x = some (n.ele, n.score, n.level.length) := by simp [infoAt, hx]
      have hback : sl.backAt x = some n.backward := by simp [backAt, hx]
      refine Or.inr ⟨sl.setNode x { n with level := n.level.set i l }, ?_, ?_, ⟨rfl, rfl, rfl, rfl,
        ?_, ?_⟩, ?_, fun j hj ↦ ?_⟩
      · rw [setLevel, hx, Option.bind_some, if_pos hi]
      · rw [hcol, List.getElem?_eq_getElem hi]
        rfl
      · rw [infoAt_setNode, List.length_set, ← hinfo, Function.update_eq_self]
      · rw [backAt_setNode, ← hback, Function.update_eq_self]
      · rw [column_setNode, List.getElem?_set_self hi]
      · have hsame : sl.column j x = n.level[j]? := by simp [column, levelAt, hx]
        rw [column_setNode, List.getElem?_set_ne (Ne.symm hj), ← hsame, Function.update_eq_self]
    · refine Or.inl ⟨?_, ?_⟩
      · rw [hcol, List.getElem?_eq_none (not_lt.mp hi)]
      · rw [setLevel, hx, Option.bind_some, if_neg hi]

/-- A loop body works on the column of its level as `F` says. -/
def ColumnBody {ε : Type} (body : ℕ → ε → Skiplist S → Option (Skiplist S))
    (F : ε → (SlAddr → Option SkiplistLevel) → Option (SlAddr → Option SkiplistLevel)) : Prop :=
  ∀ i e sl, (F e (sl.column i) = none ∧ body i e sl = none) ∨
    ∃ sl', body i e sl = some sl' ∧ SameShape sl sl' ∧ F e (sl.column i) = some (sl'.column i) ∧
      ∀ j ≠ i, sl'.column j = sl.column j

/-- **A loop over levels** does to each column what its body does there. -/
theorem slForEach_spec {ε : Type} {body : ℕ → ε → Skiplist S → Option (Skiplist S)}
    {F : ε → (SlAddr → Option SkiplistLevel) → Option (SlAddr → Option SkiplistLevel)}
    (hbody : ColumnBody body F) : ∀ (es : List ε) (i : ℕ) (sl : Skiplist S),
    (slForEach body es i sl = none ∧
      ∃ k e, es[k]? = some e ∧ F e (sl.column (i + k)) = none) ∨
    ∃ sl', slForEach body es i sl = some sl' ∧ SameShape sl sl' ∧
      (∀ k e, es[k]? = some e → F e (sl.column (i + k)) = some (sl'.column (i + k))) ∧
      ∀ j, j < i ∨ i + es.length ≤ j → sl'.column j = sl.column j := by
  intro es
  induction es with
  | nil =>
    intro i sl
    exact Or.inr ⟨sl, rfl, .refl sl, fun k e he ↦ by simp at he, fun _ _ ↦ rfl⟩
  | cons e es ih =>
    intro i sl
    rcases hbody i e sl with ⟨hF, hnone⟩ | ⟨sl₁, hsome, hshape, hF, hother⟩
    · exact Or.inl ⟨by rw [slForEach, hnone, Option.bind_none], 0, e, rfl, hF⟩
    · have hrun : slForEach body (e :: es) i sl = slForEach body es (i + 1) sl₁ := by
        rw [slForEach, hsome, Option.bind_some]
      have hlater : ∀ k, sl₁.column (i + 1 + k) = sl.column (i + (k + 1)) := fun k ↦ by
        rw [Nat.add_right_comm, Nat.add_assoc]
        exact hother _ (by omega)
      rw [hrun]
      rcases ih (i + 1) sl₁ with ⟨hnone, k, e', he', hF'⟩ | ⟨sl', hsome', hshape', hF', hother'⟩
      · exact Or.inl ⟨hnone, k + 1, e', he', by rwa [hlater] at hF'⟩
      · refine Or.inr ⟨sl', hsome', hshape.trans hshape', fun k e' he' ↦ ?_, fun j hj ↦ ?_⟩
        · cases k with
          | zero =>
            obtain rfl : e = e' := Option.some.inj he'
            rw [Nat.add_zero, hF, hother' i (Or.inl (Nat.lt_succ_self i))]
          | succ k =>
            have hk := hF' k e' he'
            rwa [hlater, Nat.add_right_comm, Nat.add_assoc] at hk
        · rw [List.length_cons] at hj
          rw [hother' j (by omega), hother j (by omega)]

/-- An assignment to a backward pointer. -/
theorem Skiplist.setBackward_eq (sl : Skiplist S) (x : SlAddr) (b : Option SlAddr) :
    (sl.infoAt x = none ∧ sl.setBackward x b = none) ∨
    ∃ sl', sl.setBackward x b = some sl' ∧ sl'.header = sl.header ∧ sl'.tail = sl.tail ∧
      sl'.length = sl.length ∧ sl'.level = sl.level ∧ sl'.infoAt = sl.infoAt ∧
      sl'.backAt = Function.update sl.backAt x (some b) ∧ sl'.column = sl.column := by
  cases hn : sl.heap x with
  | none => exact Or.inl ⟨by simp [infoAt, hn], by simp [setBackward, hn]⟩
  | some n =>
    have hinfo : sl.infoAt x = some (n.ele, n.score, n.level.length) := by simp [infoAt, hn]
    refine Or.inr ⟨sl.setNode x { n with backward := b }, by rw [setBackward, hn]; rfl, rfl, rfl,
      rfl, rfl, ?_, backAt_setNode _ _ _, ?_⟩
    · rw [infoAt_setNode, ← hinfo, Function.update_eq_self]
    · funext i
      have hsame : sl.column i x = n.level[i]? := by simp [column, levelAt, hn]
      rw [column_setNode, ← hsame, Function.update_eq_self]

/-- A node has as many levels as it is high. -/
theorem Skiplist.isSome_column_iff (sl : Skiplist S) (x : SlAddr) (i : ℕ) :
    (sl.column i x).isSome ↔ ∃ info, sl.infoAt x = some info ∧ i < info.2.2 := by
  cases hn : sl.heap x with
  | none => simp [column, levelAt, infoAt, hn]
  | some n => simp [column, levelAt, infoAt, hn]

/-! ## Well-formed lists -/

/-- The links on level `i` of nodes in this order. -/
def ColumnLinks (col : SlAddr → Option SkiplistLevel) (i : ℕ) (ps : List (SlAddr × ℕ)) : Prop :=
  ∀ P b Q, ps = P ++ b :: Q → i < b.2 → col b.1 = some (linkTo i Q)

section Links

variable {col : SlAddr → Option SkiplistLevel} {i : ℕ} {hd b : SlAddr × ℕ}
  {L R P Q : List (SlAddr × ℕ)} (hcol : ColumnLinks col i (hd :: (L ++ R)))

include hcol

/-- The link of a node in front of a position. -/
theorem ColumnLinks.front (hsplit : hd :: L = P ++ b :: Q) (hb : i < b.2) :
    col b.1 = some (linkTo i (Q ++ R)) :=
  hcol P b (Q ++ R) (by rw [← List.cons_append, hsplit, List.append_assoc]; rfl) hb

/-- The link of a node behind a position. -/
theorem ColumnLinks.behind {A : List (SlAddr × ℕ)} (hsplit : R = A ++ b :: Q) (hb : i < b.2) :
    col b.1 = some (linkTo i Q) :=
  hcol (hd :: L ++ A) b Q (by rw [hsplit]; simp) hb

end Links

/-- The links of a header and of the nodes behind it. -/
def Skiplist.Links (sl : Skiplist S) (hd : SlAddr × ℕ) (ps : List (SlAddr × ℕ)) : Prop :=
  ∀ i, ColumnLinks (sl.column i) i (hd :: ps)

/-- Above the header there are no links. -/
theorem Skiplist.links_of_lt {sl : Skiplist S} {hd : SlAddr × ℕ} {ps : List (SlAddr × ℕ)}
    (hle : ∀ p ∈ ps, p.2 ≤ hd.2) (hlinks : ∀ i < hd.2, ColumnLinks (sl.column i) i (hd :: ps)) :
    sl.Links hd ps := by
  intro i
  rcases lt_or_ge i hd.2 with hi | hi
  · exact hlinks i hi
  · intro P b Q hsplit hb
    have hmem : b ∈ hd :: ps := by
      rw [hsplit]
      simp
    rcases List.mem_cons.mp hmem with rfl | hmem
    · exact absurd hb (not_lt.mpr hi)
    · exact absurd hb (not_lt.mpr ((hle b hmem).trans hi))

/-- **A well-formed skiplist** with the given towers. The levels of the header that are not in use have
no forward pointers. -/
structure Skiplist.WellFormed [LE (SkiplistItem S)] (sl : Skiplist S) (ts : List (Tower S)) :
    Prop where
  nodup : (sl.header :: ts.map Tower.addr).Nodup
  header : sl.infoAt sl.header = some (none, none, zskiplistMaxlevel)
  node : ∀ t ∈ ts, sl.infoAt t.addr = some (some t.item.ele, some t.item.score, t.height)
  links : sl.Links (sl.header, sl.level) (ts.map Tower.post)
  unused : ∀ i, sl.level ≤ i → i < zskiplistMaxlevel →
    ∃ span, sl.column i sl.header = some ⟨none, span⟩
  level_pos : 1 ≤ sl.level
  level_le : sl.level ≤ zskiplistMaxlevel
  height_pos : ∀ t ∈ ts, 1 ≤ t.height
  height_le : ∀ t ∈ ts, t.height ≤ sl.level
  level_used : sl.level = 1 ∨ ∃ t ∈ ts, t.height = sl.level
  backward : ∀ P t Q, ts = P ++ t :: Q → sl.backAt t.addr = some (P.getLast?.map Tower.addr)
  tail : sl.tail = ts.getLast?.map Tower.addr
  length : sl.length = ts.length
  sorted : (ts.map Tower.item).Pairwise (· ≤ ·)

theorem slUlong_eq {z : ℤ} {n : ℕ} (hz : z = n) (hn : n < 2 ^ 64) : slUlong z = n := by
  rw [slUlong, hz]
  omega

/-- Different nodes are at different addresses. -/
theorem fst_ne_of_nodup {ps A B : List (SlAddr × ℕ)} {c d : SlAddr × ℕ}
    (hnd : (ps.map Prod.fst).Nodup) (hps : ps = A ++ B) (hc : c ∈ A) (hd : d ∈ B) : c.1 ≠ d.1 := by
  rw [hps, List.map_append, List.nodup_append] at hnd
  exact hnd.2.2 _ (List.mem_map_of_mem hc) _ (List.mem_map_of_mem hd)

/-- There are fewer nodes than addresses. -/
theorem Skiplist.WellFormed.length_lt [LE (SkiplistItem S)] {sl : Skiplist S} {ts : List (Tower S)}
    (h : sl.WellFormed ts) : ts.length < 2 ^ 61 := by
  have hcard := h.nodup.length_le_card
  rw [Fintype.card_fin, List.length_cons, List.length_map] at hcard
  exact hcard

/-! ## The descent -/

theorem slInt_zero : slInt 0 = 0 := by decide

theorem slInt_add (a b : ℤ) : slInt (slInt a + b) = slInt (a + b) := by
  simp only [slInt]
  omega

section Descent

variable {sl : Skiplist S} {hd : SlAddr × ℕ} {L R : List (SlAddr × ℕ)} {go : SlAddr → Option Bool}

/-- The rank of the seat on level `i`, as it is kept. -/
def seatRank (hd : SlAddr × ℕ) (L : List (SlAddr × ℕ)) (i : ℕ) : ℤ :=
  slInt ((L.length : ℤ) - (seat Prod.snd i hd L).2)

/-- `update[i]` and `rank[i]` for a position behind `L`. -/
def seatAt (hd : SlAddr × ℕ) (L : List (SlAddr × ℕ)) (i : ℕ) : SlAddr × ℤ :=
  ((seat Prod.snd i hd L).1.1, seatRank hd L i)

theorem seatAt_mem {i : ℕ} (hi : i < hd.2) (L : List (SlAddr × ℕ)) :
    (seatAt hd L i).1 ∈ hd.1 :: L.map Prod.fst := by
  obtain ⟨P, b, Q, hsplit, -, -, hseat⟩ := exists_seat hi L
  rw [seatAt, hseat, ← List.map_cons, hsplit]
  exact List.mem_map_of_mem (by simp)

variable (hlinks : sl.Links hd (L ++ R)) (hL : ∀ t ∈ L, go t.1 = some true)
  (hR : ∀ t ∈ R, go t.1 = some false)

include hlinks hL hR

/-- The loop on one level goes to the seat. -/
theorem slAdvance_spec (i : ℕ) : ∀ (fuel : ℕ) {P Q : List (SlAddr × ℕ)} {b : SlAddr × ℕ},
    hd :: L = P ++ b :: Q → i < b.2 → Q.length < fuel →
    slAdvance sl go i fuel b.1 (slInt P.length) = some (seatAt hd L i) := by
  intro fuel
  induction fuel with
  | zero => exact fun _ _ h ↦ absurd h (Nat.not_lt_zero _)
  | succ fuel ih =>
    intro P Q b hsplit hb hlt
    have hlen : L.length = P.length + Q.length := by
      have hlen := congrArg List.length hsplit
      simp only [List.length_cons, List.length_append] at hlen
      omega
    have hcol : sl.levelAt b.1 i = some (linkTo i (Q ++ R)) :=
      hlinks i P b (Q ++ R) (by rw [← List.cons_append, hsplit, List.append_assoc]; rfl) hb
    rw [slAdvance, hcol, Option.bind_some]
    rcases low_or_exists_first Prod.snd i Q with hlow | ⟨P', t, Q', rfl, hP', ht⟩
    · -- nothing before the position is high enough
      have hstay : some (b.1, slInt P.length) = some (seatAt hd L i) := by
        rw [seatAt, seatRank, seat_of_split hsplit hb, seat_of_low hlow, hlen]
        simp
      rw [linkTo, next_append_of_low hlow]
      cases hnext : (next Prod.snd i R).1 with
      | none => exact hstay
      | some f =>
        simp only [Option.map_some, hR f (next_fst_mem hnext), Option.bind_some]
        exact hstay
    · have hmem : t ∈ L := by
        have hmem : t ∈ hd :: L := by
          rw [hsplit]
          simp
        rcases List.mem_cons.mp hmem with rfl | hmem
        · -- the header is not behind `b`
          cases P with
          | nil =>
            obtain ⟨-, rfl⟩ := List.cons.inj hsplit
            simp
          | cons p P =>
            obtain ⟨-, rfl⟩ := List.cons.inj hsplit
            simp
        · exact hmem
      rw [linkTo, List.append_assoc, List.cons_append, next_of_first hP' ht]
      simp only [Option.map_some, hL t hmem, Option.bind_some, if_true, slInt_add]
      have hrank : ((P.length : ℤ) + ((P'.length + 1 : ℕ) : ℤ)) = ((P ++ b :: P').length : ℕ) := by
        simp only [List.length_append, List.length_cons, Nat.cast_add]
      rw [hrank]
      refine ih (by rw [hsplit, List.append_assoc]; rfl) ht ?_
      simp only [List.length_append, List.length_cons] at hlt
      omega

/-- **The descent** finds the seats of all levels. -/
theorem slDescend_spec {fuel : ℕ} (hfuel : L.length < fuel) : ∀ (n : ℕ)
    {P Q : List (SlAddr × ℕ)} {b : SlAddr × ℕ}, hd :: L = P ++ b :: Q → n ≤ b.2 →
    slDescend sl go fuel n b.1 (slInt P.length) = some ((List.range n).map (seatAt hd L)) := by
  intro n
  induction n with
  | zero => exact fun _ _ ↦ rfl
  | succ n ih =>
    intro P Q b hsplit hb
    have hlen : ∀ {P Q : List (SlAddr × ℕ)} {b : SlAddr × ℕ}, hd :: L = P ++ b :: Q →
        L.length = P.length + Q.length := by
      intro P Q b h
      have hlen := congrArg List.length h
      simp only [List.length_cons, List.length_append] at hlen
      omega
    have hadv := slAdvance_spec hlinks hL hR n fuel hsplit hb (by rw [hlen hsplit] at hfuel; omega)
    obtain ⟨P', b', Q', hsplit', hb', -, hseat⟩ := exists_seat hb Q
    have hcut : hd :: L = (P ++ P') ++ b' :: Q' := by rw [hsplit, hsplit', List.append_assoc]
    have hat : seatAt hd L n = (b'.1, slInt (P ++ P').length) := by
      rw [seatAt, seatRank, seat_of_split hsplit hb, hseat, hlen hcut]
      simp
    have hrest := ih hcut hb'.le
    rw [slDescend, hadv, Option.bind_some, hat, hrest, Option.map_some, List.range_succ,
      List.map_append, List.map_singleton, hat]

end Descent

/-- A sorted list is cut in two by a condition that is passed down. -/
theorem filter_append_filter_not [LE (SkiplistItem S)] {p : SkiplistItem S → Bool}
    (hp : ∀ a b, a ≤ b → p b = true → p a = true) {ts : List (Tower S)}
    (h : (ts.map Tower.item).Pairwise (· ≤ ·)) :
    ts = (ts.filter fun t ↦ p t.item) ++ ts.filter fun t ↦ !p t.item := by
  induction ts with
  | nil => rfl
  | cons t ts ih =>
    rw [List.map_cons, List.pairwise_cons] at h
    cases ht : p t.item with
    | true =>
      rw [List.filter_cons, List.filter_cons, ht, if_pos rfl, if_neg (by simp), List.cons_append,
        ← ih h.2]
    | false =>
      have hnone : (ts.filter fun t ↦ p t.item) = [] := by
        refine List.filter_eq_nil_iff.mpr fun u hu hpu ↦ ?_
        have hle := h.1 u.item (List.mem_map_of_mem hu)
        rw [hp _ _ hle hpu] at ht
        cases ht
      have hall : (ts.filter fun t ↦ !p t.item) = ts := by
        refine List.filter_eq_self.mpr fun u hu ↦ ?_
        simpa using List.filter_eq_nil_iff.mp hnone u hu
      rw [List.filter_cons, List.filter_cons, ht, if_neg (by simp), if_pos (by simp), hnone, hall,
        List.nil_append]

/-! ## Where an item belongs -/

section Cut

variable [LinearOrder (SkiplistItem S)]

theorem before_of_le (item : SkiplistItem S) : ∀ a b : SkiplistItem S, a ≤ b →
    decide (b < item) = true → decide (a < item) = true := by
  intro a b hab hb
  rw [decide_eq_true_iff] at hb ⊢
  exact hab.trans_lt hb

/-- The nodes whose items come before the given one. -/
def towersBefore (ts : List (Tower S)) (item : SkiplistItem S) : List (Tower S) :=
  ts.filter fun t ↦ decide (t.item < item)

/-- The other nodes. -/
def towersFrom (ts : List (Tower S)) (item : SkiplistItem S) : List (Tower S) :=
  ts.filter fun t ↦ !decide (t.item < item)

end Cut

namespace Skiplist.WellFormed

section Order

variable [LE (SkiplistItem S)] {sl : Skiplist S} {ts : List (Tower S)} (h : sl.WellFormed ts)

include h

theorem scoreAt_eq {t : Tower S} (ht : t ∈ ts) : sl.scoreAt t.addr = some t.item.score := by
  have hinfo := h.node t ht
  cases hn : sl.heap t.addr with
  | none => simp [infoAt, hn] at hinfo
  | some n =>
    simp only [infoAt, hn, Option.map_some, Option.some.injEq, Prod.mk.injEq] at hinfo
    rw [scoreAt, hn, Option.bind_some, hinfo.2.1]

theorem scoreAt_header : sl.scoreAt sl.header = none := by
  have hinfo := h.header
  cases hn : sl.heap sl.header with
  | none => simp [infoAt, hn] at hinfo
  | some n =>
    simp only [infoAt, hn, Option.map_some, Option.some.injEq, Prod.mk.injEq] at hinfo
    rw [scoreAt, hn, Option.bind_some, hinfo.2.1]

/-- **The descent in a well-formed list**, by a condition that is passed down. -/
theorem slDescend_eq {p : SkiplistItem S → Bool} (hp : ∀ a b, a ≤ b → p b = true → p a = true)
    {go : SlAddr → Option Bool} (hgo : ∀ t ∈ ts, go t.addr = some (p t.item)) {fuel : ℕ}
    (hfuel : ts.length < fuel) :
    slDescend sl go fuel sl.level sl.header 0 = some ((List.range sl.level).map
      (seatAt (sl.header, sl.level) ((ts.filter fun t ↦ p t.item).map Tower.post))) := by
  have hcut := filter_append_filter_not hp h.sorted
  have hlinks := h.links
  rw [hcut, List.map_append] at hlinks
  have hL : ∀ u ∈ (ts.filter fun t ↦ p t.item).map Tower.post, go u.1 = some true := by
    intro u hu
    obtain ⟨t, ht, rfl⟩ := List.mem_map.mp hu
    obtain ⟨hmem, hpt⟩ := List.mem_filter.mp ht
    exact (hgo t hmem).trans (congrArg some hpt)
  have hR : ∀ u ∈ (ts.filter fun t ↦ !p t.item).map Tower.post, go u.1 = some false := by
    intro u hu
    obtain ⟨t, ht, rfl⟩ := List.mem_map.mp hu
    obtain ⟨hmem, hpt⟩ := List.mem_filter.mp ht
    exact (hgo t hmem).trans (congrArg some (by simpa using hpt))
  have hlen : ((ts.filter fun t ↦ p t.item).map Tower.post).length < fuel := by
    rw [List.length_map]
    exact (List.length_filter_le _ _).trans_lt hfuel
  have hspec := slDescend_spec hlinks hL hR hlen sl.level (P := []) rfl le_rfl
  rwa [List.length_nil, Nat.cast_zero, slInt_zero] at hspec

/-- On level 0 every node points to the next one. -/
theorem next_zero {ps : List (Tower S)} (hps : ∀ t ∈ ps, t ∈ ts) :
    (linkTo 0 (ps.map Tower.post)).forward = ps.head?.map Tower.addr := by
  cases ps with
  | nil => rfl
  | cons t ps =>
    have ht : 0 < t.height := h.height_pos t (hps t List.mem_cons_self)
    rw [List.map_cons, linkTo, next_cons_of_lt (by exact ht)]
    rfl

/-- The seat on level 0 is the last node before the position, or the header. -/
theorem seatAt_zero {ps : List (Tower S)} (hps : ∀ t ∈ ps, t ∈ ts) (hd : SlAddr × ℕ) :
    seatAt hd (ps.map Tower.post) 0 =
      ((ps.getLast?.map Tower.addr).getD hd.1, slInt ps.length) := by
  induction ps using List.reverseRecOn with
  | nil => rfl
  | append_singleton ps t _ =>
    have ht : 0 < t.post.2 := h.height_pos t (hps t (by simp))
    rw [seatAt, seatRank, List.map_append, List.map_singleton, seat_append_cons ht]
    simp [seat, Tower.post]

/-- `update[0]` and `rank[0]`. -/
theorem head_seats {ps : List (Tower S)} (hps : ∀ t ∈ ps, t ∈ ts) (hd : SlAddr × ℕ) {n : ℕ}
    (hn : 1 ≤ n) : ((List.range n).map (seatAt hd (ps.map Tower.post))).head? =
      some ((ps.getLast?.map Tower.addr).getD hd.1, slInt ps.length) := by
  obtain ⟨n, rfl⟩ := Nat.exists_eq_succ_of_ne_zero (Nat.one_le_iff_ne_zero.mp hn)
  rw [List.range_succ_eq_map, List.map_cons, List.head?_cons, h.seatAt_zero hps]

/-- Where the descent ends. -/
theorem slDescend_head {p : SkiplistItem S → Bool} (hp : ∀ a b, a ≤ b → p b = true → p a = true)
    {go : SlAddr → Option Bool} (hgo : ∀ t ∈ ts, go t.addr = some (p t.item)) {fuel : ℕ}
    (hfuel : ts.length < fuel) :
    ∃ ups rank, slDescend sl go fuel sl.level sl.header 0 = some ups ∧ ups.head? =
      some (((ts.filter fun t ↦ p t.item).getLast?.map Tower.addr).getD sl.header, rank) := by
  refine ⟨_, slInt (ts.filter fun t ↦ p t.item).length, h.slDescend_eq hp hgo hfuel, ?_⟩
  rw [h.head_seats (fun t ht ↦ List.mem_of_mem_filter ht) _ h.level_pos]

/-- The link on level 0 where the list is cut. -/
theorem column_zero {L R : List (Tower S)} (hts : ts = L ++ R) :
    sl.column 0 ((L.getLast?.map Tower.addr).getD sl.header) = some (linkTo 0 (R.map Tower.post)) := by
  subst hts
  have hlinks := h.links 0
  rw [List.map_append] at hlinks
  induction L using List.reverseRecOn with
  | nil => exact hlinks [] (sl.header, sl.level) (R.map Tower.post) rfl h.level_pos
  | append_singleton L t _ =>
    have ht : 0 < t.post.2 := h.height_pos t (by simp)
    rw [List.getLast?_append, List.getLast?_singleton, Option.some_or, Option.map_some,
      Option.getD_some]
    exact hlinks ((sl.header, sl.level) :: L.map Tower.post) t.post (R.map Tower.post)
      (by simp) ht

end Order

/-- A well-formed list is cut in two by an item. -/
theorem eq_before_append_from [LinearOrder (SkiplistItem S)] {sl : Skiplist S} {ts : List (Tower S)}
    (h : sl.WellFormed ts) (item : SkiplistItem S) :
    ts = towersBefore ts item ++ towersFrom ts item :=
  filter_append_filter_not (before_of_le item) h.sorted

theorem slBefore_eq [LinearOrder S] [LinearOrder (SkiplistItem S)] (cmp : SkiplistComparator S)
    {sl : Skiplist S} {ts : List (Tower S)} (h : sl.WellFormed ts) {t : Tower S} (ht : t ∈ ts)
    (item : SkiplistItem S) : slBefore cmp sl item t.addr = some (decide (t.item < item)) := by
  have hinfo := h.node t ht
  cases hn : sl.heap t.addr with
  | none => simp [infoAt, hn] at hinfo
  | some n =>
    simp only [infoAt, hn, Option.map_some, Option.some.injEq, Prod.mk.injEq] at hinfo
    rw [slBefore, hn, Option.bind_some, hinfo.1, hinfo.2.1, Option.map_some]
    simp only [cmp.neg_iff]

end Skiplist.WellFormed

end LatteC
