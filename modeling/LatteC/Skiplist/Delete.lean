import LatteC.Skiplist.Flat
import LatteC.Skiplist.Insert

/-!
# Deletion from the skiplist

`slDeleteNode` unlinks a node of any height. `skiplistDeleteNode`, which `skipListDelete` uses, differs from
it in one place: the new forward pointers of all levels go to level 0. On the levels above, the node in front
still points to the removed node, so the deletion is right exactly for nodes with one level.
-/

namespace LatteC

open SkipLinks

variable {S : Type}

/-! ## One level -/

section Column

variable {col : SlAddr → Option SkiplistLevel} {i : ℕ} {hd x : SlAddr × ℕ}
  {L R : List (SlAddr × ℕ)} (hcol : ColumnLinks col i (hd :: (L ++ x :: R)))
  (hnd : ((hd :: (L ++ x :: R)).map Prod.fst).Nodup)

include hcol hnd

/-- Where only the seat gets a new link, the others are right. -/
private theorem delete_links {col' : SlAddr → Option SkiplistLevel} {P Q : List (SlAddr × ℕ)}
    {b : SlAddr × ℕ} (hsplit : hd :: L = P ++ b :: Q) (hb : i < b.2) (hQ : Low Prod.snd i Q)
    (hother : ∀ y, y ≠ b.1 → col' y = col y) (hseat : col' b.1 = some (linkTo i (Q ++ R))) :
    ColumnLinks col' i (hd :: (L ++ R)) := by
  intro P' c Q' hsplit' hc
  rw [← List.cons_append] at hsplit' hnd
  rcases split_append hsplit' with ⟨Q'', hfront, rfl⟩ | ⟨A, hbehind, -⟩
  · rcases seat_or_mem hsplit hb hQ hfront hc with ⟨-, rfl, rfl⟩ | ⟨hlow, hmem⟩
    · exact hseat
    · have hcb : c.1 ≠ b.1 := by
        have hcut : hd :: L ++ x :: R = (P' ++ [c]) ++ (Q'' ++ x :: R) := by
          rw [hfront]
          simp
        exact fst_ne_of_nodup hnd hcut (by simp) (List.mem_append_left _ hmem)
      rw [hother c.1 hcb, hcol.front hfront hc, linkTo, linkTo, next_insert_of_not_low hlow]
  · have hmem : c ∈ R := by
      rw [hbehind]
      simp
    have hcb : b.1 ≠ c.1 :=
      fst_ne_of_nodup hnd rfl (by rw [hsplit]; simp) (List.mem_cons_of_mem _ hmem)
    have hsplit'' : x :: R = (x :: A) ++ c :: Q' := by rw [hbehind]; rfl
    rw [hother c.1 hcb.symm, hcol.behind hsplit'' hc]

end Column

theorem linkTo_forward_eq_none {i : ℕ} {ps : List (SlAddr × ℕ)}
    (h : (linkTo i ps).forward = none) : Low Prod.snd i ps := by
  rcases low_or_exists_first Prod.snd i ps with hlow | ⟨P, t, Q, rfl, hP, ht⟩
  · exact hlow
  · rw [linkTo, next_of_first hP ht] at h
    cases h

theorem linkTo_forward_eq_some {i : ℕ} {ps : List (SlAddr × ℕ)} {f : SlAddr}
    (h : (linkTo i ps).forward = some f) : ∃ t ∈ ps, i < t.2 ∧ f = t.1 := by
  rcases low_or_exists_first Prod.snd i ps with hlow | ⟨P, t, Q, rfl, hP, ht⟩
  · rw [linkTo_of_low hlow] at h
    cases h
  · rw [linkTo, next_of_first hP ht] at h
    exact ⟨t, by simp, ht, (Option.some.inj h).symm⟩

/-- The nodes around a removed node do not point to it. -/
private theorem linkTo_forward_ne {i : ℕ} {hd x b : SlAddr × ℕ} {L R P Q : List (SlAddr × ℕ)}
    (hnd : ((hd :: (L ++ x :: R)).map Prod.fst).Nodup) (hsplit : hd :: L = P ++ b :: Q) :
    (linkTo i (Q ++ R)).forward ≠ some x.1 := by
  intro heq
  obtain ⟨t, ht, -, htx⟩ := linkTo_forward_eq_some heq
  rw [← List.cons_append] at hnd
  rcases List.mem_append.mp ht with hmem | hmem
  · exact fst_ne_of_nodup hnd rfl (by rw [hsplit]; simp [hmem]) List.mem_cons_self htx.symm
  · have hcut : hd :: L ++ x :: R = (hd :: L ++ [x]) ++ R := by simp
    exact fst_ne_of_nodup hnd hcut (c := x) (by simp) hmem htx

/-- The node `x` unlinked behind `update[i]`. -/
def unlinkColumn (x u : SlAddr) (col : SlAddr → Option SkiplistLevel) :
    Option (SlAddr → Option SkiplistLevel) :=
  (col u).bind fun l ↦
    if l.forward = some x then
      (col x).map fun lx ↦
        Function.update col u (some ⟨lx.forward, slUlong (l.span + (lx.span - 1))⟩)
    else some (Function.update col u (some { l with span := slUlong (l.span - 1) }))

theorem columnBody_unlink (x : SlAddr) :
    ColumnBody (slUnlinkBody (S := S) (fun i ↦ i) x) (unlinkColumn x) := by
  intro i u sl
  rw [slUnlinkBody, unlinkColumn, Skiplist.levelAt_eq]
  cases hl : sl.column i u with
  | none => exact Or.inl ⟨rfl, rfl⟩
  | some l =>
    have hset : ∀ (sl : Skiplist S) (l' : SkiplistLevel), (sl.column i u).isSome →
        ∃ sl', sl.setLevel u i l' = some sl' ∧ SameShape sl sl' ∧
          sl'.column i = Function.update (sl.column i) u (some l') ∧
          ∀ j ≠ i, sl'.column j = sl.column j := by
      intro sl l' hsome
      rcases sl.setLevel_eq u i l' with ⟨hnone, -⟩ | ⟨sl', hset, -, hshape, hcol, hother⟩
      · rw [hnone] at hsome
        cases hsome
      · exact ⟨sl', hset, hshape, hcol, hother⟩
    have hsome : (sl.column i u).isSome := by
      rw [hl]
      rfl
    simp only [Option.bind_some, Skiplist.levelAt_eq]
    split_ifs with hfwd
    · cases hlx : sl.column i x with
      | none => exact Or.inl ⟨rfl, rfl⟩
      | some lx =>
        obtain ⟨sl₁, hset₁, hshape, hcol, hother⟩ :=
          hset sl { l with span := slUlong (l.span + (lx.span - 1)) } hsome
        have hl₁ : sl₁.column i u = some { l with span := slUlong (l.span + (lx.span - 1)) } := by
          rw [hcol, Function.update_self]
        obtain ⟨sl₂, hset₂, hshape', hcol', hother'⟩ :=
          hset sl₁ ⟨lx.forward, slUlong (l.span + (lx.span - 1))⟩ (by rw [hl₁]; rfl)
        refine Or.inr ⟨sl₂, ?_, hshape.trans hshape', ?_, fun j hj ↦
          (hother' j hj).trans (hother j hj)⟩
        · simp only [Option.bind_some, hset₁, hl₁, hset₂]
        · rw [hcol', hcol, Function.update_idem, Option.map_some]
    · obtain ⟨sl₁, hset₁, hshape, hcol, hother⟩ := hset sl { l with span := slUlong (l.span - 1) } hsome
      exact Or.inr ⟨sl₁, hset₁, hshape, by rw [hcol], hother⟩

section Level

variable {col : SlAddr → Option SkiplistLevel} {i : ℕ} {hd x : SlAddr × ℕ}
  {L R : List (SlAddr × ℕ)} (hcol : ColumnLinks col i (hd :: (L ++ x :: R)))
  (hnd : ((hd :: (L ++ x :: R)).map Prod.fst).Nodup) (hhd : i < hd.2)
  (hlen : (L ++ x :: R).length < 2 ^ 61)

include hcol hnd hhd

/-- The link at the seat goes to the node exactly on the levels that the node has. -/
theorem seatAt_forward_iff :
    ∃ l, col (seatAt hd L i).1 = some l ∧ (l.forward = some x.1 ↔ i < x.2) := by
  obtain ⟨P, b, Q, hsplit, hb, hQ, hseat⟩ := exists_seat hhd L
  refine ⟨linkTo i (Q ++ x :: R), by rw [seatAt, hseat, hcol.front hsplit hb], ?_⟩
  rcases lt_or_ge i x.2 with hx | hx
  · rw [linkTo, next_of_first hQ hx]
    exact iff_of_true rfl hx
  · rw [linkTo, next_insert_of_low hQ hx]
    exact iff_of_false (linkTo_forward_ne hnd hsplit) (not_lt.mpr hx)

include hlen

/-- **One level without the node.** The node itself keeps its link. -/
theorem unlinkColumn_spec :
    ∃ col', unlinkColumn x.1 (seatAt hd L i).1 col = some col' ∧
      ColumnLinks col' i (hd :: (L ++ R)) ∧ col' x.1 = col x.1 := by
  obtain ⟨P, b, Q, hsplit, hb, hQ, hseat⟩ := exists_seat hhd L
  have hfront := hcol.front hsplit hb
  have hbx : b.1 ≠ x.1 := by
    rw [← List.cons_append] at hnd
    exact fst_ne_of_nodup hnd rfl (by rw [hsplit]; simp) List.mem_cons_self
  have hlenQ : (Q ++ R).length < 2 ^ 61 := by
    have hlen' := congrArg List.length hsplit
    simp only [List.length_cons, List.length_append] at hlen hlen' ⊢
    omega
  have hspan : (linkTo i (Q ++ R)).span ≤ (Q ++ R).length := next_snd_le (Q ++ R)
  have hseatAt : (seatAt hd L i).1 = b.1 := by rw [seatAt, hseat]
  have hlink : linkTo i (Q ++ R) = ⟨(linkTo i R).forward, Q.length + (linkTo i R).span⟩ := by
    rw [linkTo, next_append_of_low hQ, linkTo]
  -- what is put at the seat is what the list asks for
  have hput : ∀ l, l = linkTo i (Q ++ R) →
      ColumnLinks (Function.update col b.1 (some l)) i (hd :: (L ++ R)) ∧
        Function.update col b.1 (some l) x.1 = col x.1 := by
    rintro l rfl
    exact ⟨delete_links hcol hnd hsplit hb hQ (fun y hy ↦ Function.update_of_ne hy _ _)
      (Function.update_self _ _ _), Function.update_of_ne hbx.symm _ _⟩
  have hspan' : Q.length + (linkTo i R).span ≤ (Q ++ R).length := by
    rw [hlink] at hspan
    exact hspan
  rw [hseatAt, unlinkColumn, hfront, Option.bind_some]
  rcases lt_or_ge i x.2 with hx | hx
  · have hto : linkTo i (Q ++ x :: R) = ⟨some x.1, Q.length + 1⟩ := by
      rw [linkTo, next_of_first hQ hx]
      rfl
    have hxcol : col x.1 = some (linkTo i R) := hcol.behind (A := []) rfl hx
    rw [hto, if_pos rfl, hxcol, Option.map_some, ← hxcol]
    refine ⟨_, rfl, hput _ ?_⟩
    dsimp only
    rw [hlink, slUlong_eq (n := Q.length + (linkTo i R).span) (by omega) (by omega)]
  · have hto : linkTo i (Q ++ x :: R) =
        ⟨(linkTo i (Q ++ R)).forward, (linkTo i (Q ++ R)).span + 1⟩ := by
      rw [linkTo, next_insert_of_low hQ hx]
      rfl
    have hne : (linkTo i (Q ++ R)).forward ≠ some x.1 := linkTo_forward_ne hnd hsplit
    rw [hto, if_neg hne]
    refine ⟨_, rfl, hput _ ?_⟩
    dsimp only
    rw [slUlong_eq (n := (linkTo i (Q ++ R)).span) (by omega) (by omega)]

end Level

/-! ## The loop -/

/-- `update` for a position behind `L`. -/
def updateAt (hd : SlAddr × ℕ) (L : List (SlAddr × ℕ)) : List SlAddr :=
  (List.range hd.2).map fun i ↦ (seatAt hd L i).1

theorem updateAt_getElem? (hd : SlAddr × ℕ) (L : List (SlAddr × ℕ)) (k : ℕ) :
    (updateAt hd L)[k]? = if k < hd.2 then some (seatAt hd L k).1 else none := by
  rw [updateAt, List.getElem?_map]
  split_ifs with hk
  · rw [List.getElem?_range hk, Option.map_some]
  · rw [List.getElem?_eq_none (by rw [List.length_range]; omega), Option.map_none]

section Loop

variable {sl : Skiplist S} {hd x : SlAddr × ℕ} {L R : List (SlAddr × ℕ)}
  (hlinks : sl.Links hd (L ++ x :: R)) (hnd : ((hd :: (L ++ x :: R)).map Prod.fst).Nodup)
  (hheight : ∀ p ∈ L ++ x :: R, p.2 ≤ hd.2) (hlen : (L ++ x :: R).length < 2 ^ 61)

include hlinks hnd hheight hlen

/-- **The loop of `slDeleteNode`** unlinks the node on all levels. -/
theorem unlinkLoop_spec :
    ∃ sl₁, slForEach (slUnlinkBody (fun i ↦ i) x.1) (updateAt hd L) 0 sl = some sl₁ ∧
      SameShape sl sl₁ ∧ sl₁.Links hd (L ++ R) ∧ (∀ i, sl₁.column i x.1 = sl.column i x.1) ∧
      ∀ i, hd.2 ≤ i → sl₁.column i = sl.column i := by
  rcases slForEach_spec (columnBody_unlink x.1) (updateAt hd L) 0 sl with
    ⟨-, k, u, hu, hnone⟩ | ⟨sl₁, hrun, hshape, hcol, hother⟩
  · rw [updateAt_getElem?, Option.ite_none_right_eq_some] at hu
    obtain ⟨hk, hu⟩ := hu
    obtain rfl := Option.some.inj hu
    obtain ⟨col', hsome, -⟩ := unlinkColumn_spec (hlinks k) hnd hk hlen
    rw [Nat.zero_add, hsome] at hnone
    cases hnone
  · have hlevel : ∀ i < hd.2, ColumnLinks (sl₁.column i) i (hd :: (L ++ R)) ∧
        sl₁.column i x.1 = sl.column i x.1 := by
      intro i hi
      obtain ⟨col', hsome, hlinks', hx⟩ := unlinkColumn_spec (hlinks i) hnd hi hlen
      have hi' := hcol i _ (by rw [updateAt_getElem?, if_pos hi])
      rw [Nat.zero_add, hsome] at hi'
      obtain rfl := Option.some.inj hi'
      exact ⟨hlinks', hx⟩
    have hhigh : ∀ i, hd.2 ≤ i → sl₁.column i = sl.column i := by
      intro i hi
      refine hother i (Or.inr ?_)
      rw [updateAt, List.length_map, List.length_range]
      omega
    refine ⟨sl₁, hrun, hshape, Skiplist.links_of_lt (fun p hp ↦ hheight p ?_)
      fun i hi ↦ (hlevel i hi).1, fun i ↦ ?_, hhigh⟩
    · rcases List.mem_append.mp hp with hp | hp <;> simp [hp]
    · rcases lt_or_ge i hd.2 with hi | hi
      · exact (hlevel i hi).2
      · rw [hhigh i hi]

end Loop

/-- The two loops are the same where no link on a level above 0 goes to the node. -/
theorem unlinkLoop_congr (x : SlAddr) : ∀ (us : List SlAddr) (i : ℕ) (sl : Skiplist S),
    (∀ k u l, us[k]? = some u → 0 < i + k → sl.column (i + k) u = some l → l.forward ≠ some x) →
    slForEach (slUnlinkBody (fun _ ↦ 0) x) us i sl =
      slForEach (slUnlinkBody (fun i ↦ i) x) us i sl := by
  intro us
  induction us with
  | nil => exact fun _ _ _ ↦ rfl
  | cons u us ih =>
    intro i sl hne
    have hbody : slUnlinkBody (fun _ ↦ 0) x i u sl = slUnlinkBody (fun i ↦ i) x i u sl := by
      rcases Nat.eq_zero_or_pos i with rfl | hi
      · rfl
      · rw [slUnlinkBody, slUnlinkBody, Skiplist.levelAt_eq]
        cases hl : sl.column i u with
        | none => rfl
        | some l =>
          have hfwd : l.forward ≠ some x := hne 0 u l rfl (by omega) (by rw [Nat.add_zero, hl])
          simp only [Option.bind_some, if_neg hfwd]
    rw [slForEach, slForEach, hbody]
    rcases columnBody_unlink x i u sl with ⟨-, hnone⟩ | ⟨sl₁, hsome, -, -, hother⟩
    · rw [hnone, Option.bind_none, Option.bind_none]
    · rw [hsome, Option.bind_some, Option.bind_some]
      refine ih (i + 1) sl₁ fun k u' l hu' _ hl ↦ hne (k + 1) u' l hu' (by omega) ?_
      rw [hother _ (by omega)] at hl
      rwa [Nat.add_right_comm, Nat.add_assoc] at hl

/-- An assignment that keeps the forward pointer. -/
private theorem setLevel_forward {sl sl' : Skiplist S} {u : SlAddr} {i : ℕ} {l l' : SkiplistLevel}
    (hl : sl.column i u = some l) (hset : sl.setLevel u i l' = some sl')
    (hfwd : l'.forward = l.forward) : SameShape sl sl' ∧
      ∀ j y, (sl'.column j y).map SkiplistLevel.forward =
        (sl.column j y).map SkiplistLevel.forward := by
  rcases sl.setLevel_eq u i l' with ⟨-, hnone⟩ | ⟨sl₁, hset₁, -, hshape, hcol, hother⟩
  · rw [hset] at hnone
    cases hnone
  · obtain rfl : sl' = sl₁ := Option.some.inj (hset.symm.trans hset₁)
    refine ⟨hshape, fun j y ↦ ?_⟩
    by_cases hj : j = i
    · subst hj
      rw [hcol]
      by_cases hy : y = u
      · rw [hy, Function.update_self, hl, Option.map_some, Option.map_some, hfwd]
      · rw [Function.update_of_ne hy]
    · rw [hother j hj]

/-- Above level 0, the loop of `skiplistDeleteNode` changes no forward pointer. -/
theorem slUnlinkBody_forward {x u : SlAddr} {i : ℕ} {sl sl' : Skiplist S}
    (hrun : slUnlinkBody (fun _ ↦ 0) x i u sl = some sl') : SameShape sl sl' ∧
      ∀ j, 0 < j → ∀ y, (sl'.column j y).map SkiplistLevel.forward =
        (sl.column j y).map SkiplistLevel.forward := by
  rw [slUnlinkBody, Skiplist.levelAt_eq] at hrun
  obtain ⟨l, hl, hrun⟩ := Option.bind_eq_some_iff.mp hrun
  split_ifs at hrun
  · obtain ⟨lx, -, hrun⟩ := Option.bind_eq_some_iff.mp hrun
    obtain ⟨sl₁, hset, hrun⟩ := Option.bind_eq_some_iff.mp hrun
    obtain ⟨l₁, -, hset'⟩ := Option.bind_eq_some_iff.mp hrun
    obtain ⟨hshape, hfwd⟩ := setLevel_forward hl hset rfl
    rcases sl₁.setLevel_eq u 0 { l₁ with forward := lx.forward } with
      ⟨-, hnone⟩ | ⟨sl₂, hset₂, -, hshape', -, hother⟩
    · rw [hset'] at hnone
      cases hnone
    · obtain rfl : sl' = sl₂ := Option.some.inj (hset'.symm.trans hset₂)
      exact ⟨hshape.trans hshape', fun j hj y ↦ by rw [hother j hj.ne', hfwd]⟩
  · obtain ⟨hshape, hfwd⟩ := setLevel_forward hl hrun rfl
    exact ⟨hshape, fun j _ ↦ hfwd j⟩

theorem unlinkLoop_forward (x : SlAddr) : ∀ (us : List SlAddr) (i : ℕ) {sl sl' : Skiplist S},
    slForEach (slUnlinkBody (fun _ ↦ 0) x) us i sl = some sl' → SameShape sl sl' ∧
      ∀ j, 0 < j → ∀ y, (sl'.column j y).map SkiplistLevel.forward =
        (sl.column j y).map SkiplistLevel.forward := by
  intro us
  induction us with
  | nil =>
    intro i sl sl' hrun
    obtain rfl := Option.some.inj hrun
    exact ⟨.refl sl, fun _ _ _ ↦ rfl⟩
  | cons u us ih =>
    intro i sl sl' hrun
    rw [slForEach] at hrun
    obtain ⟨sl₁, hbody, hrun⟩ := Option.bind_eq_some_iff.mp hrun
    obtain ⟨hshape, hfwd⟩ := slUnlinkBody_forward hbody
    obtain ⟨hshape', hfwd'⟩ := ih (i + 1) hrun
    exact ⟨hshape.trans hshape', fun j hj y ↦ (hfwd' j hj y).trans (hfwd j hj y)⟩

/-! ## The levels in use -/

/-- **The level count** goes down to the highest level on which the header has a node behind it. -/
theorem slShrink_spec (sl : Skiplist S) : ∀ n, (∀ i < n, (sl.column i sl.header).isSome) → 1 ≤ n →
    ∃ m, slShrink sl n = some m ∧ 1 ≤ m ∧ m ≤ n ∧
      (∀ i, m ≤ i → i < n → ∃ span, sl.column i sl.header = some ⟨none, span⟩) ∧
      (m = 1 ∨ ∃ l f, sl.column (m - 1) sl.header = some l ∧ l.forward = some f) := by
  intro n
  induction n with
  | zero => exact fun _ h ↦ absurd h (Nat.not_succ_le_zero 0)
  | succ n ih =>
    intro hsome _
    rw [slShrink, Skiplist.levelAt_eq]
    rcases Nat.eq_zero_or_pos n with rfl | hn
    · exact ⟨1, if_pos rfl, le_rfl, le_rfl, fun i hle hlt ↦ by omega, Or.inl rfl⟩
    · obtain ⟨l, hl⟩ := Option.isSome_iff_exists.mp (hsome n (Nat.lt_succ_self n))
      rw [if_neg hn.ne', hl, Option.bind_some]
      cases hfwd : l.forward with
      | none =>
        obtain ⟨m, hm, hpos, hle, hnone, htop⟩ := ih (fun i hi ↦ hsome i (by omega)) hn
        refine ⟨m, by rw [if_pos rfl, hm], hpos, by omega, fun i hmi hi ↦ ?_, htop⟩
        rcases Nat.lt_succ_iff_lt_or_eq.mp hi with hi | rfl
        · exact hnone i hmi hi
        · exact ⟨l.span, by rw [hl, ← hfwd]⟩
      | some f =>
        exact ⟨n + 1, if_neg (by simp), by omega, le_rfl, fun i hle hlt ↦ by omega,
          Or.inr ⟨l, f, hl, hfwd⟩⟩

theorem slShrink_congr {sl sl' : Skiplist S} (hheader : sl'.header = sl.header)
    (hcol : sl'.column = sl.column) (n : ℕ) : slShrink sl' n = slShrink sl n := by
  induction n with
  | zero => rfl
  | succ n ih => rw [slShrink, slShrink, Skiplist.levelAt_eq, Skiplist.levelAt_eq, hheader, hcol, ih]

/-! ## The end -/

/-- Backward pointers behind a deletion: the node behind the removed one has the last one in front of it, and
the others are as before. -/
theorem backward_delete {L R : List (Tower S)} {x : Tower S}
    {back back' : SlAddr → Option (Option SlAddr)}
    (hold : ∀ P t Q, L ++ x :: R = P ++ t :: Q → back t.addr = some (P.getLast?.map Tower.addr))
    (hnd : ((L ++ R).map Tower.addr).Nodup)
    (hnext : ∀ f, R.head? = some f → back' f.addr = some (L.getLast?.map Tower.addr))
    (hother : ∀ y, (∀ f, R.head? = some f → y ≠ f.addr) → back' y = back y) :
    ∀ P t Q, L ++ R = P ++ t :: Q → back' t.addr = some (P.getLast?.map Tower.addr) := by
  have hne : ∀ {A B : List (Tower S)} {t u : Tower S}, L ++ R = A ++ B → t ∈ A → u ∈ B →
      t.addr ≠ u.addr := by
    intro A B t u hcut ht hu
    rw [hcut, List.map_append, List.nodup_append] at hnd
    exact hnd.2.2 _ (List.mem_map_of_mem ht) _ (List.mem_map_of_mem hu)
  intro P t Q hsplit
  rcases split_append hsplit with ⟨Q', hfront, rfl⟩ | ⟨A, hbehind, rfl⟩
  · have ht : t ∈ L := by
      rw [hfront]
      simp
    rw [hother t.addr fun f hf ↦ hne rfl ht (List.mem_of_head? hf)]
    exact hold P t (Q' ++ x :: R) (by rw [hfront, List.append_assoc]; rfl)
  · cases A with
    | nil =>
      rw [hnext t (by rw [hbehind]; rfl), List.append_nil]
    | cons a A =>
      have hat : a.addr ≠ t.addr := by
        refine hne (A := L ++ [a]) (B := A ++ t :: Q) ?_ (by simp) (by simp)
        rw [hbehind]
        simp
      rw [hother t.addr fun f hf ↦ ?_, hold (L ++ x :: a :: A) t Q (by rw [hbehind]; simp)]
      · simp [List.getLast?_append, List.getLast?_cons]
      · rw [hbehind] at hf
        obtain rfl := Option.some.inj hf
        exact hat.symm

section Unlink

variable [LinearOrder (SkiplistItem S)] {sl : Skiplist S} {L R : List (Tower S)} {x : Tower S}
  (h : sl.WellFormed (L ++ x :: R))

include h

/-- The nodes without the removed one are well formed as soon as the links, the counters and the pointers
that depend on it are right. -/
theorem Skiplist.WellFormed.of_unlinked {sl' : Skiplist S} (hheader : sl'.header = sl.header)
    (hinfo : sl'.infoAt = sl.infoAt) (hlinks : sl'.Links (sl.header, sl.level) ((L ++ R).map Tower.post))
    (hhigh : ∀ i, sl.level ≤ i → sl'.column i = sl.column i)
    (hshrink : slShrink sl' sl.level = some sl'.level)
    (hbackward : ∀ P t Q, L ++ R = P ++ t :: Q → sl'.backAt t.addr = some (P.getLast?.map Tower.addr))
    (htail : sl'.tail = (L ++ R).getLast?.map Tower.addr) (hlength : sl'.length = (L ++ R).length) :
    sl'.WellFormed (L ++ R) := by
  have hsub : (L ++ R).Sublist (L ++ x :: R) :=
    List.Sublist.append_left (List.sublist_cons_self x R) L
  have hmem : ∀ t ∈ L ++ R, t ∈ L ++ x :: R := fun t ht ↦ hsub.subset ht
  have hcol : ∀ i < sl.level, sl'.column i sl'.header = some (linkTo i ((L ++ R).map Tower.post)) :=
    fun i hi ↦ hheader ▸ hlinks i [] (sl.header, sl.level) _ rfl hi
  obtain ⟨m, hm, hpos, hle, hnone, htop⟩ := slShrink_spec sl' sl.level
    (fun i hi ↦ by rw [hcol i hi]; rfl) h.level_pos
  obtain rfl : m = sl'.level := Option.some.inj (hm.symm.trans hshrink)
  have hheight : ∀ t ∈ L ++ R, t.height ≤ sl'.level := by
    intro t ht
    by_contra hlt
    have hold := h.height_le t (hmem t ht)
    obtain ⟨span, hspan⟩ := hnone (t.height - 1) (by omega) (by omega)
    rw [hcol (t.height - 1) (by omega)] at hspan
    have hlow := linkTo_forward_eq_none (congrArg SkiplistLevel.forward (Option.some.inj hspan))
    have htlow : t.height ≤ t.height - 1 := hlow t.post (List.mem_map_of_mem ht)
    have hone := h.height_pos t (hmem t ht)
    omega
  constructor
  case nodup =>
    rw [hheader]
    exact h.nodup.sublist ((hsub.map _).cons_cons _)
  case header => rw [hinfo, hheader, h.header]
  case node =>
    intro t ht
    rw [hinfo, h.node t (hmem t ht)]
  case links =>
    intro i P b Q hsplit hb
    cases P with
    | nil =>
      obtain ⟨rfl, rfl⟩ := List.cons.inj hsplit
      have hb : i < sl'.level := hb
      exact hcol i (by omega)
    | cons p P =>
      obtain ⟨-, hsplit⟩ := List.cons.inj hsplit
      exact hlinks i ((sl.header, sl.level) :: P) b Q (by rw [hsplit]; rfl) hb
  case unused =>
    intro i hle' hlt
    rcases lt_or_ge i sl.level with hi | hi
    · exact hnone i hle' hi
    · rw [hhigh i hi, hheader]
      exact h.unused i hi hlt
  case level_pos => exact hpos
  case level_le => exact hle.trans h.level_le
  case height_pos => exact fun t ht ↦ h.height_pos t (hmem t ht)
  case height_le => exact hheight
  case level_used =>
    refine htop.imp id fun ⟨l, f, hl, hf⟩ ↦ ?_
    rw [hcol _ (by omega)] at hl
    rw [← Option.some.inj hl] at hf
    obtain ⟨p, hp, hlt, -⟩ := linkTo_forward_eq_some hf
    obtain ⟨t, ht, rfl⟩ := List.mem_map.mp hp
    have hlt : sl'.level - 1 < t.height := hlt
    have hle := hheight t ht
    exact ⟨t, ht, by omega⟩
  case backward => exact hbackward
  case tail => exact htail
  case length => exact hlength
  case sorted => exact h.sorted.sublist (hsub.map _)

/-- The state behind the loop of `slDeleteNode`. -/
theorem Skiplist.WellFormed.unlinkLoop :
    ∃ sl₁, slForEach (slUnlinkBody (fun i ↦ i) x.addr)
        (updateAt (sl.header, sl.level) (L.map Tower.post)) 0 sl = some sl₁ ∧ SameShape sl sl₁ ∧
      sl₁.Links (sl.header, sl.level) ((L ++ R).map Tower.post) ∧
      sl₁.column 0 x.addr = some (linkTo 0 (R.map Tower.post)) ∧
      ∀ i, sl.level ≤ i → sl₁.column i = sl.column i := by
  have hposts : (L ++ x :: R).map Tower.post = L.map Tower.post ++ x.post :: R.map Tower.post := by
    rw [List.map_append, List.map_cons]
  have hlinks := h.links
  have hnd : (((sl.header, sl.level) :: (L.map Tower.post ++ x.post :: R.map Tower.post)).map
      Prod.fst).Nodup := by
    simpa [Tower.post, Function.comp_def] using h.nodup
  have hheight : ∀ p ∈ L.map Tower.post ++ x.post :: R.map Tower.post, p.2 ≤ sl.level := by
    intro p hp
    rw [← hposts] at hp
    obtain ⟨t, ht, rfl⟩ := List.mem_map.mp hp
    exact h.height_le t ht
  have hlen : (L.map Tower.post ++ x.post :: R.map Tower.post).length < 2 ^ 61 := by
    rw [← hposts, List.length_map]
    exact h.length_lt
  have hx : sl.column 0 x.addr = some (linkTo 0 (R.map Tower.post)) :=
    hlinks 0 ((sl.header, sl.level) :: L.map Tower.post) x.post (R.map Tower.post)
      (by rw [hposts]; rfl) (h.height_pos x (by simp))
  rw [hposts] at hlinks
  obtain ⟨sl₁, hrun, hshape, hlinks₁, hsame, hhigh⟩ := unlinkLoop_spec hlinks hnd hheight hlen
  rw [← List.map_append] at hlinks₁
  exact ⟨sl₁, hrun, hshape, hlinks₁, (hsame 0).trans hx, hhigh⟩

/-- **Unlinking a node.** Where the loop does what that of `slDeleteNode` does, the result is well formed. -/
theorem Skiplist.WellFormed.slUnlinkNode (target : ℕ → ℕ)
    (hloop : slForEach (slUnlinkBody target x.addr)
        (updateAt (sl.header, sl.level) (L.map Tower.post)) 0 sl =
      slForEach (slUnlinkBody (fun i ↦ i) x.addr)
        (updateAt (sl.header, sl.level) (L.map Tower.post)) 0 sl) :
    ∃ sl', LatteC.slUnlinkNode target sl x.addr
        (updateAt (sl.header, sl.level) (L.map Tower.post)) = some sl' ∧
      sl'.WellFormed (L ++ R) ∧ sl'.infoAt = sl.infoAt := by
  obtain ⟨sl₁, hrun, hshape, hlinks, hcolx, hhigh⟩ := h.unlinkLoop
  have htake : (updateAt (sl.header, sl.level) (L.map Tower.post)).take sl.level =
      updateAt (sl.header, sl.level) (L.map Tower.post) := by
    refine List.take_of_length_le ?_
    rw [updateAt, List.length_map, List.length_range]
  rw [LatteC.slUnlinkNode, htake, hloop, hrun, Option.bind_some]
  -- the node itself is as it was
  have hbackx : sl₁.backAt x.addr = some (L.getLast?.map Tower.addr) := by
    rw [hshape.back]
    exact h.backward L x R rfl
  obtain ⟨node, hnode⟩ : ∃ node, sl₁.heap x.addr = some node := by
    rw [Skiplist.backAt, Option.map_eq_some_iff] at hbackx
    exact ⟨_, hbackx.choose_spec.1⟩
  have hback : node.backward = L.getLast?.map Tower.addr := by
    rw [Skiplist.backAt, hnode] at hbackx
    exact Option.some.inj hbackx
  have hhead : node.level.head? = some (linkTo 0 (R.map Tower.post)) := by
    rw [Skiplist.column, Skiplist.levelAt, hnode, Option.bind_some] at hcolx
    rw [List.head?_eq_getElem?, hcolx]
  have hfwd : (linkTo 0 (R.map Tower.post)).forward = R.head?.map Tower.addr :=
    h.next_zero fun t ht ↦ by simp [ht]
  rw [hnode, Option.bind_some, hhead, Option.bind_some, hfwd, hback]
  have hheader₁ : sl₁.header = sl.header := hshape.header
  have hlen : slUlong (sl₁.length - 1) = (L ++ R).length := by
    have hlt := h.length_lt
    have hlen' : (L ++ x :: R).length = (L ++ R).length + 1 := by
      simp only [List.length_append, List.length_cons]
      omega
    rw [hshape.length, h.length, hlen']
    exact slUlong_eq (by omega) (by omega)
  have hnd : ((L ++ R).map Tower.addr).Nodup := by
    refine (List.nodup_cons.mp h.nodup).2.sublist (List.Sublist.map _ ?_)
    exact List.Sublist.append_left (List.sublist_cons_self x R) L
  obtain ⟨m, hm₁, -⟩ := slShrink_spec sl₁ sl.level (fun i hi ↦ by
    rw [hheader₁, hlinks i [] (sl.header, sl.level) _ rfl hi]
    rfl) h.level_pos
  have hm : ∀ sl₂ : Skiplist S, sl₂.header = sl.header → sl₂.column = sl₁.column →
      slShrink sl₂ sl.level = some m := by
    intro sl₂ hheader hcol
    rw [slShrink_congr (hheader.trans hheader₁.symm) hcol, hm₁]
  cases R with
  | nil =>
    simp only [List.head?_nil, Option.map_none, Option.bind_some]
    have hend := hm { sl₁ with tail := L.getLast?.map Tower.addr, level := sl.level } hheader₁ rfl
    rw [hshape.level, hend, Option.map_some]
    refine ⟨_, rfl, h.of_unlinked hheader₁ hshape.info hlinks hhigh (hm _ hheader₁ rfl) ?_ ?_ hlen,
      hshape.info⟩
    · refine backward_delete h.backward hnd (by simp) fun y _ ↦ ?_
      exact congrFun hshape.back y
    · rw [List.append_nil]
  | cons f R =>
    simp only [List.head?_cons, Option.map_some]
    rcases sl₁.setBackward_eq f.addr (L.getLast?.map Tower.addr) with
      ⟨hnone, -⟩ | ⟨sl₂, hset, hheader, htail, hlength, hlevel, hinfo, hback', hcol⟩
    · rw [hshape.info, h.node f (by simp)] at hnone
      cases hnone
    · have hheader₂ := hheader.trans hheader₁
      rw [hset, Option.bind_some, hlevel, hshape.level, hm _ hheader₂ hcol, Option.map_some]
      refine ⟨_, rfl, h.of_unlinked hheader₂ (hinfo.trans hshape.info) ?_ ?_ (hm _ hheader₂ hcol)
        ?_ ?_ ?_, hinfo.trans hshape.info⟩
      · intro i
        exact hcol ▸ hlinks i
      · intro i hi
        exact (congrFun hcol i).trans (hhigh i hi)
      · refine backward_delete h.backward hnd (fun f' hf ↦ ?_) fun y hy ↦ ?_
        · obtain rfl := Option.some.inj hf
          exact (congrFun hback' f.addr).trans (Function.update_self _ _ _)
        · refine (congrFun hback' y).trans ((Function.update_of_ne (hy f rfl) _ _).trans ?_)
          exact congrFun hshape.back y
      · refine htail.trans (hshape.tail.trans (h.tail.trans ?_))
        simp [List.getLast?_append, List.getLast?_cons]
      · rw [hlength, hlen]

/-- **`slDeleteNode`** removes a node of any height. -/
theorem Skiplist.WellFormed.slDeleteNode :
    ∃ sl', LatteC.slDeleteNode sl x.addr (updateAt (sl.header, sl.level) (L.map Tower.post)) =
      some sl' ∧ sl'.WellFormed (L ++ R) := by
  obtain ⟨sl', hrun, hwf, -⟩ := h.slUnlinkNode (fun i ↦ i) rfl
  exact ⟨sl', hrun, hwf⟩

/-- The link of the node in front, on every level. -/
theorem Skiplist.WellFormed.seatAt_forward {i : ℕ} (hi : i < sl.level) :
    ∃ l, sl.column i (seatAt (sl.header, sl.level) (L.map Tower.post) i).1 = some l ∧
      (l.forward = some x.addr ↔ i < x.height) := by
  have hlinks := h.links i
  rw [List.map_append, List.map_cons] at hlinks
  exact seatAt_forward_iff hlinks (by simpa [Tower.post, Function.comp_def] using h.nodup) hi

/-- `skiplistDeleteNode` removes a node with one level. -/
theorem Skiplist.WellFormed.skiplistDeleteNode (hx : x.height = 1) :
    ∃ sl', LatteC.skiplistDeleteNode sl x.addr
        (updateAt (sl.header, sl.level) (L.map Tower.post)) = some sl' ∧
      sl'.WellFormed (L ++ R) ∧ sl'.infoAt = sl.infoAt := by
  refine h.slUnlinkNode _ (unlinkLoop_congr _ _ _ _ fun k u l hu hk hl ↦ ?_)
  rw [Nat.zero_add] at hk hl
  rw [updateAt_getElem?, Option.ite_none_right_eq_some] at hu
  obtain ⟨hlt, hu⟩ := hu
  obtain rfl := Option.some.inj hu
  obtain ⟨l', hl', hiff⟩ := h.seatAt_forward hlt
  obtain rfl : l = l' := Option.some.inj (hl.symm.trans hl')
  rw [Ne, hiff]
  omega

end Unlink

section Wrong

variable [LinearOrder (SkiplistItem S)] {sl : Skiplist S} {ts L R : List (Tower S)} {x : Tower S}

/-- In a well-formed list every pointer goes to a node of the list. -/
theorem Skiplist.WellFormed.forward_mem (h : sl.WellFormed ts) {y f : SlAddr} {i : ℕ}
    {l : SkiplistLevel} (hy : y ∈ sl.header :: ts.map Tower.addr) (hl : sl.column i y = some l)
    (hf : l.forward = some f) : f ∈ ts.map Tower.addr := by
  have hlink : ∀ ps : List (Tower S), (∀ t ∈ ps, t ∈ ts) →
      sl.column i y = some (linkTo i (ps.map Tower.post)) → f ∈ ts.map Tower.addr := by
    intro ps hps hcol
    rw [← Option.some.inj (hcol.symm.trans hl)] at hf
    obtain ⟨p, hp, -, rfl⟩ := linkTo_forward_eq_some hf
    obtain ⟨t, ht, rfl⟩ := List.mem_map.mp hp
    exact List.mem_map_of_mem (hps t ht)
  obtain ⟨info, hinfo, hi⟩ := (sl.isSome_column_iff y i).mp (by rw [hl]; rfl)
  rcases List.mem_cons.mp hy with rfl | hy
  · rw [h.header] at hinfo
    rw [← Option.some.inj hinfo] at hi
    rcases lt_or_ge i sl.level with hlt | hle
    · exact hlink ts (fun _ ↦ id) (h.links i [] (sl.header, sl.level) _ rfl hlt)
    · obtain ⟨span, hspan⟩ := h.unused i hle hi
      rw [Option.some.inj (hl.symm.trans hspan)] at hf
      cases hf
  · obtain ⟨t, ht, rfl⟩ := List.mem_map.mp hy
    rw [h.node t ht] at hinfo
    rw [← Option.some.inj hinfo] at hi
    obtain ⟨P, Q, hsplit⟩ := List.append_of_mem ht
    refine hlink Q (fun u hu ↦ by rw [hsplit]; simp [hu]) ?_
    exact h.links i ((sl.header, sl.level) :: P.map Tower.post) t.post (Q.map Tower.post)
      (by rw [hsplit]; simp) hi

omit [LinearOrder (SkiplistItem S)] in
/-- What `skiplistDeleteNode` does to the levels is what its loop does. -/
theorem skiplistDeleteNode_column {sl' : Skiplist S} {y : SlAddr} {us : List SlAddr}
    (hrun : skiplistDeleteNode sl y us = some sl') :
    ∃ sl₁, slForEach (slUnlinkBody (fun _ ↦ 0) y) (us.take sl.level) 0 sl = some sl₁ ∧
      sl'.column = sl₁.column ∧ sl'.header = sl₁.header := by
  rw [skiplistDeleteNode, slUnlinkNode] at hrun
  obtain ⟨sl₁, hloop, hrun⟩ := Option.bind_eq_some_iff.mp hrun
  obtain ⟨node, -, hrun⟩ := Option.bind_eq_some_iff.mp hrun
  obtain ⟨l, -, hrun⟩ := Option.bind_eq_some_iff.mp hrun
  obtain ⟨sl₂, hend, hrun⟩ := Option.bind_eq_some_iff.mp hrun
  obtain ⟨m, -, rfl⟩ := Option.map_eq_some_iff.mp hrun
  refine ⟨sl₁, hloop, ?_⟩
  cases hfwd : l.forward with
  | none =>
    rw [hfwd] at hend
    obtain rfl := Option.some.inj hend
    exact ⟨rfl, rfl⟩
  | some f =>
    rw [hfwd] at hend
    rcases sl₁.setBackward_eq f node.backward with
      ⟨-, hnone⟩ | ⟨sl₃, hset, hheader, -, -, -, -, -, hcol⟩
    · simp only [hnone, reduceCtorEq] at hend
    · obtain rfl : sl₃ = sl₂ := Option.some.inj (hset.symm.trans hend)
      exact ⟨hcol, hheader⟩

/-- **Behind the deletion of a higher node** somebody still points to it. -/
theorem Skiplist.WellFormed.height_eq_one (h : sl.WellFormed (L ++ x :: R)) {sl' sl'' : Skiplist S}
    (hrun : LatteC.skiplistDeleteNode sl x.addr
      (updateAt (sl.header, sl.level) (L.map Tower.post)) = some sl')
    (hheader : sl''.header = sl'.header)
    (hcol : ∀ i y, y ≠ x.addr → sl''.column i y = sl'.column i y)
    (hwf : sl''.WellFormed (L ++ R)) : x.height = 1 := by
  by_contra hne
  have hpos := h.height_pos x (by simp)
  have hle := h.height_le x (by simp)
  obtain ⟨sl₁, hloop, hcol₁, hheader₁⟩ := skiplistDeleteNode_column hrun
  obtain ⟨hshape, hfwd⟩ := unlinkLoop_forward _ _ _ hloop
  obtain ⟨l, hl, hiff⟩ := h.seatAt_forward (i := 1) (by omega)
  have hlx : l.forward = some x.addr := hiff.mpr (by omega)
  -- the seat is in front of the node
  have hu : (seatAt (sl.header, sl.level) (L.map Tower.post) 1).1 ∈
      sl.header :: L.map Tower.addr := by
    have hlt : 1 < (sl.header, sl.level).2 := by
      dsimp only
      omega
    simpa [Tower.post, Function.comp_def] using seatAt_mem hlt (L.map Tower.post)
  generalize (seatAt (sl.header, sl.level) (L.map Tower.post) 1).1 = u at hl hu
  have hnodup := h.nodup
  rw [List.map_append, List.map_cons, ← List.cons_append, List.nodup_append] at hnodup
  obtain ⟨-, hnodup, hdisj⟩ := hnodup
  have hux : u ≠ x.addr := hdisj u hu x.addr List.mem_cons_self
  have hfwd₁ := hfwd 1 Nat.one_pos u
  rw [hl, Option.map_some, hlx, ← hcol₁, ← hcol 1 u hux, Option.map_eq_some_iff] at hfwd₁
  obtain ⟨l', hl', hlx'⟩ := hfwd₁
  have hy : u ∈ sl''.header :: (L ++ R).map Tower.addr := by
    rw [hheader, hheader₁, hshape.header, List.map_append, ← List.cons_append]
    exact List.mem_append_left _ hu
  have hmem := hwf.forward_mem hy hl' hlx'
  rw [List.map_append, List.mem_append] at hmem
  rcases hmem with hmem | hmem
  · exact hdisj x.addr (List.mem_cons_of_mem _ hmem) x.addr List.mem_cons_self rfl
  · exact (List.nodup_cons.mp hnodup).1 hmem

end Wrong

/-! ## The deletion -/

/-- Nodes that are not in the list do not matter. -/
theorem Skiplist.WellFormed.free [LE (SkiplistItem S)] {sl : Skiplist S} {ts : List (Tower S)}
    (h : sl.WellFormed ts) {a : SlAddr} (ha : a ∉ sl.header :: ts.map Tower.addr) :
    ({ sl with heap := Function.update sl.heap a none } : Skiplist S).WellFormed ts := by
  have hne : ∀ t ∈ ts, t.addr ≠ a := by
    rintro t ht rfl
    exact ha (List.mem_cons_of_mem _ (List.mem_map_of_mem ht))
  have hheader : sl.header ≠ a := by
    rintro rfl
    exact ha List.mem_cons_self
  have hsame : ∀ y ≠ a, Function.update sl.heap a none y = sl.heap y :=
    fun y hy ↦ Function.update_of_ne hy _ _
  constructor
  case nodup => exact h.nodup
  case header => exact (congrArg (Option.map _) (hsame _ hheader)).trans h.header
  case node => exact fun t ht ↦ (congrArg (Option.map _) (hsame _ (hne t ht))).trans (h.node t ht)
  case links =>
    intro i P b Q hsplit hb
    have hba : b.1 ≠ a := by
      have hmem : b ∈ (sl.header, sl.level) :: ts.map Tower.post := by
        rw [hsplit]
        simp
      rcases List.mem_cons.mp hmem with rfl | hmem
      · exact hheader
      · obtain ⟨t, ht, rfl⟩ := List.mem_map.mp hmem
        exact hne t ht
    exact (congrArg (Option.bind · _) (hsame _ hba)).trans (h.links i P b Q hsplit hb)
  case unused =>
    intro i hle hlt
    obtain ⟨span, hspan⟩ := h.unused i hle hlt
    exact ⟨span, (congrArg (Option.bind · _) (hsame _ hheader)).trans hspan⟩
  case level_pos => exact h.level_pos
  case level_le => exact h.level_le
  case height_pos => exact h.height_pos
  case height_le => exact h.height_le
  case level_used => exact h.level_used
  case backward =>
    intro P t Q hsplit
    refine (congrArg (Option.map _) (hsame _ (hne t ?_))).trans (h.backward P t Q hsplit)
    rw [hsplit]
    simp
  case tail => exact h.tail
  case length => exact h.length
  case sorted => exact h.sorted

section Deletion

variable [LinearOrder S] [LinearOrder (SkiplistItem S)] (cmp : SkiplistComparator S)
  {sl : Skiplist S} {ts : List (Tower S)} (h : sl.WellFormed ts) (item : SkiplistItem S)
  {fuel : ℕ} (hfuel : ts.length < fuel)

include h

/-- The test of `skipListDelete` finds out whether the node holds the item. -/
theorem Skiplist.WellFormed.slIsItem_eq {t : Tower S} (ht : t ∈ ts) :
    slIsItem cmp sl item t.addr = some (decide (t.item = item)) := by
  have hinfo := h.node t ht
  cases hn : sl.heap t.addr with
  | none => simp [Skiplist.infoAt, hn] at hinfo
  | some n =>
    simp only [Skiplist.infoAt, hn, Option.map_some, Option.some.injEq, Prod.mk.injEq] at hinfo
    obtain ⟨hele, hscore, -⟩ := hinfo
    have hzero : cmp.comparator none t.item.score none item.score = 0 ↔
        t.item.score = item.score := by
      have hneg := cmp.score_neg_iff t.item.score item.score
      have hpos := cmp.score_pos_iff t.item.score item.score
      constructor
      · intro hzero
        rw [hzero] at hneg hpos
        exact le_antisymm (not_lt.mp fun hlt ↦ lt_irrefl _ (hpos.mpr hlt))
          (not_lt.mp fun hlt ↦ lt_irrefl _ (hneg.mpr hlt))
      · intro heq
        rw [heq] at hneg hpos ⊢
        exact le_antisymm (not_lt.mp fun hlt ↦ lt_irrefl _ (hpos.mp hlt))
          (not_lt.mp fun hlt ↦ lt_irrefl _ (hneg.mp hlt))
    have hitem : t.item = item ↔ t.item.score = item.score ∧ t.item.ele = item.ele := by
      cases t.item
      cases item
      exact SkiplistItem.mk.injEq _ _ _ _ ▸ Iff.rfl
    rw [slIsItem, hn, Option.bind_some, hscore, Option.bind_some, hele, Option.map_some]
    by_cases hs : t.item.score = item.score
    · rw [if_pos (hzero.mpr hs)]
      simp only [sdsCmp_eq_zero_iff, hitem, hs, true_and]
    · rw [if_neg (mt hzero.mp hs), decide_eq_false fun heq ↦ hs (hitem.mp heq).1]

include hfuel

/-- **`skipListDelete`** as the unlinking of the first node that is not before the item, if that one holds
it. -/
theorem Skiplist.WellFormed.skipListDelete_eq (keep : Bool) :
    LatteC.skipListDelete cmp fuel keep sl item =
      match (towersFrom ts item).head? with
      | none => some (sl, none)
      | some x =>
        if x.item = item then
          (LatteC.skiplistDeleteNode sl x.addr (updateAt (sl.header, sl.level)
            ((towersBefore ts item).map Tower.post))).bind fun sl' ↦ (sl'.heap x.addr).map fun node ↦
              (if keep then sl' else { sl' with heap := Function.update sl'.heap x.addr none },
                node.score)
        else some (sl, none) := by
  have hdesc := h.slDescend_eq (before_of_le item) (fun t ht ↦ h.slBefore_eq cmp ht item) hfuel
  have hcut := h.eq_before_append_from item
  have hcol := h.column_zero hcut
  have hbefore : ∀ t ∈ towersBefore ts item, t ∈ ts := fun t ht ↦ List.mem_of_mem_filter ht
  have hfrom : ∀ t ∈ towersFrom ts item, t ∈ ts := fun t ht ↦ List.mem_of_mem_filter ht
  have hups : ((List.range sl.level).map (seatAt (sl.header, sl.level)
      ((towersBefore ts item).map Tower.post))).map Prod.fst =
      updateAt (sl.header, sl.level) ((towersBefore ts item).map Tower.post) := by
    rw [updateAt, List.map_map]
    rfl
  rw [LatteC.skipListDelete, hdesc, Option.bind_some, ← towersBefore,
    h.head_seats hbefore _ h.level_pos, Option.bind_some, Skiplist.levelAt_eq, hcol,
    Option.bind_some, h.next_zero hfrom, hups]
  cases hx : (towersFrom ts item).head? with
  | none => rfl
  | some x =>
    have hmem : x ∈ ts := hfrom x (List.mem_of_head? hx)
    simp only [Option.map_some, h.slIsItem_eq cmp item hmem, Option.bind_some, decide_eq_true_iff]

omit hfuel [LinearOrder S] in
/-- The first node with the item is the first one that is not before it. -/
theorem Skiplist.WellFormed.find_item :
    (∃ x R, towersFrom ts item = x :: R ∧ x.item = item ∧
      ts.find? (fun t ↦ decide (t.item = item)) = some x ∧
      ts.eraseP (fun t ↦ decide (t.item = item)) = towersBefore ts item ++ R) ∨
    (ts.find? (fun t ↦ decide (t.item = item)) = none ∧
      ∀ x, (towersFrom ts item).head? = some x → x.item ≠ item) := by
  have hcut := h.eq_before_append_from item
  have hbefore : ∀ t ∈ towersBefore ts item, ¬decide (t.item = item) = true := by
    intro t ht
    have hlt : t.item < item := by simpa using (List.mem_filter.mp ht).2
    simpa using hlt.ne
  have hsorted := h.sorted
  have hfind : ts.find? (fun t ↦ decide (t.item = item)) =
      (towersFrom ts item).find? fun t ↦ decide (t.item = item) := by
    conv_lhs => rw [hcut]
    rw [List.find?_append, List.find?_eq_none.mpr hbefore, Option.none_or]
  have herase : ts.eraseP (fun t ↦ decide (t.item = item)) =
      towersBefore ts item ++ (towersFrom ts item).eraseP fun t ↦ decide (t.item = item) := by
    conv_lhs => rw [hcut]
    exact List.eraseP_append_right _ hbefore
  rw [hfind, herase]
  rw [hcut, List.map_append, List.pairwise_append] at hsorted
  obtain ⟨-, hsorted, -⟩ := hsorted
  have hle : ∀ t ∈ towersFrom ts item, item ≤ t.item := by
    intro t ht
    simpa using (List.mem_filter.mp ht).2
  cases hR : towersFrom ts item with
  | nil => exact Or.inr ⟨rfl, by simp⟩
  | cons x R =>
    by_cases hx : x.item = item
    · refine Or.inl ⟨x, R, rfl, hx, ?_, ?_⟩
      · rw [List.find?_cons_of_pos (by simpa using hx)]
      · rw [List.eraseP_cons_of_pos (by simpa using hx)]
    · refine Or.inr ⟨List.find?_eq_none.mpr fun t ht ↦ ?_, fun y hy ↦ ?_⟩
      · -- the items behind are not smaller
        rw [hR] at hle hsorted
        have hlt : item < x.item := lt_of_le_of_ne (hle x List.mem_cons_self) (Ne.symm hx)
        rw [List.map_cons, List.pairwise_cons] at hsorted
        rcases List.mem_cons.mp ht with rfl | ht
        · simpa using hx
        · simpa using (hlt.trans_le (hsorted.1 _ (List.mem_map_of_mem ht))).ne'
      · obtain rfl := Option.some.inj hy
        exact hx

end Deletion

/-- What a deletion should do: the first node with the item is removed and its score is returned, or, where
there is none, nothing changes and NULL is returned. -/
def SkipListDeletes [LinearOrder S] [LinearOrder (SkiplistItem S)] (cmp : SkiplistComparator S)
    (fuel : ℕ) (keep : Bool) (sl : Skiplist S) (ts : List (Tower S)) (item : SkiplistItem S) : Prop :=
  match ts.find? fun t ↦ decide (t.item = item) with
  | some _ => ∃ sl', skipListDelete cmp fuel keep sl item = some (sl', some item.score) ∧
      sl'.WellFormed (ts.eraseP fun t ↦ decide (t.item = item))
  | none => skipListDelete cmp fuel keep sl item = some (sl, none)

section Result

variable [LinearOrder S] [LinearOrder (SkiplistItem S)] (cmp : SkiplistComparator S)
  {sl : Skiplist S} {ts : List (Tower S)} (h : sl.WellFormed ts) (item : SkiplistItem S)
  {fuel : ℕ} (hfuel : ts.length < fuel) (keep : Bool)

include h hfuel

theorem Skiplist.WellFormed.height_of_deletes (hdel : SkipListDeletes cmp fuel keep sl ts item)
    {x : Tower S} (hx : ts.find? (fun t ↦ decide (t.item = item)) = some x) : x.height = 1 := by
  have hrun := h.skipListDelete_eq cmp item hfuel keep
  rw [SkipListDeletes, hx] at hdel
  rcases h.find_item item with ⟨y, R, hR, hy, hfind, herase⟩ | ⟨hfind, -⟩
  · obtain rfl : x = y := Option.some.inj (hx.symm.trans hfind)
    have hcut := h.eq_before_append_from item
    rw [hR] at hcut hrun
    rw [herase] at hdel
    simp only [List.head?_cons, if_pos hy] at hrun
    generalize towersBefore ts item = L at *
    subst hcut
    obtain ⟨sl', hsome, hwf⟩ := hdel
    rw [hrun] at hsome
    obtain ⟨sl₁, hunlink, hsome⟩ := Option.bind_eq_some_iff.mp hsome
    obtain ⟨node, -, hsome⟩ := Option.map_eq_some_iff.mp hsome
    obtain ⟨rfl, -⟩ := Prod.mk.inj hsome
    cases keep with
    | true => exact h.height_eq_one hunlink rfl (fun _ _ _ ↦ rfl) hwf
    | false =>
      rw [if_neg (by decide)] at hwf
      refine h.height_eq_one hunlink ?_ (fun i z hz ↦ ?_) hwf
      · rfl
      · exact congrArg (Option.bind · _) (Function.update_of_ne hz _ _)
  · rw [hx] at hfind
    cases hfind

theorem Skiplist.WellFormed.deletes
    (hone : ∀ x, ts.find? (fun t ↦ decide (t.item = item)) = some x → x.height = 1) :
    SkipListDeletes cmp fuel keep sl ts item := by
  have hrun := h.skipListDelete_eq cmp item hfuel keep
  rw [SkipListDeletes]
  rcases h.find_item item with ⟨x, R, hR, hx, hfind, herase⟩ | ⟨hfind, hne⟩
  · have hheight := hone x hfind
    rw [hfind, herase]
    have hcut := h.eq_before_append_from item
    rw [hR] at hcut hrun
    simp only [List.head?_cons, if_pos hx] at hrun
    generalize towersBefore ts item = L at *
    subst hcut
    obtain ⟨sl', hunlink, hwf, hinfo⟩ := h.skiplistDeleteNode hheight
    have hinfox := (congrFun hinfo x.addr).trans (h.node x (by simp))
    rw [Skiplist.infoAt, Option.map_eq_some_iff] at hinfox
    obtain ⟨node, hnode, hinfox⟩ := hinfox
    have hscore : node.score = some item.score := by
      rw [← hx]
      exact congrArg (fun i ↦ i.2.1) hinfox
    rw [hunlink, Option.bind_some, hnode, Option.map_some, hscore] at hrun
    refine ⟨_, hrun, ?_⟩
    cases keep with
    | true => exact hwf
    | false =>
      refine hwf.free ?_
      obtain ⟨sl₁, hloop, -, hheader⟩ := skiplistDeleteNode_column hunlink
      rw [hheader, (unlinkLoop_forward _ _ _ hloop).1.header]
      have hnodup := h.nodup
      rw [List.map_append, List.map_cons, ← List.cons_append] at hnodup
      rw [List.map_append, ← List.cons_append]
      exact (List.nodup_cons.mp (List.perm_middle.nodup_iff.mp hnodup)).1
  · rw [hfind]
    show skipListDelete cmp fuel keep sl item = some (sl, none)
    rw [hrun]
    cases hx : (towersFrom ts item).head? with
    | none => rfl
    | some x => exact if_neg (hne x hx)

/-- **Deletion** from a well-formed list does what it should exactly if the item is not there or the first
node that holds it has one level. -/
theorem skiplist_delete_iff :
    SkipListDeletes cmp fuel keep sl ts item ↔
      ∀ x, ts.find? (fun t ↦ decide (t.item = item)) = some x → x.height = 1 :=
  ⟨fun hdel _ hx ↦ h.height_of_deletes cmp item hfuel keep hdel hx,
    h.deletes cmp item hfuel keep⟩

end Result

/-- From the list of 1, 2, 3. -/
theorem skiplist_delete_flat :
    SkipListDeletes intComparator.toSkiplistComparator 4 false (flatSkiplist 3) (flatTowers 3)
      ⟨2, []⟩ :=
  (skiplist_delete_iff intComparator.toSkiplistComparator
    (flatSkiplist_wellFormed (n := 3) (by decide)) ⟨2, []⟩ (show 3 < 4 by decide) false).mpr
    fun x hx ↦ by
      obtain ⟨k, -, -, rfl⟩ := mem_flatTowers.mp (List.mem_of_find?_eq_some hx)
      rfl

/-- **A node with two levels**, alone in its list, is not removed. -/
theorem skiplist_delete_fails :
    ∃ sl, skipListInsert intComparator.toSkiplistComparator 1 2 1 (skipListNew 0) ⟨5, [97]⟩ =
        some (sl, 1) ∧ sl.WellFormed [⟨1, 2, ⟨5, [97]⟩⟩] ∧
      ¬SkipListDeletes intComparator.toSkiplistComparator 2 false sl [⟨1, 2, ⟨5, [97]⟩⟩]
        ⟨5, [97]⟩ := by
  obtain ⟨sl, hrun, hwf⟩ := (skipListNew_wellFormed 0).skipListInsert
    intComparator.toSkiplistComparator (x := ⟨1, 2, ⟨5, [97]⟩⟩) (by decide) (by decide) (by decide)
    (show 0 < 1 by decide) (skipListRanksFit_of_lt _ (by decide))
  have hwf : sl.WellFormed [⟨1, 2, ⟨5, [97]⟩⟩] := hwf
  refine ⟨sl, hrun, hwf, fun hdel ↦ ?_⟩
  have hone := hwf.height_of_deletes intComparator.toSkiplistComparator ⟨5, [97]⟩
    (show 1 < 2 by decide) false hdel (x := ⟨1, 2, ⟨5, [97]⟩⟩)
    (List.find?_cons_of_pos (decide_eq_true rfl))
  exact absurd hone (by decide)

end LatteC
