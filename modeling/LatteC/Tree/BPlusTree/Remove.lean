import LatteC.Foundation.LeafSeq.Shrink
import LatteC.Tree.BPlusTree.Insert

/-!
# Removal from a B+ tree

What `b_plus_tree_remove` does to the sequence of leaves: one entry leaves it (`LeafSeq.Shrink`),
except in two branches of the source.

* Filling up a leaf from its left neighbour shifts one key too few. The slot behind the ones in use
  still has the last key from before the removal. If that is the key that was removed, it comes
  back, and its neighbour is lost.
* An internal node that has lost its last child is taken out of its parent by moving the children to
  the right of it, but not the keys. Unless it was the last child or the last but one, all the
  separators behind it are now one child too far to the left.

`bPlusRemoveSafe` says that a call takes neither branch.
-/

namespace LatteC

open SlotArray LeafSeq SortedAssoc

variable {K V : Type}

/-! ## One leaf -/

section Leaf

variable [LinearOrder K] {order : ℕ} {key : K}

/-- The loop that looks for the key. -/
theorem bPlusLeafSearch_spec {slots : List (Option (K × V))} {X Y : List (K × V)} {v : V}
    (hX : ∀ x ∈ X, key ≠ x.1) : ∀ {A : List (K × V)}, Holds order slots (A ++ (X ++ (key, v) :: Y)) →
    bPlusLeafSearch key slots (X ++ (key, v) :: Y).length A.length = some (some (A ++ X).length) := by
  induction X with
  | nil =>
    intro A hslots
    have hread : read slots A.length = some (key, v) := hslots.read
    rw [List.nil_append, List.length_cons, bPlusLeafSearch, hread, Option.bind_some, if_pos rfl,
      List.append_nil]
  | cons x X ih =>
    intro A hslots
    have hread : read slots A.length = some x := hslots.read
    have hrest := ih (fun x' hx' ↦ hX x' (List.mem_cons_of_mem _ hx')) (A := A ++ [x])
      (by simpa using hslots)
    rw [List.cons_append, List.length_cons, bPlusLeafSearch, hread, Option.bind_some,
      if_neg (hX x List.mem_cons_self)]
    simpa using hrest

theorem bPlusLeafSearch_eq_none {slots : List (Option (K × V))} {Y : List (K × V)}
    (hY : ∀ y ∈ Y, key ≠ y.1) : ∀ {A : List (K × V)}, Holds order slots (A ++ Y) →
    bPlusLeafSearch key slots Y.length A.length = some none := by
  induction Y with
  | nil =>
    intro A _
    rfl
  | cons y Y ih =>
    intro A hslots
    have hread : read slots A.length = some y := hslots.read
    have hrest := ih (fun y' hy' ↦ hY y' (List.mem_cons_of_mem _ hy')) (A := A ++ [y])
      (by simpa using hslots)
    rw [List.length_cons, bPlusLeafSearch, hread, Option.bind_some,
      if_neg (hY y List.mem_cons_self)]
    simpa using hrest

/-- Taking a key out of a leaf. The last entry from before is also in the slot behind. -/
theorem bPlusTreeLeafNodeRemove_spec {slots : List (Option (K × V))} {X Y : List (K × V)} {v : V}
    {n : ℕ} (hslots : Holds order slots (X ++ (key, v) :: Y)) (hX : ∀ x ∈ X, key ≠ x.1)
    (hn : (X ++ (key, v) :: Y).length = n) :
    ∃ slots', bPlusTreeLeafNodeRemove key slots n = some (some (slots', (X ++ Y).length)) ∧
      Holds order slots'
        (X ++ Y ++ [((key, v) :: Y).getLast (List.cons_ne_nil _ _)]) := by
  subst hn
  have hsearch := bPlusLeafSearch_spec hX (A := []) hslots
  obtain ⟨slots', hshift, hslots'⟩ := hslots.remove
  refine ⟨slots', ?_, by simpa using hslots'⟩
  rw [List.nil_append, List.length_nil] at hsearch
  have hlen : (X ++ (key, v) :: Y).length - 1 = (X ++ Y).length := by
    rw [List.length_append, List.length_append, List.length_cons]
    omega
  have hcount : (X ++ Y).length - X.length = Y.length := by
    rw [List.length_append]
    omega
  rw [bPlusTreeLeafNodeRemove, hsearch, Option.bind_some]
  simp only [hlen, hcount, hshift, Option.map_some]

theorem bPlusTreeLeafNodeRemove_eq_none {slots : List (Option (K × V))} {es : List (K × V)} {n : ℕ}
    (hslots : Holds order slots es) (hes : ∀ e ∈ es, key ≠ e.1) (hn : es.length = n) :
    bPlusTreeLeafNodeRemove key slots n = some none := by
  subst hn
  have hsearch := bPlusLeafSearch_eq_none hes (A := []) hslots
  rw [List.length_nil] at hsearch
  rw [bPlusTreeLeafNodeRemove, hsearch, Option.bind_some]

/-- A leaf has the key, or it does not. -/
theorem exists_entry_or (es : List (K × V)) (key : K) :
    (∀ e ∈ es, key ≠ e.1) ∨ ∃ X v Y, es = X ++ (key, v) :: Y ∧ ∀ x ∈ X, key ≠ x.1 := by
  induction es with
  | nil => exact Or.inl (by simp)
  | cons e es ih =>
    by_cases he : key = e.1
    · exact Or.inr ⟨[], e.2, es, by rw [he]; rfl, by simp⟩
    · rcases ih with hes | ⟨X, v, Y, rfl, hX⟩
      · exact Or.inl (List.forall_mem_cons.mpr ⟨he, hes⟩)
      · exact Or.inr ⟨e :: X, v, Y, rfl, List.forall_mem_cons.mpr ⟨he, hX⟩⟩

end Leaf

/-! ## A leaf and its neighbours -/

section Balance

variable {order : ℕ}

/-- What a leaf with the keys `W`, and `x` in the slot behind them, holds after it has borrowed `e`
from the left. One key too few is shifted: the last one is lost and `x` is in its place. -/
def bPlusBorrowed (W : List (K × V)) (x e : K × V) : List (K × V) :=
  match W with
  | [] => [e]
  | w :: W => e :: ((w :: W).dropLast ++ [x])

@[simp] theorem length_bPlusBorrowed (W : List (K × V)) (x e : K × V) :
    (bPlusBorrowed W x e).length = W.length + 1 := by
  cases W with
  | nil => rfl
  | cons w W => simp [bPlusBorrowed]

theorem bPlusBorrowed_concat (W : List (K × V)) (w x e : K × V) :
    bPlusBorrowed (W ++ [w]) x e = e :: (W ++ [x]) := by
  cases W with
  | nil => rfl
  | cons w' W =>
    have hdrop : (w' :: W ++ [w]).dropLast = w' :: W := List.dropLast_concat
    rw [List.cons_append] at hdrop
    rw [List.cons_append, bPlusBorrowed, hdrop]

/-- If the slot behind has the last key once more, nothing is lost. -/
theorem bPlusBorrowed_eq {W : List (K × V)} {x : K × V} (hx : ∀ w, W.getLast? = some w → w = x)
    (e : K × V) : bPlusBorrowed W x e = e :: W := by
  rcases List.eq_nil_or_concat W with rfl | ⟨W, w, rfl⟩
  · rfl
  · rw [List.concat_eq_append] at hx ⊢
    obtain rfl := hx w (by simp)
    exact bPlusBorrowed_concat W w w e

/-- Borrowing from the left. -/
theorem bPlusBorrowLeft_spec {parent leaf sibling : List (Option (K × V))}
    {SA SB W Z : List (K × V)} {s e x : K × V} (hparent : Holds order parent (SA ++ s :: SB))
    (hleaf : Holds order leaf (W ++ [x])) (hsib : Holds order sibling (Z ++ [e])) :
    ∃ parent' leaf',
      bPlusBorrowLeft parent leaf sibling (SA.length + 1) W.length (Z.length + 1) =
        some (parent', leaf') ∧
      Holds order parent' (SA ++ e :: SB) ∧ Holds order leaf' (bPlusBorrowed W x e) := by
  have hread : read sibling Z.length = some e := hsib.read
  obtain ⟨parent', hwrite, hparent'⟩ := hparent.write e
  obtain ⟨leaf₁, leaf', hshift, hput, hleaf'⟩ : ∃ leaf₁ leaf',
      shiftUp 0 (W.length - 1) leaf = some leaf₁ ∧ write leaf₁ 0 (some e) = some leaf' ∧
      Holds order leaf' (bPlusBorrowed W x e) := by
    rcases List.eq_nil_or_concat W with rfl | ⟨W, w, rfl⟩
    · -- the leaf is empty, and its old key is overwritten
      obtain ⟨leaf', hput, hleaf'⟩ := Holds.write (X := []) hleaf e
      exact ⟨leaf, leaf', rfl, hput, hleaf'⟩
    · rw [List.concat_eq_append] at hleaf ⊢
      obtain ⟨leaf₁, leaf', hshift, hput, hleaf'⟩ :=
        Holds.insert_over (X := []) (Y := W) (y := w) (W := [x]) (by simpa using hleaf) e
      refine ⟨leaf₁, leaf', ?_, hput, by simpa [bPlusBorrowed_concat] using hleaf'⟩
      simpa using hshift
  refine ⟨parent', leaf', ?_, hparent', hleaf'⟩
  simp only [bPlusBorrowLeft, hshift, Option.bind_eq_bind, Option.bind_some, Nat.add_sub_cancel, hread,
    hput, hwrite, Option.pure_def]

theorem bPlusBorrowRight_spec {parent leaf sibling : List (Option (K × V))}
    {SA SB W Z : List (K × V)} {s e f x : K × V} (hparent : Holds order parent (SA ++ s :: SB))
    (hleaf : Holds order leaf (W ++ [x])) (hsib : Holds order sibling (e :: f :: Z)) :
    ∃ parent' leaf' sibling',
      bPlusBorrowRight parent leaf sibling SA.length W.length (Z.length + 2) =
        some (parent', leaf', sibling') ∧
      Holds order parent' (SA ++ f :: SB) ∧ Holds order leaf' (W ++ [e]) ∧
      Holds order sibling' (f :: Z) := by
  have hread₀ : read sibling 0 = some e := hsib.read_of_getElem? rfl
  have hread₁ : read sibling 1 = some f := hsib.read_of_getElem? rfl
  obtain ⟨leaf', hput, hleaf'⟩ := hleaf.write e
  obtain ⟨parent', hwrite, hparent'⟩ := hparent.write f
  obtain ⟨sibling', hshift, hsib'⟩ := Holds.remove (X := []) hsib
  refine ⟨parent', leaf', sibling', ?_, hparent', hleaf', Holds.of_append (X := f :: Z) hsib'⟩
  have hcount : shiftDown 0 (Z.length + 1) sibling = some sibling' := hshift
  simp [bPlusBorrowRight, hread₀, hput, hread₁, hwrite, hcount]

/-- Merging two neighbours. The arrays of the parent close up behind them. -/
theorem bPlusTreeMergeNodes_spec (lid rid : ℕ) (lnext rnext : Option ℕ)
    {slots lslots rslots : List (Option (K × V))}
    {children : List (Option (BPlusNode K V))} {SA SB E F : List (K × V)} {s : K × V}
    {A B : List (BPlusNode K V)} {c d : BPlusNode K V} {n : ℕ}
    (hslots : Holds order slots (SA ++ s :: SB)) (hn : (SA ++ s :: SB).length = n)
    (hchildren : Holds (order + 1) children (A ++ c :: d :: B)) (hA : A.length = SA.length)
    (hB : B.length = SB.length) (hl : Holds order lslots E) (hr : Holds order rslots F)
    (hfit : E.length + F.length ≤ order) :
    ∃ slots' children' lslots',
      bPlusTreeMergeNodes slots n children SA.length (.leaf lid lslots E.length lnext)
        (.leaf rid rslots F.length rnext) = some (.kept (.inner slots' (n - 1) children')) ∧
      Holds order slots' (SA ++ SB) ∧
      Holds (order + 1) children' (A ++ .leaf lid lslots' (E.length + F.length) rnext :: B) ∧
      Holds order lslots' (E ++ F) := by
  obtain ⟨lslots', hcopy, hlslots'⟩ := Holds.copy (X := []) (Y := F) (Z := []) (by simpa using hr) hl hfit
  obtain ⟨children₁, hwrite, hchildren₁⟩ :=
    hchildren.write (.leaf lid lslots' (E.length + F.length) rnext)
  obtain ⟨slots', hshift, hslots'⟩ := hslots.remove
  obtain ⟨children', hshift', hchildren'⟩ := Holds.remove
    (X := A ++ [.leaf lid lslots' (E.length + F.length) rnext]) (x := d) (Y := B)
    (by simpa using hchildren₁)
  rw [List.length_append, List.length_cons] at hn
  have hcount : n - 1 - SA.length = SB.length := by omega
  have hcount' : n - (SA.length + 1) = B.length := by omega
  rw [List.length_append, List.length_singleton, hA] at hshift'
  rw [hA] at hwrite
  refine ⟨slots', children', lslots', ?_, ?_, ?_, hlslots'⟩
  · rw [List.length_nil] at hcopy
    simp [bPlusTreeMergeNodes, hcopy, hwrite, hcount, hshift, hcount', hshift']
  · rw [← List.append_assoc] at hslots'
    exact hslots'.of_append
  · rw [← List.append_assoc] at hchildren'
    simpa using hchildren'.of_append

/-- A node with all its leaves 0 levels down is a leaf. -/
theorem BPlusNode.Shape.eq_leaf {c : BPlusNode K V × List (Tok K V)} (hs : c.1.Shape order 0 c.2) :
    ∃ id slots next es, c = (.leaf id slots es.length next, [.leaf ⟨id, es, next⟩]) ∧
      Holds order slots es := by
  obtain ⟨node, ts⟩ := c
  cases node with
  | inner slots n children => exact hs.elim
  | leaf id slots n next =>
    obtain ⟨es, hslots, hn, hts⟩ := hs
    simp only at hn hts
    exact ⟨id, slots, next, es, by rw [hts, hn], hslots⟩

/-- Two neighbours among the children of a node. -/
theorem BPlusNode.Shape.of_two {h n : ℕ} {slots : List (Option (K × V))}
    {children : List (Option (BPlusNode K V))} {SA SB : List (K × V)} {s : K × V}
    {A B : List (BPlusNode K V × List (Tok K V))} {c d : BPlusNode K V × List (Tok K V)}
    (hslots : Holds order slots (SA ++ s :: SB)) (hn : (SA ++ s :: SB).length = n)
    (hchildren : Holds (order + 1) children (A.map Prod.fst ++ c.1 :: d.1 :: B.map Prod.fst))
    (hA : A.length = SA.length) (hB : B.length = SB.length)
    (hkids : ∀ x ∈ A ++ c :: d :: B, x.1.Shape order h x.2) :
    (BPlusNode.inner slots n children).Shape order (h + 1)
      (weaveL (A.map Prod.snd) (SA.map Prod.fst) ++ (c.2 ++ .sep s.1 :: d.2) ++
        weaveR (SB.map Prod.fst) (B.map Prod.snd)) := by
  have hshape := BPlusNode.Shape.of_child (B := d :: B) hslots hn hchildren hA (by simp [hB]) hkids
  simpa [weaveR] using hshape

/-- All of a list with two neighbours in it. -/
theorem forall_mem_window {α : Type} {p : α → Prop} {A B : List α} {c d : α} (hA : ∀ a ∈ A, p a)
    (hc : p c) (hd : p d) (hB : ∀ b ∈ B, p b) : ∀ x ∈ A ++ c :: d :: B, p x := by
  simp only [List.forall_mem_append, List.forall_mem_cons]
  exact ⟨hA, hc, hd, hB⟩

/-- A leaf with the keys `W`, and `x` in the slot behind them, among the children of its parent. The
arrays of the parent still have the node `old` in its place. -/
structure BPlusDetached (order : ℕ) (slots : List (Option (K × V))) (n : ℕ)
    (children : List (Option (BPlusNode K V))) (SA SB : List (K × V))
    (A B : List (BPlusNode K V × List (Tok K V))) (old : BPlusNode K V)
    (leaf : List (Option (K × V))) (W : List (K × V)) (x : K × V) : Prop where
  slots : Holds order slots (SA ++ SB)
  length : (SA ++ SB).length = n
  children : Holds (order + 1) children (A.map Prod.fst ++ old :: B.map Prod.fst)
  lengthA : A.length = SA.length
  lengthB : B.length = SB.length
  kids : ∀ d ∈ A ++ B, d.1.Shape order 0 d.2
  leaf : Holds order leaf (W ++ [x])

/-- The ways in which `b_plus_tree_adjust_leaf_balance` restores the balance, and what the node reads
then. Nothing is assumed about the order of the keys. -/
inductive BPlusAdjusted (order n id : ℕ) (next : Option ℕ) :
    (SA SB : List (K × V)) → (A B : List (BPlusNode K V × List (Tok K V))) → (W : List (K × V)) →
    (x : K × V) → Option (BPlusRemoved K V) → Prop
  | borrowLeft {SA SB : List (K × V)} {s : K × V} {A B : List (BPlusNode K V × List (Tok K V))}
      {c : BPlusNode K V × List (Tok K V)} {W : List (K × V)} {x : K × V} (cid : ℕ)
      (cnext : Option ℕ) (Z : List (K × V)) (e : K × V) (node' : BPlusNode K V) :
      c.2 = [.leaf ⟨cid, Z ++ [e], cnext⟩] → Z ≠ [] → order / 2 < c.1.numKeys →
      node'.Shape order 1 (weaveL (A.map Prod.snd) (SA.map Prod.fst) ++
        ([.leaf ⟨cid, Z, cnext⟩] ++ .sep e.1 :: [.leaf ⟨id, bPlusBorrowed W x e, next⟩]) ++
          weaveR (SB.map Prod.fst) (B.map Prod.snd)) →
      BPlusAdjusted order n id next (SA ++ [s]) SB (A ++ [c]) B W x (some (.kept node'))
  | borrowRight {SA SB : List (K × V)} {s : K × V} {A B : List (BPlusNode K V × List (Tok K V))}
      {c : BPlusNode K V × List (Tok K V)} {W : List (K × V)} {x : K × V} (cid : ℕ)
      (cnext : Option ℕ) (Z : List (K × V)) (e f : K × V) (node' : BPlusNode K V) :
      c.2 = [.leaf ⟨cid, e :: f :: Z, cnext⟩] →
      node'.Shape order 1 (weaveL (A.map Prod.snd) (SA.map Prod.fst) ++
        ([.leaf ⟨id, W ++ [e], next⟩] ++ .sep f.1 :: [.leaf ⟨cid, f :: Z, cnext⟩]) ++
          weaveR (SB.map Prod.fst) (B.map Prod.snd)) →
      BPlusAdjusted order n id next SA (s :: SB) A (c :: B) W x (some (.kept node'))
  | mergeLeft {SA SB : List (K × V)} {s : K × V} {A B : List (BPlusNode K V × List (Tok K V))}
      {c : BPlusNode K V × List (Tok K V)} {W : List (K × V)} {x : K × V} (cid : ℕ)
      (cnext : Option ℕ) (es : List (K × V)) (node' : BPlusNode K V) :
      c.2 = [.leaf ⟨cid, es, cnext⟩] →
      node'.Shape order 1 (weaveL (A.map Prod.snd) (SA.map Prod.fst) ++
        [.leaf ⟨cid, es ++ W, next⟩] ++ weaveR (SB.map Prod.fst) (B.map Prod.snd)) →
      BPlusAdjusted order n id next (SA ++ [s]) SB (A ++ [c]) B W x (some (.kept node'))
  | mergeRight {SB : List (K × V)} {s : K × V} {B : List (BPlusNode K V × List (Tok K V))}
      {c : BPlusNode K V × List (Tok K V)} {W : List (K × V)} {x : K × V} (cid : ℕ)
      (cnext : Option ℕ) (es : List (K × V)) (node' : BPlusNode K V) :
      c.2 = [.leaf ⟨cid, es, cnext⟩] →
      node'.Shape order 1 ([.leaf ⟨id, W ++ es, cnext⟩] ++
        weaveR (SB.map Prod.fst) (B.map Prod.snd)) →
      BPlusAdjusted order n id next [] (s :: SB) [] (c :: B) W x (some (.kept node'))
  | alone {W : List (K × V)} {x : K × V} (node' : BPlusNode K V) :
      W ≠ [] → node'.Shape order 1 [.leaf ⟨id, W, next⟩] →
      BPlusAdjusted order n id next [] [] [] [] W x (some (.kept node'))
  | gone {x : K × V} : n = 0 → BPlusAdjusted order n id next [] [] [] [] [] x (some .gone)

/-- The leaf whose entry for `key` is gone, among the children of its parent. The slots are those of
after the removal, the arrays of the parent still as before. -/
structure BPlusLeafRemoved (order : ℕ) (key : K) (v : V) (slots : List (Option (K × V))) (n : ℕ)
    (children : List (Option (BPlusNode K V))) (SA SB : List (K × V))
    (A B : List (BPlusNode K V × List (Tok K V))) (old : BPlusNode K V) (id : ℕ)
    (leaf : List (Option (K × V))) (next : Option ℕ) (X Y : List (K × V)) : Prop where
  slots : Holds order slots (SA ++ SB)
  length : (SA ++ SB).length = n
  children : Holds (order + 1) children (A.map Prod.fst ++ old :: B.map Prod.fst)
  lengthA : A.length = SA.length
  lengthB : B.length = SB.length
  kids : ∀ d ∈ A ++ B, d.1.Shape order 0 d.2
  full : ∀ d ∈ A ++ B, ∀ l ∈ leaves d.2, l.entries ≠ []
  leaf : Holds order leaf (X ++ Y ++ [((key, v) :: Y).getLast (List.cons_ne_nil _ _)])

theorem BPlusLeafRemoved.detached {key : K} {v : V} {slots leaf : List (Option (K × V))} {n id : ℕ}
    {children : List (Option (BPlusNode K V))} {SA SB X Y : List (K × V)}
    {A B : List (BPlusNode K V × List (Tok K V))} {old : BPlusNode K V} {next : Option ℕ}
    (hrem : BPlusLeafRemoved order key v slots n children SA SB A B old id leaf next X Y) :
    BPlusDetached order slots n children SA SB A B old leaf (X ++ Y)
      (((key, v) :: Y).getLast (List.cons_ne_nil _ _)) :=
  ⟨hrem.slots, hrem.length, hrem.children, hrem.lengthA, hrem.lengthB, hrem.kids, hrem.leaf⟩

/-- What `b_plus_tree_adjust_leaf_balance` returns: a node from which the entry is gone, or nothing,
when there was no other leaf and no other entry. -/
def BPlusBalanced (order : ℕ) (key : K) (v : V) (ts : List (Tok K V)) (X Y : List (K × V))
    (n : ℕ) (r : Option (BPlusRemoved K V)) : Prop :=
  (r = some .gone ∧ n = 0 ∧ X ++ Y = []) ∨
    ∃ node' ts', r = some (.kept node') ∧ node'.Shape order 1 ts' ∧ Shrink key v ts ts'

section Cases

variable {slots leaf : List (Option (K × V))} {n : ℕ}
  {children : List (Option (BPlusNode K V))} {SA SB W : List (K × V)} {s x : K × V}
  {A B : List (BPlusNode K V × List (Tok K V))} {c : BPlusNode K V × List (Tok K V)}

/-- The sequence around the leaf, with the entry still in it. -/
def bPlusAround (key : K) (v : V) (SA SB : List (K × V)) (A B : List (BPlusNode K V × List (Tok K V)))
    (id : ℕ) (next : Option ℕ) (X Y : List (K × V)) : List (Tok K V) :=
  weaveL (A.map Prod.snd) (SA.map Prod.fst) ++ [.leaf ⟨id, X ++ (key, v) :: Y, next⟩] ++
    weaveR (SB.map Prod.fst) (B.map Prod.snd)

/-- The left neighbour, if there is one, has nothing to spare. -/
def BPlusPoorLeft (order : ℕ) (A : List (BPlusNode K V × List (Tok K V))) : Prop :=
  ∀ c, A.getLast? = some c → c.1.numKeys ≤ order / 2

/-- The right neighbour, if there is one, has nothing to spare. -/
def BPlusPoorRight (order : ℕ) (B : List (BPlusNode K V × List (Tok K V))) : Prop :=
  ∀ c, B.head? = some c → c.1.numKeys ≤ order / 2

theorem bPlusCanBorrow_left {old : BPlusNode K V} (hpoor : BPlusPoorLeft order A)
    (hchildren : Holds (order + 1) children (A.map Prod.fst ++ old :: B.map Prod.fst)) :
    bPlusCanBorrow order children (0 < A.length) (A.length - 1) = some false := by
  rcases List.eq_nil_or_concat A with rfl | ⟨A, c, rfl⟩
  · rfl
  · rw [List.concat_eq_append] at hchildren hpoor ⊢
    have hread : read children A.length = some c.1 := by
      have := Holds.read (X := A.map Prod.fst) (x := c.1) (Y := old :: B.map Prod.fst)
        (by simpa using hchildren)
      rwa [List.length_map] at this
    have hle := not_lt.mpr (hpoor c (by simp))
    simp [bPlusCanBorrow, hread, hle]

theorem bPlusCanBorrow_right {old : BPlusNode K V} (hpoor : BPlusPoorRight order B)
    (hchildren : Holds (order + 1) children (A.map Prod.fst ++ old :: B.map Prod.fst))
    (hn : A.length + B.length = n) :
    bPlusCanBorrow order children (A.length < n) (A.length + 1) = some false := by
  subst hn
  cases B with
  | nil => simp [bPlusCanBorrow]
  | cons c B =>
    have hread : read children (A.length + 1) = some c.1 := by
      have := Holds.read (X := A.map Prod.fst ++ [old]) (x := c.1) (Y := B.map Prod.fst)
        (by simpa using hchildren)
      rwa [List.length_append, List.length_map, List.length_singleton] at this
    have hle := not_lt.mpr (hpoor c (by simp))
    simp [bPlusCanBorrow, hread, hle]

theorem adjust_borrowLeft {old : BPlusNode K V} (hord : 2 ≤ order)
    (hdet : BPlusDetached order slots n children (SA ++ [s]) SB (A ++ [c]) B old leaf W x)
    (hrich : order / 2 < c.1.numKeys) (id : ℕ) (next : Option ℕ) :
    BPlusAdjusted order n id next (SA ++ [s]) SB (A ++ [c]) B W x
      (bPlusTreeAdjustLeafBalance order slots n children (SA.length + 1) id leaf W.length
        next) := by
  obtain ⟨hslots, hn, hchildren, hA, hB, hkids, hleaf⟩ := hdet
  have hrich₀ := hrich
  obtain ⟨cid, cslots, cnext, es, rfl, hc⟩ := (hkids c (by simp)).eq_leaf
  simp only [BPlusNode.numKeys] at hrich
  obtain ⟨Z, e, rfl⟩ : ∃ Z e, es = Z ++ [e] := by
    rcases List.eq_nil_or_concat es with rfl | ⟨Z, e, rfl⟩
    · simp at hrich
    · exact ⟨Z, e, by simp⟩
  rw [List.length_append, List.length_singleton] at hrich
  have hZ : Z ≠ [] := List.ne_nil_of_length_pos (by omega)
  have hA' : A.length = SA.length := by simpa using hA
  have hslots₀ : Holds order slots (SA ++ s :: SB) := by simpa using hslots
  obtain ⟨slots', leaf', hborrow, hslots', hleaf'⟩ := bPlusBorrowLeft_spec hslots₀ hleaf hc
  have hchildren₀ : Holds (order + 1) children
      (A.map Prod.fst ++ .leaf cid cslots (Z.length + 1) cnext :: old :: B.map Prod.fst) := by
    simpa using hchildren
  have hread : read children SA.length = some (.leaf cid cslots (Z.length + 1) cnext) := by
    have := hchildren₀.read
    rwa [List.length_map, hA'] at this
  obtain ⟨children₁, children₂, hwrite₁, hwrite₂, hchildren₂⟩ := hchildren₀.write₂
    (.leaf cid cslots Z.length cnext) (.leaf id leaf' (W.length + 1) next)
  rw [List.length_map, hA'] at hwrite₁ hwrite₂
  have hshape := BPlusNode.Shape.of_two (A := A) (B := B)
    (c := (.leaf cid cslots Z.length cnext, [.leaf ⟨cid, Z, cnext⟩]))
    (d := (.leaf id leaf' (W.length + 1) next, [.leaf ⟨id, bPlusBorrowed W x e, next⟩]))
    hslots' (by simpa using hn) hchildren₂ hA' hB (forall_mem_window
      (fun d hd ↦ hkids d (by simp [hd])) ⟨Z, hc.of_append, rfl, rfl⟩
      ⟨_, hleaf', length_bPlusBorrowed W x e, rfl⟩ fun d hd ↦ hkids d (by simp [hd]))
  have htest : bPlusCanBorrow order children (0 < SA.length + 1) SA.length = some true := by
    simp [bPlusCanBorrow, hread, BPlusNode.numKeys, hrich]
  simp only [bPlusTreeAdjustLeafBalance, Nat.add_sub_cancel, htest, if_true, hread,
    Option.bind_eq_bind, Option.bind_some, hborrow, hwrite₁, hwrite₂, Option.pure_def]
  exact .borrowLeft cid cnext Z e _ rfl hZ hrich₀ hshape

theorem adjust_borrowRight {old : BPlusNode K V} (hord : 2 ≤ order)
    (hdet : BPlusDetached order slots n children SA (s :: SB) A (c :: B) old leaf W x)
    (hpoor : BPlusPoorLeft order A) (hrich : order / 2 < c.1.numKeys) (id : ℕ)
    (next : Option ℕ) :
    BPlusAdjusted order n id next SA (s :: SB) A (c :: B) W x
      (bPlusTreeAdjustLeafBalance order slots n children SA.length id leaf W.length next) := by
  obtain ⟨hslots, hn, hchildren, hA, hB, hkids, hleaf⟩ := hdet
  have htest := bPlusCanBorrow_left hpoor hchildren
  obtain ⟨cid, cslots, cnext, es, rfl, hc⟩ := (hkids c (by simp)).eq_leaf
  simp only [BPlusNode.numKeys] at hrich
  obtain ⟨e, f, Z, rfl⟩ : ∃ e f Z, es = e :: f :: Z := by
    rcases es with _ | ⟨e, _ | ⟨f, Z⟩⟩
    · simp at hrich
    · rw [List.length_singleton] at hrich
      omega
    · exact ⟨e, f, Z, rfl⟩
  have hB' : B.length = SB.length := by simpa using hB
  obtain ⟨slots', leaf', cslots', hborrow, hslots', hleaf', hc'⟩ :=
    bPlusBorrowRight_spec hslots hleaf hc
  rw [List.map_cons] at hchildren
  have hread : read children (SA.length + 1) =
      some (.leaf cid cslots (e :: f :: Z).length cnext) := by
    have := Holds.read (X := A.map Prod.fst ++ [old]) (Y := B.map Prod.fst)
      (x := .leaf cid cslots (e :: f :: Z).length cnext) (by simpa using hchildren)
    rwa [List.length_append, List.length_map, List.length_singleton, hA] at this
  obtain ⟨children₁, children₂, hwrite₁, hwrite₂, hchildren₂⟩ := hchildren.write₂
    (.leaf id leaf' (W.length + 1) next) (.leaf cid cslots' (Z.length + 1) cnext)
  rw [List.length_map, hA] at hwrite₁ hwrite₂
  have hshape := BPlusNode.Shape.of_two (A := A) (B := B)
    (c := (.leaf id leaf' (W.length + 1) next, [.leaf ⟨id, W ++ [e], next⟩]))
    (d := (.leaf cid cslots' (Z.length + 1) cnext, [.leaf ⟨cid, f :: Z, cnext⟩]))
    hslots' (by simpa using hn) hchildren₂ hA hB' (forall_mem_window
      (fun d hd ↦ hkids d (by simp [hd])) ⟨_, hleaf', List.length_append, rfl⟩ ⟨_, hc', rfl, rfl⟩
      fun d hd ↦ hkids d (by simp [hd]))
  have hlt : SA.length < n := by
    rw [List.length_append, List.length_cons] at hn
    omega
  rw [hA] at htest
  have hsucc : Z.length + 2 - 1 = Z.length + 1 := rfl
  have htest' : bPlusCanBorrow order children (SA.length < n) (SA.length + 1) = some true := by
    rw [bPlusCanBorrow, if_pos (decide_eq_true hlt), hread, Option.map_some]
    simp only [BPlusNode.numKeys, hrich, decide_true]
  simp only [bPlusTreeAdjustLeafBalance, htest, htest', Option.bind_eq_bind, Option.bind_some,
    Bool.false_eq_true, if_false, if_true, hread, List.length_cons, hborrow, hwrite₁, hsucc,
    hwrite₂, Option.pure_def]
  exact .borrowRight cid cnext Z e f _ rfl hshape

theorem adjust_mergeLeft {old : BPlusNode K V}
    (hdet : BPlusDetached order slots n children (SA ++ [s]) SB (A ++ [c]) B old leaf W x)
    (hpoor : BPlusPoorLeft order (A ++ [c])) (hpoor' : BPlusPoorRight order B)
    (hsmall : W.length < order / 2) (id : ℕ) (next : Option ℕ) :
    BPlusAdjusted order n id next (SA ++ [s]) SB (A ++ [c]) B W x
      (bPlusTreeAdjustLeafBalance order slots n children (SA.length + 1) id leaf W.length
        next) := by
  obtain ⟨hslots, hn, hchildren, hA, hB, hkids, hleaf⟩ := hdet
  have hA' : A.length = SA.length := by simpa using hA
  have hcount : (A ++ [c]).length + B.length = n := by rw [hA, hB, ← List.length_append, hn]
  have htest := bPlusCanBorrow_left hpoor hchildren
  have htest' := bPlusCanBorrow_right hpoor' hchildren hcount
  have hle := hpoor c (by simp)
  obtain ⟨cid, cslots, cnext, es, rfl, hc⟩ := (hkids c (by simp)).eq_leaf
  simp only [BPlusNode.numKeys] at hle
  have hchildren₀ : Holds (order + 1) children
      (A.map Prod.fst ++ .leaf cid cslots es.length cnext :: old :: B.map Prod.fst) := by
    simpa using hchildren
  have hread : read children SA.length = some (.leaf cid cslots es.length cnext) := by
    have := hchildren₀.read
    rwa [List.length_map, hA'] at this
  have hn' : (SA ++ s :: SB).length = n := by simpa using hn
  obtain ⟨slots', children', cslots', hmerge, hslots', hchildren', hc'⟩ :=
    bPlusTreeMergeNodes_spec cid id cnext next
      (by simpa using hslots) hn' hchildren₀ (by simpa using hA') (by simpa using hB) hc
      hleaf.of_append (by omega)
  have hshape := BPlusNode.Shape.of_child (A := A) (B := B) (n := n - 1)
    (c := (.leaf cid cslots' (es.length + W.length) next, [.leaf ⟨cid, es ++ W, next⟩]))
    hslots' (by simp at hn' ⊢; omega) hchildren' hA' hB
    (List.forall_mem_append.mpr ⟨fun d hd ↦ hkids d (by simp [hd]), List.forall_mem_cons.mpr
      ⟨⟨_, hc', List.length_append, rfl⟩, fun d hd ↦ hkids d (by simp [hd])⟩⟩)
  rw [List.length_append, List.length_singleton, hA'] at htest htest'
  have hpos : 0 < n := by rw [← hn', List.length_append, List.length_cons]; omega
  rw [bPlusTreeAdjustLeafBalance, htest, Option.bind_some, if_neg Bool.false_ne_true, htest',
    Option.bind_some, if_neg Bool.false_ne_true, if_pos hpos, if_pos (Nat.zero_lt_succ _),
    Nat.add_sub_cancel, hread, Option.bind_eq_bind, Option.bind_some, hmerge]
  exact .mergeLeft cid cnext es _ rfl hshape

theorem adjust_mergeRight {old : BPlusNode K V}
    (hdet : BPlusDetached order slots n children [] (s :: SB) [] (c :: B) old leaf W x)
    (hpoor' : BPlusPoorRight order (c :: B)) (hsmall : W.length < order / 2) (id : ℕ)
    (next : Option ℕ) :
    BPlusAdjusted order n id next [] (s :: SB) [] (c :: B) W x
      (bPlusTreeAdjustLeafBalance order slots n children 0 id leaf W.length next) := by
  obtain ⟨hslots, hn, hchildren, hA, hB, hkids, hleaf⟩ := hdet
  have hB' : B.length = SB.length := by simpa using hB
  have htest : bPlusCanBorrow order children (0 < 0) (0 - 1) = some false := rfl
  have htest' := bPlusCanBorrow_right (A := []) hpoor' hchildren
    (by rw [← hn, hB]; simp : _ = n)
  have hle := hpoor' c (by simp)
  obtain ⟨cid, cslots, cnext, es, rfl, hc⟩ := (hkids c (by simp)).eq_leaf
  simp only [BPlusNode.numKeys] at hle
  have hread : read children 1 = some (.leaf cid cslots es.length cnext) :=
    hchildren.read_of_getElem? rfl
  obtain ⟨slots', children', leaf', hmerge, hslots', hchildren', hleaf'⟩ :=
    bPlusTreeMergeNodes_spec id cid next cnext
      hslots hn hchildren hA (by simpa using hB') hleaf.of_append hc (by omega)
  have hshape := BPlusNode.Shape.of_child (A := []) (B := B) (n := n - 1) (h := 0)
    (c := (.leaf id leaf' (W.length + es.length) cnext, [.leaf ⟨id, W ++ es, cnext⟩]))
    hslots' (by simp at hn ⊢; omega) hchildren' hA hB'
    (List.forall_mem_append.mpr ⟨by simp, List.forall_mem_cons.mpr
      ⟨⟨_, hleaf', List.length_append, rfl⟩, fun d hd ↦ hkids d (by simp [hd])⟩⟩)
  have hpos : 0 < n := by rw [← hn, List.nil_append, List.length_cons]; omega
  rw [List.length_nil] at htest' hmerge
  rw [bPlusTreeAdjustLeafBalance, htest, Option.bind_some, if_neg Bool.false_ne_true, htest',
    Option.bind_some, if_neg Bool.false_ne_true, if_pos hpos, if_neg (lt_irrefl 0), Nat.zero_add,
    hread, Option.bind_eq_bind, Option.bind_some, hmerge]
  exact .mergeRight cid cnext es _ rfl (by simpa [weaveL] using hshape)

/-- The leaf has no neighbour. -/
theorem adjust_alone {old : BPlusNode K V}
    (hdet : BPlusDetached order slots n children [] [] [] [] old leaf W x) (id : ℕ)
    (next : Option ℕ) :
    BPlusAdjusted order n id next [] [] [] [] W x
      (bPlusTreeAdjustLeafBalance order slots n children 0 id leaf W.length next) := by
  obtain ⟨hslots, hn, hchildren, hA, hB, hkids, hleaf⟩ := hdet
  obtain rfl : 0 = n := hn
  have htest : bPlusCanBorrow order children (0 < 0) (0 - 1) = some false := rfl
  have htest' : bPlusCanBorrow order children (0 < 0) (0 + 1) = some false := rfl
  obtain ⟨children', hwrite, hchildren'⟩ :=
    Holds.write (X := []) hchildren (.leaf id leaf W.length next)
  rw [List.length_nil] at hwrite
  by_cases hempty : W.length = 0
  · obtain rfl := List.length_eq_zero_iff.mp hempty
    rw [bPlusTreeAdjustLeafBalance, htest, Option.bind_some, if_neg Bool.false_ne_true, htest',
      Option.bind_some, if_neg Bool.false_ne_true, if_neg (lt_irrefl 0), if_pos hempty]
    exact .gone rfl
  · have hshape := BPlusNode.Shape.of_child (A := []) (B := []) (n := 0) (h := 0)
      (c := (.leaf id leaf W.length next, [.leaf ⟨id, W, next⟩])) hslots rfl hchildren' rfl rfl (by
        intro d hd
        obtain rfl := List.mem_singleton.mp hd
        exact ⟨W, hleaf.of_append, rfl, rfl⟩)
    rw [bPlusTreeAdjustLeafBalance, htest, Option.bind_some, if_neg Bool.false_ne_true, htest',
      Option.bind_some, if_neg Bool.false_ne_true, if_neg (lt_irrefl 0), if_neg hempty, hwrite,
      Option.map_some]
    exact .alone _ (List.ne_nil_of_length_pos (Nat.pos_of_ne_zero hempty))
      (by simpa [weaveL, weaveR] using hshape)

/-- **What `b_plus_tree_adjust_leaf_balance` does.** The four ways to restore the balance, and the
case that there is no neighbour. -/
theorem bPlusTreeAdjustLeafBalance_adjusted {old : BPlusNode K V} (hord : 2 ≤ order)
    (hdet : BPlusDetached order slots n children SA SB A B old leaf W x)
    (hsmall : W.length < order / 2) (id : ℕ) (next : Option ℕ) :
    BPlusAdjusted order n id next SA SB A B W x
      (bPlusTreeAdjustLeafBalance order slots n children SA.length id leaf W.length next) := by
  have hA := hdet.lengthA
  have hB := hdet.lengthB
  by_cases hleft : BPlusPoorLeft order A
  · by_cases hright : BPlusPoorRight order B
    · rcases List.eq_nil_or_concat SA with rfl | ⟨SA, s, rfl⟩
      · obtain rfl := List.length_eq_zero_iff.mp hA
        cases SB with
        | nil =>
          obtain rfl := List.length_eq_zero_iff.mp hB
          exact adjust_alone hdet id next
        | cons s SB =>
          obtain ⟨c, B, rfl⟩ := List.exists_cons_of_length_eq_add_one hB
          exact adjust_mergeRight hdet hright hsmall id next
      · rw [List.concat_eq_append] at hdet hA ⊢
        rcases List.eq_nil_or_concat A with rfl | ⟨A, c, rfl⟩
        · simp at hA
        · rw [List.concat_eq_append] at hdet hleft ⊢
          rw [List.length_append, List.length_singleton]
          exact adjust_mergeLeft hdet hleft hright hsmall id next
    · simp only [BPlusPoorRight, not_forall, not_le] at hright
      obtain ⟨c, hc, hrich⟩ := hright
      obtain ⟨B, rfl⟩ := List.head?_eq_some_iff.mp hc
      obtain ⟨s, SB, rfl⟩ := List.exists_cons_of_length_eq_add_one hB.symm
      exact adjust_borrowRight hord hdet hleft hrich id next
  · simp only [BPlusPoorLeft, not_forall, not_le] at hleft
    obtain ⟨c, hc, hrich⟩ := hleft
    obtain ⟨A, rfl⟩ := List.getLast?_eq_some_iff.mp hc
    rcases List.eq_nil_or_concat SA with rfl | ⟨SA, s, rfl⟩
    · simp at hA
    · rw [List.concat_eq_append] at hdet ⊢
      rw [List.length_append, List.length_singleton]
      exact adjust_borrowLeft hord hdet hrich id next

/-- The slot behind the leaf has its last key once more, unless that is the key that was removed. -/
theorem bPlusBorrowed_getLast {key : K} {v : V} {X Y : List (K × V)} (hsafe : Y = [] → X = [])
    (e : K × V) :
    bPlusBorrowed (X ++ Y) (((key, v) :: Y).getLast (List.cons_ne_nil _ _)) e = e :: (X ++ Y) := by
  refine bPlusBorrowed_eq (fun w hw ↦ ?_) e
  rcases List.eq_nil_or_concat Y with rfl | ⟨Y, y, rfl⟩
  · rw [hsafe rfl] at hw
    simp at hw
  · rw [List.concat_eq_append, ← List.append_assoc, List.getLast?_concat, Option.some.injEq] at hw
    simp [hw]

/-- **Restoring the balance after a removal**, on the sequence of leaves. -/
theorem bPlusTreeAdjustLeafBalance_spec {key : K} {v : V} {X Y : List (K × V)} {id : ℕ}
    {next : Option ℕ} {old : BPlusNode K V} (hord : 2 ≤ order)
    (hrem : BPlusLeafRemoved order key v slots n children SA SB A B old id leaf next X Y)
    (hsmall : (X ++ Y).length < order / 2)
    (hsafe : ∀ c, A.getLast? = some c → order / 2 < c.1.numKeys → Y = [] → X = []) :
    BPlusBalanced order key v (bPlusAround key v SA SB A B id next X Y) X Y n
      (bPlusTreeAdjustLeafBalance order slots n children SA.length id leaf (X ++ Y).length
        next) := by
  have hadj := bPlusTreeAdjustLeafBalance_adjusted hord hrem.detached hsmall id next
  have hA := hrem.lengthA
  have hfull := hrem.full
  generalize bPlusTreeAdjustLeafBalance order slots n children SA.length id leaf (X ++ Y).length
    next = r at hadj
  generalize hW : X ++ Y = W at hadj
  generalize hx : ((key, v) :: Y).getLast (List.cons_ne_nil _ _) = x at hadj
  cases hadj with
  | @borrowLeft SA _ s A _ c _ _ cid cnext Z e node' hc hZ hrich hshape =>
    have hA' : A.length = SA.length := by simpa using hA
    rw [← hx, ← hW, bPlusBorrowed_getLast (hsafe c (by simp) hrich)] at hshape
    have := Shrink.borrowLeft (weaveL (A.map Prod.snd) (SA.map Prod.fst))
      (weaveR (SB.map Prod.fst) (B.map Prod.snd)) ⟨cid, Z ++ [e], cnext⟩
      ⟨id, X ++ (key, v) :: Y, next⟩ s.1 X Y Z e rfl rfl hZ
    refine Or.inr ⟨node', _, rfl, hshape, ?_⟩
    rw [bPlusAround, List.map_append, List.map_append, List.map_singleton, List.map_singleton,
      weaveL_concat _ _ (by simpa using hA'), hc]
    simpa using this
  | @borrowRight _ SB s _ B c _ _ cid cnext Z e f node' hc hshape =>
    have := Shrink.borrowRight (weaveL (A.map Prod.snd) (SA.map Prod.fst))
      (weaveR (SB.map Prod.fst) (B.map Prod.snd)) ⟨id, X ++ (key, v) :: Y, next⟩
      ⟨cid, e :: f :: Z, cnext⟩ s.1 X Y Z e f rfl rfl
    refine Or.inr ⟨node', _, rfl, hshape, ?_⟩
    rw [bPlusAround, ← hW]
    simpa [weaveR, hc] using this
  | @mergeLeft SA _ s A _ c _ _ cid cnext es node' hc hshape =>
    have hA' : A.length = SA.length := by simpa using hA
    have hes : es ≠ [] := hfull c (by simp) ⟨cid, es, cnext⟩ (by simp [hc])
    have := Shrink.mergeLeft (weaveL (A.map Prod.snd) (SA.map Prod.fst))
      (weaveR (SB.map Prod.fst) (B.map Prod.snd)) ⟨cid, es, cnext⟩
      ⟨id, X ++ (key, v) :: Y, next⟩ s.1 X Y rfl hes
    refine Or.inr ⟨node', _, rfl, hshape, ?_⟩
    rw [bPlusAround, List.map_append, List.map_append, List.map_singleton, List.map_singleton,
      weaveL_concat _ _ (by simpa using hA'), hc, ← hW]
    simpa using this
  | @mergeRight SB s B c _ _ cid cnext es node' hc hshape =>
    have hes : es ≠ [] := hfull c (by simp) ⟨cid, es, cnext⟩ (by simp [hc])
    have := Shrink.mergeRight [] (weaveR (SB.map Prod.fst) (B.map Prod.snd))
      ⟨id, X ++ (key, v) :: Y, next⟩ ⟨cid, es, cnext⟩ s.1 X Y rfl hes
    refine Or.inr ⟨node', _, rfl, hshape, ?_⟩
    rw [bPlusAround, ← hW]
    simpa [weaveR, weaveL, hc] using this
  | alone node' hne hshape =>
    have := Shrink.entry [] [] ⟨id, X ++ (key, v) :: Y, next⟩ X Y rfl (hW ▸ hne)
    refine Or.inr ⟨node', _, rfl, hshape, ?_⟩
    rw [bPlusAround, ← hW]
    simpa [weaveL, weaveR] using this
  | gone hn => exact Or.inl ⟨rfl, hn, hW⟩

end Cases

end Balance

/-! ## A subtree -/

section Subtree

variable [LinearOrder K]

/-- Removing `key` takes neither of the two wrong branches: it does not fill up a leaf from the left
after its last key is gone, and it takes an internal node out of its parent only from the last place or
the last but one. -/
def bPlusRemoveSafe (order : ℕ) (key : K) : (fuel : ℕ) → BPlusNode K V → Bool
  | fuel + 1, .inner slots n children =>
    match bPlusDescend key slots n with
    | none => true
    | some i => match read children i with
      | none => true
      | some (.leaf _ leaf leafKeys _) =>
        !(decide (0 < i) && (read children (i - 1)).any (fun c ↦ order / 2 < c.numKeys) &&
          decide (2 ≤ leafKeys) && decide (leafKeys ≤ order / 2) &&
          (read leaf (leafKeys - 1)).any fun kv ↦ kv.1 = key)
      | some (.inner cslots cn cchildren) =>
        bPlusRemoveSafe order key fuel (.inner cslots cn cchildren) &&
          !(decide (i + 2 ≤ n) &&
            decide (((BPlusNode.inner cslots cn cchildren).pairs fuel).map Prod.fst = [key]))
  | _, _ => true

/-- What `b_plus_tree_remove` does below an internal node. -/
inductive BPlusRemoveOk (order h : ℕ) (key : K) (ts : List (Tok K V)) :
    Option (BPlusRemoved K V) → Prop
  | notFound (P Q : List (Tok K V)) (l : Leaf K V) : ts = P ++ .leaf l :: Q → Located key P Q →
      (∀ e ∈ l.entries, key ≠ e.1) → BPlusRemoveOk order h key ts (some .notFound)
  | gone (l : Leaf K V) (v : V) : ts = [.leaf l] → l.entries = [(key, v)] →
      BPlusRemoveOk order h key ts (some .gone)
  | kept (v : V) (node' : BPlusNode K V) (ts' : List (Tok K V)) :
      node'.Shape order (h + 1) ts' → Shrink key v ts ts' →
      BPlusRemoveOk order h key ts (some (.kept node'))
  | dropped (v : V) (slots : List (Option (K × V))) (n : ℕ)
      (children : List (Option (BPlusNode K V))) (ts' : List (Tok K V)) :
      (BPlusNode.inner slots n children).Shape order (h + 1) ts' → Shrink key v ts ts' →
      BPlusRemoveOk order h key ts (some (.dropped slots n children))

section Cases

variable {order : ℕ} {key : K} {h n : ℕ} {slots : List (Option (K × V))}
  {children : List (Option (BPlusNode K V))} {SA SB : List (K × V)}
  {A B : List (BPlusNode K V × List (Tok K V))} {c : BPlusNode K V × List (Tok K V)}

/-- An internal node and the child in which to look for the key. -/
structure BPlusCut (order h : ℕ) (key : K) (slots : List (Option (K × V))) (n : ℕ)
    (children : List (Option (BPlusNode K V))) (SA SB : List (K × V))
    (A B : List (BPlusNode K V × List (Tok K V))) (c : BPlusNode K V × List (Tok K V)) : Prop where
  slots : Holds order slots (SA ++ SB)
  length : (SA ++ SB).length = n
  children : Holds (order + 1) children (A.map Prod.fst ++ c.1 :: B.map Prod.fst)
  lengthA : A.length = SA.length
  lengthB : B.length = SB.length
  kids : ∀ d ∈ A ++ c :: B, d.1.Shape order h d.2
  weakA : Weak (weaveL (A.map Prod.snd) (SA.map Prod.fst))
  weakB : Weak (weaveR (SB.map Prod.fst) (B.map Prod.snd))
  below : ∀ s ∈ SA, s.1 ≤ key
  above : ∀ s ∈ SB, key < s.1

/-- The sequence of a node, cut at a child. -/
def bPlusCutToks (SA SB : List (K × V)) (A B : List (BPlusNode K V × List (Tok K V)))
    (tc : List (Tok K V)) : List (Tok K V) :=
  weaveL (A.map Prod.snd) (SA.map Prod.fst) ++ tc ++ weaveR (SB.map Prod.fst) (B.map Prod.snd)

theorem BPlusNode.Shape.exists_cut {ts : List (Tok K V)}
    (hs : (BPlusNode.inner slots n children).Shape order (h + 1) ts) (hw : Weak ts) (key : K) :
    ∃ SA SB A B c, BPlusCut order h key slots n children SA SB A B c ∧
      ts = bPlusCutToks SA SB A B c.2 := by
  obtain ⟨SA, SB, A, B, c, hslots, hn, hchildren, hA, hB, hkids, rfl, hSA, hSB⟩ :=
    hs.exists_child hw key
  obtain ⟨hwA, -, hwB⟩ := weak_append₃ hw
  exact ⟨SA, SB, A, B, c, ⟨hslots, hn, hchildren, hA, hB, hkids, hwA, hwB, hSA, hSB⟩, rfl⟩

namespace BPlusCut

variable (hcut : BPlusCut order h key slots n children SA SB A B c)

include hcut

theorem aimed : BPlusAimed order h key slots n children SA SB A B c :=
  ⟨hcut.slots, hcut.length, hcut.children, hcut.lengthA, hcut.lengthB, hcut.kids,
    fun s hs ↦ hcut.below s (List.mem_of_getLast? hs), hcut.above⟩

theorem descend : bPlusDescend key slots n = some SA.length :=
  hcut.aimed.descend

theorem read_child : read children SA.length = some c.1 :=
  hcut.aimed.read_child

theorem located {P Q : List (Tok K V)} (hloc : Located key P Q) :
    Located key (weaveL (A.map Prod.snd) (SA.map Prod.fst) ++ P)
      (Q ++ weaveR (SB.map Prod.fst) (B.map Prod.snd)) := by
  refine hloc.weave (by simpa using hcut.lengthA) (by simpa using hcut.lengthB) hcut.weakA
    hcut.weakB (fun s hs ↦ ?_) fun s hs ↦ ?_
  · obtain ⟨e, he, rfl⟩ := List.mem_map.mp hs
    exact hcut.below e he
  · obtain ⟨e, he, rfl⟩ := List.mem_map.mp hs
    exact hcut.above e he

theorem toks_eq : bPlusCutToks SA SB A B c.2 =
    weave ((A ++ c :: B).map Prod.snd) ((SA ++ SB).map Prod.fst) := by
  rw [List.map_append, List.map_append, List.map_cons, weave_mid _ (by simpa using hcut.lengthA)]
  rfl

/-- Exchanging the child for one that reads something else. -/
theorem exchange {c' : BPlusNode K V} {tc' : List (Tok K V)} (hc' : c'.Shape order h tc') :
    ∃ children', write children SA.length (some c') = some children' ∧
      (BPlusNode.inner slots n children').Shape order (h + 1) (bPlusCutToks SA SB A B tc') :=
  hcut.aimed.exchange hc'

end BPlusCut

/-- The safety condition rules out the one bad case of borrowing from the left. -/
theorem safe_borrowLeft {id : ℕ} {leaf : List (Option (K × V))} {next : Option ℕ} {v : V}
    {X Y : List (K × V)} {fuel : ℕ} (hcut : BPlusCut order 0 key slots n children SA SB A B c)
    (hc : c.1 = .leaf id leaf (X ++ (key, v) :: Y).length next)
    (hleaf : Holds order leaf (X ++ (key, v) :: Y))
    (hsafe : bPlusRemoveSafe order key (fuel + 1) (.inner slots n children) = true)
    (hsmall : (X ++ Y).length < order / 2) :
    ∀ d, A.getLast? = some d → order / 2 < d.1.numKeys → Y = [] → X = [] := by
  rintro d hd hrich rfl
  obtain ⟨A, rfl⟩ := List.getLast?_eq_some_iff.mp hd
  by_contra hX
  have hread : read children A.length = some d.1 := by
    have := Holds.read (X := A.map Prod.fst) (x := d.1) (Y := c.1 :: B.map Prod.fst)
      (by simpa using hcut.children)
    rwa [List.length_map] at this
  have hlen : SA.length = A.length + 1 := by
    rw [← hcut.lengthA, List.length_append, List.length_singleton]
  have hlast : read leaf X.length = some (key, v) := hleaf.read
  have hX' : 0 < X.length := List.length_pos_of_ne_nil hX
  have hread' := hcut.read_child
  rw [List.append_nil] at hsmall
  rw [hlen, hc] at hread'
  rw [bPlusRemoveSafe, hcut.descend] at hsafe
  simp only [hlen, hread', hread, List.length_append, List.length_cons, List.length_nil,
    Nat.add_sub_cancel, Nat.zero_add, Nat.zero_lt_succ, decide_true, Option.any_some, hrich,
    hlast, Bool.and_true, Bool.true_and, Bool.not_eq_true', Bool.and_eq_false_iff,
    decide_eq_false_iff_not] at hsafe
  omega

/-- The key is looked for in a leaf right below. -/
theorem removeNode_leafChild (hord : 2 ≤ order)
    (hcut : BPlusCut order 0 key slots n children SA SB A B c)
    (hfull : ∀ d ∈ A ++ c :: B, ∀ l ∈ leaves d.2, l.entries ≠ [])
    (hsafe : bPlusRemoveSafe order key 1 (.inner slots n children) = true) :
    BPlusRemoveOk order 0 key (bPlusCutToks SA SB A B c.2)
      (bPlusTreeRemoveNode order key 1 (.inner slots n children)) := by
  obtain ⟨id, leaf, next, es, hc, hleaf⟩ := (hcut.kids c (by simp)).eq_leaf
  have hread := hcut.read_child
  rw [hc] at hread
  rcases exists_entry_or es key with hes | ⟨X, v, Y, rfl, hX⟩
  · have hnone := bPlusTreeLeafNodeRemove_eq_none hleaf hes rfl
    simp only [bPlusTreeRemoveNode, hcut.descend, Option.bind_eq_bind, Option.bind_some, hread,
      hnone, Option.pure_def]
    refine .notFound _ _ ⟨id, es, next⟩ ?_ (hcut.located (located_nil key)) hes
    rw [bPlusCutToks, hc]
    simp
  · obtain ⟨leaf', hremove, hleaf'⟩ := bPlusTreeLeafNodeRemove_spec hleaf hX rfl
    simp only [bPlusTreeRemoveNode, hcut.descend, Option.bind_eq_bind, Option.bind_some, hread,
      hremove, Option.pure_def]
    split_ifs with hsmall
    · have hmem : ∀ d ∈ A ++ B, d ∈ A ++ c :: B :=
        fun d hd ↦ ((List.sublist_cons_self c B).append_left A).subset hd
      have hrem : BPlusLeafRemoved order key v slots n children SA SB A B c.1 id leaf' next X Y :=
        ⟨hcut.slots, hcut.length, hcut.children, hcut.lengthA, hcut.lengthB,
          fun d hd ↦ hcut.kids d (hmem d hd), fun d hd ↦ hfull d (hmem d hd), hleaf'⟩
      have hts : bPlusCutToks SA SB A B c.2 = bPlusAround key v SA SB A B id next X Y := by
        rw [hc]
        rfl
      rw [hts]
      rcases bPlusTreeAdjustLeafBalance_spec hord hrem hsmall
        (safe_borrowLeft hcut (by rw [hc]) hleaf hsafe hsmall) with
        ⟨hgone, rfl, hXY⟩ | ⟨node', ts', hkept, hshape, hshrink⟩
      · rw [hgone]
        obtain ⟨rfl, rfl⟩ := List.append_eq_nil_iff.mp hXY
        obtain ⟨hSA, hSB⟩ := List.append_eq_nil_iff.mp (List.length_eq_zero_iff.mp hcut.length)
        have hA : A = [] := List.length_eq_zero_iff.mp (by rw [hcut.lengthA, hSA]; rfl)
        have hB : B = [] := List.length_eq_zero_iff.mp (by rw [hcut.lengthB, hSB]; rfl)
        refine .gone ⟨id, [(key, v)], next⟩ v ?_ rfl
        rw [bPlusAround, hSA, hSB, hA, hB]
        rfl
      · rw [hkept]
        exact .kept v node' ts' hshape hshrink
    · have hne : X ++ Y ≠ [] := List.ne_nil_of_length_pos (by omega)
      have hc' : (BPlusNode.leaf id leaf' (X ++ Y).length next).Shape order 0 _ :=
        ⟨X ++ Y, hleaf'.of_append, rfl, rfl⟩
      obtain ⟨children', hwrite, hshape⟩ := hcut.exchange hc'
      rw [hwrite, Option.bind_some]
      refine .kept v _ _ hshape ?_
      rw [hc]
      exact (Shrink.entry [] [] ⟨id, X ++ (key, v) :: Y, next⟩ X Y rfl hne).context _ _

/-- Taking out the last child, or the last but one. -/
theorem exists_dropped {l : Leaf K V} {v : V}
    (hcut : BPlusCut order h key slots n children SA SB A B c) (hts : c.2 = [.leaf l])
    (hl : l.entries = [(key, v)]) (hn : n ≠ 0) (hlast : n < SA.length + 2) :
    ∃ children' ts', shiftDown SA.length (n - SA.length) children = some children' ∧
      (BPlusNode.inner slots (n - 1) children').Shape order (h + 1) ts' ∧
      Shrink key v (bPlusCutToks SA SB A B c.2) ts' := by
  have hlen := hcut.length
  rw [List.length_append] at hlen
  obtain ⟨children', hshift, hchildren'⟩ := hcut.children.remove
  have hcount : n - SA.length = (B.map Prod.fst).length := by
    rw [List.length_map, hcut.lengthB]
    omega
  rw [List.length_map, hcut.lengthA, ← hcount] at hshift
  rw [← List.append_assoc] at hchildren'
  have hkids : ∀ d ∈ A ++ B, d.1.Shape order h d.2 := fun d hd ↦
    hcut.kids d (((List.sublist_cons_self c B).append_left A).subset hd)
  have hslots := hcut.slots
  cases SB with
  | nil =>
    -- the last child goes, with the separator before it
    have hB : B = [] := List.length_eq_zero_iff.mp hcut.lengthB
    have hA := hcut.lengthA
    rcases List.eq_nil_or_concat SA with rfl | ⟨SA, s, rfl⟩
    · simp at hlen
      omega
    rw [List.concat_eq_append] at *
    rcases List.eq_nil_or_concat A with rfl | ⟨A, a, rfl⟩
    · simp at hA
    rw [List.concat_eq_append] at *
    subst hB
    have hA' : A.length = SA.length := by simpa using hA
    have hslots₁ : Holds order slots (SA ++ []) := by simpa using hslots.of_append.of_append
    have hchildren₁ : Holds (order + 1) children' (A.map Prod.fst ++ a.1 :: []) := by
      simpa using hchildren'.of_append
    have hshape := BPlusNode.Shape.of_child (n := n - 1) (A := A) (B := []) (c := a) hslots₁
      (by simp at hlen ⊢; omega) hchildren₁ hA' rfl (by simpa using hkids)
    refine ⟨children', _, hshift, hshape, ?_⟩
    have := Shrink.dropRight (weaveL (A.map Prod.snd) (SA.map Prod.fst) ++ a.2) [] l s.1 hl
    rw [bPlusCutToks, List.map_append, List.map_append, List.map_singleton, List.map_singleton,
      weaveL_concat _ _ (by simpa using hA'), hts]
    simpa [weaveR] using this
  | cons s SB =>
    -- the last but one goes, with the separator behind it
    obtain rfl : SB = [] := List.length_eq_zero_iff.mp (by rw [List.length_cons] at hlen; omega)
    obtain ⟨b, B', rfl⟩ := List.exists_cons_of_length_eq_add_one hcut.lengthB
    obtain rfl : B' = [] := List.length_eq_zero_iff.mp (by simpa using hcut.lengthB)
    have hslots₁ : Holds order slots (SA ++ []) := by simpa using hslots.of_append
    have hchildren₁ : Holds (order + 1) children' (A.map Prod.fst ++ b.1 :: []) := by
      simpa using hchildren'.of_append
    have hshape := BPlusNode.Shape.of_child (n := n - 1) (A := A) (B := []) (c := b) hslots₁
      (by simp at hlen ⊢; omega) hchildren₁ hcut.lengthA rfl (by simpa using hkids)
    refine ⟨children', _, hshift, hshape, ?_⟩
    have := Shrink.dropLeft (weaveL (A.map Prod.snd) (SA.map Prod.fst)) b.2 l s.1 hl
    rw [bPlusCutToks, hts]
    simpa [weaveR] using this

/-- What the return from the recursion does with the result for the child. -/
theorem removeNode_innerChild {cslots : List (Option (K × V))} {cn : ℕ}
    {cchildren : List (Option (BPlusNode K V))}
    (hcut : BPlusCut order (h + 1) key slots n children SA SB A B c)
    (hc : c.1 = .inner cslots cn cchildren)
    (hsafe : bPlusRemoveSafe order key (h + 2) (.inner slots n children) = true)
    (hok : BPlusRemoveOk order h key c.2 (bPlusTreeRemoveNode order key (h + 1) c.1)) :
    BPlusRemoveOk order (h + 1) key (bPlusCutToks SA SB A B c.2)
      (bPlusTreeRemoveNode order key (h + 2) (.inner slots n children)) := by
  have hread := hcut.read_child
  rw [hc] at hread hok
  rw [bPlusTreeRemoveNode]
  simp only [hcut.descend, Option.bind_eq_bind, Option.bind_some, hread]
  generalize hr : bPlusTreeRemoveNode order key (h + 1) (.inner cslots cn cchildren) = r at hok
  cases hok with
  | notFound P Q l hts hloc hl =>
    refine .notFound _ _ l ?_ (hcut.located hloc) hl
    rw [bPlusCutToks, hts]
    simp
  | kept v node' ts' hshape hshrink =>
    obtain ⟨children', hwrite, hshape'⟩ := hcut.exchange hshape
    simp only [Option.bind_some, hwrite, Option.pure_def]
    exact .kept v _ _ hshape' (hshrink.context _ _)
  | dropped v slots' n' children₁ ts' hshape hshrink =>
    obtain ⟨children', hwrite, hshape'⟩ := hcut.exchange hshape
    simp only [Option.bind_some, hwrite, Option.pure_def]
    exact .kept v _ _ hshape' (hshrink.context _ _)
  | gone l v hts hl =>
    have hlen := hcut.length
    split_ifs with hn
    · -- this node has no other child either
      subst hn
      obtain ⟨hSA, hSB⟩ := List.append_eq_nil_iff.mp (List.length_eq_zero_iff.mp hlen)
      have hA : A = [] := List.length_eq_zero_iff.mp (by rw [hcut.lengthA, hSA]; rfl)
      have hB : B = [] := List.length_eq_zero_iff.mp (by rw [hcut.lengthB, hSB]; rfl)
      refine .gone l v ?_ hl
      rw [bPlusCutToks, hSA, hSB, hA, hB, hts]
      rfl
    · -- by the safety condition there is at most one child to the right
      have hpairs : (BPlusNode.inner cslots cn cchildren).pairs (h + 1) = [(key, v)] := by
        have := (hcut.kids c (by simp)).pairs_eq
        rw [hc, hts] at this
        simpa [hl] using this
      have hlast : n < SA.length + 2 := by
        rw [bPlusRemoveSafe, hcut.descend] at hsafe
        simp only [hread, hpairs, List.map_cons, List.map_nil, decide_true, Bool.and_true,
          Bool.and_eq_true, Bool.not_eq_true', decide_eq_false_iff_not] at hsafe
        omega
      obtain ⟨children', ts', hrun, hshape, hshrink⟩ := exists_dropped hcut hts hl hn hlast
      simp only [Option.bind_some, hrun, Option.pure_def]
      exact .dropped v _ _ _ _ hshape hshrink

end Cases

/-- **Removal below an internal node.** -/
theorem bPlusTreeRemoveNode_spec {order : ℕ} (hord : 2 ≤ order) (key : K) :
    ∀ {h : ℕ} {node : BPlusNode K V} {ts : List (Tok K V)}, node.Shape order (h + 1) ts → Weak ts →
    (∀ l ∈ leaves ts, l.entries ≠ []) → bPlusRemoveSafe order key (h + 1) node = true →
    BPlusRemoveOk order h key ts (bPlusTreeRemoveNode order key (h + 1) node) := by
  intro h
  induction h with
  | zero =>
    intro node ts hs hw hfull hsafe
    cases node with
    | leaf id slots n next => exact hs.elim
    | inner slots n children =>
      obtain ⟨SA, SB, A, B, c, hcut, rfl⟩ := hs.exists_cut hw key
      refine removeNode_leafChild hord hcut (fun d hd l hl ↦ hfull l ?_) hsafe
      have hlen : ((A ++ c :: B).map Prod.snd).length = ((SA ++ SB).map Prod.fst).length + 1 := by
        simp only [List.length_map, List.length_append, List.length_cons, hcut.lengthA,
          hcut.lengthB]
        omega
      rw [hcut.toks_eq, leaves_weave hlen]
      exact List.mem_flatMap.mpr ⟨d.2, List.mem_map_of_mem hd, hl⟩
  | succ h ih =>
    intro node ts hs hw hfull hsafe
    cases node with
    | leaf id slots n next => exact hs.elim
    | inner slots n children =>
      obtain ⟨SA, SB, A, B, c, hcut, rfl⟩ := hs.exists_cut hw key
      obtain ⟨cslots, cn, cchildren, hc⟩ : ∃ s m cs, c.1 = .inner s m cs := by
        have hshape := hcut.kids c (by simp)
        cases hc : c.1 with
        | leaf id slots n next =>
          rw [hc] at hshape
          exact hshape.elim
        | inner s m cs => exact ⟨s, m, cs, rfl⟩
      have hsafe' : bPlusRemoveSafe order key (h + 1) c.1 = true := by
        have hread := hcut.read_child
        rw [hc] at hread
        rw [bPlusRemoveSafe, hcut.descend] at hsafe
        simp only [hread, Bool.and_eq_true] at hsafe
        rw [hc]
        exact hsafe.1
      refine removeNode_innerChild hcut hc hsafe (ih (hcut.kids c (by simp)) ?_ ?_ hsafe')
      · exact (weak_append₃ hw).2.1
      · intro l hl
        refine hfull l ?_
        rw [bPlusCutToks, leaves_append, leaves_append]
        exact List.mem_append_left _ (List.mem_append_right _ hl)

end Subtree

end LatteC
