import LatteC.Foundation.SortedAssoc

/-!
# Leaves and separators in order

Reading a B+ tree from left to right, leaves alternate with the separators between them. This
file works with that sequence alone: no levels, no fan-out. An internal node that splits does not
change it, so what an operation does to a tree of any height is one local change of the sequence.

The order conditions are stated on `marks`, the keys and separators in sequence. There are two strict
ones: a separator may be the first key to its right (`Before false`) or the last key to its left
(`Before true`).
-/

namespace LeafSeq

open SortedAssoc

/-- A leaf, with the identity of the leaf it is chained to. -/
structure Leaf (K V : Type*) where
  id : ℕ
  entries : List (K × V)
  next : Option ℕ

/-- A leaf or a separator. -/
inductive Tok (K V : Type*) where
  | leaf (l : Leaf K V)
  | sep (s : K)

/-- A key or a separator. -/
inductive Mark (K : Type*) where
  | key (k : K)
  | sep (s : K)

variable {K V : Type*}

/-- The key of a mark. -/
def Mark.val : Mark K → K
  | key k => k
  | sep s => s

/-- The keys of a list of entries, as marks. -/
def keyMarks (es : List (K × V)) : List (Mark K) := es.map fun e ↦ .key e.1

/-- The marks of one token. -/
def Tok.marks : Tok K V → List (Mark K)
  | leaf l => keyMarks l.entries
  | sep s => [.sep s]

/-- All keys and separators in sequence. -/
def marks (ts : List (Tok K V)) : List (Mark K) := ts.flatMap Tok.marks

/-- All leaves in sequence. -/
def leaves (ts : List (Tok K V)) : List (Leaf K V) :=
  ts.filterMap fun t ↦ match t with
    | .leaf l => some l
    | .sep _ => none

/-- All entries in sequence. -/
def entries (ts : List (Tok K V)) : List (K × V) := (leaves ts).flatMap Leaf.entries

section Append

variable (A B : List (Tok K V)) (l : Leaf K V) (s : K)

@[simp] theorem marks_nil : marks ([] : List (Tok K V)) = [] := rfl

@[simp] theorem marks_append : marks (A ++ B) = marks A ++ marks B := List.flatMap_append

@[simp] theorem marks_cons_leaf : marks (.leaf l :: B) = keyMarks l.entries ++ marks B :=
  List.flatMap_cons

@[simp] theorem marks_cons_sep : marks (.sep s :: B) = .sep s :: marks B := List.flatMap_cons

@[simp] theorem leaves_nil : leaves ([] : List (Tok K V)) = [] := rfl

@[simp] theorem leaves_append : leaves (A ++ B) = leaves A ++ leaves B := List.filterMap_append

@[simp] theorem leaves_cons_leaf : leaves (.leaf l :: B) = l :: leaves B := rfl

@[simp] theorem leaves_cons_sep : leaves (.sep s :: B) = leaves B := rfl

@[simp] theorem entries_nil : entries ([] : List (Tok K V)) = [] := rfl

@[simp] theorem entries_append : entries (A ++ B) = entries A ++ entries B := by
  rw [entries, leaves_append, List.flatMap_append]
  rfl

@[simp] theorem entries_cons_leaf : entries (.leaf l :: B) = l.entries ++ entries B := by
  rw [entries, leaves_cons_leaf, List.flatMap_cons]
  rfl

@[simp] theorem entries_cons_sep : entries (.sep s :: B) = entries B := by
  rw [entries, leaves_cons_sep]
  rfl

@[simp] theorem keyMarks_append (xs ys : List (K × V)) :
    keyMarks (xs ++ ys) = keyMarks xs ++ keyMarks ys := List.map_append

@[simp] theorem keyMarks_cons (x : K × V) (xs : List (K × V)) :
    keyMarks (x :: xs) = .key x.1 :: keyMarks xs := rfl

@[simp] theorem keyMarks_nil : keyMarks ([] : List (K × V)) = [] := rfl

end Append

theorem mem_keyMarks {m : Mark K} {es : List (K × V)} :
    m ∈ keyMarks es ↔ ∃ e ∈ es, m = .key e.1 := by
  rw [keyMarks, List.mem_map]
  exact exists_congr fun e ↦ and_congr_right fun _ ↦ eq_comm

/-- The keys among the marks are the keys of the entries. -/
theorem key_mem_marks {k : K} {ts : List (Tok K V)} :
    .key k ∈ marks ts ↔ ∃ e ∈ entries ts, e.1 = k := by
  induction ts with
  | nil => simp
  | cons t ts ih =>
    cases t with
    | leaf l =>
      rw [marks_cons_leaf, entries_cons_leaf, List.mem_append, ih, mem_keyMarks]
      simp only [List.mem_append, Mark.key.injEq, or_and_right, exists_or]
      exact or_congr (exists_congr fun e ↦ and_congr_right fun _ ↦ eq_comm) Iff.rfl
    | sep s =>
      rw [marks_cons_sep, entries_cons_sep, List.mem_cons, ih]
      simp

/-! ## Assembling the sequence of a node from those of its children -/

/-- The sequences `ts`, each followed by its separator. -/
def weaveL : List (List (Tok K V)) → List K → List (Tok K V)
  | t :: ts, s :: ss => t ++ .sep s :: weaveL ts ss
  | _, _ => []

/-- The sequences `ts`, each preceded by its separator. -/
def weaveR : List K → List (List (Tok K V)) → List (Tok K V)
  | s :: ss, t :: ts => .sep s :: (t ++ weaveR ss ts)
  | _, _ => []

/-- The sequences `ts` with the separators `ss` between them. -/
def weave : List (List (Tok K V)) → List K → List (Tok K V)
  | [], _ => []
  | t :: ts, ss => t ++ weaveR ss ts

/-- Look at one child. -/
theorem weave_mid : ∀ {A B : List (List (Tok K V))} {SA SB : List K} (t : List (Tok K V)),
    A.length = SA.length → weave (A ++ t :: B) (SA ++ SB) = weaveL A SA ++ t ++ weaveR SB B := by
  intro A
  induction A with
  | nil =>
    intro B SA SB t hlen
    obtain rfl : SA = [] := List.length_eq_zero_iff.mp hlen.symm
    rfl
  | cons a A ih =>
    intro B SA SB t hlen
    obtain ⟨s, SA, rfl⟩ := List.exists_cons_of_length_eq_add_one hlen.symm
    have hA : weave (A ++ t :: B) (SA ++ SB) = weaveL A SA ++ t ++ weaveR SB B :=
      ih t (Nat.succ.inj hlen)
    -- both sides start with `a` and `s`; what is left of the weave is the weave of the rest
    have hcons : weaveR (s :: (SA ++ SB)) (A ++ t :: B) = .sep s :: weave (A ++ t :: B) (SA ++ SB) := by
      cases A <;> rfl
    rw [List.cons_append, List.cons_append, weave, hcons, hA, weaveL]
    simp

theorem weaveL_append : ∀ {A B : List (List (Tok K V))} {SA SB : List K}, A.length = SA.length →
    weaveL (A ++ B) (SA ++ SB) = weaveL A SA ++ weaveL B SB := by
  intro A
  induction A with
  | nil =>
    intro B SA SB hlen
    obtain rfl : SA = [] := List.length_eq_zero_iff.mp hlen.symm
    rfl
  | cons a A ih =>
    intro B SA SB hlen
    obtain ⟨s, SA, rfl⟩ := List.exists_cons_of_length_eq_add_one hlen.symm
    rw [List.cons_append, List.cons_append, weaveL, weaveL, ih (Nat.succ.inj hlen)]
    simp

/-- A non-empty left part ends with its last separator. -/
theorem weaveL_concat {A : List (List (Tok K V))} {SA : List K} (t : List (Tok K V)) (s : K)
    (hlen : A.length = SA.length) :
    weaveL (A ++ [t]) (SA ++ [s]) = weaveL A SA ++ (t ++ [.sep s]) := by
  rw [weaveL_append hlen]
  rfl

/-- Cut a node in two at one of its separators. -/
theorem weave_append {A B : List (List (Tok K V))} {SA SB : List K} (s : K)
    (hA : A.length = SA.length + 1) (hB : B ≠ []) :
    weave (A ++ B) (SA ++ s :: SB) = weave A SA ++ .sep s :: weave B SB := by
  obtain ⟨A, t, rfl⟩ : ∃ A' t, A = A' ++ [t] := by
    have hne : A ≠ [] := List.ne_nil_of_length_eq_add_one hA
    exact ⟨_, _, (List.dropLast_append_getLast hne).symm⟩
  obtain ⟨u, B, rfl⟩ := List.exists_cons_of_ne_nil hB
  rw [List.length_append, List.length_singleton] at hA
  have hlen : A.length = SA.length := Nat.add_right_cancel hA
  have hleft : weave (A ++ [t]) SA = weaveL A SA ++ t ++ weaveR [] [] := by
    have : weave (A ++ [t]) (SA ++ []) = weaveL A SA ++ t ++ weaveR [] [] := weave_mid t hlen
    rwa [List.append_nil] at this
  rw [List.append_assoc, List.singleton_append, weave_mid t hlen, hleft]
  simp [weave, weaveR]

/-- A left part is empty, or it ends with a separator. -/
theorem weaveL_ends {A : List (List (Tok K V))} {SA : List K} (hlen : A.length = SA.length) :
    (A = [] ∧ SA = [] ∧ weaveL A SA = []) ∨ ∃ W s, s ∈ SA ∧ weaveL A SA = W ++ [.sep s] := by
  rcases List.eq_nil_or_concat SA with rfl | ⟨SA, s, rfl⟩
  · obtain rfl : A = [] := List.length_eq_zero_iff.mp hlen
    exact Or.inl ⟨rfl, rfl, rfl⟩
  · obtain ⟨A', t, rfl⟩ : ∃ A' t, A = A' ++ [t] := by
      have hne : A ≠ [] := by
        rintro rfl
        simp at hlen
      exact ⟨_, _, (List.dropLast_append_getLast hne).symm⟩
    rw [List.concat_eq_append, List.length_append, List.length_append] at hlen
    refine Or.inr ⟨weaveL A' SA ++ t, s, by simp, ?_⟩
    rw [List.concat_eq_append, weaveL_concat t s (Nat.add_right_cancel hlen), List.append_assoc]

/-- The separators of a node are among the marks of its sequence. -/
theorem sep_sublist_weaveR : ∀ {ss : List K} {ts : List (List (Tok K V))}, ts.length = ss.length →
    (ss.map Mark.sep).Sublist (marks (weaveR ss ts)) := by
  intro ss
  induction ss with
  | nil => exact fun _ ↦ List.nil_sublist _
  | cons s ss ih =>
    intro ts hlen
    obtain ⟨t, ts, rfl⟩ := List.exists_cons_of_length_eq_add_one hlen
    rw [weaveR, List.map_cons, marks_cons_sep, marks_append]
    exact ((ih (Nat.succ.inj hlen)).trans (List.sublist_append_right _ _)).cons_cons _

theorem sep_sublist_weave {ss : List K} {ts : List (List (Tok K V))}
    (hlen : ts.length = ss.length + 1) : (ss.map Mark.sep).Sublist (marks (weave ts ss)) := by
  obtain ⟨t, ts, rfl⟩ := List.exists_cons_of_length_eq_add_one hlen
  rw [weave, marks_append]
  exact (sep_sublist_weaveR (Nat.succ.inj hlen)).trans (List.sublist_append_right _ _)

/-- The leaves of a node are those of its children. -/
theorem leaves_weave : ∀ {ts : List (List (Tok K V))} {ss : List K}, ts.length = ss.length + 1 →
    leaves (weave ts ss) = ts.flatMap leaves := by
  have hR : ∀ {ss : List K} {ts : List (List (Tok K V))}, ts.length = ss.length →
      leaves (weaveR ss ts) = ts.flatMap leaves := by
    intro ss
    induction ss with
    | nil =>
      intro ts hlen
      obtain rfl := List.length_eq_zero_iff.mp hlen
      rfl
    | cons s ss ih =>
      intro ts hlen
      obtain ⟨t, ts, rfl⟩ := List.exists_cons_of_length_eq_add_one hlen
      rw [weaveR, leaves_cons_sep, leaves_append, ih (Nat.succ.inj hlen), List.flatMap_cons]
  intro ts ss hlen
  obtain ⟨t, ts, rfl⟩ := List.exists_cons_of_length_eq_add_one hlen
  rw [weave, leaves_append, hR (Nat.succ.inj hlen), List.flatMap_cons]

theorem entries_weave {ts : List (List (Tok K V))} {ss : List K} (hlen : ts.length = ss.length + 1) :
    entries (weave ts ss) = ts.flatMap entries := by
  rw [entries, leaves_weave hlen, List.flatMap_assoc]
  rfl

/-- The marks of a child are marks of the node. -/
theorem marks_sublist_weave {ts : List (List (Tok K V))} {ss : List K} {t : List (Tok K V)}
    (hlen : ts.length = ss.length + 1) (ht : t ∈ ts) :
    (marks t).Sublist (marks (weave ts ss)) := by
  obtain ⟨A, B, rfl⟩ := List.append_of_mem ht
  rw [List.length_append, List.length_cons] at hlen
  have hss : ss = ss.take A.length ++ ss.drop A.length := (List.take_append_drop _ _).symm
  rw [hss, weave_mid t (by rw [List.length_take]; omega), marks_append, marks_append]
  exact (List.sublist_append_right _ _).trans (List.sublist_append_left _ _)

/-- Adding one mark. -/
theorem pairwise_insert {R : Mark K → Mark K → Prop} {A B : List (Mark K)} {m : Mark K}
    (h : (A ++ B).Pairwise R) (hA : ∀ a ∈ A, R a m) (hB : ∀ b ∈ B, R m b) :
    (A ++ m :: B).Pairwise R := by
  obtain ⟨h₁, h₂, h₁₂⟩ := List.pairwise_append.mp h
  refine List.pairwise_append.mpr ⟨h₁, List.pairwise_cons.mpr ⟨hB, h₂⟩, fun a ha b hb ↦ ?_⟩
  rcases List.mem_cons.mp hb with rfl | hb
  · exact hA a ha
  · exact h₁₂ a ha b hb

/-! ## The chain of leaves -/

/-- A sequence, and the next identity to be given out. -/
structure Flat (K V : Type*) where
  toks : List (Tok K V)
  fresh : ℕ

theorem keyMarks_entries_sublist (ts : List (Tok K V)) :
    (keyMarks (entries ts)).Sublist (marks ts) := by
  induction ts with
  | nil => exact List.Sublist.refl _
  | cons t ts ih =>
    cases t with
    | leaf l =>
      rw [entries_cons_leaf, keyMarks_append, marks_cons_leaf]
      exact (List.Sublist.refl _).append ih
    | sep s =>
      rw [entries_cons_sep, marks_cons_sep]
      exact ih.cons _

/-- The identity of the first leaf, or what comes behind. -/
def firstId : List (Leaf K V) → Option ℕ → Option ℕ
  | [], n => n
  | l :: _, _ => some l.id

/-- Every leaf is chained to the next one, the last one to `n`. -/
def Linked : List (Leaf K V) → Option ℕ → Prop
  | [], _ => True
  | l :: ls, n => l.next = firstId ls n ∧ Linked ls n

/-- The leaves form one chain, with identities that differ and have been given out. -/
structure Chained (s : Flat K V) : Prop where
  linked : Linked (leaves s.toks) none
  nodup : ((leaves s.toks).map Leaf.id).Nodup
  lt_fresh : ∀ l ∈ leaves s.toks, l.id < s.fresh

/-- Only a leaf that is alone may be empty. -/
def Packed (ts : List (Tok K V)) : Prop := ∀ l ∈ leaves ts, l.entries = [] → ts = [.leaf l]

theorem linked_append {A B : List (Leaf K V)} {n : Option ℕ} :
    Linked (A ++ B) n ↔ Linked A (firstId B n) ∧ Linked B n := by
  induction A with
  | nil => simp [Linked]
  | cons l A ih =>
    rw [List.cons_append, Linked, Linked, ih, and_assoc]
    have hfirst : firstId (A ++ B) n = firstId A (firstId B n) := by cases A <;> rfl
    rw [hfirst]

/-- Only identities and links matter. -/
theorem linked_congr {A B : List (Leaf K V)} {n : Option ℕ}
    (h : A.map (fun l ↦ (l.id, l.next)) = B.map fun l ↦ (l.id, l.next)) (hA : Linked A n) :
    Linked B n := by
  induction A generalizing B with
  | nil =>
    obtain rfl : B = [] := by simpa using h.symm
    trivial
  | cons a A ih =>
    cases B with
    | nil => simp at h
    | cons b B =>
      simp only [List.map_cons, List.cons.injEq, Prod.mk.injEq] at h
      obtain ⟨⟨hid, hnext⟩, hrest⟩ := h
      refine ⟨?_, ih hrest hA.2⟩
      rw [← hnext, hA.1]
      cases A <;> cases B <;> simp_all [firstId]

variable [LinearOrder K]

/-! ## Order -/

/-- Keys and separators ascend, if weakly. -/
def Weak (ts : List (Tok K V)) : Prop := (marks ts).Pairwise fun m m' ↦ m.val ≤ m'.val

theorem Weak.sublist {ts : List (Tok K V)} {l : List (Mark K)} (h : Weak ts)
    (hl : l.Sublist (marks ts)) : l.Pairwise fun m m' ↦ m.val ≤ m'.val :=
  List.Pairwise.sublist hl h

/-- Cut a weakly ordered sequence in three. -/
theorem weak_append₃ {A B C : List (Tok K V)} (h : Weak (A ++ B ++ C)) : Weak A ∧ Weak B ∧ Weak C := by
  rw [Weak, marks_append, marks_append, List.pairwise_append, List.pairwise_append] at h
  exact ⟨h.1.1, h.1.2.1, h.2.1⟩

/-- A weakly ordered list can be cut at any key. -/
theorem exists_cut (k : K) : ∀ {es : List (K × V)}, (es.Pairwise fun a b ↦ a.1 ≤ b.1) →
    ∃ X Y, es = X ++ Y ∧ (∀ x ∈ X, x.1 ≤ k) ∧ ∀ y ∈ Y, k < y.1 := by
  intro es
  induction es with
  | nil => exact fun _ ↦ ⟨[], [], rfl, by simp, by simp⟩
  | cons e es ih =>
    intro h
    obtain ⟨he, hes⟩ := List.pairwise_cons.mp h
    rcases le_or_gt e.1 k with hek | hek
    · obtain ⟨X, Y, rfl, hX, hY⟩ := ih hes
      refine ⟨e :: X, Y, rfl, fun x hx ↦ ?_, hY⟩
      rcases List.mem_cons.mp hx with rfl | hx
      · exact hek
      · exact hX x hx
    · refine ⟨[], e :: es, rfl, by simp, fun y hy ↦ ?_⟩
      rcases List.mem_cons.mp hy with rfl | hy
      · exact hek
      · exact lt_of_lt_of_le hek (he y hy)

/-- Everything before a separator that is at most `k` is at most `k`. -/
theorem val_le_of_weaveL {A : List (List (Tok K V))} {SA : List K} {k : K}
    (hlen : A.length = SA.length) (hw : Weak (weaveL A SA)) (hSA : ∀ s ∈ SA, s ≤ k) :
    ∀ m ∈ marks (weaveL A SA), m.val ≤ k := by
  intro m hm
  rcases weaveL_ends hlen with ⟨-, -, hnil⟩ | ⟨W, s, hs, hW⟩
  · rw [hnil] at hm
    simp at hm
  · rw [hW, marks_append] at hm
    rw [Weak, hW, marks_append, List.pairwise_append] at hw
    rcases List.mem_append.mp hm with hm | hm
    · exact (hw.2.2 m hm (.sep s) (by simp)).trans (hSA s hs)
    · rw [marks_cons_sep, marks_nil, List.mem_singleton] at hm
      rw [hm]
      exact hSA s hs

/-- Everything behind a separator that is above `k` is above `k`. -/
theorem lt_val_of_weaveR {B : List (List (Tok K V))} {SB : List K} {k : K}
    (hlen : B.length = SB.length) (hw : Weak (weaveR SB B)) (hSB : ∀ s ∈ SB, k < s) :
    ∀ m ∈ marks (weaveR SB B), k < m.val := by
  intro m hm
  cases SB with
  | nil => simp [weaveR] at hm
  | cons s SB =>
    obtain ⟨t, B, rfl⟩ := List.exists_cons_of_length_eq_add_one hlen
    rw [weaveR, marks_cons_sep] at hm
    rw [weaveR, Weak, marks_cons_sep, List.pairwise_cons] at hw
    have hs : k < s := hSB s List.mem_cons_self
    rcases List.mem_cons.mp hm with rfl | hm
    · exact hs
    · exact lt_of_lt_of_le hs (hw.1 m hm)

theorem le_val_of_weaveR {B : List (List (Tok K V))} {SB : List K} {k : K}
    (hlen : B.length = SB.length) (hw : Weak (weaveR SB B)) (hSB : ∀ s ∈ SB, k ≤ s) :
    ∀ m ∈ marks (weaveR SB B), k ≤ m.val := by
  intro m hm
  cases SB with
  | nil => simp [weaveR] at hm
  | cons s SB =>
    obtain ⟨t, B, rfl⟩ := List.exists_cons_of_length_eq_add_one hlen
    rw [weaveR, marks_cons_sep] at hm
    rw [weaveR, Weak, marks_cons_sep, List.pairwise_cons] at hw
    have hs : k ≤ s := hSB s List.mem_cons_self
    rcases List.mem_cons.mp hm with rfl | hm
    · exact hs
    · exact hs.trans (hw.1 m hm)

/-- The leaf in which to look for `k`. -/
structure Located (k : K) (P Q : List (Tok K V)) : Prop where
  left : ∀ m ∈ marks P, m.val ≤ k
  right : ∀ m ∈ marks Q, k < m.val
  ends : P = [] ∨ ∃ P' s, P = P' ++ [.sep s]

/-- A single leaf. -/
theorem located_nil (k : K) : Located k ([] : List (Tok K V)) [] :=
  ⟨by simp, by simp, Or.inl rfl⟩

/-- The leaf below a child is the leaf below its parent. -/
theorem Located.weave {k : K} {A B : List (List (Tok K V))} {SA SB : List K} {P Q : List (Tok K V)}
    (h : Located k P Q) (hA : A.length = SA.length) (hB : B.length = SB.length)
    (hwA : Weak (weaveL A SA)) (hwB : Weak (weaveR SB B)) (hSA : ∀ s ∈ SA, s ≤ k)
    (hSB : ∀ s ∈ SB, k < s) : Located k (weaveL A SA ++ P) (Q ++ weaveR SB B) := by
  refine ⟨fun m hm ↦ ?_, fun m hm ↦ ?_, ?_⟩
  · rw [marks_append] at hm
    rcases List.mem_append.mp hm with hm | hm
    · exact val_le_of_weaveL hA hwA hSA m hm
    · exact h.left m hm
  · rw [marks_append] at hm
    rcases List.mem_append.mp hm with hm | hm
    · exact h.right m hm
    · exact lt_val_of_weaveR hB hwB hSB m hm
  · rcases h.ends with rfl | ⟨P', s, rfl⟩
    · rcases weaveL_ends hA with ⟨-, -, hnil⟩ | ⟨W, s, -, hW⟩
      · exact Or.inl (by rw [hnil, List.append_nil])
      · exact Or.inr ⟨W, s, by rw [hW, List.append_nil]⟩
    · exact Or.inr ⟨weaveL A SA ++ P', s, by rw [List.append_assoc]⟩

/-- Where a search for `k` ends: in the leaf `l`, between the entries `X` and `Y`. -/
structure Sought (k : K) (ts P Q : List (Tok K V)) (l : Leaf K V) (X Y : List (K × V)) : Prop where
  toks : ts = P ++ .leaf l :: Q
  entries : l.entries = X ++ Y
  located : Located k P Q
  below : ∀ x ∈ X, x.1 ≤ k
  above : ∀ y ∈ Y, k < y.1

/-- No copy of `k` is left of the leaf in which one would look for it. -/
def Findable (k : K) (ts : List (Tok K V)) : Prop :=
  ∀ P Q l X Y, Sought k ts P Q l X Y → .key k ∉ marks P

/-- Which mark may stand before which. Keys ascend strictly, and so do separators. A separator may
equal the first key to its right, or else (`odd`) the last key to its left. -/
def Before (odd : Bool) : Mark K → Mark K → Prop
  | .key k, .key k' => k < k'
  | .key k, .sep s => if odd then k ≤ s else k < s
  | .sep s, .key k => if odd then s < k else s ≤ k
  | .sep s, .sep s' => s < s'

/-- Keys and separators ascend strictly. -/
def Strict (odd : Bool) (ts : List (Tok K V)) : Prop := (marks ts).Pairwise (Before odd)

theorem Before.val_le {odd : Bool} {m m' : Mark K} (h : Before odd m m') : m.val ≤ m'.val := by
  cases odd <;> cases m <;> cases m' <;> simp only [Before, Bool.false_eq_true, if_true, if_false] at h
    <;> first | exact h | exact h.le

theorem Strict.weak {odd : Bool} {ts : List (Tok K V)} (h : Strict odd ts) : Weak ts :=
  h.imp Before.val_le

/-- The entries of a strictly ordered sequence are a sorted association list. -/
theorem Strict.sorted {odd : Bool} {ts : List (Tok K V)} (h : Strict odd ts) :
    Sorted (entries ts) := by
  have hkeys := h.sublist (keyMarks_entries_sublist ts)
  rw [keyMarks, List.pairwise_map] at hkeys
  exact hkeys

/-- A separator may be put before the key it is a copy of. -/
theorem pairwise_insert_sep_before {M N : List (Mark K)} {x e : K}
    (h : (M ++ .key x :: .key e :: N).Pairwise (Before false)) :
    (M ++ .key x :: .sep e :: .key e :: N).Pairwise (Before false) := by
  rw [← List.singleton_append, ← List.append_assoc] at h ⊢
  obtain ⟨-, hN, hMN⟩ := List.pairwise_append.mp h
  rw [List.pairwise_cons] at hN
  have hxe : x < e := hMN (.key x) (by simp) (.key e) List.mem_cons_self
  refine pairwise_insert h (fun a ha ↦ ?_) fun b hb ↦ ?_
  · have hae : Before false a (.key e) := hMN a ha (.key e) List.mem_cons_self
    cases a with
    | key k => exact hae
    | sep s =>
      -- a separator to the left is at most `x`
      have hs : .sep s ∈ M := by simpa using ha
      have hsx : s ≤ x := (List.pairwise_append.mp (List.pairwise_append.mp h).1).2.2 (.sep s) hs
        (.key x) List.mem_cons_self
      exact lt_of_le_of_lt hsx hxe
  · rcases List.mem_cons.mp hb with rfl | hb
    · exact le_rfl
    · have heb : Before false (.key e) b := hN.1 b hb
      cases b with
      | key k => exact le_of_lt heb
      | sep s => exact heb

/-- A separator may be put behind the key it is a copy of. -/
theorem pairwise_insert_sep_behind {M N : List (Mark K)} {e y : K}
    (h : (M ++ .key e :: .key y :: N).Pairwise (Before true)) :
    (M ++ .key e :: .sep e :: .key y :: N).Pairwise (Before true) := by
  rw [← List.singleton_append, ← List.append_assoc] at h ⊢
  obtain ⟨hM, hN, hMN⟩ := List.pairwise_append.mp h
  rw [List.pairwise_cons] at hN
  have hey : e < y := hMN (.key e) (by simp) (.key y) List.mem_cons_self
  refine pairwise_insert h (fun a ha ↦ ?_) fun b hb ↦ ?_
  · rcases List.mem_append.mp ha with ha | ha
    · have hae : Before true a (.key e) :=
        (List.pairwise_append.mp hM).2.2 a ha (.key e) List.mem_cons_self
      cases a with
      | key k => exact le_of_lt hae
      | sep s => exact hae
    · rw [List.mem_singleton.mp ha]
      exact le_rfl
  · have heb : Before true (.key e) b := hMN (.key e) (by simp) b hb
    cases b with
    | key k => exact heb
    | sep s =>
      -- a separator to the right is at least `y`
      have hs : .sep s ∈ N := by simpa using hb
      have hys : y ≤ s := hN.1 (.sep s) hs
      exact lt_of_lt_of_le hey hys

/-- Where there are no separators the two strict orders agree. -/
theorem strict_singleton {odd : Bool} {l : Leaf K V} : Strict odd [.leaf l] ↔ Sorted l.entries := by
  rw [Strict, marks_cons_leaf, marks_nil, List.append_nil, keyMarks, List.pairwise_map]
  rfl

/-! ## Searching -/

/-- Where separators are never copies of a key to their left, every key can be found. -/
theorem Strict.findable {ts : List (Tok K V)} (h : Strict false ts) (k : K) : Findable k ts := by
  rintro P Q l X Y hs hk
  rcases hs.located.ends with rfl | ⟨P', s, rfl⟩
  · simp at hk
  · have hle : s ≤ k := hs.located.left (.sep s) (by simp)
    rw [Strict, hs.toks, marks_append, List.pairwise_append, marks_append,
      List.pairwise_append] at h
    rw [marks_append, marks_cons_sep, marks_nil, List.mem_append] at hk
    have hk' : .key k ∈ marks P' := hk.resolve_right (by simp)
    have hlt : Before false (.key k) (.sep s) := h.1.2.2 (.key k) hk' (.sep s) (by simp)
    exact absurd hle (not_le.mpr hlt)

/-- In a single leaf there is nothing to the left. -/
theorem findable_singleton (k : K) (l : Leaf K V) : Findable k [.leaf l] := by
  rintro P Q l' X Y hs hk
  cases P with
  | nil => simp at hk
  | cons p P => simpa using congrArg List.length hs.toks

namespace Sought

variable {odd : Bool} {k : K} {ts P Q : List (Tok K V)} {l : Leaf K V} {X Y : List (K × V)}

theorem entries_eq (h : Sought k ts P Q l X Y) :
    LeafSeq.entries ts = (LeafSeq.entries P ++ X) ++ (Y ++ LeafSeq.entries Q) := by
  rw [h.toks, entries_append, entries_cons_leaf, h.entries]
  simp

theorem lt_of_mem_right (h : Sought k ts P Q l X Y) :
    ∀ e ∈ Y ++ LeafSeq.entries Q, k < e.1 := by
  intro e he
  rcases List.mem_append.mp he with he | he
  · exact h.above e he
  · exact h.located.right (.key e.1) (key_mem_marks.mpr ⟨e, he, rfl⟩)

/-- The key is not there. -/
theorem key_not_mem (h : Sought k ts P Q l X Y) (hts : Strict odd ts) (hf : Findable k ts)
    (hlast : ∀ x, X.getLast? = some x → x.1 ≠ k) : .key k ∉ marks ts := by
  rw [key_mem_marks, h.entries_eq]
  rintro ⟨e, he, rfl⟩
  have hsorted := hts.sorted
  rw [h.entries_eq, sorted_append] at hsorted
  rcases List.mem_append.mp he with he | he
  · rcases List.mem_append.mp he with he | he
    · exact hf P Q l X Y h (key_mem_marks.mpr ⟨e, he, rfl⟩)
    · -- only the last entry of `X` could be as large as `k`
      rcases List.eq_nil_or_concat X with rfl | ⟨X, x, rfl⟩
      · simp at he
      · rw [List.concat_eq_append] at he hlast hsorted
        rcases List.mem_append.mp he with he | he
        · have hlt : e.1 < x.1 := by
            have := (sorted_append.mp hsorted.1).2.1
            exact (sorted_append.mp this).2.2 e he x (by simp)
          exact absurd (h.below x (by simp)) (not_le.mpr hlt)
        · exact hlast e (by rw [List.mem_singleton.mp he]; simp) rfl
  · exact lt_irrefl _ (h.lt_of_mem_right e he)

theorem get_eq_none (h : Sought k ts P Q l X Y) (hts : Strict odd ts) (hf : Findable k ts)
    (hlast : ∀ x, X.getLast? = some x → x.1 ≠ k) : get k (LeafSeq.entries ts) = none := by
  refine SortedAssoc.get_eq_none fun e he hek ↦ h.key_not_mem hts hf hlast ?_
  exact key_mem_marks.mpr ⟨e, he, hek.symm⟩

theorem entries_eq_found {v : V} (h : Sought k ts P Q l (X ++ [(k, v)]) Y) :
    LeafSeq.entries ts = (LeafSeq.entries P ++ X) ++ (k, v) :: (Y ++ LeafSeq.entries Q) := by
  rw [h.entries_eq]
  simp

theorem lt_of_mem_left {v : V} (h : Sought k ts P Q l (X ++ [(k, v)]) Y)
    (hts : Strict odd ts) : ∀ e ∈ LeafSeq.entries P ++ X, e.1 < k := by
  have hsorted := hts.sorted
  rw [h.entries_eq_found] at hsorted
  exact (sorted_mid hsorted).2.2.1

/-- The key is there. -/
theorem get_eq_some {v : V} (h : Sought k ts P Q l (X ++ [(k, v)]) Y) (hts : Strict odd ts) :
    get k (LeafSeq.entries ts) = some v := by
  rw [h.entries_eq_found, get_append_of_ne fun e he ↦ (h.lt_of_mem_left hts e he).ne',
    get_cons_self]

/-- Overwriting the value found is `put` on the entries. -/
theorem put_eq {v : V} (h : Sought k ts P Q l (X ++ [(k, v)]) Y) (hts : Strict odd ts) (v' : V) :
    LeafSeq.entries (P ++ .leaf { l with entries := X ++ (k, v') :: Y } :: Q) =
      put k v' (LeafSeq.entries ts) := by
  rw [h.entries_eq_found, put_append_of_lt (h.lt_of_mem_left hts), put_cons_self]
  simp

theorem marks_eq {v : V} (h : Sought k ts P Q l (X ++ [(k, v)]) Y) (v' : V) :
    marks (P ++ .leaf { l with entries := X ++ (k, v') :: Y } :: Q) = marks ts := by
  rw [h.toks]
  simp [h.entries]

end Sought

end LeafSeq
