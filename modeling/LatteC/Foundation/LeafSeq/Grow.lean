import LatteC.Foundation.LeafSeq.Basic
import Mathlib.Logic.Relation

/-!
# Growing a sequence of leaves

* `Split` replaces a full leaf by two leaves with a separator between them.
* `Insert` adds one entry to one leaf.
* `Grow` is what an insertion does: some splits, then one `Insert`.
-/

namespace LeafSeq

open SortedAssoc

variable {K V : Type*}

/-- One node splits. For an internal node that is invisible here; a leaf of `order` entries is cut
in two, and the separator is a copy of the key at `order / 2`. -/
inductive Split (order : ℕ) : Flat K V → Flat K V → Prop
  | inner (ts : List (Tok K V)) (f : ℕ) : Split order ⟨ts, f⟩ ⟨ts, f + 1⟩
  | leaf (P Q : List (Tok K V)) (l : Leaf K V) (X Y : List (K × V)) (e : K × V) (f : ℕ) :
      l.entries = X ++ Y → X.length = (order + 1) / 2 → Y.length = order / 2 →
      (X ++ Y)[order / 2]? = some e →
      Split order ⟨P ++ .leaf l :: Q, f⟩
        ⟨P ++ .leaf ⟨l.id, X, some f⟩ :: .sep e.1 :: .leaf ⟨f, Y, l.next⟩ :: Q, f + 1⟩

/-! ## Splitting adds one separator, a copy of the key next to it -/

/-- The key that is copied stands on one side of the cut or the other. -/
theorem getElem?_half {order : ℕ} {X Y : List (K × V)} {e : K × V}
    (hX : X.length = (order + 1) / 2) (he : (X ++ Y)[order / 2]? = some e) :
    (order % 2 = 0 ∧ ∃ Y', Y = e :: Y') ∨ (order % 2 = 1 ∧ ∃ X', X = X' ++ [e]) := by
  rcases Nat.mod_two_eq_zero_or_one order with hodd | hodd
  · left
    rw [List.getElem?_append_right (by omega), show order / 2 - X.length = 0 by omega] at he
    cases Y with
    | nil => simp at he
    | cons y Y =>
      rw [List.getElem?_cons_zero] at he
      exact ⟨hodd, Y, by rw [Option.some.inj he]⟩
  · right
    rw [List.getElem?_append_left (by omega)] at he
    refine ⟨hodd, X.dropLast, ?_⟩
    have hne : X ≠ [] := List.ne_nil_of_length_pos (by omega)
    rw [show order / 2 = X.length - 1 by omega, ← List.getLast?_eq_getElem?,
      List.getLast?_eq_some_getLast hne] at he
    conv_lhs => rw [← List.dropLast_append_getLast hne, Option.some.inj he]

private theorem marks_split (P Q : List (Tok K V)) (l : Leaf K V) (X Y : List (K × V)) (e : K × V)
    (f : ℕ) :
    marks (P ++ .leaf ⟨l.id, X, some f⟩ :: .sep e.1 :: .leaf ⟨f, Y, l.next⟩ :: Q) =
      (marks P ++ keyMarks X) ++ .sep e.1 :: (keyMarks Y ++ marks Q) := by
  simp

private theorem marks_joined {P Q : List (Tok K V)} {l : Leaf K V} {X Y : List (K × V)}
    (hl : l.entries = X ++ Y) :
    marks (P ++ .leaf l :: Q) = (marks P ++ keyMarks X) ++ (keyMarks Y ++ marks Q) := by
  simp [hl]

theorem Split.entries {order : ℕ} {s s' : Flat K V} (h : Split order s s') :
    entries s'.toks = entries s.toks := by
  cases h with
  | inner ts f => rfl
  | leaf P Q l X Y e f hl hX hY he => simp [hl]

/-- The marks only grow. -/
theorem Split.sublist {order : ℕ} {s s' : Flat K V} (h : Split order s s') :
    (marks s.toks).Sublist (marks s'.toks) := by
  cases h with
  | inner ts f => exact List.Sublist.refl _
  | leaf P Q l X Y e f hl hX hY he =>
    rw [marks_joined hl, marks_split]
    exact (List.Sublist.refl _).append (List.sublist_cons_self _ _)

/-- A separator is a copy of a key. -/
theorem Split.sep_mem {order : ℕ} {s s' : Flat K V} (h : Split order s s')
    (hs : ∀ k, .sep k ∈ marks s.toks → .key k ∈ marks s.toks) :
    ∀ k, .sep k ∈ marks s'.toks → .key k ∈ marks s'.toks := by
  cases h with
  | inner ts f => exact hs
  | leaf P Q l X Y e f hl hX hY he =>
    have hmem : e ∈ X ++ Y := List.mem_of_getElem? he
    intro k hk
    rw [key_mem_marks]
    simp only [marks_split, List.mem_append, List.mem_cons, Mark.sep.injEq] at hk
    have hold : Mark.sep k ∈ marks (P ++ .leaf l :: Q) ∨ k = e.1 := by
      rw [marks_joined hl]
      simp only [List.mem_append]
      tauto
    rcases hold with hold | rfl
    · obtain ⟨x, hx, hxk⟩ := key_mem_marks.mp (hs k hold)
      refine ⟨x, ?_, hxk⟩
      simpa [hl] using hx
    · refine ⟨e, ?_, rfl⟩
      rcases List.mem_append.mp hmem with h' | h' <;> simp [h']

/-- A property that one split preserves is preserved by any number of them. -/
theorem splits_induct {order : ℕ} {p : Flat K V → Prop}
    (hsplit : ∀ s s', Split order s s' → p s → p s') {s s' : Flat K V}
    (h : Relation.ReflTransGen (Split order) s s') (hp : p s) : p s' := by
  induction h with
  | refl => exact hp
  | tail _ hstep ih => exact hsplit _ _ hstep ih

/-- A split inside a larger sequence. -/
theorem Split.context {order : ℕ} {ts ts' : List (Tok K V)} {f f' : ℕ}
    (h : Split order ⟨ts, f⟩ ⟨ts', f'⟩) (L R : List (Tok K V)) :
    Split order ⟨L ++ ts ++ R, f⟩ ⟨L ++ ts' ++ R, f'⟩ := by
  cases h with
  | inner => exact .inner _ _
  | leaf P Q l X Y e f hl hX hY he =>
    have := Split.leaf (L ++ P) (Q ++ R) l X Y e f hl hX hY he
    simpa using this

theorem splits_entries {order : ℕ} {s s' : Flat K V}
    (h : Relation.ReflTransGen (Split order) s s') : entries s'.toks = entries s.toks :=
  splits_induct (p := fun s₁ ↦ entries s₁.toks = entries s.toks)
    (fun _ _ h hp ↦ h.entries.trans hp) h rfl

/-- A split links the new leaf in behind the old one. -/
theorem Split.chained {order : ℕ} {s s' : Flat K V} (h : Split order s s') (hs : Chained s) :
    Chained s' := by
  cases h with
  | inner ts f => exact ⟨hs.linked, hs.nodup, fun l hl ↦ Nat.lt_succ_of_lt (hs.lt_fresh l hl)⟩
  | leaf P Q l X Y e f hl hX hY he =>
    obtain ⟨hlinked, hnodup, hlt⟩ := hs
    simp only [leaves_append, leaves_cons_leaf, List.map_append, List.map_cons] at hlinked hnodup hlt
    obtain ⟨hP, hnext, hQ⟩ := linked_append.mp hlinked
    refine ⟨?_, ?_, ?_⟩
    · simp only [leaves_append, leaves_cons_leaf, leaves_cons_sep]
      exact linked_append.mpr ⟨hP, rfl, hnext, hQ⟩
    · have hf : ∀ l' ∈ leaves P ++ l :: leaves Q, l'.id ≠ f :=
        fun l' hl' ↦ Nat.ne_of_lt (hlt l' hl')
      simp only [leaves_append, leaves_cons_leaf, leaves_cons_sep, List.map_append, List.map_cons]
      have hperm : ((leaves P).map Leaf.id ++ l.id :: f :: (leaves Q).map Leaf.id).Perm
          (f :: ((leaves P).map Leaf.id ++ l.id :: (leaves Q).map Leaf.id)) := by
        have : ((leaves P).map Leaf.id ++ [l.id] ++ f :: (leaves Q).map Leaf.id).Perm
            (f :: ((leaves P).map Leaf.id ++ [l.id] ++ (leaves Q).map Leaf.id)) := List.perm_middle
        simpa using this
      rw [hperm.nodup_iff, List.nodup_cons]
      refine ⟨fun hmem ↦ ?_, hnodup⟩
      rw [← List.map_cons, ← List.map_append, List.mem_map] at hmem
      obtain ⟨l', hl', hid⟩ := hmem
      exact hf l' hl' hid
    · intro l' hl'
      simp only [leaves_append, leaves_cons_leaf, leaves_cons_sep, List.mem_append,
        List.mem_cons] at hl'
      rcases hl' with h' | rfl | rfl | h'
      · exact Nat.lt_succ_of_lt (hlt l' (by simp [h']))
      · exact Nat.lt_succ_of_lt (hlt l (by simp))
      · exact Nat.lt_succ_self f
      · exact Nat.lt_succ_of_lt (hlt l' (by simp [h']))

/-- Splitting makes no empty leaves. -/
theorem Split.packed {order : ℕ} (hord : 2 ≤ order) {s s' : Flat K V} (h : Split order s s')
    (hs : Packed s.toks) : Packed s'.toks := by
  cases h with
  | inner ts f => exact hs
  | leaf P Q l X Y e f hl hX hY he =>
    intro l' hl' hempty
    simp only [leaves_append, leaves_cons_leaf, leaves_cons_sep, List.mem_append,
      List.mem_cons] at hl'
    have hX' : X ≠ [] := List.ne_nil_of_length_pos (by omega)
    have hY' : Y ≠ [] := List.ne_nil_of_length_pos (by omega)
    -- an empty leaf beside the one that splits would not have been alone before
    have hold : l' ∈ leaves (P ++ .leaf l :: Q) → l' = l := fun hmem ↦ by
      have := hs l' hmem hempty
      obtain ⟨-, rfl, -⟩ : P = [] ∧ l = l' ∧ Q = [] := by
        simpa [List.append_eq_singleton_iff] using this
      rfl
    have hne : l' ≠ l := by
      rintro rfl
      rw [hl] at hempty
      exact hX' (List.append_eq_nil_iff.mp hempty).1
    rcases hl' with hmem | rfl | rfl | hmem
    · exact absurd (hold (by simp [hmem])) hne
    · exact absurd hempty hX'
    · exact absurd hempty hY'
    · exact absurd (hold (by simp [hmem])) hne

/-! ## Stranded keys -/

/-- A key with a separator behind it that is a copy of it. A search for the key goes past it. -/
def Stranded (b : K) (ts : List (Tok K V)) : Prop := [Mark.key b, Mark.sep b].Sublist (marks ts)

/-- With an odd order, a leaf that splits strands its last key. -/
theorem splits_singleton {order : ℕ} (hodd : order % 2 = 1) {l : Leaf K V} {s s' : Flat K V}
    (hs : s.toks = [.leaf l]) (h : Relation.ReflTransGen (Split order) s s') :
    s'.toks = [.leaf l] ∨ l.entries.length = order ∧ ∃ b, Stranded b s'.toks := by
  refine splits_induct
    (p := fun s' ↦ s'.toks = [.leaf l] ∨ l.entries.length = order ∧ ∃ b, Stranded b s'.toks)
    (fun s₁ s₂ hstep hs₁ ↦ ?_) h (Or.inl hs)
  rcases hs₁ with hs₁ | ⟨hlen, b, hb⟩
  · cases hstep with
    | inner ts f => exact Or.inl hs₁
    | leaf P Q l₁ X Y e f hl hX hY he =>
      right
      obtain ⟨rfl, hl₁, rfl⟩ : P = [] ∧ l₁ = l ∧ Q = [] := by
        simpa [List.append_eq_singleton_iff] using hs₁
      subst hl₁
      refine ⟨?_, e.1, ?_⟩
      · rw [hl, List.length_append, hX, hY]
        omega
      · obtain ⟨X', rfl⟩ := ((getElem?_half hX he).resolve_left (by omega)).2
        rw [Stranded, marks_split, keyMarks_append, marks_nil, List.nil_append]
        have hlast : [Mark.key e.1].Sublist (keyMarks X' ++ keyMarks [e]) :=
          List.sublist_append_right _ _
        exact hlast.append ((List.nil_sublist _).cons_cons _)
  · exact Or.inr ⟨hlen, b, hb.trans hstep.sublist⟩

/-! ## Insertion -/

variable [LinearOrder K]

/-- One entry is added to a leaf that has room for it. Everything to its left is at most `k`,
everything to its right at least `k`; unless there was a tie, `k` is below all separators to the
right. -/
inductive Insert (order : ℕ) (k : K) (v : V) (tie : Prop) :
    List (Tok K V) → List (Tok K V) → Prop
  | mk (P Q : List (Tok K V)) (l : Leaf K V) (X Y : List (K × V)) :
      l.entries = X ++ Y → l.entries.length < order →
      (∀ m ∈ marks P, m.val ≤ k) → (∀ x ∈ X, x.1 ≤ k) →
      (∀ y ∈ Y, k < y.1) → (∀ m ∈ marks Q, k ≤ m.val) →
      (¬tie → ∀ s, .sep s ∈ marks Q → k < s) →
      Insert order k v tie (P ++ .leaf l :: Q) (P ++ .leaf { l with entries := X ++ (k, v) :: Y } :: Q)

/-- Splits, and then one insertion. -/
def Grow (order : ℕ) (k : K) (v : V) (tie : Prop) (s s' : Flat K V) : Prop :=
  ∃ s₁, Relation.ReflTransGen (Split order) s s₁ ∧ s'.fresh = s₁.fresh ∧
    Insert order k v tie s₁.toks s'.toks

theorem Split.weak {order : ℕ} {s s' : Flat K V} (h : Split order s s') (hs : Weak s.toks) :
    Weak s'.toks := by
  cases h with
  | inner ts f => exact hs
  | leaf P Q l X Y e f hl hX hY he =>
    rw [Weak, marks_joined hl] at hs
    rw [Weak, marks_split]
    have hAB := (List.pairwise_append.mp hs).2.2
    refine pairwise_insert hs (fun a ha ↦ ?_) fun b hb ↦ ?_
    · rcases getElem?_half hX he with ⟨-, Y', rfl⟩ | ⟨-, X', rfl⟩
      · exact hAB a ha (.key e.1) (by simp)
      · rw [keyMarks_append, ← List.append_assoc] at ha
        rcases List.mem_append.mp ha with ha | ha
        · have h₁ := (List.pairwise_append.mp hs).1
          rw [keyMarks_append, ← List.append_assoc] at h₁
          exact (List.pairwise_append.mp h₁).2.2 a ha (.key e.1) (by simp)
        · rw [List.mem_singleton.mp ha]
          exact le_rfl
    · rcases getElem?_half hX he with ⟨-, Y', rfl⟩ | ⟨-, X', rfl⟩
      · have h₂ := (List.pairwise_append.mp hs).2.1
        rw [keyMarks_cons, List.cons_append, List.pairwise_cons] at h₂
        rw [keyMarks_cons, List.cons_append] at hb
        rcases List.mem_cons.mp hb with rfl | hb
        · exact le_rfl
        · exact h₂.1 b hb
      · exact hAB (.key e.1) (by simp) b hb

/-- Every order has its own strict relation, and splitting preserves it. -/
theorem Split.strict {order : ℕ} (hord : 2 ≤ order) {s s' : Flat K V} (h : Split order s s')
    (hs : Strict (order % 2 = 1) s.toks) : Strict (order % 2 = 1) s'.toks := by
  cases h with
  | inner ts f => exact hs
  | leaf P Q l X Y e f hl hX hY he =>
    rw [Strict, marks_joined hl] at hs
    rw [Strict, marks_split]
    rcases getElem?_half hX he with ⟨heven, Y', rfl⟩ | ⟨hodd, X', rfl⟩
    · -- the separator is the first key to its right, and `X` ends with a key
      have hpar : decide (order % 2 = 1) = false := by simp [heven]
      rw [hpar] at hs ⊢
      rcases List.eq_nil_or_concat X with rfl | ⟨X', x, rfl⟩
      · rw [List.length_nil] at hX
        omega
      · have := pairwise_insert_sep_before (M := marks P ++ keyMarks X') (x := x.1) (e := e.1)
          (N := keyMarks Y' ++ marks Q) (by simpa using hs)
        simpa using this
    · -- the separator is the last key to its left, and `Y` starts with a key
      have hpar : decide (order % 2 = 1) = true := by simp [hodd]
      rw [hpar] at hs ⊢
      cases Y with
      | nil =>
        rw [List.length_nil] at hY
        omega
      | cons y Y' =>
        have := pairwise_insert_sep_behind (M := marks P ++ keyMarks X') (e := e.1) (y := y.1)
          (N := keyMarks Y' ++ marks Q) (by simpa using hs)
        simpa using this

/-! ## Inserting -/

namespace Insert

variable {order : ℕ} {k : K} {v : V} {tie : Prop} {ts ts' : List (Tok K V)}

/-- The marks grow by the new key. -/
theorem exists_marks (h : Insert order k v tie ts ts') :
    ∃ A B, marks ts = A ++ B ∧ marks ts' = A ++ .key k :: B ∧ (∀ m ∈ A, m.val ≤ k) ∧
      (∀ m ∈ B, k ≤ m.val) ∧ (¬tie → ∀ s, .sep s ∈ B → k < s) := by
  cases h with
  | mk P Q l X Y hl hlen hP hX hY hQ htie =>
    refine ⟨marks P ++ keyMarks X, keyMarks Y ++ marks Q, marks_joined hl, by simp,
      fun m hm ↦ ?_, fun m hm ↦ ?_, fun hnt s hs ↦ ?_⟩
    · rcases List.mem_append.mp hm with hm | hm
      · exact hP m hm
      · obtain ⟨x, hx, rfl⟩ := mem_keyMarks.mp hm
        exact hX x hx
    · rcases List.mem_append.mp hm with hm | hm
      · obtain ⟨y, hy, rfl⟩ := mem_keyMarks.mp hm
        exact (hY y hy).le
      · exact hQ m hm
    · rcases List.mem_append.mp hs with hs | hs
      · obtain ⟨_, _, heq⟩ := mem_keyMarks.mp hs
        exact absurd heq (by simp)
      · exact htie hnt s hs

theorem weak (h : Insert order k v tie ts ts') (hts : Weak ts) : Weak ts' := by
  obtain ⟨A, B, hold, hnew, hA, hB, -⟩ := h.exists_marks
  rw [Weak, hold] at hts
  rw [Weak, hnew]
  exact pairwise_insert hts hA hB

/-- A new key keeps the order strict, if no separator got on its wrong side. -/
theorem strict {odd : Bool} (h : Insert order k v tie ts ts') (hts : Strict odd ts)
    (hkey : .key k ∉ marks ts) (hsep : odd = true → .sep k ∉ marks ts)
    (htie : odd = false → ¬tie) : Strict odd ts' := by
  obtain ⟨A, B, hold, hnew, hA, hB, hnt⟩ := h.exists_marks
  rw [hold] at hkey hsep
  rw [Strict, hold] at hts
  rw [Strict, hnew]
  refine pairwise_insert hts (fun a ha ↦ ?_) fun b hb ↦ ?_
  · have hle := hA a ha
    cases a with
    | key x =>
      refine lt_of_le_of_ne hle ?_
      rintro rfl
      exact hkey (List.mem_append_left _ ha)
    | sep s =>
      cases odd with
      | false => exact hle
      | true =>
        refine lt_of_le_of_ne hle ?_
        rintro rfl
        exact hsep rfl (List.mem_append_left _ ha)
  · have hle := hB b hb
    cases b with
    | key y =>
      refine lt_of_le_of_ne hle ?_
      rintro rfl
      exact hkey (List.mem_append_right _ hb)
    | sep s =>
      cases odd with
      | false => exact hnt (htie rfl) s hb
      | true => exact hle

theorem sublist (h : Insert order k v tie ts ts') : (marks ts).Sublist (marks ts') := by
  obtain ⟨A, B, hold, hnew, -⟩ := h.exists_marks
  rw [hold, hnew]
  exact (List.Sublist.refl A).append (List.sublist_cons_self _ B)

theorem sep_mem (h : Insert order k v tie ts ts')
    (hs : ∀ x, .sep x ∈ marks ts → .key x ∈ marks ts) :
    ∀ x, .sep x ∈ marks ts' → .key x ∈ marks ts' := by
  obtain ⟨A, B, hold, hnew, -⟩ := h.exists_marks
  intro x hx
  have hx' : .sep x ∈ marks ts := by
    rw [hnew] at hx
    rw [hold]
    simpa using hx
  exact h.sublist.mem (hs x hx')

/-- Where the key is new, insertion is `put` on the entries. -/
theorem entries_eq (h : Insert order k v tie ts ts') (hts : Weak ts)
    (hkey : .key k ∉ marks ts) : entries ts' = put k v (entries ts) := by
  cases h with
  | mk P Q l X Y hl hlen hP hX hY hQ htie =>
    have hne : ∀ e ∈ entries (P ++ .leaf l :: Q), e.1 ≠ k :=
      fun e he hek ↦ hkey (key_mem_marks.mpr ⟨e, he, hek⟩)
    simp only [entries_append, entries_cons_leaf, hl, List.mem_append] at hne
    have hleft : ∀ e ∈ entries P ++ X, e.1 < k := by
      intro e he
      rcases List.mem_append.mp he with he | he
      · exact lt_of_le_of_ne (hP (.key e.1) (key_mem_marks.mpr ⟨e, he, rfl⟩)) (hne e (.inl he))
      · exact lt_of_le_of_ne (hX e he) (hne e (.inr (.inl (.inl he))))
    have hright : ∀ e ∈ Y ++ entries Q, k < e.1 := by
      intro e he
      rcases List.mem_append.mp he with he | he
      · exact hY e he
      · exact lt_of_le_of_ne (hQ (.key e.1) (key_mem_marks.mpr ⟨e, he, rfl⟩))
          (hne e (.inr (.inr he))).symm
    have hold : entries (P ++ .leaf l :: Q) = (entries P ++ X) ++ ([] ++ (Y ++ entries Q)) := by
      simp [hl]
    rw [hold, put_append_of_lt hleft, put_append_of_gt hright]
    simp [put]

end Insert

theorem Insert.length_entries {order : ℕ} {k : K} {v : V} {tie : Prop} {ts ts' : List (Tok K V)}
    (h : Insert order k v tie ts ts') : (entries ts').length = (entries ts).length + 1 := by
  cases h with
  | mk P Q l X Y hl hlen hP hX hY hQ htie =>
    simp only [entries_append, entries_cons_leaf, hl, List.length_append, List.length_cons]
    omega

/-- After an insertion no leaf is empty. -/
theorem Insert.ne_nil {order : ℕ} {k : K} {v : V} {tie : Prop} {ts ts' : List (Tok K V)}
    (h : Insert order k v tie ts ts') (hts : Packed ts) : ∀ l ∈ leaves ts', l.entries ≠ [] := by
  cases h with
  | mk P Q l X Y hl hlen hP hX hY hQ htie =>
    intro l' hl' hempty
    have hold : l' ∈ leaves P ∨ l' ∈ leaves Q → False := fun hmem ↦ by
      have := hts l' (by simpa [or_assoc, or_comm, or_left_comm] using Or.inr hmem) hempty
      obtain ⟨rfl, -, rfl⟩ : P = [] ∧ l = l' ∧ Q = [] := by
        simpa [List.append_eq_singleton_iff] using this
      simp at hmem
    simp only [leaves_append, leaves_cons_leaf, List.mem_append, List.mem_cons] at hl'
    rcases hl' with hmem | rfl | hmem
    · exact hold (Or.inl hmem)
    · exact List.append_ne_nil_of_right_ne_nil X (List.cons_ne_nil _ Y) hempty
    · exact hold (Or.inr hmem)

/-! ## Growing -/

namespace Grow

variable {order : ℕ} {k : K} {v : V} {tie : Prop} {s s' : Flat K V}

theorem of_split {s₁ : Flat K V} (hsplit : Split order s s₁) (h : Grow order k v tie s₁ s') :
    Grow order k v tie s s' := by
  obtain ⟨s₂, hsplits, hfresh, hins⟩ := h
  exact ⟨s₂, hsplits.head hsplit, hfresh, hins⟩

/-- Growing inside a larger sequence. -/
theorem context {tie' : Prop} {ts ts' L R : List (Tok K V)} {f f' : ℕ}
    (h : Grow order k v tie ⟨ts, f⟩ ⟨ts', f'⟩) (htie : tie → tie')
    (hL : ∀ m ∈ marks L, m.val ≤ k) (hR : ∀ m ∈ marks R, k ≤ m.val)
    (hRsep : ¬tie' → ∀ x, .sep x ∈ marks R → k < x) :
    Grow order k v tie' ⟨L ++ ts ++ R, f⟩ ⟨L ++ ts' ++ R, f'⟩ := by
  obtain ⟨⟨ts₁, f₁⟩, hsplits, hfresh, hins⟩ := h
  refine ⟨⟨L ++ ts₁ ++ R, f₁⟩, ?_, hfresh, ?_⟩
  · exact hsplits.lift (p := Split order)
      (fun s : Flat K V ↦ (⟨L ++ s.toks ++ R, s.fresh⟩ : Flat K V)) fun s s' h ↦ h.context L R
  · cases hins with
    | mk P Q l X Y hl hlen hP hX hY hQ hnt =>
      have : Insert order k v tie' (L ++ P ++ .leaf l :: (Q ++ R))
          (L ++ P ++ .leaf { l with entries := X ++ (k, v) :: Y } :: (Q ++ R)) :=
        Insert.mk (L ++ P) (Q ++ R) l X Y hl hlen (fun m hm ↦ ?_) hX hY (fun m hm ↦ ?_)
          fun hnt' x hx ↦ ?_
      · simpa using this
      · rw [marks_append, List.mem_append] at hm
        exact hm.elim (hL m) (hP m)
      · rw [marks_append, List.mem_append] at hm
        exact hm.elim (hQ m) (hR m)
      · rw [marks_append, List.mem_append] at hx
        exact hx.elim (hnt (fun ht ↦ hnt' (htie ht)) x) (hRsep hnt' x)

theorem mono {tie' : Prop} (h : Grow order k v tie s s') (htie : tie → tie') :
    Grow order k v tie' s s' := by
  have := context (L := []) (R := []) h htie (by simp) (by simp) (by simp)
  simpa using this

theorem weak (h : Grow order k v tie s s') (hs : Weak s.toks) : Weak s'.toks := by
  obtain ⟨s₁, hsplits, -, hins⟩ := h
  exact hins.weak (splits_induct (p := fun s ↦ Weak s.toks) (fun _ _ h ↦ h.weak) hsplits hs)

theorem sublist (h : Grow order k v tie s s') : (marks s.toks).Sublist (marks s'.toks) := by
  obtain ⟨s₁, hsplits, -, hins⟩ := h
  exact (splits_induct (p := fun s₁ ↦ (marks s.toks).Sublist (marks s₁.toks))
    (fun _ _ h hp ↦ hp.trans h.sublist) hsplits (List.Sublist.refl _)).trans hins.sublist

theorem sep_mem (h : Grow order k v tie s s')
    (hs : ∀ x, .sep x ∈ marks s.toks → .key x ∈ marks s.toks) :
    ∀ x, .sep x ∈ marks s'.toks → .key x ∈ marks s'.toks := by
  obtain ⟨s₁, hsplits, -, hins⟩ := h
  exact hins.sep_mem (splits_induct
    (p := fun s ↦ ∀ x, .sep x ∈ marks s.toks → .key x ∈ marks s.toks)
    (fun _ _ h ↦ h.sep_mem) hsplits hs)

theorem entries_eq (h : Grow order k v tie s s') (hs : Weak s.toks)
    (hkey : .key k ∉ marks s.toks) : entries s'.toks = put k v (entries s.toks) := by
  obtain ⟨s₁, hsplits, -, hins⟩ := h
  have hent := splits_entries hsplits
  have hs₁ := splits_induct (p := fun s ↦ Weak s.toks) (fun _ _ h ↦ h.weak) hsplits hs
  rw [key_mem_marks, ← hent, ← key_mem_marks] at hkey
  rw [hins.entries_eq hs₁ hkey, hent]

theorem ne_nil (hord : 2 ≤ order) (h : Grow order k v tie s s') (hs : Packed s.toks) :
    ∀ l ∈ leaves s'.toks, l.entries ≠ [] := by
  obtain ⟨s₁, hsplits, -, hins⟩ := h
  exact hins.ne_nil
    (splits_induct (p := fun s ↦ Packed s.toks) (fun _ _ h ↦ h.packed hord) hsplits hs)

theorem length_entries (h : Grow order k v tie s s') :
    (entries s'.toks).length = (entries s.toks).length + 1 := by
  obtain ⟨s₁, hsplits, -, hins⟩ := h
  rw [hins.length_entries, splits_entries hsplits]

/-- A new key that meets no separator keeps the order strict. -/
theorem strict (hord : 2 ≤ order) (h : Grow order k v tie s s')
    (hs : Strict (order % 2 = 1) s.toks) (hkey : .key k ∉ marks s.toks)
    (hsep : order % 2 = 1 → ∀ x, .sep x ∈ marks s.toks → .key x ∈ marks s.toks)
    (htie : order % 2 = 0 → ¬tie) : Strict (order % 2 = 1) s'.toks := by
  obtain ⟨s₁, hsplits, -, hins⟩ := h
  have hs₁ := splits_induct (p := fun s ↦ Strict (order % 2 = 1) s.toks)
    (fun _ _ h ↦ h.strict hord) hsplits hs
  have hkey₁ : .key k ∉ marks s₁.toks := by
    rwa [key_mem_marks, splits_entries hsplits, ← key_mem_marks]
  refine hins.strict hs₁ hkey₁ (fun hodd hmem ↦ ?_) fun heven ↦ htie ?_
  · have hsep₁ := splits_induct
      (p := fun s ↦ ∀ x, .sep x ∈ marks s.toks → .key x ∈ marks s.toks)
      (fun _ _ h ↦ h.sep_mem) hsplits (hsep (by simpa using hodd))
    exact hkey₁ (hsep₁ k hmem)
  · have := of_decide_eq_false heven
    omega

end Grow

theorem Insert.leaves_id_next {order : ℕ} {k : K} {v : V} {tie : Prop} {ts ts' : List (Tok K V)}
    (h : Insert order k v tie ts ts') :
    (leaves ts').map (fun l ↦ (l.id, l.next)) = (leaves ts).map fun l ↦ (l.id, l.next) := by
  cases h with
  | mk P Q l X Y hl hlen hP hX hY hQ htie => simp

theorem Grow.chained {order : ℕ} {k : K} {v : V} {tie : Prop} {s s' : Flat K V}
    (h : Grow order k v tie s s') (hs : Chained s) : Chained s' := by
  obtain ⟨s₁, hsplits, hfresh, hins⟩ := h
  obtain ⟨hlinked, hnodup, hlt⟩ := splits_induct (fun _ _ h ↦ h.chained) hsplits hs
  have hleaves := hins.leaves_id_next
  have hids : (leaves s'.toks).map Leaf.id = (leaves s₁.toks).map Leaf.id := by
    have := congrArg (List.map Prod.fst) hleaves
    simpa [List.map_map, Function.comp_def] using this
  refine ⟨linked_congr hleaves.symm hlinked, by rw [hids]; exact hnodup, fun l hl ↦ ?_⟩
  have hmem : l.id ∈ (leaves s₁.toks).map Leaf.id := hids ▸ List.mem_map_of_mem hl
  obtain ⟨l₁, hl₁, hid⟩ := List.mem_map.mp hmem
  rw [hfresh, ← hid]
  exact hlt l₁ hl₁

/-- Inserting into a single leaf leaves a single leaf, or the leaf was full. -/
theorem Grow.singleton {order : ℕ} (hodd : order % 2 = 1) {k : K} {v : V} {tie : Prop}
    {l : Leaf K V} {s s' : Flat K V} (hs : s.toks = [.leaf l]) (h : Grow order k v tie s s') :
    (∃ l', s'.toks = [.leaf l'] ∧ l'.entries.length ≤ order) ∨
      l.entries.length = order ∧ ∃ b, Stranded b s'.toks := by
  obtain ⟨s₁, hsplits, -, hins⟩ := h
  rcases splits_singleton hodd hs hsplits with hs₁ | ⟨hlen, b, hb⟩
  · left
    rw [hs₁] at hins
    generalize hold : [Tok.leaf l] = ts, s'.toks = ts' at hins ⊢
    cases hins with
    | mk P Q l₁ X Y hl hlen hP hX hY hQ htie =>
      obtain ⟨rfl, -, rfl⟩ : P = [] ∧ l₁ = l ∧ Q = [] := by
        simpa [List.append_eq_singleton_iff] using hold.symm
      refine ⟨_, rfl, ?_⟩
      rw [hl, List.length_append] at hlen
      simp only [List.length_append, List.length_cons]
      omega
  · exact Or.inr ⟨hlen, b, hb.trans hins.sublist⟩

/-- A search for a stranded key finds nothing, or there is a second copy of it. -/
theorem Stranded.not_nodup {b : K} {ts P Q : List (Tok K V)} {l : Leaf K V} {X Y : List (K × V)}
    {v : V} (h : Stranded b ts) (hs : Sought b ts P Q l (X ++ [(b, v)]) Y) :
    ¬((entries ts).map Prod.fst).Nodup := by
  rw [Stranded, hs.toks, marks_append, List.sublist_append_iff] at h
  obtain ⟨A, B, hAB, hA, hB⟩ := h
  -- the separator is in the left part, and so is the key before it
  have hnil : B = [] := by
    rcases List.eq_nil_or_concat B with rfl | ⟨B, m, rfl⟩
    · rfl
    · rw [List.concat_eq_append] at hAB hB
      have hm : Mark.sep b = m := by
        have := congrArg List.getLast? hAB
        simpa using this
      have hmem : Mark.sep b ∈ marks (.leaf l :: Q) := hB.mem (by simp [hm])
      rw [marks_cons_leaf, List.mem_append] at hmem
      rcases hmem with hmem | hmem
      · obtain ⟨_, _, hx⟩ := mem_keyMarks.mp hmem
        exact absurd hx (by simp)
      · exact absurd (hs.located.right _ hmem) (lt_irrefl b)
  rw [hnil, List.append_nil] at hAB
  have hP : Mark.key b ∈ marks P := hA.mem (by simp [← hAB])
  obtain ⟨e, he, hek⟩ := key_mem_marks.mp hP
  rw [hs.entries_eq, List.map_append, List.map_append]
  intro hnodup
  have hdisj := (List.nodup_append.mp (List.nodup_append.mp hnodup).1).2.2
  exact hdisj b (List.mem_map.mpr ⟨e, he, hek⟩) b (by simp) rfl

end LeafSeq
