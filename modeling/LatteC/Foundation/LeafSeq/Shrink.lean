import LatteC.Foundation.LeafSeq.Basic

/-!
# Shrinking a sequence of leaves

`Shrink k v` takes the entry `(k, v)` out of a sequence. A leaf that gets too small is filled up from
the leaf beside it or merged with it; a leaf that gets empty is dropped together with one separator.
Wherever an entry moves from one leaf to the next, the separator between them becomes the first key
on its right, so all of these keep `Strict false`.
-/

namespace LeafSeq

open SortedAssoc

variable {K V : Type*}

/-- One entry leaves the sequence. -/
inductive Shrink (k : K) (v : V) : List (Tok K V) → List (Tok K V) → Prop
  | entry (P Q : List (Tok K V)) (l : Leaf K V) (X Y : List (K × V)) :
      l.entries = X ++ (k, v) :: Y → X ++ Y ≠ [] →
      Shrink k v (P ++ .leaf l :: Q) (P ++ .leaf { l with entries := X ++ Y } :: Q)
  | borrowLeft (P Q : List (Tok K V)) (a l : Leaf K V) (s : K) (X Y Z : List (K × V)) (e : K × V) :
      l.entries = X ++ (k, v) :: Y → a.entries = Z ++ [e] → Z ≠ [] →
      Shrink k v (P ++ .leaf a :: .sep s :: .leaf l :: Q)
        (P ++ .leaf { a with entries := Z } :: .sep e.1 ::
          .leaf { l with entries := e :: (X ++ Y) } :: Q)
  | borrowRight (P Q : List (Tok K V)) (l b : Leaf K V) (s : K) (X Y Z : List (K × V))
      (e f : K × V) : l.entries = X ++ (k, v) :: Y → b.entries = e :: f :: Z →
      Shrink k v (P ++ .leaf l :: .sep s :: .leaf b :: Q)
        (P ++ .leaf { l with entries := X ++ Y ++ [e] } :: .sep f.1 ::
          .leaf { b with entries := f :: Z } :: Q)
  | mergeLeft (P Q : List (Tok K V)) (a l : Leaf K V) (s : K) (X Y : List (K × V)) :
      l.entries = X ++ (k, v) :: Y → a.entries ≠ [] →
      Shrink k v (P ++ .leaf a :: .sep s :: .leaf l :: Q)
        (P ++ .leaf ⟨a.id, a.entries ++ (X ++ Y), l.next⟩ :: Q)
  | mergeRight (P Q : List (Tok K V)) (l b : Leaf K V) (s : K) (X Y : List (K × V)) :
      l.entries = X ++ (k, v) :: Y → b.entries ≠ [] →
      Shrink k v (P ++ .leaf l :: .sep s :: .leaf b :: Q)
        (P ++ .leaf ⟨l.id, X ++ Y ++ b.entries, b.next⟩ :: Q)
  | dropLeft (P Q : List (Tok K V)) (l : Leaf K V) (s : K) : l.entries = [(k, v)] →
      Shrink k v (P ++ .leaf l :: .sep s :: Q) (P ++ Q)
  | dropRight (P Q : List (Tok K V)) (l : Leaf K V) (s : K) : l.entries = [(k, v)] →
      Shrink k v (P ++ .sep s :: .leaf l :: Q) (P ++ Q)

private theorem pairwise_remove {R : Mark K → Mark K → Prop} {A B : List (Mark K)} {m : Mark K}
    (h : (A ++ m :: B).Pairwise R) : (A ++ B).Pairwise R :=
  h.sublist ((List.Sublist.refl A).append (List.sublist_cons_self m B))

private theorem pairwise_remove₂ {R : Mark K → Mark K → Prop} {A B C : List (Mark K)}
    {m n : Mark K} (h : (A ++ m :: (B ++ n :: C)).Pairwise R) : (A ++ (B ++ C)).Pairwise R := by
  have h₁ := pairwise_remove h
  rw [← List.append_assoc] at h₁ ⊢
  exact pairwise_remove h₁

namespace Shrink

variable {k : K} {v : V} {ts ts' : List (Tok K V)}

/-- Shrinking inside a larger sequence. -/
theorem context (h : Shrink k v ts ts') (L R : List (Tok K V)) :
    Shrink k v (L ++ ts ++ R) (L ++ ts' ++ R) := by
  cases h with
  | entry P Q l X Y hl hne =>
    simpa using entry (L ++ P) (Q ++ R) l X Y hl hne
  | borrowLeft P Q a l s X Y Z e hl ha hZ =>
    simpa using borrowLeft (L ++ P) (Q ++ R) a l s X Y Z e hl ha hZ
  | borrowRight P Q l b s X Y Z e f hl hb =>
    simpa using borrowRight (L ++ P) (Q ++ R) l b s X Y Z e f hl hb
  | mergeLeft P Q a l s X Y hl ha =>
    simpa using mergeLeft (L ++ P) (Q ++ R) a l s X Y hl ha
  | mergeRight P Q l b s X Y hl hb =>
    simpa using mergeRight (L ++ P) (Q ++ R) l b s X Y hl hb
  | dropLeft P Q l s hl => simpa using dropLeft (L ++ P) (Q ++ R) l s hl
  | dropRight P Q l s hl => simpa using dropRight (L ++ P) (Q ++ R) l s hl

/-- Exactly one entry is gone. -/
theorem exists_entries (h : Shrink k v ts ts') :
    ∃ A B, entries ts = A ++ (k, v) :: B ∧ entries ts' = A ++ B := by
  cases h with
  | entry P Q l X Y hl hne => exact ⟨entries P ++ X, Y ++ entries Q, by simp [hl], by simp⟩
  | borrowLeft P Q a l s X Y Z e hl ha hZ =>
    exact ⟨entries P ++ a.entries ++ X, Y ++ entries Q, by simp [hl], by simp [ha]⟩
  | borrowRight P Q l b s X Y Z e f hl hb =>
    exact ⟨entries P ++ X, Y ++ b.entries ++ entries Q, by simp [hl], by simp [hb]⟩
  | mergeLeft P Q a l s X Y hl ha =>
    exact ⟨entries P ++ a.entries ++ X, Y ++ entries Q, by simp [hl], by simp⟩
  | mergeRight P Q l b s X Y hl hb =>
    exact ⟨entries P ++ X, Y ++ b.entries ++ entries Q, by simp [hl], by simp⟩
  | dropLeft P Q l s hl => exact ⟨entries P, entries Q, by simp [hl], by simp⟩
  | dropRight P Q l s hl => exact ⟨entries P, entries Q, by simp [hl], by simp⟩

/-- No leaf gets empty. -/
theorem ne_nil (h : Shrink k v ts ts') (hts : ∀ l ∈ leaves ts, l.entries ≠ []) :
    ∀ l ∈ leaves ts', l.entries ≠ [] := by
  cases h with
  | entry P Q l X Y hl hne =>
    simp only [leaves_append, leaves_cons_leaf, List.forall_mem_append, List.forall_mem_cons] at hts ⊢
    exact ⟨hts.1, hne, hts.2.2⟩
  | borrowLeft P Q a l s X Y Z e hl ha hZ =>
    simp only [leaves_append, leaves_cons_leaf, leaves_cons_sep, List.forall_mem_append,
      List.forall_mem_cons] at hts ⊢
    exact ⟨hts.1, hZ, List.cons_ne_nil _ _, hts.2.2.2⟩
  | borrowRight P Q l b s X Y Z e f hl hb =>
    simp only [leaves_append, leaves_cons_leaf, leaves_cons_sep, List.forall_mem_append,
      List.forall_mem_cons] at hts ⊢
    exact ⟨hts.1, List.append_ne_nil_of_right_ne_nil _ (List.cons_ne_nil _ _),
      List.cons_ne_nil _ _, hts.2.2.2⟩
  | mergeLeft P Q a l s X Y hl ha =>
    simp only [leaves_append, leaves_cons_leaf, leaves_cons_sep, List.forall_mem_append,
      List.forall_mem_cons] at hts ⊢
    exact ⟨hts.1, List.append_ne_nil_of_left_ne_nil ha _, hts.2.2.2⟩
  | mergeRight P Q l b s X Y hl hb =>
    simp only [leaves_append, leaves_cons_leaf, leaves_cons_sep, List.forall_mem_append,
      List.forall_mem_cons] at hts ⊢
    exact ⟨hts.1, List.append_ne_nil_of_right_ne_nil _ hb, hts.2.2.2⟩
  | dropLeft P Q l s hl =>
    simp only [leaves_append, leaves_cons_leaf, leaves_cons_sep, List.forall_mem_append,
      List.forall_mem_cons] at hts ⊢
    exact ⟨hts.1, hts.2.2⟩
  | dropRight P Q l s hl =>
    simp only [leaves_append, leaves_cons_leaf, leaves_cons_sep, List.forall_mem_append,
      List.forall_mem_cons] at hts ⊢
    exact ⟨hts.1, hts.2.2⟩

/-- A single leaf stays a single leaf. -/
theorem singleton {l : Leaf K V} (h : Shrink k v [.leaf l] ts') : ∃ l', ts' = [.leaf l'] := by
  generalize hold : [Tok.leaf l] = ts at h
  have hsep : ∀ s, Tok.sep s ∉ ts := fun s hs ↦ by simp [← hold] at hs
  cases h with
  | entry P Q l₁ X Y hl hne =>
    obtain ⟨rfl, -, rfl⟩ : P = [] ∧ l₁ = l ∧ Q = [] := by
      simpa [List.append_eq_singleton_iff] using hold.symm
    exact ⟨_, rfl⟩
  | borrowLeft P Q a l s X Y Z e hl ha hZ => exact absurd (by simp) (hsep s)
  | borrowRight P Q l b s X Y Z e f hl hb => exact absurd (by simp) (hsep s)
  | mergeLeft P Q a l s X Y hl ha => exact absurd (by simp) (hsep s)
  | mergeRight P Q l b s X Y hl hb => exact absurd (by simp) (hsep s)
  | dropLeft P Q l s hl => exact absurd (by simp) (hsep s)
  | dropRight P Q l s hl => exact absurd (by simp) (hsep s)

variable [LinearOrder K]

/-- On sorted entries that is `del`. -/
theorem entries_eq (h : Shrink k v ts ts') (hts : Sorted (entries ts)) :
    entries ts' = del k (entries ts) := by
  obtain ⟨A, B, hold, hnew⟩ := h.exists_entries
  rw [hold] at hts
  rw [hold, hnew, del_append_of_ne fun a ha ↦ ((sorted_mid hts).2.2.1 a ha).ne', del_cons_self]

/-- Shrinking keeps the order strict: it only takes marks out, or it puts a separator before the key
that it is a copy of. -/
theorem strict (h : Shrink k v ts ts') (hts : Strict false ts) : Strict false ts' := by
  rw [Strict] at hts ⊢
  cases h with
  | entry P Q l X Y hl hne =>
    have := pairwise_remove (A := marks P ++ keyMarks X) (B := keyMarks Y ++ marks Q)
      (m := .key k) (by simpa [hl] using hts)
    simpa using this
  | borrowLeft P Q a l s X Y Z e hl ha hZ =>
    have hless := pairwise_remove₂ (A := marks P ++ keyMarks (Z ++ [e])) (B := keyMarks X)
      (C := keyMarks Y ++ marks Q) (m := .sep s) (n := .key k) (by simpa [hl, ha] using hts)
    rcases List.eq_nil_or_concat Z with rfl | ⟨Z, x, rfl⟩
    · exact absurd rfl hZ
    · have := pairwise_insert_sep_before (M := marks P ++ keyMarks Z) (x := x.1) (e := e.1)
        (N := keyMarks X ++ (keyMarks Y ++ marks Q)) (by simpa using hless)
      simpa using this
  | borrowRight P Q l b s X Y Z e f hl hb =>
    have hless := pairwise_remove₂ (A := marks P ++ keyMarks X) (B := keyMarks Y)
      (C := keyMarks (e :: f :: Z) ++ marks Q) (m := .key k) (n := .sep s)
      (by simpa [hl, hb] using hts)
    have := pairwise_insert_sep_before (M := marks P ++ keyMarks X ++ keyMarks Y) (x := e.1)
      (e := f.1) (N := keyMarks Z ++ marks Q) (by simpa using hless)
    simpa using this
  | mergeLeft P Q a l s X Y hl ha =>
    have := pairwise_remove₂ (A := marks P ++ keyMarks a.entries) (B := keyMarks X)
      (C := keyMarks Y ++ marks Q) (m := .sep s) (n := .key k) (by simpa [hl] using hts)
    simpa using this
  | mergeRight P Q l b s X Y hl hb =>
    have := pairwise_remove₂ (A := marks P ++ keyMarks X) (B := keyMarks Y)
      (C := keyMarks b.entries ++ marks Q) (m := .key k) (n := .sep s) (by simpa [hl] using hts)
    simpa using this
  | dropLeft P Q l s hl =>
    have := pairwise_remove₂ (A := marks P) (B := []) (C := marks Q) (m := .key k) (n := .sep s)
      (by simpa [hl] using hts)
    simpa using this
  | dropRight P Q l s hl =>
    have := pairwise_remove₂ (A := marks P) (B := []) (C := marks Q) (m := .sep s) (n := .key k)
      (by simpa [hl] using hts)
    simpa using this

end Shrink

end LeafSeq
