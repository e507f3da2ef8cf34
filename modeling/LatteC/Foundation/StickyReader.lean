import Mathlib.Data.List.Basic

/-!
# Readers that stay broken

A stream holds the images of items one after the other, and a reader takes them off in order. When the
stream ends within an item, the read of that item fails, and so does every read after it.

A cursor says what it means for a state to stand somewhere in a stream, and to be broken. For every kind of
item it is enough to know how one read behaves in these states; the two lemmas about runs are for a whole
stream and for a stream that has been cut off.
-/

namespace StickyReader

variable {σ α β ρ ι : Type*}

/-- A state has one part of the stream behind it and the rest before it, or it is broken. -/
structure Cursor (σ β : Type*) where
  At : σ → List β → List β → Prop
  Broken : σ → Prop

/-- The read `f` of an item with the image `X`, on a reader that is not broken: it returns `a` at the front of
the image, and `e` where the stream ends within the image. -/
structure Reads (C : Cursor σ β) (f : σ → σ × ρ) (X : List β) (a e : ρ) : Prop where
  reads : ∀ ⦃s A R⦄, C.At s A (X ++ R) → ∃ s', f s = (s', a) ∧ C.At s' (A ++ X) R
  short : ∀ ⦃s A R⦄, C.At s A R → R <+: X → R.length < X.length →
    ∃ s', f s = (s', e) ∧ C.Broken s'

/-- The read of an item that returns `e` on a reader that is broken, as well. -/
structure Decodes (C : Cursor σ β) (f : σ → σ × ρ) (X : List β) (a e : ρ) : Prop
    extends Reads C f X a e where
  broken : ∀ ⦃s⦄, C.Broken s → ∃ s', f s = (s', e) ∧ C.Broken s'

/-! ## Putting reads together -/

/-- Follow a read that succeeded by another one. If it failed, return `e`. -/
def thenRead (r : σ × Option α) (e : ρ) (g : σ → α → σ × ρ) : σ × ρ :=
  match r.2 with
  | none => (r.1, e)
  | some a => g r.1 a

section Combinators

variable {C : Cursor σ β} {X Y : List β}

/-- Nothing is read. -/
theorem Reads.pure (a e : ρ) : Reads C (fun s ↦ (s, a)) [] a e where
  reads s A R h := ⟨s, rfl, by simpa using h⟩
  short s A R _ _ hlt := absurd hlt (Nat.not_lt_zero _)

theorem Reads.map {ρ' : Type*} {f : σ → σ × ρ} {a e : ρ} (h : Reads C f X a e) (g : ρ → ρ') :
    Reads C (fun s ↦ ((f s).1, g (f s).2)) X (g a) (g e) where
  reads s A R hs := by
    obtain ⟨s', hread, hs'⟩ := h.reads hs
    exact ⟨s', by rw [hread], hs'⟩
  short s A R hs hR hlt := by
    obtain ⟨s', hread, hs'⟩ := h.short hs hR hlt
    exact ⟨s', by rw [hread], hs'⟩

theorem Decodes.map {ρ' : Type*} {f : σ → σ × ρ} {a e : ρ} (h : Decodes C f X a e) (g : ρ → ρ') :
    Decodes C (fun s ↦ ((f s).1, g (f s).2)) X (g a) (g e) where
  toReads := h.toReads.map g
  broken s hs := by
    obtain ⟨s', hread, hs'⟩ := h.broken hs
    exact ⟨s', by rw [hread], hs'⟩

/-- **Two reads in a row.** The stream ends in the first image, whose read fails, or in the second. -/
theorem Decodes.bind {f : σ → σ × Option α} {g : σ → α → σ × ρ} {a : α} {b e : ρ}
    (hf : Decodes C f X (some a) none) (hg : Reads C (g · a) Y b e) :
    Decodes C (fun s ↦ thenRead (f s) e g) (X ++ Y) b e where
  reads s A R hs := by
    rw [List.append_assoc] at hs
    obtain ⟨s₁, hread, hs₁⟩ := hf.reads hs
    obtain ⟨s₂, hread', hs₂⟩ := hg.reads hs₁
    refine ⟨s₂, by simp only [thenRead, hread, hread'], ?_⟩
    rwa [← List.append_assoc]
  short s A R hs hR hlt := by
    by_cases hX : R.length < X.length
    · have hRX : R <+: X :=
        List.prefix_of_prefix_length_le hR (List.prefix_append X Y) (Nat.le_of_lt hX)
      obtain ⟨s', hread, hs'⟩ := hf.short hs hRX hX
      exact ⟨s', by simp only [thenRead, hread], hs'⟩
    · obtain ⟨T, rfl⟩ : X <+: R :=
        List.prefix_of_prefix_length_le (List.prefix_append X Y) hR (Nat.le_of_not_lt hX)
      obtain ⟨s₁, hread, hs₁⟩ := hf.reads hs
      rw [List.prefix_append_right_inj] at hR
      rw [List.length_append, List.length_append, Nat.add_lt_add_iff_left] at hlt
      obtain ⟨s₂, hread', hs₂⟩ := hg.short hs₁ hR hlt
      exact ⟨s₂, by simp only [thenRead, hread, hread'], hs₂⟩
  broken s hs := by
    obtain ⟨s', hread, hs'⟩ := hf.broken hs
    exact ⟨s', by simp only [thenRead, hread], hs'⟩

end Combinators

/-! ## Runs -/

/-- Read one item after the other, whatever becomes of the reads. -/
def runReads (f : ι → σ → σ × ρ) : σ → List ι → σ × List ρ
  | s, [] => (s, [])
  | s, i :: is =>
    let r := f i s
    let rs := runReads f r.1 is
    (rs.1, r.2 :: rs.2)

theorem runReads_cons {f : ι → σ → σ × ρ} {s s' : σ} {i : ι} {a : ρ} (h : f i s = (s', a))
    (is : List ι) :
    runReads f s (i :: is) = ((runReads f s' is).1, a :: (runReads f s' is).2) := by
  rw [runReads, h]

theorem runReads_map {κ : Type*} (f : ι → σ → σ × ρ) (g : κ → ι) (s : σ) (ks : List κ) :
    runReads f s (ks.map g) = runReads (fun k ↦ f (g k)) s ks := by
  induction ks generalizing s with
  | nil => rfl
  | cons k ks ih => rw [List.map_cons, runReads, runReads, ih]

section Runs

variable {C : Cursor σ β} {f : ι → σ → σ × ρ} {X : ι → List β} {a e : ι → ρ}

/-- **A whole stream** gives all its items. -/
theorem runReads_whole {is : List ι} (h : ∀ i ∈ is, Decodes C (f i) (X i) (a i) (e i)) {s : σ}
    {A R : List β} (hs : C.At s A (is.flatMap X ++ R)) :
    ∃ s', runReads f s is = (s', is.map a) ∧ C.At s' (A ++ is.flatMap X) R := by
  induction is generalizing s A with
  | nil => exact ⟨s, rfl, by simpa using hs⟩
  | cons i is ih =>
    rw [List.forall_mem_cons] at h
    rw [List.flatMap_cons, List.append_assoc] at hs
    obtain ⟨s₁, hread, hs₁⟩ := h.1.reads hs
    obtain ⟨s₂, hrun, hs₂⟩ := ih h.2 hs₁
    refine ⟨s₂, by rw [runReads_cons hread, hrun, List.map_cons], ?_⟩
    rwa [List.flatMap_cons, ← List.append_assoc]

/-- A broken reader gives no item. -/
theorem runReads_broken (h : ∀ i s, C.Broken s → ∃ s', f i s = (s', e i) ∧ C.Broken s')
    (is : List ι) {s : σ} (hs : C.Broken s) :
    ∃ s', runReads f s is = (s', is.map e) ∧ C.Broken s' := by
  induction is generalizing s with
  | nil => exact ⟨s, rfl, hs⟩
  | cons i is ih =>
    obtain ⟨s₁, hread, hs₁⟩ := h i s hs
    obtain ⟨s₂, hrun, hs₂⟩ := ih hs₁
    exact ⟨s₂, by rw [runReads_cons hread, hrun, List.map_cons], hs₂⟩

/-- **A stream that is cut off** gives the items that are complete. The read of the first one that is not
breaks the reader. -/
theorem runReads_cut {is : List ι} (h : ∀ i ∈ is, Decodes C (f i) (X i) (a i) (e i)) {s : σ}
    {A P : List β} (hs : C.At s A P) (hP : P <+: is.flatMap X)
    (hlt : P.length < (is.flatMap X).length) :
    ∃ done i rest s₁ s₂, is = done ++ i :: rest ∧
      (done.flatMap X).length ≤ P.length ∧ P.length < ((done ++ [i]).flatMap X).length ∧
      runReads f s done = (s₁, done.map a) ∧ C.At s₁ (A ++ done.flatMap X)
        (P.drop (done.flatMap X).length) ∧ f i s₁ = (s₂, e i) ∧ C.Broken s₂ := by
  induction is generalizing s A P with
  | nil => simp at hlt
  | cons i is ih =>
    rw [List.forall_mem_cons] at h
    rw [List.flatMap_cons] at hP hlt
    by_cases hi : P.length < (X i).length
    · have hPi : P <+: X i :=
        List.prefix_of_prefix_length_le hP (List.prefix_append _ _) (Nat.le_of_lt hi)
      obtain ⟨s₂, hread, hs₂⟩ := h.1.short hs hPi hi
      exact ⟨[], i, is, s, s₂, rfl, Nat.zero_le _, by simpa using hi, rfl, by simpa using hs, hread,
        hs₂⟩
    · obtain ⟨T, rfl⟩ : X i <+: P :=
        List.prefix_of_prefix_length_le (List.prefix_append _ _) hP (Nat.le_of_not_lt hi)
      rw [List.prefix_append_right_inj] at hP
      rw [List.length_append, List.length_append, Nat.add_lt_add_iff_left] at hlt
      obtain ⟨s', hread, hs'⟩ := h.1.reads hs
      obtain ⟨done, j, rest, s₁, s₂, rfl, hle, hj, hrun, hat, hfail, hs₂⟩ := ih h.2 hs' hP hlt
      refine ⟨i :: done, j, rest, s₁, s₂, rfl, ?_, ?_, ?_, ?_, hfail, hs₂⟩
      · rw [List.flatMap_cons, List.length_append, List.length_append]
        exact Nat.add_le_add_left hle _
      · rw [List.cons_append, List.flatMap_cons, List.length_append, List.length_append]
        exact Nat.add_lt_add_left hj _
      · rw [runReads_cons hread, hrun, List.map_cons]
      · rwa [List.flatMap_cons, List.length_append, ← List.append_assoc, List.drop_append,
          List.drop_eq_nil_of_le (Nat.le_add_right _ _), List.nil_append, Nat.add_sub_cancel_left]

end Runs

end StickyReader
