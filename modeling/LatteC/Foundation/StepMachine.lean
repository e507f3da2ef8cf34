import Mathlib.Logic.Relation
import Mathlib.Data.Nat.Init

/-!
# Machines that run until they stop

A machine takes one step after the other until a step hands over a result. A run with fuel evaluates; that
the machine ends with a result, for some fuel, is a statement about the machine alone, since the result does
not depend on the fuel.

`Moves` is for proofs: from any state that meets one condition the machine comes to a state that meets
another one. Proofs about programs are chains of moves.
-/

namespace StepMachine

variable {σ ω : Type*} {step : σ → σ ⊕ ω}

/-- Take up to `fuel` steps. -/
def run (step : σ → σ ⊕ ω) : (fuel : ℕ) → σ → Option ω
  | 0, _ => none
  | fuel + 1, s =>
    match step s with
    | .inl s' => run step fuel s'
    | .inr o => some o

/-- From `s` the machine ends with `o`. -/
def Ends (step : σ → σ ⊕ ω) (s : σ) (o : ω) : Prop := ∃ fuel, run step fuel s = some o

theorem run_succ_of_inl {s s' : σ} (h : step s = .inl s') (fuel : ℕ) :
    run step (fuel + 1) s = run step fuel s' := by
  rw [run, h]

theorem run_succ_of_inr {s : σ} {o : ω} (h : step s = .inr o) (fuel : ℕ) :
    run step (fuel + 1) s = some o := by
  rw [run, h]

/-- More fuel does not change the result. -/
theorem run_mono {fuel : ℕ} {s : σ} {o : ω} (h : run step fuel s = some o) (more : ℕ) :
    run step (fuel + more) s = some o := by
  induction fuel generalizing s with
  | zero => cases h
  | succ fuel ih =>
    rw [Nat.succ_add]
    cases hs : step s with
    | inl s' =>
      rw [run_succ_of_inl hs] at h ⊢
      exact ih h
    | inr o' =>
      rw [run_succ_of_inr hs] at h ⊢
      exact h

/-- **There is one result.** -/
theorem Ends.unique {s : σ} {o o' : ω} (h : Ends step s o) (h' : Ends step s o') : o = o' := by
  obtain ⟨m, hm⟩ := h
  obtain ⟨n, hn⟩ := h'
  have hm' := run_mono hm n
  have hn' := run_mono hn m
  rw [Nat.add_comm, hm'] at hn'
  exact Option.some.inj hn'

theorem Ends.of_inr {s : σ} {o : ω} (h : step s = .inr o) : Ends step s o :=
  ⟨1, run_succ_of_inr h 0⟩

theorem Ends.of_inl {s s' : σ} {o : ω} (h : step s = .inl s') (h' : Ends step s' o) :
    Ends step s o := by
  obtain ⟨fuel, hfuel⟩ := h'
  exact ⟨fuel + 1, by rw [run_succ_of_inl h, hfuel]⟩

/-- Some steps, none of them the last. -/
def Reaches (step : σ → σ ⊕ ω) : σ → σ → Prop := Relation.ReflTransGen fun s s' ↦ step s = .inl s'

theorem Reaches.ends {s s' : σ} {o : ω} (h : Reaches step s s') (h' : Ends step s' o) :
    Ends step s o := by
  induction h using Relation.ReflTransGen.head_induction_on with
  | refl => exact h'
  | head hstep _ ih => exact .of_inl hstep ih

theorem Ends.of_reaches {s s' : σ} {o : ω} (h : Ends step s o) (h' : Reaches step s s') :
    Ends step s' o := by
  induction h' with
  | refl => exact h
  | tail _ hstep ih =>
    obtain ⟨_ | fuel, hfuel⟩ := ih
    · cases hfuel
    · rw [run_succ_of_inl hstep] at hfuel
      exact ⟨fuel, hfuel⟩

/-- A run that ends has a last step. -/
theorem Ends.last {s : σ} {o : ω} (h : Ends step s o) : ∃ s', Reaches step s s' ∧ step s' = .inr o := by
  obtain ⟨fuel, hfuel⟩ := h
  induction fuel generalizing s with
  | zero => cases hfuel
  | succ fuel ih =>
    cases hs : step s with
    | inl s₁ =>
      rw [run_succ_of_inl hs] at hfuel
      obtain ⟨s', hreach, hlast⟩ := ih hfuel
      exact ⟨s', .head hs hreach, hlast⟩
    | inr o' =>
      rw [run_succ_of_inr hs] at hfuel
      exact ⟨s, .refl, Option.some.inj hfuel ▸ hs⟩

/-! ## So many steps -/

/-- Where the machine is after so many steps, or its result. -/
def after (step : σ → σ ⊕ ω) : (n : ℕ) → σ → σ ⊕ ω
  | 0, s => .inl s
  | n + 1, s =>
    match step s with
    | .inl s' => after step n s'
    | .inr o => .inr o

theorem after_succ_of_inl {s s' : σ} (h : step s = .inl s') (n : ℕ) : after step (n + 1) s = after step n s' := by
  rw [after, h]

theorem after_succ_of_inr {s : σ} {o : ω} (h : step s = .inr o) (n : ℕ) : after step (n + 1) s = .inr o := by
  rw [after, h]

theorem reaches_iff_after {s s' : σ} : Reaches step s s' ↔ ∃ n, after step n s = .inl s' := by
  constructor
  · intro h
    induction h using Relation.ReflTransGen.head_induction_on with
    | refl => exact ⟨0, rfl⟩
    | head hstep _ ih =>
      obtain ⟨n, hn⟩ := ih
      exact ⟨n + 1, by rw [after_succ_of_inl hstep, hn]⟩
  · rintro ⟨n, hn⟩
    induction n generalizing s with
    | zero =>
      obtain rfl := Sum.inl.inj hn
      exact .refl
    | succ n ih =>
      cases hs : step s with
      | inl s₁ =>
        rw [after_succ_of_inl hs] at hn
        exact .head hs (ih hn)
      | inr o =>
        rw [after_succ_of_inr hs] at hn
        cases hn

theorem ends_iff_after {s : σ} {o : ω} : Ends step s o ↔ ∃ n, after step n s = .inr o := by
  refine exists_congr fun n ↦ ?_
  induction n generalizing s with
  | zero => exact iff_of_false (fun h ↦ by cases h) (fun h ↦ by cases h)
  | succ n ih =>
    cases hs : step s with
    | inl s₁ => rw [run_succ_of_inl hs, after_succ_of_inl hs, ih]
    | inr o' => rw [run_succ_of_inr hs, after_succ_of_inr hs, Option.some.injEq, Sum.inr.injEq]

/-! ## Moves -/

/-- From every state that meets `A` the machine comes to one that meets `B`. -/
def Moves (step : σ → σ ⊕ ω) (A B : σ → Prop) : Prop := ∀ s, A s → ∃ s', Reaches step s s' ∧ B s'

/-- From every state that meets `A` the machine ends with a result that meets `P`. -/
def Stops (step : σ → σ ⊕ ω) (A : σ → Prop) (P : ω → Prop) : Prop := ∀ s, A s → ∃ o, Ends step s o ∧ P o

section Moves

variable {A B C : σ → Prop} {P : ω → Prop}

theorem Moves.refl : Moves step A A := fun s hs ↦ ⟨s, .refl, hs⟩

theorem Moves.of_imp (h : ∀ s, A s → B s) : Moves step A B := fun s hs ↦ ⟨s, .refl, h s hs⟩

theorem Moves.of_step (h : ∀ s, A s → ∃ s', step s = .inl s' ∧ B s') : Moves step A B := by
  intro s hs
  obtain ⟨s', hstep, hs'⟩ := h s hs
  exact ⟨s', .single hstep, hs'⟩

theorem Moves.trans (h : Moves step A B) (h' : Moves step B C) : Moves step A C := by
  intro s hs
  obtain ⟨s₁, hreach, hs₁⟩ := h s hs
  obtain ⟨s₂, hreach', hs₂⟩ := h' s₁ hs₁
  exact ⟨s₂, hreach.trans hreach', hs₂⟩

theorem Stops.of_step (h : ∀ s, A s → ∃ o, step s = .inr o ∧ P o) : Stops step A P := by
  intro s hs
  obtain ⟨o, hstep, ho⟩ := h s hs
  exact ⟨o, .of_inr hstep, ho⟩

theorem Moves.stops (h : Moves step A B) (h' : Stops step B P) : Stops step A P := by
  intro s hs
  obtain ⟨s', hreach, hs'⟩ := h s hs
  obtain ⟨o, hends, ho⟩ := h' s' hs'
  exact ⟨o, hreach.ends hends, ho⟩

end Moves

end StepMachine
