import Mathlib.Data.List.Basic

/-!
# Runs of a call-driven machine

A component with an API is a state together with a step: one call takes the state to a new state
and returns a reply, or faults. This file has the one induction that every "for every finite
sequence of calls" statement needs, so that a component only proves what a single call does.

The specification side is a machine of the same kind. Where it has no step the call is outside the
contract, so a precondition of a call is never a separate hypothesis: it is the domain of the
abstract step. A condition that can only be read off the *implementation's* state, as for code that
is right on some of its branches only, goes into `Guarded`.
-/

namespace CallMachine

variable {σ τ ι ω : Type*}

/-- Feed the calls to `step` one after another and collect the replies. A call that faults ends the
run with `none`. -/
def run (step : σ → ι → Option (σ × ω)) : σ → List ι → Option (σ × List ω)
  | s, [] => some (s, [])
  | s, i :: is =>
    match step s i with
    | none => none
    | some (s', o) => (run step s' is).map fun r ↦ (r.1, o :: r.2)

/-- Every call of the run meets `ok` in the state in which it is made. -/
def Guarded (ok : σ → ι → Prop) (step : σ → ι → Option (σ × ω)) : σ → List ι → Prop
  | _, [] => True
  | s, i :: is => ok s i ∧ ∀ s' o, step s i = some (s', o) → Guarded ok step s' is

theorem Guarded.cons {ok : σ → ι → Prop} {step : σ → ι → Option (σ × ω)} {s s' : σ} {i : ι} {o : ω}
    {is : List ι} (hstep : step s i = some (s', o)) (hok : ok s i) (h : Guarded ok step s' is) :
    Guarded ok step s (i :: is) := by
  refine ⟨hok, fun s₁ o₁ hs ↦ ?_⟩
  rw [hstep] at hs
  obtain ⟨rfl, -⟩ := Prod.mk.inj (Option.some.inj hs)
  exact h

/-- A concrete run can be checked by evaluation. -/
instance decidableGuarded (ok : σ → ι → Prop) [∀ s i, Decidable (ok s i)]
    (step : σ → ι → Option (σ × ω)) : ∀ (s : σ) (is : List ι), Decidable (Guarded ok step s is)
  | _, [] => isTrue trivial
  | s, i :: is =>
    match h : step s i with
    | none => decidable_of_iff (ok s i) (by simp [Guarded, h])
    | some (s', o) =>
      have := decidableGuarded ok step s' is
      decidable_of_iff (ok s i ∧ Guarded ok step s' is) (by simp [Guarded, h])

@[simp] theorem run_nil (step : σ → ι → Option (σ × ω)) (s : σ) : run step s [] = some (s, []) :=
  rfl

theorem run_cons (step : σ → ι → Option (σ × ω)) (s : σ) (i : ι) (is : List ι) :
    run step s (i :: is) =
      (step s i).bind fun p ↦ (run step p.1 is).map fun r ↦ (r.1, p.2 :: r.2) := by
  cases h : step s i <;> simp only [run, h, Option.bind_none, Option.bind_some]

theorem run_cons_of_step {step : σ → ι → Option (σ × ω)} {s s' : σ} {i : ι} {o : ω} {is : List ι}
    (h : step s i = some (s', o)) :
    run step s (i :: is) = (run step s' is).map fun r ↦ (r.1, o :: r.2) := by
  rw [run_cons, h, Option.bind_some]

/-- A run that starts with a call is that call followed by a run. -/
theorem run_cons_eq_some {step : σ → ι → Option (σ × ω)} {s s'' : σ} {i : ι} {is : List ι}
    {os : List ω} (h : run step s (i :: is) = some (s'', os)) :
    ∃ s' o os', step s i = some (s', o) ∧ run step s' is = some (s'', os') ∧ os = o :: os' := by
  cases hs : step s i with
  | none => simp [run_cons, hs] at h
  | some p =>
    obtain ⟨s', o⟩ := p
    rw [run_cons_of_step hs, Option.map_eq_some_iff] at h
    obtain ⟨⟨r, os'⟩, hr, heq⟩ := h
    simp only [Prod.mk.injEq] at heq
    exact ⟨s', o, os', rfl, by rw [hr, heq.1], heq.2.symm⟩

/-- A run of two sequences of calls is a run of the first one followed by a run of the second. -/
theorem run_append (step : σ → ι → Option (σ × ω)) (is js : List ι) (s : σ) :
    run step s (is ++ js) =
      (run step s is).bind fun r ↦ (run step r.1 js).map fun r' ↦ (r'.1, r.2 ++ r'.2) := by
  induction is generalizing s with
  | nil => simp
  | cons i is ih =>
    cases h : step s i with
    | none => simp [run_cons, h]
    | some p =>
      rw [List.cons_append, run_cons_of_step h, run_cons_of_step h, ih]
      simp [Option.map_bind, Option.bind_map, Function.comp_def]

/-- A step whose replies are translated runs as before and has its replies translated. -/
theorem run_map_reply {ω' : Type*} (f : ω → ω') (step : σ → ι → Option (σ × ω)) :
    ∀ (is : List ι) (s : σ), run (fun s i ↦ (step s i).map fun r ↦ (r.1, f r.2)) s is =
      (run step s is).map fun r ↦ (r.1, r.2.map f) := by
  intro is
  induction is with
  | nil => exact fun s ↦ rfl
  | cons i is ih =>
    intro s
    cases h : step s i with
    | none => simp [run_cons, h]
    | some p => simp [run_cons, h, ih, Option.map_map, Function.comp_def]

/-- **Forward simulation over runs.** If a single call of the implementation answers as the
specification does and restores the relation, then so does every finite sequence of calls. -/
theorem run_refines_of_guarded {R : σ → τ → Prop} {ok : σ → ι → Prop}
    {step : σ → ι → Option (σ × ω)} {spec : τ → ι → Option (τ × ω)}
    (hstep : ∀ s t i t' o, R s t → ok s i → spec t i = some (t', o) →
      ∃ s', step s i = some (s', o) ∧ R s' t') :
    ∀ {is : List ι} {s : σ} {t t' : τ} {os : List ω}, R s t → Guarded ok step s is →
      run spec t is = some (t', os) → ∃ s', run step s is = some (s', os) ∧ R s' t' := by
  intro is
  induction is with
  | nil =>
    intro s t t' os hR _ hrun
    simp only [run_nil, Option.some.injEq, Prod.mk.injEq] at hrun
    obtain ⟨rfl, rfl⟩ := hrun
    exact ⟨s, rfl, hR⟩
  | cons i is ih =>
    intro s t t'' os hR hok hrun
    obtain ⟨t', o, os', hspec, hrest, rfl⟩ := run_cons_eq_some hrun
    obtain ⟨s', hs, hR'⟩ := hstep s t i t' o hR hok.1 hspec
    obtain ⟨s'', hs'', hR''⟩ := ih hR' (hok.2 s' o hs) hrest
    exact ⟨s'', by rw [run_cons_of_step hs, hs'', Option.map_some], hR''⟩

theorem guarded_true (step : σ → ι → Option (σ × ω)) :
    ∀ (is : List ι) (s : σ), Guarded (fun _ _ ↦ True) step s is
  | [], _ => trivial
  | _ :: is, _ => ⟨trivial, fun s' _ _ ↦ guarded_true step is s'⟩

/-- Forward simulation when every call the specification admits is unconditionally right. -/
theorem run_refines {R : σ → τ → Prop} {step : σ → ι → Option (σ × ω)}
    {spec : τ → ι → Option (τ × ω)}
    (hstep : ∀ s t i t' o, R s t → spec t i = some (t', o) →
      ∃ s', step s i = some (s', o) ∧ R s' t')
    {is : List ι} {s : σ} {t t' : τ} {os : List ω} (hR : R s t)
    (hrun : run spec t is = some (t', os)) : ∃ s', run step s is = some (s', os) ∧ R s' t' :=
  run_refines_of_guarded (fun s t i t' o hR _ ↦ hstep s t i t' o hR) hR (guarded_true step is s)
    hrun

/-- A specification without a precondition runs to the end of every sequence of calls. -/
theorem exists_run_of_total (spec : τ → ι → Option (τ × ω))
    (htotal : ∀ t i, ∃ p, spec t i = some p) :
    ∀ (is : List ι) (t : τ), ∃ t' os, run spec t is = some (t', os) := by
  intro is
  induction is with
  | nil => exact fun t ↦ ⟨t, [], rfl⟩
  | cons i is ih =>
    intro t
    obtain ⟨⟨t', o⟩, hp⟩ := htotal t i
    obtain ⟨t'', os, hrest⟩ := ih t'
    exact ⟨t'', o :: os, by rw [run_cons_of_step hp, hrest, Option.map_some]⟩

/-- A property that every call meeting `ok` preserves holds at the end of every run of such calls. -/
theorem run_invariant_of_guarded {P : σ → Prop} {ok : σ → ι → Prop} {step : σ → ι → Option (σ × ω)}
    (hstep : ∀ s i s' o, P s → ok s i → step s i = some (s', o) → P s') :
    ∀ {is : List ι} {s s' : σ} {os : List ω}, P s → Guarded ok step s is →
      run step s is = some (s', os) → P s' := by
  intro is
  induction is with
  | nil =>
    intro s s' os hP _ hrun
    simp only [run_nil, Option.some.injEq, Prod.mk.injEq] at hrun
    exact hrun.1 ▸ hP
  | cons i is ih =>
    intro s s'' os hP hok hrun
    obtain ⟨s', o, os', hs, hrest, -⟩ := run_cons_eq_some hrun
    exact ih (hstep s i s' o hP hok.1 hs) (hok.2 s' o hs) hrest

/-- A property that every call preserves holds at the end of every run. -/
theorem run_invariant {P : σ → Prop} {step : σ → ι → Option (σ × ω)}
    (hstep : ∀ s i s' o, P s → step s i = some (s', o) → P s')
    {is : List ι} {s s' : σ} {os : List ω} (hP : P s) (hrun : run step s is = some (s', os)) : P s' :=
  run_invariant_of_guarded (fun s i s' o hP _ ↦ hstep s i s' o hP) hP (guarded_true step is s) hrun

end CallMachine
