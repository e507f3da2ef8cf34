import LatteC.Foundation.StepMachine
import Mathlib.Data.List.Infix

/-!
# Machines that read a text

A position of a machine is a condition on its states for every text that is still to be read. A machine
reads `s` from one position to another if it gets there whatever follows, as long as it may follow, and if
it comes to a refusal where the text is cut off within `s`. It refuses `s` if it comes to a refusal in both
cases. What a machine does with a text that is made of two is put together from what it does with each.
-/

namespace StepMachine

variable {α β γ σ ω : Type*}

/-- The text goes on with a character that is allowed. -/
def HeadIs (ok : α → Prop) (rest : List α) : Prop := ∃ c cs, rest = c :: cs ∧ ok c

/-- From `A` the machine reads `s` and comes to `B`. With `s` as the whole text it ends in `W`, and where `s`
is cut off it ends in `R`. -/
structure Reads (step : σ → σ ⊕ ω) (R : ω → Prop) (A : List α → σ → Prop) (s : List α)
    (B : List α → σ → Prop) (W : ω → Prop) (ok : α → Prop) : Prop where
  moves : ∀ rest, HeadIs ok rest → Moves step (A (s ++ rest)) (B rest)
  whole : Stops step (A s) W
  cut : ∀ p, p <+: s → p ≠ s → Stops step (A p) R

/-- From `A` the machine refuses `s`. -/
structure Refuses (step : σ → σ ⊕ ω) (R : ω → Prop) (A : List α → σ → Prop) (s : List α)
    (ok : α → Prop) : Prop where
  onward : ∀ rest, HeadIs ok rest → Stops step (A (s ++ rest)) R
  cut : ∀ p, p <+: s → Stops step (A p) R

/-- From `A` the machine reads `s`, with a value, or refuses it. -/
def Outcome (step : σ → σ ⊕ ω) (R : ω → Prop) (A : List α → σ → Prop) (s : List α)
    (B : β → List α → σ → Prop) (W : β → ω → Prop) (ok : α → Prop) : Option β → Prop
  | some v => Reads step R A s (B v) (W v) ok
  | none => Refuses step R A s ok

/-! ## What follows -/

section HeadIs

variable {ok ok' : α → Prop} {s t : List α}

theorem HeadIs.append (h : HeadIs ok s) (t : List α) : HeadIs ok (s ++ t) := by
  obtain ⟨c, cs, rfl, hc⟩ := h
  exact ⟨c, cs ++ t, rfl, hc⟩

theorem HeadIs.mono (h : HeadIs ok s) (himp : ∀ c, ok c → ok' c) : HeadIs ok' s := by
  obtain ⟨c, cs, rfl, hc⟩ := h
  exact ⟨c, cs, rfl, himp c hc⟩

theorem HeadIs.of_prefix (h : HeadIs ok t) (hs : s ≠ []) (hst : s <+: t) : HeadIs ok s := by
  obtain ⟨c, cs, rfl, hc⟩ := h
  obtain rfl | ⟨s', rfl, -⟩ := List.prefix_cons_iff.mp hst
  · exact absurd rfl hs
  · exact ⟨c, s', rfl, hc⟩

theorem headIs_cons {c : α} (hc : ok c) (s : List α) : HeadIs ok (c :: s) := ⟨c, s, rfl, hc⟩

end HeadIs

/-- A text that is cut off ends within the first part, or after it. -/
theorem prefix_append_cases {p s t : List α} (h : p <+: s ++ t) :
    (p <+: s ∧ p ≠ s) ∨ p = s ∨ ∃ p', p = s ++ p' ∧ p' ≠ [] ∧ p' <+: t := by
  obtain hps | ⟨p', rfl⟩ := List.prefix_or_prefix_of_prefix h (List.prefix_append s t)
  · by_cases heq : p = s
    · exact .inr (.inl heq)
    · exact .inl ⟨hps, heq⟩
  · by_cases hnil : p' = []
    · exact .inr (.inl (by rw [hnil, List.append_nil]))
    · exact .inr (.inr ⟨p', rfl, hnil, (List.prefix_append_right_inj s).mp h⟩)

/-! ## Putting readings together -/

section Append

variable {step : σ → σ ⊕ ω} {R W : ω → Prop} {A A' B C : List α → σ → Prop} {s t : List α}
  {ok ok' : α → Prop}

theorem Stops.mono {X : σ → Prop} {P Q : ω → Prop} (h : Stops step X P) (hPQ : ∀ o, P o → Q o) :
    Stops step X Q := by
  intro x hx
  obtain ⟨o, hends, ho⟩ := h x hx
  exact ⟨o, hends, hPQ o ho⟩

theorem Reads.append (h : Reads step R A s B R ok) (h' : Reads step R B t C W ok')
    (ht : HeadIs ok t) : Reads step R A (s ++ t) C W ok' where
  moves rest hrest := by
    rw [List.append_assoc]
    exact (h.moves _ (ht.append rest)).trans (h'.moves rest hrest)
  whole := (h.moves t ht).stops h'.whole
  cut p hp hne := by
    obtain ⟨hps, hne'⟩ | rfl | ⟨p', rfl, hnil, hp'⟩ := prefix_append_cases hp
    · exact h.cut p hps hne'
    · exact h.whole
    · have hne' : p' ≠ t := fun heq ↦ hne (by rw [heq])
      exact (h.moves p' (ht.of_prefix hnil hp')).stops (h'.cut p' hp' hne')

theorem Reads.refuses (h : Reads step R A s B R ok) (h' : Refuses step R B t ok')
    (ht : HeadIs ok t) : Refuses step R A (s ++ t) ok' where
  onward rest hrest := by
    rw [List.append_assoc]
    exact (h.moves _ (ht.append rest)).stops (h'.onward rest hrest)
  cut p hp := by
    obtain ⟨hps, hne'⟩ | rfl | ⟨p', rfl, hnil, hp'⟩ := prefix_append_cases hp
    · exact h.cut p hps hne'
    · exact h.whole
    · exact (h.moves p' (ht.of_prefix hnil hp')).stops (h'.cut p' hp')

theorem Refuses.append (h : Refuses step R A s ok) (ht : HeadIs ok t) :
    Refuses step R A (s ++ t) ok' where
  onward rest _ := by
    rw [List.append_assoc]
    exact h.onward _ (ht.append rest)
  cut p hp := by
    obtain ⟨hps, -⟩ | rfl | ⟨p', rfl, hnil, hp'⟩ := prefix_append_cases hp
    · exact h.cut p hps
    · exact h.cut p List.prefix_rfl
    · exact h.onward p' (ht.of_prefix hnil hp')

/-- **A machine on a text of two parts.** -/
theorem Outcome.bind {o : Option β} {f : β → Option γ} {B : β → List α → σ → Prop}
    {C : γ → List α → σ → Prop} {W : γ → ω → Prop}
    (h : Outcome step R A s B (fun _ ↦ R) ok o) (ht : HeadIs ok t)
    (h' : ∀ v, o = some v → Outcome step R (B v) t C W ok' (f v)) :
    Outcome step R A (s ++ t) C W ok' (o.bind f) := by
  cases o with
  | none => exact Refuses.append h ht
  | some v =>
    have h' := h' v rfl
    rw [Option.bind_some]
    cases hf : f v with
    | none =>
      rw [hf] at h'
      exact Reads.refuses h h' ht
    | some w =>
      rw [hf] at h'
      exact Reads.append h h' ht

/-- A machine that has read what anything may follow. -/
theorem Outcome.after {o : Option γ} {C : γ → List α → σ → Prop} {W : γ → ω → Prop}
    (h : Reads step R A s B R fun _ ↦ True) (h' : Outcome step R B t C W ok o)
    (ht : t = [] → ∀ w x, R x → W w x) : Outcome step R A (s ++ t) C W ok o := by
  have hhead : ∀ u : List α, u ≠ [] → HeadIs (fun _ ↦ True) u := by
    intro u hu
    obtain ⟨c, cs, rfl⟩ := List.exists_cons_of_ne_nil hu
    exact headIs_cons trivial cs
  have hfollow : ∀ rest, HeadIs ok rest → HeadIs (fun _ ↦ True) (t ++ rest) := by
    rintro rest ⟨c, cs, rfl, -⟩
    exact hhead _ (List.append_ne_nil_of_right_ne_nil t (List.cons_ne_nil c cs))
  cases o with
  | none =>
    refine ⟨fun rest hrest ↦ ?_, fun p hp ↦ ?_⟩
    · rw [List.append_assoc]
      exact (h.moves _ (hfollow rest hrest)).stops (Refuses.onward h' rest hrest)
    · obtain ⟨hps, hne'⟩ | rfl | ⟨p', rfl, hnil, hp'⟩ := prefix_append_cases hp
      · exact h.cut p hps hne'
      · exact h.whole
      · exact (h.moves p' (hhead p' hnil)).stops (Refuses.cut h' p' hp')
  | some w =>
    refine ⟨fun rest hrest ↦ ?_, ?_, fun p hp hne ↦ ?_⟩
    · rw [List.append_assoc]
      exact (h.moves _ (hfollow rest hrest)).trans (Reads.moves h' rest hrest)
    · by_cases hnil : t = []
      · rw [hnil, List.append_nil]
        exact h.whole.mono (ht hnil w)
      · exact (h.moves t (hhead t hnil)).stops (Reads.whole h')
    · obtain ⟨hps, hne'⟩ | rfl | ⟨p', rfl, hnil, hp'⟩ := prefix_append_cases hp
      · exact h.cut p hps hne'
      · exact h.whole
      · have hne' : p' ≠ t := fun heq ↦ hne (by rw [heq])
        exact (h.moves p' (hhead p' hnil)).stops (Reads.cut h' p' hp' hne')

/-- A reading may begin with a turn that passes nothing. -/
theorem Outcome.turn {o : Option β} {B : β → List α → σ → Prop} {W : β → ω → Prop}
    (h : Outcome step R A' s B W ok o) (hmoves : ∀ rest, Moves step (A (s ++ rest)) (A' (s ++ rest)))
    (hcut : ∀ p, p <+: s → Moves step (A p) (A' p) ∨ Stops step (A p) R) :
    Outcome step R A s B W ok o := by
  have hwhole : Moves step (A s) (A' s) := by
    have hnil := hmoves []
    rwa [List.append_nil] at hnil
  cases o with
  | none =>
    refine ⟨fun rest hrest ↦ (hmoves rest).stops (Refuses.onward h rest hrest), fun p hp ↦ ?_⟩
    obtain hturn | hstop := hcut p hp
    · exact hturn.stops (Refuses.cut h p hp)
    · exact hstop
  | some v =>
    refine ⟨fun rest hrest ↦ (hmoves rest).trans (Reads.moves h rest hrest),
      hwhole.stops (Reads.whole h), fun p hp hne ↦ ?_⟩
    obtain hturn | hstop := hcut p hp
    · exact hturn.stops (Reads.cut h p hp hne)
    · exact hstop

theorem Outcome.mono_right {o : Option β} {B C : β → List α → σ → Prop} {W : β → ω → Prop}
    (h : Outcome step R A s B W ok o) (himp : ∀ v rest x, B v rest x → C v rest x) :
    Outcome step R A s C W ok o := by
  cases o with
  | none => exact h
  | some v =>
    exact ⟨fun rest hrest ↦ (Reads.moves h rest hrest).trans (.of_imp (himp v rest)),
      Reads.whole h, Reads.cut h⟩

theorem Outcome.map {o : Option β} {g : β → γ} {B : γ → List α → σ → Prop} {W : γ → ω → Prop}
    (h : Outcome step R A s (fun v ↦ B (g v)) (fun v ↦ W (g v)) ok o) :
    Outcome step R A s B W ok (o.map g) := by
  cases o with
  | none => exact h
  | some v => exact h

theorem Outcome.mono {o : Option β} {B : β → List α → σ → Prop} {W : β → ω → Prop}
    (h : Outcome step R A s B W ok o) (himp : ∀ c, ok' c → ok c) :
    Outcome step R A s B W ok' o := by
  cases o with
  | none => exact ⟨fun rest hrest ↦ Refuses.onward h rest (hrest.mono himp), Refuses.cut h⟩
  | some v =>
    exact ⟨fun rest hrest ↦ Reads.moves h rest (hrest.mono himp), Reads.whole h, Reads.cut h⟩

end Append

end StepMachine
