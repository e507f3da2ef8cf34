import Mathlib.Data.List.Nodup
import Mathlib.Algebra.Order.Group.Nat

/-!
# Iterators that move on in `hasNext`

The contract of an iterator over a sequence: `hasNext` only looks, `next` takes. An implementation
may instead fetch the next element in `hasNext` and hand it out in `next`. This file says, for
any such implementation, which sequences of calls it serves as the contract wants (`Follows`), and
that it serves no others if the elements are different.

Two things are left to the implementation: whether `next` right behind a `next` fetches an element by
itself (`direct`), and whether `hasNext` behind the end stays false (`again`).
-/

namespace Lookahead

/-- A call of an iterator. -/
inductive Call where
  | hasNext
  | next
  deriving DecidableEq

/-- What a call returns. -/
inductive Reply (α : Type*) where
  | bool (b : Bool)
  | element (x : Option α)

variable {σ α : Type*} (step : σ → Call → Option (σ × Reply α))

/-- The replies to the calls are those of a sequence of which `xs` has not been taken yet. There is
no call of `next` beyond its end. -/
def Meets : σ → List α → List Call → Prop
  | _, _, [] => True
  | s, xs, .hasNext :: cs =>
    ∃ s', step s .hasNext = some (s', .bool !xs.isEmpty) ∧ Meets s' xs cs
  | _, [], .next :: _ => False
  | s, x :: xs, .next :: cs =>
    ∃ s', step s .next = some (s', .element (some x)) ∧ Meets s' xs cs

/-- Where such an iterator is: nothing is fetched (and nothing has ever been), an element is fetched,
or `hasNext` has come to the end. -/
inductive Phase where
  | ready (first : Bool)
  | fetched
  | ended

/-- The calls that are served, with `m` elements not taken yet out of `n`. -/
def Follows (direct again : Bool) (n : ℕ) : Phase → (m : ℕ) → List Call → Prop
  | _, _, [] => True
  | .ready _, m, .hasNext :: cs =>
    if m = 0 then Follows direct again n .ended 0 cs else Follows direct again n .fetched m cs
  | .ready first, m, .next :: cs =>
    direct = true ∧ first = false ∧ Follows direct again n (.ready false) (m - 1) cs
  | .fetched, m, .next :: cs => Follows direct again n (.ready false) (m - 1) cs
  -- the fetched element is passed over: it can only be looked at how many there are
  | .fetched, m, .hasNext :: cs => (∀ c ∈ cs, c = .hasNext) ∧ cs.length + 2 ≤ m
  | .ended, m, .hasNext :: cs => (again = true ∨ n = 0) ∧ Follows direct again n .ended m cs
  | .ended, _, .next :: _ => False

/-- An implementation over the elements `all`: what its states mean, and what the calls do. -/
structure Impl (direct again : Bool) (all : List α) where
  /-- Nothing is fetched. The last element taken, if any, and those to come. -/
  Ready : Option α → List α → σ → Prop
  /-- An element is fetched. That element, and those behind it. -/
  Fetched : α → List α → σ → Prop
  /-- `hasNext` has returned false. -/
  Ended : σ → Prop
  hasNext_cons : ∀ {p y ys s}, Ready p (y :: ys) s →
    ∃ s', step s .hasNext = some (s', .bool true) ∧ Fetched y ys s'
  hasNext_nil : ∀ {p s}, Ready p [] s → ∃ s', step s .hasNext = some (s', .bool false) ∧ Ended s'
  next_fetched : ∀ {x ys s}, Fetched x ys s →
    ∃ s', step s .next = some (s', .element (some x)) ∧ Ready (some x) ys s'
  skip_cons : ∀ {x y ys s}, Fetched x (y :: ys) s →
    ∃ s', step s .hasNext = some (s', .bool true) ∧ Fetched y ys s'
  skip_nil : ∀ {x s}, Fetched x [] s → ∃ s', step s .hasNext = some (s', .bool false)
  /-- `next` without `hasNext`, at the start. -/
  next_start : ∀ {y ys s s'}, Ready none (y :: ys) s → step s .next ≠ some (s', .element (some y))
  /-- `next` without `hasNext`, later. -/
  next_direct : direct = true → ∀ {x y ys s}, Ready (some x) (y :: ys) s →
    ∃ s', step s .next = some (s', .element (some y)) ∧ Ready (some y) ys s'
  next_again : direct = false → ∀ {x y ys s s'}, Ready (some x) (y :: ys) s →
    step s .next = some (s', .element (some y)) → y = x
  ended_false : again = true ∨ all = [] → ∀ {s}, Ended s →
    ∃ s', step s .hasNext = some (s', .bool false) ∧ Ended s'
  ended_true : again = false → all ≠ [] → ∀ {s}, Ended s →
    ∃ s', step s .hasNext = some (s', .bool true)

namespace Impl

variable {step} {direct again : Bool} {all : List α} (I : Impl step direct again all)

/-- Behind a fetched element, `hasNext` keeps counting down. -/
theorem meets_hasNext {cs : List Call} : ∀ {y : α} {ys xs : List α} {s : σ}, I.Fetched y ys s →
    xs ≠ [] → (∀ c ∈ cs, c = .hasNext) → cs.length ≤ ys.length → Meets step s xs cs := by
  induction cs with
  | nil => exact fun _ _ _ _ ↦ trivial
  | cons c cs ih =>
    intro y ys xs s hs hxs hall hlen
    rw [hall c List.mem_cons_self]
    obtain ⟨z, zs, rfl⟩ : ∃ z zs, ys = z :: zs := List.exists_cons_of_length_pos
      ((Nat.succ_pos _).trans_le hlen)
    obtain ⟨s', hstep, hs'⟩ := I.skip_cons hs
    obtain ⟨x, xs, rfl⟩ := List.exists_cons_of_ne_nil hxs
    exact ⟨s', hstep, ih hs' hxs (fun c hc ↦ hall c (List.mem_cons_of_mem _ hc))
      (Nat.le_of_succ_le_succ hlen)⟩

/-- Once an element has been passed over, nothing else than `hasNext` can be right. -/
theorem hasNext_of_meets {cs : List Call} : ∀ {x y : α} {ys xs : List α} {s : σ},
    I.Fetched y ys s → x ≠ y → x ∉ ys → Meets step s (x :: xs) cs →
      (∀ c ∈ cs, c = .hasNext) ∧ cs.length ≤ ys.length := by
  induction cs with
  | nil => exact fun _ _ _ _ ↦ ⟨fun c hc ↦ (List.not_mem_nil hc).elim, Nat.zero_le _⟩
  | cons c cs ih =>
    intro x y ys xs s hs hxy hx hmeets
    cases c with
    | hasNext =>
      obtain ⟨s₁, hstep₁, hmeets⟩ := hmeets
      cases ys with
      | nil =>
        obtain ⟨s₂, hstep₂⟩ := I.skip_nil hs
        rw [hstep₁] at hstep₂
        cases hstep₂
      | cons z zs =>
        obtain ⟨s₂, hstep₂, hs₂⟩ := I.skip_cons hs
        rw [hstep₁, Option.some.injEq, Prod.mk.injEq] at hstep₂
        obtain ⟨rfl, -⟩ := hstep₂
        rw [List.mem_cons, not_or] at hx
        obtain ⟨hall, hlen⟩ := ih hs₂ hx.1 hx.2 hmeets
        refine ⟨fun c hc ↦ ?_, Nat.succ_le_succ hlen⟩
        rcases List.mem_cons.mp hc with rfl | hc
        · rfl
        · exact hall c hc
    | next =>
      obtain ⟨s₁, hstep₁, -⟩ := hmeets
      obtain ⟨s₂, hstep₂, -⟩ := I.next_fetched hs
      rw [hstep₁, Option.some.injEq, Prod.mk.injEq, Reply.element.injEq, Option.some.injEq] at hstep₂
      exact absurd hstep₂.2 hxy

/-- What the three phases have to serve. -/
private def Serves (cs : List Call) : Prop :=
  (∀ {p rest s}, I.Ready p rest s → cs.count .next ≤ rest.length →
    Follows direct again all.length (.ready p.isNone) rest.length cs → Meets step s rest cs) ∧
  (∀ {x rest s}, I.Fetched x rest s → cs.count .next ≤ rest.length + 1 →
    Follows direct again all.length .fetched (rest.length + 1) cs → Meets step s (x :: rest) cs) ∧
  ∀ {s}, I.Ended s → Follows direct again all.length .ended 0 cs → Meets step s [] cs

private theorem serves (cs : List Call) : I.Serves cs := by
  induction cs with
  | nil => exact ⟨fun _ _ _ ↦ trivial, fun _ _ _ ↦ trivial, fun _ _ ↦ trivial⟩
  | cons c cs ih =>
    obtain ⟨ihready, ihfetched, ihended⟩ := ih
    cases c with
    | hasNext =>
      refine ⟨fun {p rest s} hs hcount hf ↦ ?_, fun {x rest s} hs hcount hf ↦ ?_,
        fun {s} hs hf ↦ ?_⟩
      · rw [List.count_cons_of_ne (by decide)] at hcount
        cases rest with
        | nil =>
          obtain ⟨s', hstep, hs'⟩ := I.hasNext_nil hs
          exact ⟨s', hstep, ihended hs' hf⟩
        | cons y ys =>
          obtain ⟨s', hstep, hs'⟩ := I.hasNext_cons hs
          exact ⟨s', hstep, ihfetched hs' hcount hf⟩
      · obtain ⟨hall, hlen⟩ := hf
        cases rest with
        | nil => exact absurd hlen (by simp)
        | cons y ys =>
          obtain ⟨s', hstep, hs'⟩ := I.skip_cons hs
          rw [List.length_cons] at hlen
          exact ⟨s', hstep, I.meets_hasNext hs' (List.cons_ne_nil _ _) hall
            (Nat.le_of_add_le_add_right hlen)⟩
      · obtain ⟨hagain, hf⟩ := hf
        obtain ⟨s', hstep, hs'⟩ := I.ended_false (hagain.imp_right List.length_eq_zero_iff.mp) hs
        exact ⟨s', hstep, ihended hs' hf⟩
    | next =>
      refine ⟨fun {p rest s} hs hcount hf ↦ ?_, fun {x rest s} hs hcount hf ↦ ?_,
        fun {s} hs hf ↦ hf.elim⟩
      · rw [List.count_cons_self] at hcount
        obtain ⟨hdirect, hfirst, hf⟩ := hf
        obtain ⟨y, ys, rfl⟩ := List.exists_cons_of_length_pos ((Nat.succ_pos _).trans_le hcount)
        cases p with
        | none => cases hfirst
        | some x =>
          obtain ⟨s', hstep, hs'⟩ := I.next_direct hdirect hs
          exact ⟨s', hstep, ihready hs' (Nat.le_of_succ_le_succ hcount) hf⟩
      · rw [List.count_cons_self] at hcount
        obtain ⟨s', hstep, hs'⟩ := I.next_fetched hs
        exact ⟨s', hstep, ihready hs' (Nat.le_of_succ_le_succ hcount) hf⟩

/-- **Calls that follow the pattern are served** as the contract wants. -/
theorem meets_of_follows {s : σ} (hs : I.Ready none all s) {cs : List Call}
    (hcount : cs.count .next ≤ all.length)
    (hf : Follows direct again all.length (.ready true) all.length cs) : Meets step s all cs :=
  (I.serves cs).1 hs hcount hf

/-- What each of the three phases needs. -/
private def Needs (cs : List Call) : Prop :=
  (∀ {p rest s}, I.Ready p rest s → rest.Nodup → (∀ x ∈ p, x ∉ rest) → Meets step s rest cs →
    Follows direct again all.length (.ready p.isNone) rest.length cs) ∧
  (∀ {x rest s}, I.Fetched x rest s → (x :: rest).Nodup → Meets step s (x :: rest) cs →
    Follows direct again all.length .fetched (rest.length + 1) cs) ∧
  ∀ {s}, I.Ended s → Meets step s [] cs → Follows direct again all.length .ended 0 cs

private theorem needs (cs : List Call) : I.Needs cs := by
  induction cs with
  | nil => exact ⟨fun _ _ _ _ ↦ trivial, fun _ _ _ ↦ trivial, fun _ _ ↦ trivial⟩
  | cons c cs ih =>
    obtain ⟨ihready, ihfetched, ihended⟩ := ih
    cases c with
    | hasNext =>
      refine ⟨fun {p rest s} hs hnd hp hm ↦ ?_, fun {x rest s} hs hnd hm ↦ ?_, fun {s} hs hm ↦ ?_⟩
      · obtain ⟨s₁, hstep₁, hm⟩ := hm
        cases rest with
        | nil =>
          obtain ⟨s₂, hstep₂, hs₂⟩ := I.hasNext_nil hs
          rw [hstep₁, Option.some.injEq, Prod.mk.injEq] at hstep₂
          obtain ⟨rfl, -⟩ := hstep₂
          exact ihended hs₂ hm
        | cons y ys =>
          obtain ⟨s₂, hstep₂, hs₂⟩ := I.hasNext_cons hs
          rw [hstep₁, Option.some.injEq, Prod.mk.injEq] at hstep₂
          obtain ⟨rfl, -⟩ := hstep₂
          exact ihfetched hs₂ hnd hm
      · obtain ⟨s₁, hstep₁, hm⟩ := hm
        cases rest with
        | nil =>
          obtain ⟨s₂, hstep₂⟩ := I.skip_nil hs
          rw [hstep₁] at hstep₂
          cases hstep₂
        | cons y ys =>
          obtain ⟨s₂, hstep₂, hs₂⟩ := I.skip_cons hs
          rw [hstep₁, Option.some.injEq, Prod.mk.injEq] at hstep₂
          obtain ⟨rfl, -⟩ := hstep₂
          have hx := (List.nodup_cons.mp hnd).1
          rw [List.mem_cons, not_or] at hx
          obtain ⟨hall, hlen⟩ := I.hasNext_of_meets hs₂ hx.1 hx.2 hm
          exact ⟨hall, Nat.add_le_add_right hlen 2⟩
      · obtain ⟨s₁, hstep₁, hm⟩ := hm
        have hagain : again = true ∨ all = [] := by
          by_contra hnot
          rw [not_or, Bool.not_eq_true] at hnot
          obtain ⟨s₂, hstep₂⟩ := I.ended_true hnot.1 hnot.2 hs
          rw [hstep₁] at hstep₂
          cases hstep₂
        obtain ⟨s₂, hstep₂, hs₂⟩ := I.ended_false hagain hs
        rw [hstep₁, Option.some.injEq, Prod.mk.injEq] at hstep₂
        obtain ⟨rfl, -⟩ := hstep₂
        exact ⟨hagain.imp_right List.length_eq_zero_iff.mpr, ihended hs₂ hm⟩
    | next =>
      refine ⟨fun {p rest s} hs hnd hp hm ↦ ?_, fun {x rest s} hs hnd hm ↦ ?_,
        fun {s} hs hm ↦ hm.elim⟩
      · cases rest with
        | nil => exact hm.elim
        | cons y ys =>
          obtain ⟨s₁, hstep₁, hm⟩ := hm
          cases p with
          | none => exact absurd hstep₁ (I.next_start hs)
          | some x =>
            cases hdirect : direct with
            | false => exact absurd (I.next_again hdirect hs hstep₁ ▸ List.mem_cons_self) (hp x rfl)
            | true =>
              obtain ⟨s₂, hstep₂, hs₂⟩ := I.next_direct hdirect hs
              rw [hstep₁, Option.some.injEq, Prod.mk.injEq] at hstep₂
              obtain ⟨rfl, -⟩ := hstep₂
              have hnd' := List.nodup_cons.mp hnd
              subst hdirect
              exact ⟨rfl, rfl, ihready hs₂ hnd'.2 (fun z hz ↦ by
                rw [← Option.some.inj hz]
                exact hnd'.1) hm⟩
      · obtain ⟨s₁, hstep₁, hm⟩ := hm
        obtain ⟨s₂, hstep₂, hs₂⟩ := I.next_fetched hs
        rw [hstep₁, Option.some.injEq, Prod.mk.injEq] at hstep₂
        obtain ⟨rfl, -⟩ := hstep₂
        have hnd' := List.nodup_cons.mp hnd
        exact ihready hs₂ hnd'.2 (fun z hz ↦ by
          rw [← Option.some.inj hz]
          exact hnd'.1) hm

/-- **No other calls are served**, if the elements are different. -/
theorem follows_of_meets {s : σ} (hs : I.Ready none all s) (hnd : all.Nodup) {cs : List Call}
    (hm : Meets step s all cs) :
    Follows direct again all.length (.ready true) all.length cs :=
  (I.needs cs).1 hs hnd (fun _ hx ↦ by cases hx) hm

end Impl

/-- Of the calls that do not ask for more elements than there are, those that follow the pattern are
served; if the elements are different, no others are. -/
def Exactly (direct again : Bool) (s : σ) (all : List α) : Prop :=
  ∀ cs : List Call, cs.count .next ≤ all.length →
    (Follows direct again all.length (.ready true) all.length cs → Meets step s all cs) ∧
      (all.Nodup → Meets step s all cs →
        Follows direct again all.length (.ready true) all.length cs)

theorem Impl.exactly {step : σ → Call → Option (σ × Reply α)} {direct again : Bool}
    {all : List α} (I : Impl step direct again all) {s : σ} (hs : I.Ready none all s) :
    Exactly step direct again s all :=
  fun _ hcount ↦ ⟨I.meets_of_follows hs hcount, fun hnd ↦ I.follows_of_meets hs hnd⟩

end Lookahead
