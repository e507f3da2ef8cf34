import LatteC.Listpack.Refinement
import LatteC.Foundation.Lookahead

/-!
# The iterator of a listpack

`list_pack_get_iterator` of `src/listpack/listpack.c`, in either direction. `has_next` moves the
pointer and `next` reads where it is. The pointer is NULL at the start and at the end, so behind the
end `has_next` starts all over again.
-/

namespace LatteC

open Lookahead

/-- `list_pack_prev`. The length of the entry in front is of type `uint64_t`. -/
def listPackPrev (lp : List UInt8) (p : ℕ) : Option (Option ℕ) :=
  if p = lpHdrSize then some none
  else
    (listPackDecodeBacklen lp (p - 1)).bind fun prevlen ↦
      let prevlen := (prevlen + listPackEncodeBacklenBytes prevlen) % 2 ^ 64
      if p < prevlen then none
      else
        (listPackGetTotalBytes lp).bind fun lpbytes ↦
          (listPackAssertValidEntry lp lpbytes (p - prevlen)).map fun _ ↦ some (p - prevlen)

/-- `list_pack_last`. -/
def listPackLast (lp : List UInt8) : Option (Option ℕ) :=
  (listPackGetTotalBytes lp).bind fun lpbytes ↦ listPackPrev lp (lpbytes - 1)

/-- `list_pack_iterator_has_next`. The state is the pointer `p`. -/
def listPackIteratorHasNext (lp : List UInt8) (whr : LpWhere) (p : Option ℕ) :
    Option (Option ℕ × Bool) :=
  let moved :=
    match whr, p with
    | .before, none => listPackLast lp
    | .before, some p => listPackPrev lp p
    | _, none => listPackFirst lp
    | _, some p => listPackNext lp p
  moved.map fun p ↦ (p, p.isSome)

/-- `list_pack_iterator_next`: the value, or NULL. -/
def listPackIteratorNext (lp : List UInt8) : Option ℕ → Option (Option ℕ × Option LpElement)
  | none => some (none, none)
  | some p => (listPackGet (lp.drop p)).map fun e ↦ (some p, some e)

/-- A call of the iterator. -/
def listPackIteratorStep (lp : List UInt8) (whr : LpWhere) (p : Option ℕ) :
    Call → Option (Option ℕ × Reply LpElement)
  | .hasNext => (listPackIteratorHasNext lp whr p).map fun r ↦ (r.1, .bool r.2)
  | .next => (listPackIteratorNext lp p).map fun r ↦ (r.1, .element r.2)

/-- The elements in the order of the iterator. -/
def LpWhere.order : LpWhere → List LpElement → List LpElement
  | .before, es => es.reverse
  | _, es => es

namespace LpHolds

variable {lp : List UInt8} {es L R : List LpElement} {e : LpElement}

/-- The entry in front of a position. -/
theorem listPackPrev_entry (h : LpHolds lp (L ++ e :: R)) :
    listPackPrev lp (lpHdrSize + (lpBody (L ++ [e])).length) =
      some (some (lpHdrSize + (lpBody L).length)) := by
  have htotal := h.totalBytes
  obtain ⟨A, C, rfl, hA, he, hlt⟩ := h.split
  have hlen := length_lpEntry e
  have hpos := listPackEncodeBacklenBytes_pos (lpPayload e).length
  have hle := listPackEncodeBacklenBytes_le (lpPayload e).length
  have hpay := length_lpPayload_lt he
  have hp : lpHdrSize + (lpBody (L ++ [e])).length = A.length + (lpEntry e).length := by
    rw [lpBody_append, lpBody_cons, lpBody_nil, List.append_nil, List.length_append, hA]
    omega
  have hmod : ((lpPayload e).length + listPackEncodeBacklenBytes (lpPayload e).length) % 2 ^ 64 =
      (lpEntry e).length := by
    rw [hlen, Nat.mod_eq_of_lt (by omega)]
  rw [hp, ← hA, listPackPrev, if_neg (by omega), listPackDecodeBacklen_entry he, Option.bind_some]
  simp only [hmod]
  rw [if_neg (by omega), htotal, Option.bind_some, Nat.add_sub_cancel, listPackAssertValidEntry,
    listPackValidateNext_entry he A C (by omega) hlt]
  rfl

theorem listPackLast_append (h : LpHolds lp (L ++ [e])) :
    listPackLast lp = some (some (lpHdrSize + (lpBody L).length)) := by
  rw [listPackLast, h.totalBytes, Option.bind_some]
  exact h.listPackPrev_entry

theorem listPackLast_nil (h : LpHolds lp []) : listPackLast lp = some none := by
  rw [listPackLast, h.totalBytes]
  rfl

theorem listPackPrev_first : listPackPrev lp (lpHdrSize + (lpBody []).length) = some none := rfl

end LpHolds

/-- The pointer is at the element `x`, with `ys` behind it in the order of the iterator. -/
def LpAt (es : List LpElement) (whr : LpWhere) (x : LpElement) (ys : List LpElement)
    (p : Option ℕ) : Prop :=
  ∃ L R, es = L ++ x :: R ∧ p = some (lpHdrSize + (lpBody L).length) ∧
    ys = if whr = .before then L.reverse else R

/-- What `has_next` does with `ys` still to come. -/
def LpHasNext (es : List LpElement) (whr : LpWhere) (ys : List LpElement)
    (r : Option (Option ℕ × Bool)) : Prop :=
  match ys with
  | [] => r = some (none, false)
  | y :: ys => ∃ p, r = some (p, true) ∧ LpAt es whr y ys p

section HasNext

variable {lp : List UInt8} {es : List LpElement} (h : LpHolds lp es) (whr : LpWhere)

include h

/-- `has_next` from NULL goes to the first element. -/
theorem listPackIteratorHasNext_none :
    LpHasNext es whr (whr.order es) (listPackIteratorHasNext lp whr none) := by
  by_cases hwhr : whr = .before
  · subst hwhr
    induction es using List.reverseRecOn with
    | nil =>
      change listPackIteratorHasNext lp .before none = some (none, false)
      rw [listPackIteratorHasNext]
      simp only [h.listPackLast_nil]
      rfl
    | append_singleton es e _ =>
      rw [LpWhere.order, List.reverse_append]
      refine ⟨some (lpHdrSize + (lpBody es).length), ?_, es, [], rfl, rfl, ?_⟩
      · rw [listPackIteratorHasNext]
        simp only [h.listPackLast_append]
        rfl
      · rfl
  · have horder : whr.order es = es := by
      cases whr with
      | before => exact absurd rfl hwhr
      | after => rfl
      | replace => rfl
    have hmove : listPackIteratorHasNext lp whr none =
        (listPackFirst lp).map fun p ↦ (p, p.isSome) := by
      cases whr with
      | before => exact absurd rfl hwhr
      | after => rfl
      | replace => rfl
    rw [horder, hmove, listPackFirst]
    cases es with
    | nil =>
      have heof := h.lpEntryAt_eof
      rw [lpBody_nil, List.length_nil, Nat.add_zero] at heof
      rw [heof]
      rfl
    | cons e es =>
      have hentry := h.lpEntryAt_entry (L := [])
      rw [lpBody_nil, List.length_nil, Nat.add_zero] at hentry
      exact ⟨some lpHdrSize, by rw [hentry]; rfl, [], es, rfl, rfl, by rw [if_neg hwhr]⟩

/-- `has_next` from an element goes to the next one. -/
theorem listPackIteratorHasNext_at {x : LpElement} {ys : List LpElement} {p : Option ℕ}
    (hp : LpAt es whr x ys p) : LpHasNext es whr ys (listPackIteratorHasNext lp whr p) := by
  obtain ⟨L, R, rfl, rfl, rfl⟩ := hp
  by_cases hwhr : whr = .before
  · subst hwhr
    rw [if_pos rfl]
    have hmove : ∀ q, listPackIteratorHasNext lp .before (some q) =
        (listPackPrev lp q).map fun p ↦ (p, p.isSome) := fun _ ↦ rfl
    induction L using List.reverseRecOn with
    | nil =>
      rw [hmove, LpHolds.listPackPrev_first]
      rfl
    | append_singleton L e _ =>
      rw [List.reverse_append]
      have h' : LpHolds lp (L ++ e :: (x :: R)) := by rwa [List.append_assoc] at h
      refine ⟨some (lpHdrSize + (lpBody L).length), ?_, L, x :: R, by rw [List.append_assoc]; rfl,
        rfl, rfl⟩
      rw [hmove, h'.listPackPrev_entry]
      rfl
  · rw [if_neg hwhr]
    have hmove : ∀ q, listPackIteratorHasNext lp whr (some q) =
        (listPackNext lp q).map fun p ↦ (p, p.isSome) := by
      intro q
      cases whr with
      | before => exact absurd rfl hwhr
      | after => rfl
      | replace => rfl
    rw [hmove, h.listPackNext_entry]
    cases R with
    | nil =>
      rw [h.lpEntryAt_eof]
      rfl
    | cons y R =>
      have h' : LpHolds lp ((L ++ [x]) ++ y :: R) := by rwa [List.append_assoc]
      refine ⟨some (lpHdrSize + (lpBody (L ++ [x])).length), ?_, L ++ [x], R, by
        rw [List.append_assoc]; rfl, rfl, by rw [if_neg hwhr]⟩
      rw [h'.lpEntryAt_entry]
      rfl

theorem listPackIteratorNext_at {x : LpElement} {ys : List LpElement} {p : Option ℕ}
    (hp : LpAt es whr x ys p) : listPackIteratorNext lp p = some (p, some x) := by
  obtain ⟨L, R, rfl, rfl, -⟩ := hp
  rw [listPackIteratorNext, h.listPackGet_at]
  rfl

/-- The iterator moves on in `has_next` only, and starts again behind the end. -/
def listPackIteratorImpl : Impl (listPackIteratorStep lp whr) false false (whr.order es) where
  Ready prev rest p :=
    match prev with
    | none => p = none ∧ rest = whr.order es
    | some x => LpAt es whr x rest p
  Fetched x rest p := LpAt es whr x rest p
  Ended p := p = none
  hasNext_cons {prev y ys p} hp := by
    cases prev with
    | none =>
      obtain ⟨rfl, hrest⟩ := hp
      have hnew := listPackIteratorHasNext_none h whr
      rw [← hrest] at hnew
      obtain ⟨p', hhas, hat⟩ := hnew
      exact ⟨p', by rw [listPackIteratorStep, hhas]; rfl, hat⟩
    | some x =>
      obtain ⟨p', hhas, hat⟩ := listPackIteratorHasNext_at h whr hp
      exact ⟨p', by rw [listPackIteratorStep, hhas]; rfl, hat⟩
  hasNext_nil {prev p} hp := by
    cases prev with
    | none =>
      obtain ⟨rfl, hrest⟩ := hp
      have hnew := listPackIteratorHasNext_none h whr
      rw [← hrest] at hnew
      exact ⟨none, by rw [listPackIteratorStep, hnew]; rfl, rfl⟩
    | some x =>
      have hhas := listPackIteratorHasNext_at h whr hp
      exact ⟨none, by rw [listPackIteratorStep, hhas]; rfl, rfl⟩
  next_fetched {x ys p} hp :=
    ⟨p, by rw [listPackIteratorStep, listPackIteratorNext_at h whr hp]; rfl, hp⟩
  skip_cons hp := by
    obtain ⟨p', hhas, hat⟩ := listPackIteratorHasNext_at h whr hp
    exact ⟨p', by rw [listPackIteratorStep, hhas]; rfl, hat⟩
  skip_nil hp := by
    have hhas := listPackIteratorHasNext_at h whr hp
    exact ⟨none, by rw [listPackIteratorStep, hhas]; rfl⟩
  next_start hp := by
    obtain ⟨rfl, -⟩ := hp
    rw [listPackIteratorStep, listPackIteratorNext]
    exact fun hstep ↦ nomatch hstep
  next_direct hdirect := nomatch hdirect
  next_again _ {x y ys p p'} hp hstep := by
    -- the same element once more
    rw [listPackIteratorStep, listPackIteratorNext_at h whr hp, Option.map_some, Option.some.injEq,
      Prod.mk.injEq, Reply.element.injEq, Option.some.injEq] at hstep
    exact hstep.2.symm
  ended_false hagain {p} hp := by
    have hall : whr.order es = [] := hagain.resolve_left Bool.false_ne_true
    have hnew := listPackIteratorHasNext_none h whr
    rw [hall] at hnew
    exact ⟨none, by rw [hp, listPackIteratorStep, hnew]; rfl, rfl⟩
  ended_true _ hall {p} hp := by
    have hnew := listPackIteratorHasNext_none h whr
    obtain ⟨y, ys, hys⟩ := List.exists_cons_of_ne_nil hall
    rw [hys] at hnew
    obtain ⟨p', hhas, -⟩ := hnew
    exact ⟨p', by rw [hp, listPackIteratorStep, hhas]; rfl⟩

end HasNext

end LatteC
