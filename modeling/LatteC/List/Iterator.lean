import LatteC.List.Refinement
import LatteC.Foundation.Lookahead

/-!
# The iterator of a linked list

`list_get_latte_iterator` of `src/list/list.c`, modelled with the list. `has_next` calls `list_next`
and keeps the node; `next` hands its value out and forgets it, and dereferences NULL if there is no
such node.
-/

namespace LatteC

open DoublyLinked Lookahead

variable {α : Type}

/-- A call of the iterator. -/
def latteListIteratorStep (h : Heap α) (it : LatteListIterator) :
    Call → Option (LatteListIterator × Reply α)
  | .hasNext => (latteListIteratorHasNext h it).map fun r ↦ (r.1, .bool r.2)
  | .next => (latteListIteratorNext h it).map fun r ↦ (r.1, .element (some r.2))

/-- The pointer that an iterator follows. -/
def ListDirection.pointer : ListDirection → Cell α → Option ℕ
  | .startHead => Cell.next
  | .startTail => Cell.prev

/-- The values in the order of the iterator. -/
def ListDirection.order : ListDirection → List α → List α
  | .startHead, xs => xs
  | .startTail, xs => xs.reverse

/-- The list iterator still has these values in front of it. -/
def ListIterator.Ahead (h : Heap α) (direction : ListDirection) (rest : List α)
    (it : ListIterator) : Prop :=
  it.direction = direction ∧ ∃ xs, Walk direction.pointer h it.next xs ∧ rest = xs.map Prod.snd

namespace ListIterator.Ahead

variable {h : Heap α} {direction : ListDirection} {it : ListIterator}

theorem listNext_nil (ha : it.Ahead h direction []) : listNext h it = some (it, none) := by
  obtain ⟨-, xs, hwalk, hxs⟩ := ha
  obtain rfl : xs = [] := List.map_eq_nil_iff.mp hxs.symm
  have hnext : it.next = none := hwalk
  rw [listNext, hnext]

/-- `list_next` comes to the next node. -/
theorem listNext_cons {y : α} {ys : List α} (ha : it.Ahead h direction (y :: ys)) :
    ∃ it' a c, listNext h it = some (it', some a) ∧ h.cells a = some c ∧ c.value = y ∧
      it'.Ahead h direction ys := by
  obtain ⟨hdir, xs, hwalk, hxs⟩ := ha
  obtain ⟨x, xs, rfl, rfl, rfl⟩ := List.map_eq_cons_iff.mp hxs.symm
  obtain ⟨hnext, c, hc, hvalue, hwalk⟩ := hwalk
  refine ⟨{ it with next := direction.pointer c }, x.1, c, ?_, hc, hvalue, hdir, xs, hwalk, rfl⟩
  rw [listNext, hnext]
  simp only [hc, Option.map_some, hdir]
  cases direction <;> rfl

end ListIterator.Ahead

/-- The iterator moves on in `has_next` only. -/
def latteListIteratorImpl (h : Heap α) (direction : ListDirection) (all : List α) :
    Impl (latteListIteratorStep h) false true all where
  Ready _ rest it := it.data.Ahead h direction rest ∧ it.next = none
  Fetched x rest it := it.data.Ahead h direction rest ∧
    ∃ a c, it.next = some a ∧ h.cells a = some c ∧ c.value = x
  Ended it := it.data.Ahead h direction []
  hasNext_cons hs := by
    obtain ⟨data, a, c, hnext, hc, hvalue, ha⟩ := hs.1.listNext_cons
    refine ⟨⟨data, some a⟩, ?_, ha, a, c, rfl, hc, hvalue⟩
    rw [latteListIteratorStep, latteListIteratorHasNext, hnext]
    rfl
  hasNext_nil {_ it} hs := by
    refine ⟨it, ?_, hs.1⟩
    rw [latteListIteratorStep, latteListIteratorHasNext, hs.1.listNext_nil]
    rfl
  next_fetched {_ _ it} hs := by
    obtain ⟨ha, a, c, hnext, hc, rfl⟩ := hs
    refine ⟨{ it with next := none }, ?_, ha, rfl⟩
    rw [latteListIteratorStep, latteListIteratorNext, hnext, Option.bind_some, hc]
    rfl
  skip_cons hs := by
    obtain ⟨data, a, c, hnext, hc, hvalue, ha⟩ := hs.1.listNext_cons
    refine ⟨⟨data, some a⟩, ?_, ha, a, c, rfl, hc, hvalue⟩
    rw [latteListIteratorStep, latteListIteratorHasNext, hnext]
    rfl
  skip_nil {_ it} hs := by
    refine ⟨it, ?_⟩
    rw [latteListIteratorStep, latteListIteratorHasNext, hs.1.listNext_nil]
    rfl
  next_start hs := by
    rw [latteListIteratorStep, latteListIteratorNext, hs.2]
    exact fun hstep ↦ nomatch hstep
  next_direct hdirect := nomatch hdirect
  next_again _ {_ _ _ _ _} hs hstep := by
    rw [latteListIteratorStep, latteListIteratorNext, hs.2] at hstep
    cases hstep
  ended_false _ {it} hs := by
    refine ⟨it, ?_, hs⟩
    rw [latteListIteratorStep, latteListIteratorHasNext, hs.listNext_nil]
    rfl
  ended_true hagain := nomatch hagain

/-- A new iterator has the whole list in front of it. -/
theorem LList.WellFormed.ahead {h : Heap α} {l : LList} {xs : List (ℕ × α)}
    (hl : l.WellFormed h xs) (direction : ListDirection) :
    (listGetIterator l direction).Ahead h direction (direction.order (xs.map Prod.snd)) := by
  cases direction with
  | startHead => exact ⟨rfl, xs, hl.forward, rfl⟩
  | startTail => exact ⟨rfl, xs.reverse, hl.backward, by rw [List.map_reverse]; rfl⟩

end LatteC
