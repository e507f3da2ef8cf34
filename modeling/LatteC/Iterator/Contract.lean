import LatteC.List.Iterator
import LatteC.Dict.Iterator
import LatteC.Listpack.Iterator

/-!
# The contract of `latte_iterator_t`

`src/iterator/iterator.h`: three function pointers, two of which concern us. Its test calls
`has_next` many times in a row and expects the first element to be still there, and the iterators of
vectors and trees keep to that. Those of lists, dictionaries and listpacks move on in
`has_next`. They serve a client that calls `has_next` once before each `next`, and hardly any
other; `iterator_contract_iff` says which calls exactly.
-/

namespace LatteC

open DoublyLinked Lookahead

/-- No two entries of a dictionary are the same. -/
theorem Dict.Inv.nodup_entries {K V : Type} {F : DictFunc K} {d : Dict K V} (h : d.Inv F) :
    d.entries.Nodup :=
  h.distinct.of_map

/-- **What the three iterators serve.** The pattern `Follows` depends on two properties of the
iterator: whether `next` may follow `next` (that of a dictionary only), and whether `has_next` stays
false behind the end (not that of a listpack). The values in a list, and the elements of a listpack,
need not be different; if they are not, a wrong element may look like the right one. -/
theorem iterator_contract_iff (α K V : Type) :
    (∀ (h : Heap α) (l : LList) (xs : List (ℕ × α)) (direction : ListDirection),
      l.WellFormed h xs →
        Exactly (latteListIteratorStep h) false true (listGetLatteIterator l direction)
          (direction.order (xs.map Prod.snd))) ∧
    (∀ (F : DictFunc K) (d : Dict K V), d.Inv F →
      ∀ calls : List Call, calls.count .next ≤ d.entries.length →
        (Meets (dictIteratorStep d) dictGetLatteIterator d.entries calls ↔
          Follows true true d.entries.length (.ready true) d.entries.length calls)) ∧
    ∀ (lp : List UInt8) (es : List LpElement) (whr : LpWhere), LpHolds lp es →
      Exactly (listPackIteratorStep lp whr) false false none (whr.order es) := by
  refine ⟨fun h l xs direction hl ↦ ?_, fun F d hd calls hcount ↦ ?_,
    fun lp es whr hlp ↦ ?_⟩
  · exact (latteListIteratorImpl h direction _).exactly ⟨hl.ahead direction, rfl⟩
  · have hserves := (dictIteratorImpl hd.sized).exactly ⟨rfl, rfl⟩ calls hcount
    exact ⟨hserves.2 hd.nodup_entries, hserves.1⟩
  · exact (listPackIteratorImpl hlp whr).exactly ⟨rfl, rfl⟩

/-- A list of one node. -/
def oneNode : Heap ℕ × LList :=
  (⟨fun a ↦ if a = 0 then some ⟨none, none, 7⟩ else none, 1⟩, ⟨some 0, some 0, 1⟩)

theorem wellFormed_oneNode : oneNode.2.WellFormed oneNode.1 [(0, 7)] :=
  LList.Holds.wellFormed ⟨⟨rfl, trivial⟩, rfl, rfl, rfl, List.nodup_singleton 0, by simp [oneNode]⟩

/-- On it the usual loop is served. -/
theorem iterator_contract_iff_oneNode :
    Meets (latteListIteratorStep oneNode.1) (listGetLatteIterator oneNode.2 .startHead) [7]
      [.hasNext, .next, .hasNext, .hasNext] :=
  ((iterator_contract_iff ℕ ℕ ℕ).1 oneNode.1 oneNode.2 [(0, 7)] .startHead wellFormed_oneNode _
    (by decide)).1 (by simp [Follows, ListDirection.order])

/-- Two calls of `has_next` in a row, and the second finds nothing although nothing was taken. -/
theorem iterator_contract_fails :
    ¬∀ (h : Heap ℕ) (l : LList) (xs : List (ℕ × ℕ)), l.WellFormed h xs →
      ∀ calls : List Call, calls.count .next ≤ xs.length →
        Meets (latteListIteratorStep h) (listGetLatteIterator l .startHead) (xs.map Prod.snd)
          calls := by
  intro hall
  have hmeets := hall oneNode.1 oneNode.2 [(0, 7)] wellFormed_oneNode [.hasNext, .hasNext] (by decide)
  obtain ⟨s₁, hstep₁, s₂, hstep₂, -⟩ := hmeets
  have h₁ : latteListIteratorStep oneNode.1 (listGetLatteIterator oneNode.2 .startHead) .hasNext =
    some (⟨⟨none, .startHead⟩, some 0⟩, .bool true) := rfl
  rw [h₁, Option.some.injEq, Prod.mk.injEq] at hstep₁
  obtain ⟨rfl, -⟩ := hstep₁
  cases hstep₂

end LatteC
