import LatteC.Listpack.Range

/-!
# The number of elements

The header of a listpack has sixteen bits for the number of its elements. Their greatest value means that
the elements have to be counted. `list_pack_length` of `src/listpack/listpack.c` counts them then, and puts
the number back into the header when it fits again.
-/

namespace LatteC

open Block

/-- `while (p)`: `count` at the end. -/
def lpCountLoop (lp : List UInt8) : (fuel count : ℕ) → (p : Option ℕ) → Option ℕ
  | _, count, none => some count
  | 0, _, some _ => none
  | fuel + 1, count, some p =>
    (listPackNext lp p).bind fun p ↦ lpCountLoop lp fuel ((count + 1) % 2 ^ 32) p

/-- `list_pack_length`, with the listpack in which it has set the number. -/
def listPackLength (lp : List UInt8) : Option (List UInt8 × ℕ) :=
  (listPackGetNumElements lp).bind fun numele ↦
    if numele ≠ 2 ^ 16 - 1 then some (lp, numele)
    else
      (listPackFirst lp).bind fun p ↦
        (lpCountLoop lp lp.length 0 p).bind fun count ↦
          (if count < 2 ^ 16 - 1 then listPackSetNumElements lp count else some lp).map fun lp ↦
            (lp, count)

/-- The loop counts the entries of a walk. -/
theorem lpCountLoop_eq {lp : List UInt8} : ∀ (fuel count : ℕ) (p : Option ℕ) (entries : List ℕ),
    lpWalk (listPackNext lp) fuel p = some entries → count + entries.length < 2 ^ 32 →
      lpCountLoop lp fuel count p = some (count + entries.length) := by
  intro fuel
  induction fuel with
  | zero =>
    intro count p entries hwalk _
    cases p with
    | none =>
      rw [← Option.some.inj hwalk]
      rfl
    | some p => cases hwalk
  | succ fuel ih =>
    intro count p entries hwalk hlt
    cases p with
    | none =>
      rw [← Option.some.inj hwalk]
      rfl
    | some p =>
      obtain ⟨next, hnext, hrest⟩ := Option.bind_eq_some_iff.mp hwalk
      obtain ⟨entries, hentries, rfl⟩ := Option.map_eq_some_iff.mp hrest
      rw [List.length_cons] at hlt ⊢
      have hmod : (count + 1) % 2 ^ 32 = count + 1 := Nat.mod_eq_of_lt (by omega)
      rw [lpCountLoop, hnext, Option.bind_some, hmod, ih _ _ _ hentries (by omega)]
      congr 1
      omega

/-- Entries are fewer than bytes. -/
theorem LpHolds.length_lt {lp : List UInt8} {es : List LpElement} (h : LpHolds lp es) :
    es.length < 2 ^ 32 := by
  have hbody := length_le_lpBody es
  have hfits := h.fits
  rw [lpSize] at hfits
  omega

/-- **The true number** is what `list_pack_length` returns, and the elements stay as they are. -/
theorem LpHolds.listPackLength_eq {lp : List UInt8} {es : List LpElement} (h : LpHolds lp es) :
    ∃ lp', listPackLength lp = some (lp', es.length) ∧ LpHolds lp' es := by
  obtain ⟨numele, hget, hnum⟩ := h.numElements
  rw [listPackLength, hget, Option.bind_some]
  split_ifs with hfull
  · rw [hnum.2 hfull]
    exact ⟨lp, rfl, h⟩
  · have hforward := h.lpForward_eq
    rw [lpForward] at hforward
    obtain ⟨p, hfirst, hwalk⟩ := Option.bind_eq_some_iff.mp hforward
    have hlen : (lpOffsets es).length = es.length := by
      rw [lpOffsets, List.length_map, List.length_range]
    have hcount := lpCountLoop_eq lp.length 0 p (lpOffsets es) hwalk
      (by rw [hlen, Nat.zero_add]; exact h.length_lt)
    rw [hlen, Nat.zero_add] at hcount
    rw [hfirst, Option.bind_some, hcount, Option.bind_some]
    split_ifs with hsmall
    · obtain ⟨num, slack, -, rfl⟩ := h.layout
      rw [List.append_assoc, listPackSetNumElements_header, Option.map_some, ← List.append_assoc]
      exact ⟨_, rfl, ⟨es.length, slack, ⟨by omega, fun _ ↦ rfl⟩, rfl⟩, h.fits, h.valid⟩
    · exact ⟨lp, rfl, h⟩

/-! ## Runs -/

/-- A call that changes a listpack or asks for its length. -/
inductive LpLengthCall where
  | change (c : LpCall)
  | removeRange (p num : ℕ)
  | length

/-- What the caller is given. -/
inductive LpLengthReply where
  | changed (r : LpReply)
  | length (n : ℕ)
  deriving DecidableEq

/-- One call. -/
def listPackLengthStep (M : Allocator UInt8) (lp : List UInt8) :
    LpLengthCall → Option (List UInt8 × LpLengthReply)
  | .change c => (listPackStep M lp c).map fun r ↦ (r.1, .changed r.2)
  | .removeRange p num =>
    (listPackRemoveRangeWithEntry M lp p num).map fun r ↦ (r.1, .changed (.newp r.2))
  | .length => (listPackLength lp).map fun r ↦ (r.1, .length r.2)

/-- One call on a plain list. -/
def lpLengthListStep (es : List LpElement) :
    LpLengthCall → Option (List LpElement × LpLengthReply)
  | .change c => (lpListStep es c).map fun r ↦ (r.1, .changed r.2)
  | .removeRange p num =>
    (lpIndexAt es p).bind fun i ↦
      if i < es.length then
        some (es.take i ++ es.drop (i + num),
          .changed (.newp (if i < (es.take i ++ es.drop (i + num)).length then
            some (lpOffset (es.take i ++ es.drop (i + num)) i) else none)))
      else none
  | .length => some (es, .length es.length)

theorem listPackLengthStep_refines (M : Allocator UInt8) (lp : List UInt8) (es : List LpElement)
    (c : LpLengthCall) (es' : List LpElement) (r : LpLengthReply) (h : LpHolds lp es)
    (hspec : lpLengthListStep es c = some (es', r)) :
    ∃ lp', listPackLengthStep M lp c = some (lp', r) ∧ LpHolds lp' es' := by
  cases c with
  | change c =>
    obtain ⟨⟨es'', r'⟩, hlist, heq⟩ := Option.map_eq_some_iff.mp hspec
    obtain ⟨rfl, rfl⟩ := Prod.mk.inj heq
    obtain ⟨lp', hstep, hholds⟩ := listPackStep_refines M lp es c es'' r' h hlist
    exact ⟨lp', by rw [listPackLengthStep, hstep, Option.map_some], hholds⟩
  | removeRange p num =>
    obtain ⟨i, hi, hres⟩ := Option.bind_eq_some_iff.mp hspec
    have hp : lpOffset es i = p := by simpa using List.find?_some hi
    by_cases hlt : i < es.length
    · rw [if_pos hlt] at hres
      obtain ⟨rfl, rfl⟩ := Prod.mk.inj (Option.some.inj hres)
      obtain ⟨lp', hremove, hholds, -⟩ := h.listPackRemoveRangeWithEntry_eq M num hlt
      exact ⟨lp', by rw [← hp, listPackLengthStep, hremove, Option.map_some], hholds⟩
    · rw [if_neg hlt] at hres
      cases hres
  | length =>
    obtain ⟨rfl, rfl⟩ := Prod.mk.inj (Option.some.inj hspec)
    obtain ⟨lp', hlength, hholds⟩ := h.listPackLength_eq
    exact ⟨lp', by rw [listPackLengthStep, hlength, Option.map_some], hholds⟩

/-- **The length is right in every run**, however long the listpack becomes on the way: whatever is
inserted and removed, `list_pack_length` returns the number of the elements that a plain list would have,
each time it is called and once more at the end. -/
theorem listPackLength_run (M : Allocator UInt8) (capacity : ℕ) (calls : List LpLengthCall)
    (es : List LpElement) (replies : List LpLengthReply)
    (hrun : CallMachine.run lpLengthListStep [] calls = some (es, replies)) :
    ∃ lp₀ lp lp', listPackNew M capacity = some lp₀ ∧
      CallMachine.run (listPackLengthStep M) lp₀ calls = some (lp, replies) ∧
      lpDecode lp = some es ∧ listPackLength lp = some (lp', es.length) ∧
      lpDecode lp' = some es := by
  obtain ⟨lp₀, hnew, hholds⟩ := holds_listPackNew M capacity
  obtain ⟨lp, hlp, hend⟩ := CallMachine.run_refines (listPackLengthStep_refines M) hholds hrun
  obtain ⟨lp', hlength, hholds'⟩ := hend.listPackLength_eq
  exact ⟨lp₀, lp, lp', hnew, hlp, hend.lpDecode_eq, hlength, hholds'.lpDecode_eq⟩

/-- Three elements, two of them removed. -/
theorem listPackLength_run_three : ∃ lp₀ lp lp', listPackNew zeroAllocator 1024 = some lp₀ ∧
    CallMachine.run (listPackLengthStep zeroAllocator) lp₀
      [.change (.appendString [97]), .change (.appendInteger 5), .change (.prependString [98]),
        .length, .removeRange 6 2, .length] =
      some (lp, [.changed .done, .changed .done, .changed .done, .length 3,
        .changed (.newp (some 6)), .length 1]) ∧
    lpDecode lp = some [.int 5] ∧ listPackLength lp = some (lp', 1) ∧
    lpDecode lp' = some [.int 5] :=
  listPackLength_run zeroAllocator 1024
    [.change (.appendString [97]), .change (.appendInteger 5), .change (.prependString [98]),
      .length, .removeRange 6 2, .length] [.int 5]
    [.changed .done, .changed .done, .changed .done, .length 3, .changed (.newp (some 6)), .length 1]
    (by decide)

end LatteC
