import LatteC.Listpack.Refinement
import LatteC.Utils.Numeric

/-!
# Reading back what was inserted

`list_pack_get` of `src/listpack/listpack.c` on a new entry. A string that is the numeral of an
`int64_t` is stored as the integer; with an `intbuf` it is a string again, and the same one.
-/

namespace LatteC

open Block Decimal

/-- `LIST_PACK_INTBUF_SIZE`. -/
def listPackIntbufSize : ℕ := 21

/-- `list_pack_get` with an `intbuf`: the `*count` bytes at the pointer that it returns. -/
def listPackGetWithIntbuf (p intbuf : List UInt8) : Option (List UInt8) :=
  (listPackGet p).bind fun e ↦
    match e with
    | .str s => some s
    | .int v => (ll2string intbuf listPackIntbufSize v).map fun r ↦ r.1.take r.2

/-- The bytes that an element stands for. -/
def LpElement.bytes : LpElement → List UInt8
  | .str s => s
  | .int v => numeral v

theorem bytes_lpElementOfString (s : List UInt8) : (lpElementOfString s).bytes = s := by
  rw [lpElementOfString]
  split_ifs with h
  · exact h.2
  · rfl

/-- With an `intbuf` every element is read as its bytes. -/
theorem listPackGetWithIntbuf_eq {p intbuf : List UInt8} {e : LpElement} (he : e.Valid)
    (hget : listPackGet p = some e) (hbuf : listPackIntbufSize ≤ intbuf.length) :
    listPackGetWithIntbuf p intbuf = some e.bytes := by
  rw [listPackGetWithIntbuf, hget, Option.bind_some]
  cases e with
  | str s => rfl
  | int v =>
    obtain ⟨buffer, hbuffer, htake⟩ := ll2string_eq intbuf he (le_refl listPackIntbufSize) hbuf
    simp only [hbuffer, Option.map_some, htake]
    rfl

theorem lpElementOfString_numeral {v : ℤ} (h : IsInt64 v) : lpElementOfString (numeral v) = .int v := by
  rw [lpElementOfString, value_numeral, if_pos ⟨h, rfl⟩]

theorem lpElementOfString_of_forall_ne {s : List UInt8} (h : ∀ v, IsInt64 v → s ≠ numeral v) :
    lpElementOfString s = .str s :=
  if_neg fun hnumeral ↦ h (value s) hnumeral.1 hnumeral.2.symm

section Inserted

variable (M : Allocator UInt8) {lp : List UInt8} {es : List LpElement} (h : LpHolds lp es)

include h

/-- What stands at the `*newp` of an insertion. -/
theorem LpHolds.get_inserted {ele : LpEle} {e : LpElement} (hele : LpGiven ele [e])
    (hvalid : (lpEntry e).length < 2 ^ 32 → e.Valid) {p : ℕ} {whr : LpWhere} {es' : List LpElement}
    {r : LpReply} (hspec : lpListInsert es e p whr = some (es', r)) :
    ∃ lp' p', listPackInsert M lp ele p whr = some (lp', some p') ∧ LpHolds lp' es' ∧ e.Valid ∧
      listPackGet (lp'.drop p') = some e := by
  obtain ⟨lp', newp, hins, hr, hholds⟩ := listPackInsert_refines M h hele hvalid hspec
  obtain ⟨L, R, rfl, hnewp, hfits⟩ := lpListInsert_eq_some hspec
  obtain rfl : newp = _ := LpReply.newp.inj (hr.symm.trans hnewp)
  exact ⟨lp', _, hins, hholds, hvalid (length_lpEntry_lt hfits), hholds.listPackGet_at⟩

/-- **What is inserted is read back**, wherever in a well-formed listpack it goes. A string that is the
numeral of an `int64_t` is stored as this integer, and any other string as it is; with an `intbuf` both
are read as the bytes that were given. An integer is read as its value. -/
theorem listPack_get_inserted {p : ℕ} {whr : LpWhere} {es' : List LpElement} {r : LpReply}
    {intbuf : List UInt8} (hbuf : listPackIntbufSize ≤ intbuf.length) :
    (∀ s, lpListInsert es (lpElementOfString s) p whr = some (es', r) →
      ∃ lp' p', listPackInsertString M lp s p whr = some (lp', some p') ∧ LpHolds lp' es' ∧
        (∀ v, IsInt64 v → s = numeral v → listPackGet (lp'.drop p') = some (.int v)) ∧
        ((∀ v, IsInt64 v → s ≠ numeral v) → listPackGet (lp'.drop p') = some (.str s)) ∧
        listPackGetWithIntbuf (lp'.drop p') intbuf = some s) ∧
    ∀ v, IsInt64 v → lpListInsert es (.int v) p whr = some (es', r) →
      ∃ lp' p', listPackInsertInteger M lp v p whr = some (lp', some p') ∧ LpHolds lp' es' ∧
        listPackGet (lp'.drop p') = some (.int v) ∧
        listPackGetWithIntbuf (lp'.drop p') intbuf = some (numeral v) := by
  constructor
  · intro s hspec
    obtain ⟨lp', p', hins, hholds, hvalid, hget⟩ :=
      h.get_inserted M (lpGiven_elestr s) valid_lpElementOfString hspec
    refine ⟨lp', p', hins, hholds, fun v hv hs ↦ ?_, fun hs ↦ ?_, ?_⟩
    · rw [hget, hs, lpElementOfString_numeral hv]
    · rw [hget, lpElementOfString_of_forall_ne hs]
    · rw [listPackGetWithIntbuf_eq hvalid hget hbuf, bytes_lpElementOfString]
  · intro v hv hspec
    obtain ⟨lp', p', hins, hholds, hvalid, hget⟩ :=
      h.get_inserted M (lpGiven_eleint v) (fun _ ↦ hv) hspec
    exact ⟨lp', p', hins, hholds, hget, listPackGetWithIntbuf_eq hvalid hget hbuf⟩

end Inserted

/-- The string `-12`, into an empty listpack. -/
theorem listPack_get_inserted_minus : ∃ lp lp' p', listPackNew zeroAllocator 7 = some lp ∧
    listPackInsertString zeroAllocator lp [45, 49, 50] 6 .before = some (lp', some p') ∧
    listPackGet (lp'.drop p') = some (.int (-12)) ∧
    listPackGetWithIntbuf (lp'.drop p') (List.replicate 21 0) = some [45, 49, 50] := by
  obtain ⟨lp, hnew, hholds⟩ := holds_listPackNew zeroAllocator 7
  have hspec : lpListInsert [] (lpElementOfString [45, 49, 50]) 6 .before =
      some ([.int (-12)], .newp (some 6)) := by decide
  have hbuf : listPackIntbufSize ≤ (List.replicate 21 (0 : UInt8)).length := by decide
  obtain ⟨lp', p', hins, -, hint, -, hbytes⟩ :=
    (listPack_get_inserted zeroAllocator hholds hbuf).1 _ hspec
  exact ⟨lp, lp', p', hnew, hins, hint (-12) (by decide) (by decide), hbytes⟩

end LatteC
