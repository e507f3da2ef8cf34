import LatteC.Listpack.Iterator

/-!
# Backwards through a listpack

`list_pack_prev` reads the backlen in front of an entry from its end, and the number of its bytes is computed
from the value that was read. In every listpack it leads back where `list_pack_next` came from.
-/

namespace LatteC

open Block

/-- The pointers from `p` on, up to NULL; `fuel` bounds their number. -/
def lpWalk (move : ℕ → Option (Option ℕ)) : (fuel : ℕ) → Option ℕ → Option (List ℕ)
  | _, none => some []
  | 0, some _ => none
  | fuel + 1, some p => (move p).bind fun next ↦ (lpWalk move fuel next).map (p :: ·)

theorem lpWalk_none (move : ℕ → Option (Option ℕ)) (fuel : ℕ) : lpWalk move fuel none = some [] := by
  cases fuel <;> rfl

theorem lpWalk_some (move : ℕ → Option (Option ℕ)) (fuel p : ℕ) :
    lpWalk move (fuel + 1) (some p) =
      (move p).bind fun next ↦ (lpWalk move fuel next).map (p :: ·) := rfl

/-- The entries that one comes to with `list_pack_first` and `list_pack_next`. -/
def lpForward (lp : List UInt8) : Option (List ℕ) :=
  (listPackFirst lp).bind (lpWalk (listPackNext lp) lp.length)

/-- The entries that one comes to with `list_pack_last` and `list_pack_prev`. -/
def lpBackward (lp : List UInt8) : Option (List ℕ) :=
  (listPackLast lp).bind (lpWalk (listPackPrev lp) lp.length)

/-- Where the elements start. -/
def lpOffsets (es : List LpElement) : List ℕ := (List.range es.length).map (lpOffset es)

theorem lpOffset_zero (es : List LpElement) : lpOffset es 0 = lpHdrSize := rfl

theorem lpOffset_succ {es : List LpElement} {i : ℕ} (hi : i < es.length) :
    lpOffset es (i + 1) = lpHdrSize + (lpBody (es.take i ++ [es[i]])).length := by
  rw [lpOffset, List.take_add_one, List.getElem?_eq_getElem hi, Option.toList_some]

theorem listPackPrev_hdr (lp : List UInt8) : listPackPrev lp lpHdrSize = some none := by
  rw [listPackPrev, if_pos rfl]

theorem lpOffset_lt_succ {es : List LpElement} {i : ℕ} (hi : i < es.length) :
    lpOffset es i < lpOffset es (i + 1) := by
  have hpos := listPackEncodeBacklenBytes_pos (lpPayload es[i]).length
  rw [lpOffset_succ hi, lpBody_append, lpBody_cons, lpBody_nil, List.append_nil, List.length_append,
    length_lpEntry]
  change lpHdrSize + (lpBody (es.take i)).length < _
  omega

theorem lpOffset_lt {es : List LpElement} {i j : ℕ} (hij : i < j) (hj : j ≤ es.length) :
    lpOffset es i < lpOffset es j := by
  induction j with
  | zero => exact absurd hij (Nat.not_lt_zero i)
  | succ j ih =>
    have hstep : lpOffset es j < lpOffset es (j + 1) := lpOffset_lt_succ hj
    rcases Nat.lt_succ_iff_lt_or_eq.mp hij with hlt | rfl
    · exact (ih hlt (Nat.le_of_succ_le hj)).trans hstep
    · exact hstep

theorem lpOffset_inj {es : List LpElement} {i j : ℕ} (hi : i ≤ es.length) (hj : j ≤ es.length) :
    lpOffset es i = lpOffset es j ↔ i = j := by
  refine ⟨fun heq ↦ ?_, fun heq ↦ heq ▸ rfl⟩
  rcases lt_trichotomy i j with hlt | heq' | hlt
  · exact absurd heq (lpOffset_lt hlt hj).ne
  · exact heq'
  · exact absurd heq (lpOffset_lt hlt hi).ne'

namespace LpHolds

variable {lp : List UInt8} {es : List LpElement} (h : LpHolds lp es)

include h

omit h in
/-- The element with index `i` between the others. -/
private theorem cut {i : ℕ} (hi : i < es.length) :
    es = es.take i ++ es[i] :: es.drop (i + 1) := by
  rw [List.getElem_cons_drop, List.take_append_drop]

theorem lpEntryAt_offset {i : ℕ} (hi : i ≤ es.length) :
    lpEntryAt lp (lpOffset es i) = some (if i < es.length then some (lpOffset es i) else none) := by
  rcases Nat.lt_or_eq_of_le hi with hlt | rfl
  · have hcut := cut hlt
    have h' := h
    rw [hcut] at h'
    rw [if_pos hlt]
    exact h'.lpEntryAt_entry
  · have heof := h.lpEntryAt_eof
    rw [lpOffset, List.take_length, if_neg (lt_irrefl _), heof]

theorem listPackFirst_eq : listPackFirst lp = some (lpOffsets es).head? := by
  have hfirst := h.lpEntryAt_offset (Nat.zero_le _)
  rw [lpOffset_zero] at hfirst
  rw [listPackFirst, hfirst]
  cases es with
  | nil => rfl
  | cons e es =>
    rw [if_pos (List.length_pos_of_ne_nil (List.cons_ne_nil e es)), lpOffsets, List.length_cons,
      List.range_succ_eq_map, List.map_cons, List.head?_cons, lpOffset_zero]

theorem listPackNext_offset {i : ℕ} (hi : i < es.length) : listPackNext lp (lpOffset es i) =
    some (if i + 1 < es.length then some (lpOffset es (i + 1)) else none) := by
  have hnext : listPackNext lp (lpOffset es i) = lpEntryAt lp (lpOffset es (i + 1)) := by
    have hcut := cut hi
    have h' := h
    rw [hcut] at h'
    rw [lpOffset_succ hi]
    exact h'.listPackNext_entry
  rw [hnext, h.lpEntryAt_offset hi]

theorem listPackPrev_offset {i : ℕ} (hi : i < es.length) :
    listPackPrev lp (lpOffset es (i + 1)) = some (some (lpOffset es i)) := by
  have hcut := cut hi
  have h' := h
  rw [hcut] at h'
  rw [lpOffset_succ hi]
  exact h'.listPackPrev_entry

theorem listPackLast_eq : listPackLast lp = some (lpOffsets es).getLast? := by
  rw [listPackLast, h.totalBytes, Option.bind_some]
  have hend : lpSize es - 1 = lpOffset es es.length := by
    rw [lpSize, lpOffset, List.take_length, Nat.add_sub_cancel]
  rw [hend, lpOffsets, List.getLast?_map, List.getLast?_range]
  cases hn : es.length with
  | zero => rw [lpOffset_zero, listPackPrev_hdr]; rfl
  | succ n =>
    rw [h.listPackPrev_offset (by omega), if_neg (Nat.succ_ne_zero n), Option.map_some,
      Nat.add_sub_cancel]

/-- The walk to the end. -/
theorem lpWalk_next : ∀ (n fuel : ℕ) {i : ℕ}, i + n = es.length → n ≤ fuel →
    lpWalk (listPackNext lp) fuel (if i < es.length then some (lpOffset es i) else none) =
      some ((List.range' i n).map (lpOffset es)) := by
  intro n
  induction n with
  | zero =>
    intro fuel i hi _
    rw [if_neg (by omega), lpWalk_none]
    rfl
  | succ n ih =>
    intro fuel i hi hfuel
    obtain ⟨fuel, rfl⟩ := Nat.exists_eq_succ_of_ne_zero (n := fuel) (by omega)
    rw [if_pos (by omega), lpWalk_some, h.listPackNext_offset (by omega), Option.bind_some,
      ih fuel (by omega) (by omega)]
    rfl

/-- The walk to the start. -/
theorem lpWalk_prev : ∀ (i fuel : ℕ), i < es.length → i < fuel →
    lpWalk (listPackPrev lp) fuel (some (lpOffset es i)) =
      some (((List.range (i + 1)).map (lpOffset es)).reverse) := by
  intro i
  induction i with
  | zero =>
    intro fuel _ hfuel
    obtain ⟨fuel, rfl⟩ := Nat.exists_eq_succ_of_ne_zero hfuel.ne'
    rw [lpWalk_some, lpOffset_zero, listPackPrev_hdr, Option.bind_some, lpWalk_none]
    rfl
  | succ i ih =>
    intro fuel hi hfuel
    obtain ⟨fuel, rfl⟩ := Nat.exists_eq_succ_of_ne_zero (n := fuel) (by omega)
    rw [lpWalk_some, h.listPackPrev_offset (by omega), Option.bind_some, ih fuel (by omega) (by omega),
      List.range_succ (n := i + 1), List.map_append, List.reverse_append]
    rfl

theorem lpForward_eq : lpForward lp = some (lpOffsets es) := by
  have hfirst : listPackFirst lp =
      some (if 0 < es.length then some (lpOffset es 0) else none) := by
    rw [listPackFirst, ← lpOffset_zero es]
    exact h.lpEntryAt_offset (Nat.zero_le _)
  rw [lpForward, hfirst, Option.bind_some, h.lpWalk_next es.length _ (Nat.zero_add _) h.length_le,
    lpOffsets, List.range_eq_range']

theorem lpBackward_eq : lpBackward lp = some (lpOffsets es).reverse := by
  rw [lpBackward, h.listPackLast_eq, Option.bind_some]
  rcases Nat.eq_zero_or_pos es.length with hzero | hpos
  · rw [List.length_eq_zero_iff.mp hzero]
    exact lpWalk_none _ _
  · have hlen := h.length_le
    rw [lpOffsets, List.getLast?_map, List.getLast?_range, if_neg hpos.ne', Option.map_some,
      h.lpWalk_prev _ _ (by omega) (by omega), Nat.sub_add_cancel hpos]

/-- `list_pack_prev` is the inverse of `list_pack_next`. -/
theorem listPackNext_iff_prev {p q : ℕ} (hp : p ∈ lpOffsets es) (hq : q ∈ lpOffsets es) :
    listPackNext lp p = some (some q) ↔ listPackPrev lp q = some (some p) := by
  obtain ⟨i, hi, rfl⟩ := List.mem_map.mp hp
  obtain ⟨j, hj, rfl⟩ := List.mem_map.mp hq
  rw [List.mem_range] at hi hj
  rw [h.listPackNext_offset hi]
  cases j with
  | zero =>
    rw [lpOffset_zero, listPackPrev_hdr]
    refine iff_of_false (fun heq ↦ ?_) (by simp)
    split_ifs at heq with hlt
    · rw [← lpOffset_zero es] at heq
      have := (lpOffset_inj (by omega) (by omega)).mp (Option.some.inj (Option.some.inj heq))
      omega
    · cases heq
  | succ j =>
    rw [h.listPackPrev_offset (by omega), Option.some.injEq, Option.some.injEq, Option.some.injEq,
      lpOffset_inj (by omega) (by omega)]
    constructor
    · intro heq
      split_ifs at heq with hlt
      have := (lpOffset_inj (by omega) (by omega)).mp (Option.some.inj heq)
      omega
    · rintro rfl
      rw [if_pos hj]

end LpHolds

/-- The backlen of every length that the format admits is read back from its last byte, and has the number of
bytes that `list_pack_encode_backlen_bytes` says. -/
theorem listPackDecodeBacklen_encode {l : ℕ} (hl : l < 2 ^ 35) (A C : List UInt8) :
    (listPackEncodeBacklen l).length = listPackEncodeBacklenBytes l ∧
      listPackDecodeBacklen (A ++ listPackEncodeBacklen l ++ C)
        (A.length + listPackEncodeBacklenBytes l - 1) = some l := by
  have hlen := length_listPackEncodeBacklen l
  have hpos := listPackEncodeBacklenBytes_pos l
  refine ⟨hlen, ?_⟩
  have htake : (A ++ listPackEncodeBacklen l ++ C).take
      (A.length + listPackEncodeBacklenBytes l - 1 + 1) = A ++ listPackEncodeBacklen l := by
    rw [Nat.sub_add_cancel (by omega), ← hlen, ← List.length_append, List.take_left]
  rw [listPackDecodeBacklen, if_pos (by simp only [List.length_append]; omega), htake,
    List.reverse_append]
  exact lpDecodeBacklenFrom_encode hl _

/-- **Backwards is the reverse of forwards** in every listpack that the operations build. The entries in the
order of `list_pack_first` and `list_pack_next` are those of `list_pack_last` and `list_pack_prev` in the
reverse order, and `list_pack_prev` is the inverse of `list_pack_next`. -/
theorem listPack_backward (M : Allocator UInt8) (capacity : ℕ) (calls : List LpCall)
    (es : List LpElement) (replies : List LpReply)
    (hrun : CallMachine.run lpListStep [] calls = some (es, replies)) :
    (∃ lp₀ lp entries, listPackNew M capacity = some lp₀ ∧
      CallMachine.run (listPackStep M) lp₀ calls = some (lp, replies) ∧
      entries.length = es.length ∧ lpForward lp = some entries ∧
      lpBackward lp = some entries.reverse ∧
      listPackFirst lp = some entries.head? ∧ listPackLast lp = some entries.getLast? ∧
      (∀ p, entries.head? = some p → listPackPrev lp p = some none) ∧
      ∀ p ∈ entries, ∀ q ∈ entries,
        listPackNext lp p = some (some q) ↔ listPackPrev lp q = some (some p)) ∧
    ∀ l < 2 ^ 35, ∀ A C, (listPackEncodeBacklen l).length = listPackEncodeBacklenBytes l ∧
      listPackDecodeBacklen (A ++ listPackEncodeBacklen l ++ C)
        (A.length + listPackEncodeBacklenBytes l - 1) = some l := by
  obtain ⟨lp₀, hnew, hholds⟩ := holds_listPackNew M capacity
  obtain ⟨lp, hlp, h⟩ := CallMachine.run_refines (listPackStep_refines M) hholds hrun
  refine ⟨⟨lp₀, lp, lpOffsets es, hnew, hlp, ?_, h.lpForward_eq, h.lpBackward_eq,
    h.listPackFirst_eq, h.listPackLast_eq, fun p hp ↦ ?_,
    fun p hp q hq ↦ h.listPackNext_iff_prev hp hq⟩, fun l hl A C ↦ ?_⟩
  · rw [lpOffsets, List.length_map, List.length_range]
  · cases es with
    | nil => cases hp
    | cons e es =>
      rw [lpOffsets, List.length_cons, List.range_succ_eq_map] at hp
      rw [← Option.some.inj hp, lpOffset_zero, listPackPrev_hdr]
  · exact listPackDecodeBacklen_encode hl A C

/-- Two strings and a number. -/
theorem listPack_backward_three : ∃ lp₀ lp entries, listPackNew zeroAllocator 1024 = some lp₀ ∧
    CallMachine.run (listPackStep zeroAllocator) lp₀
      [.appendString [97], .appendInteger 5000, .prependString [98, 99]] =
        some (lp, [.done, .done, .done]) ∧
    entries.length = 3 ∧ lpForward lp = some entries ∧ lpBackward lp = some entries.reverse := by
  obtain ⟨⟨lp₀, lp, entries, hnew, hrun, hlen, hforward, hbackward, -⟩, -⟩ :=
    listPack_backward zeroAllocator 1024 [.appendString [97], .appendInteger 5000,
      .prependString [98, 99]] [.str [98, 99], .str [97], .int 5000] [.done, .done, .done] (by decide)
  exact ⟨lp₀, lp, entries, hnew, hrun, hlen, hforward, hbackward⟩

end LatteC
