import LatteC.Listpack.Backward

/-!
# Removing a range of a listpack

`list_pack_remove_range_with_entry` of `src/listpack/listpack.c`: a loop over the entries to be removed, one
`memmove` for all of them, and then the numbers in the header.
-/

namespace LatteC

open Block

/-- `list_pack_shrink_to_fit`. -/
def listPackShrinkToFit (M : Allocator UInt8) (lp : List UInt8) : Option (List UInt8) :=
  (listPackGetTotalBytes lp).map fun size ↦ if size < lp.length then M.resize lp size else lp

/-- `while (num--)`: `deleted` and `tail` at the end. -/
def lpRemoveLoop (lp : List UInt8) (bytes : ℕ) : (num deleted tail : ℕ) → Option (ℕ × ℕ)
  | 0, deleted, tail => some (deleted, tail)
  | num + 1, deleted, tail =>
    (listPackSkip lp tail).bind fun tail ↦
      lp[tail]?.bind fun b ↦
        if b = lpEof then some (deleted + 1, tail)
        else
          (listPackAssertValidEntry lp bytes tail).bind fun _ ↦
            lpRemoveLoop lp bytes num (deleted + 1) tail

/-- What `list_pack_remove_range_with_entry` does behind its loop. -/
def lpRemoveBytes (M : Allocator UInt8) (lp : List UInt8) (bytes first deleted tail : ℕ) :
    Option (List UInt8 × Option ℕ) :=
  -- a negative length would be a huge one
  if bytes < tail then none
  else
    (move lp first tail (bytes - tail)).bind fun lp ↦
      (listPackSetTotalBytes lp (bytes - (tail - first))).bind fun lp ↦
        (listPackGetNumElements lp).bind fun numele ↦
          (if numele ≠ 2 ^ 16 - 1 then
            listPackSetNumElements lp (((numele : ℤ) - deleted) % 2 ^ 64).toNat
          else some lp).bind fun lp ↦
            (listPackShrinkToFit M lp).bind fun lp ↦
              lp[first]?.map fun b ↦ (lp, if b = lpEof then none else some first)

/-- `list_pack_remove_range_with_entry`, with the new `*p`. -/
def listPackRemoveRangeWithEntry (M : Allocator UInt8) (lp : List UInt8) (p num : ℕ) :
    Option (List UInt8 × Option ℕ) :=
  (listPackGetTotalBytes lp).bind fun bytes ↦
    if num = 0 then some (lp, some p)
    else
      (lpRemoveLoop lp bytes num 0 p).bind fun r ↦ lpRemoveBytes M lp bytes p r.1 r.2

/-! ## The loop -/

/-- A step of the loop goes to the next entry as `list_pack_next` does. -/
theorem lpRemoveLoop_succ {lp : List UInt8} {bytes : ℕ} (htotal : listPackGetTotalBytes lp = some bytes)
    (num deleted tail : ℕ) : lpRemoveLoop lp bytes (num + 1) deleted tail =
      (listPackSkip lp tail).bind fun tail ↦
        (lpEntryAt lp tail).bind fun r ↦
          match r with
          | none => some (deleted + 1, tail)
          | some _ => lpRemoveLoop lp bytes num (deleted + 1) tail := by
  rw [lpRemoveLoop]
  congr 1
  funext tail
  rw [lpEntryAt, htotal]
  cases lp[tail]? with
  | none => rfl
  | some b =>
    simp only [Option.bind_some]
    split_ifs
    · rfl
    · cases listPackAssertValidEntry lp bytes tail with
      | none => rfl
      | some _ => rfl

section Loop

variable {lp : List UInt8} {es : List LpElement} (h : LpHolds lp es)

include h

theorem LpHolds.listPackSkip_offset {i : ℕ} (hi : i < es.length) :
    listPackSkip lp (lpOffset es i) = some (lpOffset es (i + 1)) := by
  have h' := h
  rw [← List.take_append_drop i es, List.drop_eq_getElem_cons hi] at h'
  obtain ⟨A, C, rfl, hA, he, -⟩ := h'.split
  rw [lpOffset, lpOffset, List.take_add_one, List.getElem?_eq_getElem hi, Option.toList_some,
    lpBody_append, lpBody_cons, lpBody_nil, List.append_nil, List.length_append, ← Nat.add_assoc,
    ← hA, listPackSkip_entry he]

/-- **The loop** counts the entries it passes, up to the end of the listpack. -/
theorem LpHolds.lpRemoveLoop_eq : ∀ (num deleted : ℕ) {i : ℕ}, i < es.length →
    lpRemoveLoop lp (lpSize es) num deleted (lpOffset es i) =
      some (deleted + min num (es.length - i), lpOffset es (min (i + num) es.length)) := by
  intro num
  induction num with
  | zero =>
    intro deleted i hi
    rw [lpRemoveLoop, Nat.zero_min, Nat.add_zero, Nat.add_zero, Nat.min_eq_left hi.le]
  | succ num ih =>
    intro deleted i hi
    rw [lpRemoveLoop_succ h.totalBytes, h.listPackSkip_offset hi, Option.bind_some,
      h.lpEntryAt_offset hi, Option.bind_some]
    by_cases hlast : i + 1 < es.length
    · have hcount : deleted + 1 + min num (es.length - (i + 1)) =
          deleted + min (num + 1) (es.length - i) := by omega
      rw [if_pos hlast, ih (deleted + 1) hlast, hcount, Nat.add_right_comm, Nat.add_assoc i num 1]
    · have hcount : deleted + 1 = deleted + min (num + 1) (es.length - i) := by omega
      have hend : min (i + (num + 1)) es.length = i + 1 := by omega
      rw [if_neg hlast, hcount, hend]

end Loop

/-! ## Behind the loop -/

theorem lpCounts_sub {num n deleted : ℕ} (h : LpCounts num n) (hle : deleted ≤ n) :
    LpCounts (if num ≠ 2 ^ 16 - 1 then (((num : ℤ) - deleted) % 2 ^ 64).toNat else num)
      (n - deleted) := by
  obtain ⟨hlt, hnum⟩ := h
  split_ifs with hfull
  · have heq := hnum hfull
    have hval : (((num : ℤ) - deleted) % 2 ^ 64).toNat = n - deleted := by omega
    rw [hval]
    exact ⟨by omega, fun _ ↦ rfl⟩
  · exact ⟨hlt, fun hne ↦ absurd hne hfull⟩

/-- Shrinking the block keeps the listpack in it. -/
theorem listPackShrinkToFit_eq (M : Allocator UInt8) (total num : ℕ) (X S : List UInt8)
    (htotal : total < 2 ^ 32) (hX : (lpHeader total num ++ X).length = total) :
    ∃ S', listPackShrinkToFit M (lpHeader total num ++ X ++ S) =
      some (lpHeader total num ++ X ++ S') := by
  have hget : listPackGetTotalBytes (lpHeader total num ++ X ++ S) = some total := by
    rw [List.append_assoc]
    exact listPackGetTotalBytes_header _ htotal
  rw [listPackShrinkToFit, hget, Option.map_some]
  split_ifs
  · obtain ⟨S', heq, -⟩ := M.resize_append (lpHeader total num ++ X) S hX.le
    exact ⟨S', by rw [heq]⟩
  · exact ⟨S, rfl⟩

/-- **The entries `O` removed** by one move. -/
theorem LpHolds.lpRemoveBytes (M : Allocator UInt8) {lp : List UInt8} {L O R : List LpElement}
    (h : LpHolds lp (L ++ O ++ R)) :
    ∃ lp', LatteC.lpRemoveBytes M lp (lpSize (L ++ O ++ R)) (lpHdrSize + (lpBody L).length)
        O.length (lpHdrSize + (lpBody (L ++ O)).length) =
        some (lp', if R = [] then none else some (lpHdrSize + (lpBody L).length)) ∧
      LpHolds lp' (L ++ R) := by
  obtain ⟨num, slack, hnum, rfl⟩ := h.layout
  have hfits := h.fits
  have hvalidR : ∀ r ∈ R, r.Valid := fun r hr ↦ h.valid r (List.mem_append_right _ hr)
  obtain ⟨t, T, hT, ht⟩ := lpBody_append_eof hvalidR
  have hTlen : (t :: T).length = (lpBody R).length + 1 := by
    rw [← hT, List.length_append, List.length_singleton]
  have hold : lpSize (L ++ O ++ R) =
      lpHdrSize + (lpBody (L ++ O)).length + (t :: T).length := by
    rw [lpSize, lpBody_append, List.length_append, hTlen]
    omega
  have hnew : lpSize (L ++ O ++ R) - (lpHdrSize + (lpBody (L ++ O)).length -
      (lpHdrSize + (lpBody L).length)) = lpSize (L ++ R) := by
    rw [hold, hTlen, lpSize]
    simp only [lpBody_append, List.length_append]
    omega
  have hfits' : lpSize (L ++ R) < 2 ^ 32 := by omega
  generalize htotal : lpSize (L ++ O ++ R) = total at *
  have hblock : lpHeader total num ++ lpBody (L ++ O ++ R) ++ lpEof :: slack =
      lpHeader total num ++ lpBody L ++ lpBody O ++ t :: T ++ slack := by
    rw [← hT]
    simp only [lpBody_append, List.append_assoc, List.singleton_append]
  have hA : lpHdrSize + (lpBody L).length = (lpHeader total num ++ lpBody L).length := by
    rw [List.length_append, length_lpHeader, lpHdrSize]
  have hAO : lpHdrSize + (lpBody (L ++ O)).length =
      (lpHeader total num ++ lpBody L).length + (lpBody O).length := by
    rw [← hA, lpBody_append, List.length_append, Nat.add_assoc]
  have htail : total - (lpHdrSize + (lpBody (L ++ O)).length) = (t :: T).length := by omega
  obtain ⟨X, S₁, hX, -, hmove⟩ :=
    move_tail (lpHeader total num ++ lpBody L) (lpBody O) (t :: T) slack (Nat.zero_le _)
  rw [List.length_eq_zero_iff.mp hX, List.append_nil, Nat.add_zero] at hmove
  generalize hcount : (if num ≠ 2 ^ 16 - 1 then (((num : ℤ) - O.length) % 2 ^ 64).toNat else num) =
    num' at *
  have hset : ∀ X, (if num ≠ 2 ^ 16 - 1 then listPackSetNumElements (lpHeader (lpSize (L ++ R)) num ++ X)
      (((num : ℤ) - O.length) % 2 ^ 64).toNat else some (lpHeader (lpSize (L ++ R)) num ++ X)) =
      some (lpHeader (lpSize (L ++ R)) num' ++ X) := by
    intro X
    rw [← hcount]
    split_ifs
    · rw [listPackSetNumElements_header]
    · rfl
  obtain ⟨S₂, hshrink⟩ := listPackShrinkToFit_eq M (lpSize (L ++ R)) num'
    (lpBody L ++ t :: T) S₁ hfits' (by
      rw [List.length_append, length_lpHeader, List.length_append, hTlen, lpSize, lpBody_append,
        List.length_append, lpHdrSize]
      omega)
  have hlp : (lpHeader (lpSize (L ++ R)) num' ++ (lpBody L ++ t :: T) ++ S₂)[
      (lpHeader total num ++ lpBody L).length]? = some t := by
    have hlen : (lpHeader total num ++ lpBody L).length =
        (lpHeader (lpSize (L ++ R)) num' ++ lpBody L).length := by
      simp only [List.length_append, length_lpHeader]
    rw [hlen, ← List.append_assoc, List.append_assoc (_ ++ _), List.getElem?_append_right le_rfl,
      Nat.sub_self]
    rfl
  have hle : ¬total < lpHdrSize + (lpBody (L ++ O)).length := by omega
  have hnumlt := hnum.1
  refine ⟨lpHeader (lpSize (L ++ R)) num' ++ (lpBody L ++ t :: T) ++ S₂, ?_, ⟨num', S₂, ?_, ?_⟩,
    hfits', fun e he ↦ h.valid e ?_⟩
  · rw [LatteC.lpRemoveBytes, if_neg hle, hblock, htail, hnew, hA, hAO, hmove, Option.bind_some,
      List.append_assoc, List.append_assoc, listPackSetTotalBytes_header, Option.bind_some,
      listPackGetNumElements_header _ hnumlt, Option.bind_some, hset, Option.bind_some,
      ← List.append_assoc (lpBody L), ← List.append_assoc (lpHeader _ _), hshrink, Option.bind_some,
      hlp, Option.map_some]
    simp only [ht]
  · have hle : O.length ≤ (L ++ O ++ R).length := by
      simp only [List.length_append]
      omega
    have hcounts := lpCounts_sub hnum hle
    rw [hcount] at hcounts
    have hlen : (L ++ O ++ R).length - O.length = (L ++ R).length := by
      simp only [List.length_append]
      omega
    rwa [hlen] at hcounts
  · rw [← hT]
    simp only [lpBody_append, List.append_assoc, List.singleton_append]
  · rcases List.mem_append.mp he with he | he <;> simp [he]

/-- The number in the header. -/
theorem LpHolds.numElements {lp : List UInt8} {es : List LpElement} (h : LpHolds lp es) :
    ∃ numele, listPackGetNumElements lp = some numele ∧ LpCounts numele es.length := by
  obtain ⟨num, slack, hnum, rfl⟩ := h.layout
  rw [List.append_assoc]
  exact ⟨num, listPackGetNumElements_header _ hnum.1, hnum⟩

theorem LpHolds.listPackRemoveRangeWithEntry_eq (M : Allocator UInt8) {lp : List UInt8}
    {es : List LpElement} (h : LpHolds lp es) {i : ℕ} (num : ℕ) (hi : i < es.length) :
    ∃ lp', listPackRemoveRangeWithEntry M lp (lpOffset es i) num =
        some (lp', if i < (es.take i ++ es.drop (i + num)).length then
          some (lpOffset (es.take i ++ es.drop (i + num)) i) else none) ∧
      LpHolds lp' (es.take i ++ es.drop (i + num)) ∧ (num = 0 → lp' = lp) := by
  rw [listPackRemoveRangeWithEntry, h.totalBytes, Option.bind_some]
  rcases Nat.eq_zero_or_pos num with rfl | hpos
  · rw [Nat.add_zero, List.take_append_drop, if_pos hi, if_pos rfl]
    exact ⟨lp, rfl, h, fun _ ↦ rfl⟩
  · have hes : es = es.take i ++ (es.drop i).take num ++ es.drop (i + num) := by
      rw [List.append_assoc, ← List.drop_drop, List.take_append_drop, List.take_append_drop]
    have hlen : (es.take i).length = i := List.length_take_of_le hi.le
    have hdeleted : min num (es.length - i) = ((es.drop i).take num).length := by
      rw [List.length_take, List.length_drop]
    have hend : lpOffset es (min (i + num) es.length) =
        lpHdrSize + (lpBody (es.take i ++ (es.drop i).take num)).length := by
      rw [lpOffset, ← List.take_add, List.take_eq_take_min (i := i + num)]
    have hrest : es.drop (i + num) = [] ↔
        ¬i < (es.take i ++ es.drop (i + num)).length := by
      rw [List.length_append, hlen, ← List.length_eq_zero_iff]
      omega
    have hoff : lpOffset (es.take i ++ es.drop (i + num)) i =
        lpHdrSize + (lpBody (es.take i)).length := by
      have := lpOffset_append (es.take i) (es.drop (i + num))
      rwa [hlen] at this
    have h' := h
    rw [hes] at h'
    obtain ⟨lp', hbytes, hholds⟩ := h'.lpRemoveBytes M
    refine ⟨lp', ?_, hholds, fun hzero ↦ absurd hzero hpos.ne'⟩
    rw [← hes] at hbytes
    rw [if_neg hpos.ne', h.lpRemoveLoop_eq num 0 hi, Option.bind_some, Nat.zero_add, hdeleted, hend,
      hoff]
    rw [lpOffset, hbytes]
    simp only [hrest, ite_not]

/-- **A range removed.** From the entry with index `i` on, `num` entries go, or as many as there are. What
is left is a well-formed listpack with the right total and the right number of elements, and `*p` is where
the entry is that has the index `i` now, or NULL when there is none. Nothing changes with `num = 0`. -/
theorem listPackRemoveRange_spec (M : Allocator UInt8) (lp : List UInt8) (es : List LpElement)
    (h : LpHolds lp es) (i num : ℕ) (hi : i < es.length) :
    ∃ lp', listPackRemoveRangeWithEntry M lp (lpOffset es i) num =
        some (lp', if i < (es.take i ++ es.drop (i + num)).length then
          some (lpOffset (es.take i ++ es.drop (i + num)) i) else none) ∧
      LpHolds lp' (es.take i ++ es.drop (i + num)) ∧
      LpWellFormed lp' ((es.take i ++ es.drop (i + num)).map lpPayload) ∧
      lpDecode lp' = some (es.take i ++ es.drop (i + num)) ∧
      listPackGetTotalBytes lp' = some (lpSize (es.take i ++ es.drop (i + num))) ∧
      (∃ numele, listPackGetNumElements lp' = some numele ∧
        LpCounts numele (es.take i ++ es.drop (i + num)).length) ∧
      (num = 0 → lp' = lp) := by
  obtain ⟨lp', hremove, hholds, hzero⟩ := h.listPackRemoveRangeWithEntry_eq M num hi
  exact ⟨lp', hremove, hholds, hholds.wellFormed, hholds.lpDecode_eq, hholds.totalBytes,
    hholds.numElements, hzero⟩

/-- The middle two of four, and then more than there are. -/
theorem listPackRemoveRange_spec_middle : ∃ lp lp' lp'',
    listPackRemoveRangeWithEntry zeroAllocator lp 9 2 = some (lp', some 9) ∧
      lpDecode lp' = some [.str [97], .str [100]] ∧
      listPackRemoveRangeWithEntry zeroAllocator lp 9 7 = some (lp'', none) ∧
      lpDecode lp'' = some [.str [97]] := by
  have h : LpHolds (lpHeader 21 4 ++ lpBody [.str [97], .int 5000, .str [98, 99], .str [100]] ++
      [lpEof]) [.str [97], .int 5000, .str [98, 99], .str [100]] :=
    ⟨⟨4, [], ⟨by decide, fun _ ↦ rfl⟩, by decide⟩, by decide, by decide⟩
  obtain ⟨lp', hremove, -, -, hdecode, -⟩ :=
    listPackRemoveRange_spec zeroAllocator _ _ h 1 2 (by decide)
  obtain ⟨lp'', hremove', -, -, hdecode', -⟩ :=
    listPackRemoveRange_spec zeroAllocator _ _ h 1 7 (by decide)
  exact ⟨_, lp', lp'', hremove, hdecode, hremove', hdecode'⟩

end LatteC
