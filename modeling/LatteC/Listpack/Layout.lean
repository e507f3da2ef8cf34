import LatteC.Listpack.Basic

/-!
# The layout of a listpack

What `_list_pack_insert` does to the bytes. A block is split into the header, the bytes in front of
the position, the bytes that are replaced, the tail up to the end of the listpack, and the rest of
the block. One lemma covers insertion, replacement and removal, for entries of any sizes.
-/

namespace LatteC

open Block

/-- The six bytes in front. -/
def lpHeader (total num : ℕ) : List UInt8 := leBytes 4 total ++ leBytes 2 num

@[simp] theorem length_lpHeader (total num : ℕ) : (lpHeader total num).length = 6 := by
  rw [lpHeader, List.length_append, length_leBytes, length_leBytes]

section Header

variable {total num : ℕ} (X : List UInt8)

theorem listPackGetTotalBytes_header (h : total < 2 ^ 32) :
    listPackGetTotalBytes (lpHeader total num ++ X) = some total := by
  have hread : read (lpHeader total num ++ X) 0 4 = some (leBytes 4 total) := by
    have := read_append [] (leBytes 4 total) (leBytes 2 num ++ X)
    rwa [List.nil_append, length_leBytes, ← List.append_assoc] at this
  rw [listPackGetTotalBytes, hread, Option.map_some, leValue_leBytes (by omega)]

theorem listPackGetNumElements_header (h : num < 2 ^ 16) :
    listPackGetNumElements (lpHeader total num ++ X) = some num := by
  have hread : read (lpHeader total num ++ X) 4 2 = some (leBytes 2 num) := by
    have := read_append (leBytes 4 total) (leBytes 2 num) X
    rwa [length_leBytes, length_leBytes] at this
  rw [listPackGetNumElements, hread, Option.map_some, leValue_leBytes (by omega)]

theorem listPackSetTotalBytes_header (v : ℕ) :
    listPackSetTotalBytes (lpHeader total num ++ X) v = some (lpHeader v num ++ X) := by
  have hlen : (leBytes 4 v).length = (leBytes 4 total).length := by simp
  have := write_append [] (leBytes 2 num ++ X) hlen
  rwa [List.nil_append, List.nil_append, ← List.append_assoc, ← List.append_assoc] at this

theorem listPackSetNumElements_header (v : ℕ) :
    listPackSetNumElements (lpHeader total num ++ X) v = some (lpHeader total v ++ X) := by
  have hlen : (leBytes 2 v).length = (leBytes 2 num).length := by simp
  have := write_append (leBytes 4 total) X hlen
  rwa [length_leBytes] at this

/-- The number of elements after an element has been counted. -/
def lpRecounted (num : ℕ) (delete : Bool) (whr : LpWhere) : ℕ :=
  if (whr ≠ .replace ∨ delete) ∧ num ≠ 2 ^ 16 - 1 then
    if delete then (num + (2 ^ 32 - 1)) % 2 ^ 32 else num + 1
  else num

theorem lpRecount_header (h : num < 2 ^ 16) (delete : Bool) (whr : LpWhere) :
    lpRecount (lpHeader total num ++ X) delete whr =
      some (lpHeader total (lpRecounted num delete whr) ++ X) := by
  rw [lpRecount, lpRecounted, listPackGetNumElements_header X h]
  by_cases hcount : whr ≠ .replace ∨ delete = true
  · rw [if_pos hcount, Option.bind_some]
    by_cases hfull : num = 2 ^ 16 - 1
    · have hskip : ¬((whr ≠ .replace ∨ delete = true) ∧ num ≠ 2 ^ 16 - 1) := fun hc ↦ hc.2 hfull
      rw [if_pos hfull, if_neg hskip]
    · have hboth : (whr ≠ .replace ∨ delete = true) ∧ num ≠ 2 ^ 16 - 1 := ⟨hcount, hfull⟩
      rw [if_neg hfull, if_pos hboth]
      cases delete with
      | true => rw [if_pos rfl, if_pos rfl, listPackSetNumElements_header]
      | false => rw [if_neg Bool.false_ne_true, if_neg Bool.false_ne_true,
          listPackSetNumElements_header]
  · have hskip : ¬((whr ≠ .replace ∨ delete = true) ∧ num ≠ 2 ^ 16 - 1) := fun hc ↦ hcount hc.1
    rw [if_neg hcount, if_neg hskip]

end Header

/-- The entry of an argument of `_list_pack_insert`: no bytes at all for a removal. -/
def lpNewEntry (ele : LpEle) : List UInt8 :=
  (lpEncoded ele).1 ++ if ele.isDelete then [] else listPackEncodeBacklen (lpEncoded ele).2

theorem lpNewEntry_of_isDelete {ele : LpEle} (h : ele.isDelete = true) : lpNewEntry ele = [] := by
  cases ele with
  | delete => rfl
  | elestr s => exact absurd h Bool.false_ne_true
  | eleint intenc => exact absurd h Bool.false_ne_true

section InsertAt

variable (M : Allocator UInt8) (A O T S : List UInt8)

/-- Growing the block, if it has to grow. -/
private theorem grow_block (n : ℕ) :
    ∃ S', (if (A ++ O ++ T).length < A.length + n + T.length ∧
          (A ++ O ++ T ++ S).length < A.length + n + T.length
        then M.resize (A ++ O ++ T ++ S) (A.length + n + T.length) else A ++ O ++ T ++ S) =
      A ++ O ++ T ++ S' ∧ n ≤ O.length + S'.length := by
  split_ifs with h
  · obtain ⟨S', heq, hle⟩ := M.resize_append (A ++ O ++ T) S h.1.le
    refine ⟨S', heq, ?_⟩
    simp only [List.length_append] at hle
    omega
  · refine ⟨S, rfl, ?_⟩
    simp only [List.length_append] at h
    omega

/-- Shrinking the block, if it is to shrink. -/
private theorem shrink_block (P : Prop) [Decidable P] :
    ∃ S', (if P then M.resize (A ++ S) A.length else A ++ S) = A ++ S' := by
  split_ifs
  · obtain ⟨S', heq, -⟩ := M.resize_append A S le_rfl
    exact ⟨S', heq⟩
  · exact ⟨S, rfl⟩

/-- Filling the gap with an entry. -/
private theorem write_entry (enc backlen : List UInt8) {X : List UInt8}
    (hX : X.length = enc.length + backlen.length) :
    (write (A ++ X ++ S) A.length enc).bind (fun lp ↦ write lp (A.length + enc.length) backlen) =
      some (A ++ (enc ++ backlen) ++ S) := by
  obtain ⟨X₁, X₂, rfl, h₁⟩ : ∃ X₁ X₂, X = X₁ ++ X₂ ∧ X₁.length = enc.length :=
    ⟨X.take enc.length, X.drop enc.length, (List.take_append_drop _ _).symm, by
      rw [List.length_take]
      omega⟩
  have h₂ : backlen.length = X₂.length := by
    rw [List.length_append] at hX
    omega
  rw [← List.append_assoc A X₁ X₂, List.append_assoc (A ++ X₁) X₂ S, write_append A _ h₁.symm,
    Option.bind_some, ← List.append_assoc, ← List.length_append, write_append _ _ h₂]
  simp only [List.append_assoc]

end InsertAt

/-- **Insertion at a position**: the bytes `O` give way to the new entry, and nothing else changes
but the two numbers in the header and what lies behind the listpack. -/
theorem lpInsertAt_layout (M : Allocator UInt8) {num : ℕ} (hnum : num < 2 ^ 16) (ele : LpEle)
    (whr : LpWhere) (henc : (lpEncoded ele).1.length = (lpEncoded ele).2) (L O : List UInt8) {t : UInt8}
    {T : List UInt8} (S : List UInt8)
    (hold : 6 + L.length + O.length + (t :: T).length < 2 ^ 32)
    (hnew : 6 + L.length + (lpNewEntry ele).length + (t :: T).length < 2 ^ 32) :
    ∃ S', lpInsertAt M
        (lpHeader (6 + L.length + O.length + (t :: T).length) num ++ L ++ O ++ t :: T ++ S) ele
        (6 + L.length) O.length whr =
      some (lpHeader (6 + L.length + (lpNewEntry ele).length + (t :: T).length)
          (lpRecounted num ele.isDelete whr) ++ L ++ lpNewEntry ele ++ t :: T ++ S',
        if ele.isDelete ∧ t = lpEof then none else some (6 + L.length)) := by
  generalize hbl : (if ele.isDelete then [] else listPackEncodeBacklen (lpEncoded ele).2) = backlen
  have hN : lpNewEntry ele = (lpEncoded ele).1 ++ backlen := by rw [lpNewEntry, hbl]
  have hNlen : (lpNewEntry ele).length = (lpEncoded ele).2 + backlen.length := by
    rw [hN, List.length_append, henc]
  generalize hold' : 6 + L.length + O.length + (t :: T).length = old at hold ⊢
  generalize hnew' : 6 + L.length + (lpNewEntry ele).length + (t :: T).length = new at hnew ⊢
  generalize hA : lpHeader old num ++ L = A
  have hAlen : A.length = 6 + L.length := by rw [← hA, List.length_append, length_lpHeader]
  have htotal : listPackGetTotalBytes (A ++ O ++ t :: T ++ S) = some old := by
    rw [← hA]
    simp only [List.append_assoc]
    exact listPackGetTotalBytes_header _ hold
  have hbytes : old + (lpEncoded ele).2 + backlen.length - O.length = new := by omega
  have hnewA : A.length + (lpNewEntry ele).length + (t :: T).length = new := by omega
  have holdA : (A ++ O ++ t :: T).length = old := by
    simp only [List.length_append]
    omega
  -- the block grows, the tail moves, the block shrinks
  obtain ⟨S₁, hgrow, hfit⟩ := grow_block M A O (t :: T) S (lpNewEntry ele).length
  rw [hnewA, holdA] at hgrow
  obtain ⟨X, S₂, hX, -, hmove⟩ := move_tail A O (t :: T) S₁ hfit
  have hPlen : (A ++ X ++ t :: T).length = new := by
    simp only [List.length_append]
    omega
  obtain ⟨S₃, hshrink⟩ := shrink_block M (A ++ X ++ t :: T) S₂ (new < old)
  rw [hPlen] at hshrink
  have htail : old - A.length - O.length = (t :: T).length := by omega
  have hcond : ¬(2 ^ 32 - 1 < new ∨ old < A.length + O.length) := by omega
  have hnewp : lpNewp (A ++ X ++ t :: T ++ S₃) A.length ele.isDelete =
      some (if ele.isDelete ∧ t = lpEof then none else some A.length) := by
    cases hdel : ele.isDelete with
    | false => simp [lpNewp]
    | true =>
      obtain rfl := List.length_eq_zero_iff.mp (hX.trans (by rw [lpNewEntry_of_isDelete hdel]; rfl))
      simp [lpNewp]
  obtain ⟨B, hB, hB'⟩ := Option.bind_eq_some_iff.mp
    (write_entry A (t :: T ++ S₃) (lpEncoded ele).1 backlen (X := X)
      (by rw [hX, hN, List.length_append]))
  rw [← List.append_assoc] at hB
  rw [henc, ← hN] at hB'
  refine ⟨S₃, ?_⟩
  rw [← hAlen]
  simp only [lpInsertAt, hbl, htotal, Option.bind_some, hbytes, ← hNlen, htail, if_neg hcond, hgrow,
    hmove, hshrink, hnewp, hB, hB']
  rw [← hA, List.append_assoc, List.append_assoc, List.append_assoc, lpRecount_header _ hnum,
    Option.bind_some, listPackSetTotalBytes_header, Option.map_some]
  simp only [List.append_assoc]

end LatteC
