import LatteC.Listpack.Layout

/-!
# The elements of a listpack

The block that holds given elements: their entries one behind the other. Walking over it reads the
elements, and `_list_pack_insert` does to them what it does to the bytes.
-/

namespace LatteC

open Block

/-- The bytes of an element. -/
def lpEntry (e : LpElement) : List UInt8 :=
  lpPayload e ++ listPackEncodeBacklen (lpPayload e).length

/-- The bytes of the elements. -/
def lpBody (es : List LpElement) : List UInt8 := es.flatMap lpEntry

/-- The number of bytes of a listpack. -/
def lpSize (es : List LpElement) : ℕ := lpHdrSize + (lpBody es).length + 1

/-- Where the element with index `i` starts. -/
def lpOffset (es : List LpElement) (i : ℕ) : ℕ := lpHdrSize + (lpBody (es.take i)).length

@[simp] theorem lpBody_nil : lpBody [] = [] := rfl

@[simp] theorem lpBody_cons (e : LpElement) (es : List LpElement) :
    lpBody (e :: es) = lpEntry e ++ lpBody es := rfl

@[simp] theorem lpBody_append (es fs : List LpElement) : lpBody (es ++ fs) = lpBody es ++ lpBody fs :=
  List.flatMap_append

/-! ## One entry in a block -/

theorem length_lpEntry (e : LpElement) : (lpEntry e).length =
    (lpPayload e).length + listPackEncodeBacklenBytes (lpPayload e).length := by
  rw [lpEntry, List.length_append, length_listPackEncodeBacklen]

theorem length_le_lpBody (es : List LpElement) : es.length ≤ (lpBody es).length := by
  induction es with
  | nil => exact Nat.zero_le _
  | cons e es ih =>
    have hpos := listPackEncodeBacklenBytes_pos (lpPayload e).length
    rw [lpBody_cons, List.length_append, length_lpEntry, List.length_cons]
    omega

/-- The format has room for every valid element. -/
theorem length_lpPayload_lt {e : LpElement} (h : e.Valid) : (lpPayload e).length < 2 ^ 32 := by
  cases e with
  | str s =>
    have hs : s.length + 5 < 2 ^ 32 := h
    rw [lpPayload, length_listPackEncodeString]
    split_ifs <;> omega
  | int v =>
    rw [lpPayload, listPackEncodeIntegerGetType]
    split_ifs <;> simp

/-- The entries with the end marker behind them start with the end marker exactly if there are none. -/
theorem lpBody_append_eof {es : List LpElement} (h : ∀ e ∈ es, e.Valid) :
    ∃ t T, lpBody es ++ [lpEof] = t :: T ∧ (t = lpEof ↔ es = []) := by
  cases es with
  | nil => exact ⟨lpEof, [], rfl, by simp⟩
  | cons e es =>
    obtain ⟨b, bs, hpay, heof, -⟩ := (lpPayload_readable (h e (by simp))).head
    refine ⟨b, _, by rw [lpBody_cons, lpEntry, hpay]; rfl, ?_⟩
    simp [heof]

section Entry

variable {e : LpElement} (he : e.Valid) (A C : List UInt8)

include he

theorem listPackCurrentEncodeSizeUnsafe_entry :
    listPackCurrentEncodeSizeUnsafe ((A ++ lpEntry e ++ C).drop A.length) =
      some (lpPayload e).length := by
  rw [List.append_assoc, List.drop_left, lpEntry, List.append_assoc]
  exact (lpPayload_readable he).size _

theorem listPackGet_entry : listPackGet ((A ++ lpEntry e ++ C).drop A.length) = some e := by
  rw [List.append_assoc, List.drop_left, lpEntry, List.append_assoc]
  exact (lpPayload_readable he).get _

theorem listPackSkip_entry :
    listPackSkip (A ++ lpEntry e ++ C) A.length = some (A.length + (lpEntry e).length) := by
  rw [listPackSkip, listPackCurrentEncodeSizeUnsafe_entry he, Option.map_some, length_lpEntry]

theorem listPackDecodeBacklen_entry :
    listPackDecodeBacklen (A ++ lpEntry e ++ C) (A.length + (lpEntry e).length - 1) =
      some (lpPayload e).length := by
  have hpos := listPackEncodeBacklenBytes_pos (lpPayload e).length
  have hlen := length_lpEntry e
  have htake : (A ++ lpEntry e ++ C).take (A.length + (lpEntry e).length - 1 + 1) =
      A ++ lpEntry e := by
    rw [Nat.sub_add_cancel (by omega), ← List.length_append, List.take_left]
  rw [listPackDecodeBacklen, if_pos (by simp only [List.length_append]; omega), htake, lpEntry,
    List.reverse_append, List.reverse_append, List.append_assoc]
  refine lpDecodeBacklenFrom_encode ?_ _
  have := length_lpPayload_lt he
  omega

/-- **An entry in front of the end passes validation.** -/
theorem listPackValidateNext_entry {lpbytes : ℕ} (hA : lpHdrSize ≤ A.length)
    (hbytes : A.length + (lpEntry e).length < lpbytes) :
    listPackValidateNext (A ++ lpEntry e ++ C) (some A.length) lpbytes =
      some (.accepted (some (A.length + (lpEntry e).length))) := by
  obtain ⟨b, bs, hpay, heof, hbytes0, hbytesle⟩ := (lpPayload_readable he).head
  have hhead : (A ++ lpEntry e ++ C)[A.length]? = some b := by
    rw [lpEntry, hpay]
    simp
  have hlen := length_lpEntry e
  have hlt := length_lpPayload_lt he
  have hle := listPackEncodeBacklenBytes_le (lpPayload e).length
  have hin : ∀ {p : ℕ}, lpHdrSize ≤ p → p < lpbytes → lpOutOfRange lpbytes p = false := by
    intro p h₁ h₂
    rw [lpOutOfRange, Bool.or_eq_false_iff, decide_eq_false_iff_not, decide_eq_false_iff_not]
    omega
  rw [listPackValidateNext, hin hA (by omega), if_neg Bool.false_ne_true, hhead, Option.bind_some,
    if_neg heof, if_neg hbytes0, hin (by omega) (by omega), if_neg Bool.false_ne_true,
    listPackCurrentEncodeSizeUnsafe_entry he, Option.bind_some]
  simp only [← hlen]
  rw [hin (by omega) hbytes, if_neg Bool.false_ne_true, listPackDecodeBacklen_entry he,
    Option.map_some, ← hlen, if_neg (by omega)]

end Entry

/-! ## Reading the elements -/

/-- The count in the header is the number of elements, as long as it is not full. -/
def LpCounts (num n : ℕ) : Prop := num < 2 ^ 16 ∧ (num ≠ 2 ^ 16 - 1 → num = n)

/-- The block holds the listpack of the elements. -/
structure LpHolds (lp : List UInt8) (es : List LpElement) : Prop where
  layout : ∃ num slack, LpCounts num es.length ∧
    lp = lpHeader (lpSize es) num ++ lpBody es ++ lpEof :: slack
  fits : lpSize es < 2 ^ 32
  valid : ∀ e ∈ es, e.Valid

namespace LpHolds

variable {lp : List UInt8} {es : List LpElement}

theorem totalBytes (h : LpHolds lp es) : listPackGetTotalBytes lp = some (lpSize es) := by
  obtain ⟨num, slack, -, rfl⟩ := h.layout
  rw [List.append_assoc]
  exact listPackGetTotalBytes_header _ h.fits

/-- The block as one sees it from an entry. -/
theorem split {L R : List LpElement} {e : LpElement} (h : LpHolds lp (L ++ e :: R)) :
    ∃ A C, lp = A ++ lpEntry e ++ C ∧ A.length = lpHdrSize + (lpBody L).length ∧ e.Valid ∧
      A.length + (lpEntry e).length < lpSize (L ++ e :: R) := by
  obtain ⟨num, slack, -, rfl⟩ := h.layout
  refine ⟨lpHeader (lpSize (L ++ e :: R)) num ++ lpBody L, lpBody R ++ lpEof :: slack, ?_, ?_,
    h.valid e (by simp), ?_⟩
  · simp only [lpBody_append, lpBody_cons, List.append_assoc]
  · rw [List.length_append, length_lpHeader, lpHdrSize]
  · rw [lpSize, lpBody_append, lpBody_cons]
    simp only [List.length_append, length_lpHeader, lpHdrSize]
    omega

theorem lpEntryAt_entry {L R : List LpElement} {e : LpElement} (h : LpHolds lp (L ++ e :: R)) :
    lpEntryAt lp (lpHdrSize + (lpBody L).length) =
      some (some (lpHdrSize + (lpBody L).length)) := by
  have htotal := h.totalBytes
  obtain ⟨A, C, rfl, hA, he, hlt⟩ := h.split
  obtain ⟨b, bs, hpay, heof, -⟩ := (lpPayload_readable he).head
  have hhead : (A ++ lpEntry e ++ C)[A.length]? = some b := by
    rw [lpEntry, hpay]
    simp
  rw [← hA, lpEntryAt, hhead, Option.bind_some, if_neg heof, htotal, Option.bind_some,
    listPackAssertValidEntry, listPackValidateNext_entry he A C (by omega) hlt]
  rfl

theorem lpEntryAt_eof (h : LpHolds lp es) :
    lpEntryAt lp (lpHdrSize + (lpBody es).length) = some none := by
  obtain ⟨num, slack, -, rfl⟩ := h.layout
  have hlen : lpHdrSize + (lpBody es).length = (lpHeader (lpSize es) num ++ lpBody es).length := by
    rw [List.length_append, length_lpHeader, lpHdrSize]
  rw [lpEntryAt, hlen, List.getElem?_append_right le_rfl, Nat.sub_self]
  rfl

theorem listPackNext_entry {L R : List LpElement} {e : LpElement} (h : LpHolds lp (L ++ e :: R)) :
    listPackNext lp (lpHdrSize + (lpBody L).length) =
      lpEntryAt lp (lpHdrSize + (lpBody (L ++ [e])).length) := by
  obtain ⟨A, C, rfl, hA, he, -⟩ := h.split
  rw [← hA, listPackNext, listPackSkip_entry he, Option.bind_some, lpBody_append, lpBody_cons,
    lpBody_nil, List.append_nil, List.length_append, ← Nat.add_assoc, hA]

theorem listPackGet_at {L R : List LpElement} {e : LpElement} (h : LpHolds lp (L ++ e :: R)) :
    listPackGet (lp.drop (lpHdrSize + (lpBody L).length)) = some e := by
  obtain ⟨A, C, rfl, hA, he, -⟩ := h.split
  rw [← hA, listPackGet_entry he]

/-- Reading on from any entry gives the elements from there on. -/
theorem lpDecodeFrom_eq : ∀ (R L : List LpElement) (fuel : ℕ), LpHolds lp (L ++ R) →
    R.length ≤ fuel →
    (lpEntryAt lp (lpHdrSize + (lpBody L).length)).bind (lpDecodeFrom lp fuel) = some R := by
  intro R
  induction R with
  | nil =>
    intro L fuel h _
    rw [List.append_nil] at h
    rw [h.lpEntryAt_eof, Option.bind_some, lpDecodeFrom]
  | cons e R ih =>
    intro L fuel h hfuel
    obtain ⟨fuel, rfl⟩ := Nat.exists_eq_add_of_le' (show 1 ≤ fuel by simp at hfuel; omega)
    have hrest := ih (L ++ [e]) fuel (by rwa [List.append_assoc]) (by simpa using hfuel)
    rw [← h.listPackNext_entry] at hrest
    obtain ⟨next, hnext, hdecode⟩ := Option.bind_eq_some_iff.mp hrest
    rw [h.lpEntryAt_entry, Option.bind_some, lpDecodeFrom, h.listPackGet_at, Option.bind_some, hnext,
      Option.bind_some, hdecode, Option.map_some]

theorem length_le (h : LpHolds lp es) : es.length ≤ lp.length := by
  obtain ⟨num, slack, -, rfl⟩ := h.layout
  have := length_le_lpBody es
  simp only [List.length_append]
  omega

/-- **Decoding** gives back the elements. -/
theorem lpDecode_eq (h : LpHolds lp es) : lpDecode lp = some es :=
  lpDecodeFrom_eq es [] lp.length h h.length_le

end LpHolds

/-! ## Replacing entries -/

theorem lpRecounted_replace {num n : ℕ} (h : LpCounts num n) :
    LpCounts (lpRecounted num false .replace) n := by
  rwa [lpRecounted, if_neg (by simp)]

/-- A count that is full stays as it is. -/
private theorem lpCounts_full {num : ℕ} (h : num = 2 ^ 16 - 1) (delete : Bool) (whr : LpWhere)
    (n : ℕ) : LpCounts (lpRecounted num delete whr) n := by
  rw [lpRecounted, if_neg fun hcond ↦ hcond.2 h]
  exact ⟨by omega, fun hne ↦ absurd h hne⟩

theorem lpRecounted_before {num n : ℕ} (h : LpCounts num n) :
    LpCounts (lpRecounted num false .before) (n + 1) := by
  by_cases hfull : num = 2 ^ 16 - 1
  · exact lpCounts_full hfull false .before (n + 1)
  · have hcond : (LpWhere.before ≠ .replace ∨ false = true) ∧ num ≠ 2 ^ 16 - 1 :=
      ⟨Or.inl (by decide), hfull⟩
    have heq := h.2 hfull
    have hlt := h.1
    rw [lpRecounted, if_pos hcond, if_neg Bool.false_ne_true]
    exact ⟨by omega, fun _ ↦ by omega⟩

theorem lpRecounted_delete {num n : ℕ} (h : LpCounts num (n + 1)) :
    LpCounts (lpRecounted num true .replace) n := by
  by_cases hfull : num = 2 ^ 16 - 1
  · exact lpCounts_full hfull true .replace n
  · have hcond : (LpWhere.replace ≠ .replace ∨ true = true) ∧ num ≠ 2 ^ 16 - 1 :=
      ⟨Or.inr rfl, hfull⟩
    have heq := h.2 hfull
    have hlt := h.1
    rw [lpRecounted, if_pos hcond, if_pos rfl]
    exact ⟨by omega, fun _ ↦ by omega⟩

/-- What `_list_pack_insert` is given to insert the elements: one, or none for a removal. -/
inductive LpGiven : LpEle → List LpElement → Prop where
  | one {ele : LpEle} {e : LpElement} (delete : ele.isDelete = false)
      (encoded : lpEncoded ele = (lpPayload e, (lpPayload e).length)) : LpGiven ele [e]
  | none : LpGiven .delete []

namespace LpGiven

variable {ele : LpEle} {N : List LpElement} (h : LpGiven ele N)

include h

theorem length_encoded : (lpEncoded ele).1.length = (lpEncoded ele).2 := by
  cases h with
  | one delete encoded => rw [encoded]
  | none => rfl

theorem isDelete_eq : ele.isDelete = N.isEmpty := by
  cases h with
  | one delete encoded => exact delete
  | none => rfl

theorem newEntry : lpNewEntry ele = lpBody N := by
  cases h with
  | one delete encoded =>
    rw [lpNewEntry, delete, encoded, lpBody_cons, lpBody_nil, List.append_nil]
    rfl
  | none => rfl

end LpGiven

namespace LpHolds

variable {lp : List UInt8}

/-- **One insertion, replacement or removal**: in the block as in the list, `O` gives way to `N`. -/
theorem lpInsertAt (M : Allocator UInt8) {L O N R : List LpElement} (h : LpHolds lp (L ++ O ++ R))
    {ele : LpEle} (hele : LpGiven ele N) {whr : LpWhere}
    (hcount : ∀ {num}, LpCounts num (L ++ O ++ R).length →
      LpCounts (lpRecounted num ele.isDelete whr) (L ++ N ++ R).length)
    (hfits : lpSize (L ++ N ++ R) < 2 ^ 32) (hvalid : ∀ e ∈ N, e.Valid) :
    ∃ lp', LatteC.lpInsertAt M lp ele (lpHdrSize + (lpBody L).length) (lpBody O).length whr =
        some (lp', if ele.isDelete ∧ R = [] then none
          else some (lpHdrSize + (lpBody L).length)) ∧
      LpHolds lp' (L ++ N ++ R) := by
  obtain ⟨num, slack, hnum, rfl⟩ := h.layout
  have hfits' := h.fits
  have hvalidR : ∀ r ∈ R, r.Valid := fun r hr ↦ h.valid r (List.mem_append_right _ hr)
  obtain ⟨t, T, hT, ht⟩ := lpBody_append_eof hvalidR
  have hold : lpSize (L ++ O ++ R) = 6 + (lpBody L).length + (lpBody O).length + (t :: T).length := by
    rw [← hT, lpSize, lpHdrSize]
    simp only [lpBody_append, List.length_append, List.length_singleton]
    omega
  have hnew : lpSize (L ++ N ++ R) =
      6 + (lpBody L).length + (lpNewEntry ele).length + (t :: T).length := by
    rw [← hT, lpSize, lpHdrSize, hele.newEntry]
    simp only [lpBody_append, List.length_append, List.length_singleton]
    omega
  obtain ⟨slack', hins⟩ := lpInsertAt_layout M hnum.1 ele whr hele.length_encoded (lpBody L)
    (lpBody O) slack (hold ▸ hfits') (hnew ▸ hfits)
  have hblock : lpHeader (lpSize (L ++ O ++ R)) num ++ lpBody (L ++ O ++ R) ++ lpEof :: slack =
      lpHeader (lpSize (L ++ O ++ R)) num ++ lpBody L ++ lpBody O ++ t :: T ++ slack := by
    rw [← hT]
    simp only [lpBody_append, List.append_assoc, List.singleton_append]
  rw [hblock, hold]
  simp only [← ht]
  refine ⟨_, hins, ⟨_, slack', hcount hnum, ?_⟩, hfits, ?_⟩
  · rw [hnew, hele.newEntry, ← hT]
    simp only [lpBody_append, List.append_assoc, List.singleton_append]
  · intro e he
    rcases List.mem_append.mp he with he | he
    · rcases List.mem_append.mp he with he | he
      · exact h.valid e (by simp [he])
      · exact hvalid e he
    · exact h.valid e (by simp [he])

theorem lpReplacedLen_entry {L R : List LpElement} {o : LpElement} (h : LpHolds lp (L ++ o :: R)) :
    lpReplacedLen lp (lpHdrSize + (lpBody L).length) .replace = some (lpEntry o).length := by
  have htotal := h.totalBytes
  have hfits := h.fits
  obtain ⟨A, C, rfl, hA, ho, hlt⟩ := h.split
  rw [lpReplacedLen, ← hA, listPackCurrentEncodeSizeUnsafe_entry ho, Option.bind_some, htotal,
    Option.bind_some]
  simp only [← length_lpEntry]
  rw [Nat.mod_eq_of_lt (by omega), if_pos ⟨by omega, hlt⟩]

section Insert

variable (M : Allocator UInt8) {L R : List LpElement} {o e : LpElement} {ele : LpEle}

theorem insert_before (h : LpHolds lp (L ++ R)) (hele : LpGiven ele [e])
    (hfits : lpSize (L ++ e :: R) < 2 ^ 32) (hvalid : e.Valid) :
    ∃ lp', listPackInsert M lp ele (lpHdrSize + (lpBody L).length) .before =
        some (lp', some (lpHdrSize + (lpBody L).length)) ∧ LpHolds lp' (L ++ e :: R) := by
  have hdel : ele.isDelete = false := hele.isDelete_eq
  have heq : L ++ [e] ++ R = L ++ e :: R := by rw [List.append_assoc, List.singleton_append]
  have h' : LpHolds lp (L ++ [] ++ R) := by rwa [List.append_nil]
  have hcount : ∀ {num}, LpCounts num (L ++ [] ++ R).length →
      LpCounts (lpRecounted num ele.isDelete .before) (L ++ [e] ++ R).length := by
    intro num hnum
    rw [hdel, show (L ++ [e] ++ R).length = (L ++ [] ++ R).length + 1 by simp; omega]
    exact lpRecounted_before hnum
  obtain ⟨lp', hins, hholds⟩ := h'.lpInsertAt M hele hcount (heq ▸ hfits) (by simpa using hvalid)
  rw [heq] at hholds
  rw [hdel, if_neg (by simp)] at hins
  refine ⟨lp', ?_, hholds⟩
  rw [listPackInsert, hdel]
  exact hins

theorem insert_after (h : LpHolds lp (L ++ o :: R)) (hele : LpGiven ele [e])
    (hfits : lpSize (L ++ o :: e :: R) < 2 ^ 32) (hvalid : e.Valid) :
    ∃ lp', listPackInsert M lp ele (lpHdrSize + (lpBody L).length) .after =
        some (lp', some (lpHdrSize + (lpBody (L ++ [o])).length)) ∧
      LpHolds lp' (L ++ o :: e :: R) := by
  have hdel : ele.isDelete = false := hele.isDelete_eq
  have heq : ∀ X : List LpElement, L ++ [o] ++ X = L ++ o :: X := fun X ↦ by
    rw [List.append_assoc, List.singleton_append]
  have hpos : lpPosition lp (lpHdrSize + (lpBody L).length) .after =
      some (lpHdrSize + (lpBody (L ++ [o])).length, .before) := by
    have htotal := h.totalBytes
    obtain ⟨A, C, rfl, hA, ho, hlt⟩ := h.split
    rw [lpPosition, ← hA, listPackSkip_entry ho, Option.bind_some, htotal, Option.bind_some,
      if_pos ⟨by omega, hlt⟩, lpBody_append, lpBody_cons, lpBody_nil, List.append_nil,
      List.length_append, ← Nat.add_assoc, hA]
  obtain ⟨lp', hins, hholds⟩ := insert_before M (L := L ++ [o]) (R := R) (by rwa [heq]) hele
    (by rwa [heq]) hvalid
  rw [heq] at hholds
  refine ⟨lp', ?_, hholds⟩
  rw [listPackInsert, hdel, if_neg Bool.false_ne_true] at hins ⊢
  rw [hpos, Option.bind_some]
  exact hins

theorem replace (h : LpHolds lp (L ++ o :: R)) (hele : LpGiven ele [e])
    (hfits : lpSize (L ++ e :: R) < 2 ^ 32) (hvalid : e.Valid) :
    ∃ lp', listPackInsert M lp ele (lpHdrSize + (lpBody L).length) .replace =
        some (lp', some (lpHdrSize + (lpBody L).length)) ∧ LpHolds lp' (L ++ e :: R) := by
  have hdel : ele.isDelete = false := hele.isDelete_eq
  have heq : ∀ x : LpElement, L ++ [x] ++ R = L ++ x :: R := fun X ↦ by
    rw [List.append_assoc, List.singleton_append]
  have hcount : ∀ {num}, LpCounts num (L ++ [o] ++ R).length →
      LpCounts (lpRecounted num ele.isDelete .replace) (L ++ [e] ++ R).length := by
    intro num hnum
    rw [hdel, show (L ++ [e] ++ R).length = (L ++ [o] ++ R).length by simp]
    exact lpRecounted_replace hnum
  have h' : LpHolds lp (L ++ [o] ++ R) := by rwa [heq]
  obtain ⟨lp', hins, hholds⟩ := h'.lpInsertAt M hele hcount (heq e ▸ hfits) (by simpa using hvalid)
  rw [heq] at hholds
  rw [hdel, if_neg (by simp), lpBody_cons, lpBody_nil, List.append_nil] at hins
  refine ⟨lp', ?_, hholds⟩
  rw [listPackInsert, hdel, if_neg Bool.false_ne_true, lpPosition, Option.bind_some,
    h.lpReplacedLen_entry, Option.bind_some, hins]
  · decide

theorem remove (h : LpHolds lp (L ++ o :: R)) :
    ∃ lp', listPackInsert M lp .delete (lpHdrSize + (lpBody L).length) .replace =
        some (lp', if R = [] then none else some (lpHdrSize + (lpBody L).length)) ∧
      LpHolds lp' (L ++ R) := by
  have heq : L ++ [o] ++ R = L ++ o :: R := by rw [List.append_assoc, List.singleton_append]
  have h' : LpHolds lp (L ++ [o] ++ R) := by rwa [heq]
  have hcount : ∀ {num}, LpCounts num (L ++ [o] ++ R).length →
      LpCounts (lpRecounted num true .replace) (L ++ [] ++ R).length := by
    intro num hnum
    have hlen : (L ++ [o] ++ R).length = (L ++ [] ++ R).length + 1 := by
      simp only [List.length_append, List.length_singleton, List.length_nil]
      omega
    rw [hlen] at hnum
    exact lpRecounted_delete hnum
  have hfits : lpSize (L ++ [] ++ R) < 2 ^ 32 := by
    have := h'.fits
    rw [lpSize] at this ⊢
    simp only [lpBody_append, lpBody_nil, List.length_append, List.length_nil] at this ⊢
    omega
  obtain ⟨lp', hins, hholds⟩ := h'.lpInsertAt M LpGiven.none hcount hfits (by simp)
  rw [List.append_nil] at hholds
  rw [lpBody_cons, lpBody_nil, List.append_nil] at hins
  refine ⟨lp', ?_, hholds⟩
  rw [listPackInsert, show LpEle.delete.isDelete = true from rfl, if_pos rfl, lpPosition,
    Option.bind_some, h.lpReplacedLen_entry, Option.bind_some, hins]
  · simp [LpEle.isDelete]
  · decide

end Insert

end LpHolds

end LatteC
