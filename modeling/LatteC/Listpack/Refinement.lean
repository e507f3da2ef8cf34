import LatteC.Foundation.CallMachine
import LatteC.Listpack.Elements

/-!
# The listpack is a list

Whatever is inserted, replaced and removed, the block holds a well-formed listpack, and reading it
gives the list that the same operations make of a plain list of elements.
-/

namespace LatteC

open Block

/-- A call that changes a listpack. A position is the offset of an entry, or of the end for an
insertion in front of it. -/
inductive LpCall where
  | insertString (s : List UInt8) (p : ℕ) (whr : LpWhere)
  | insertInteger (lval : ℤ) (p : ℕ) (whr : LpWhere)
  | appendString (s : List UInt8)
  | appendInteger (lval : ℤ)
  | prependString (s : List UInt8)
  | prependInteger (lval : ℤ)
  | replaceString (p : ℕ) (s : List UInt8)
  | replaceInteger (p : ℕ) (lval : ℤ)
  | remove (p : ℕ)

/-- The `*newp` of a call, if it has one. -/
inductive LpReply where
  | newp (p : Option ℕ)
  | done
  deriving DecidableEq

/-- One call. -/
def listPackStep (M : Allocator UInt8) (lp : List UInt8) :
    LpCall → Option (List UInt8 × LpReply)
  | .insertString s p whr => (listPackInsertString M lp s p whr).map fun r ↦ (r.1, .newp r.2)
  | .insertInteger lval p whr =>
    (listPackInsertInteger M lp lval p whr).map fun r ↦ (r.1, .newp r.2)
  | .appendString s => (listPackAppendString M lp s).map fun lp ↦ (lp, .done)
  | .appendInteger lval => (listPackAppendInteger M lp lval).map fun lp ↦ (lp, .done)
  | .prependString s => (listPackPrependString M lp s).map fun lp ↦ (lp, .done)
  | .prependInteger lval => (listPackPrependInteger M lp lval).map fun lp ↦ (lp, .done)
  | .replaceString p s => (listPackReplaceString M lp p s).map fun lp ↦ (lp, .done)
  | .replaceInteger p lval =>
    (listPackReplaceInteger M lp p lval).map fun r ↦ (r.1, .newp r.2)
  | .remove p => (listPackRemove M lp p).map fun r ↦ (r.1, .newp r.2)

/-! ## The plain list -/

/-- The index of the element that starts at an offset; the end has the index behind the last. -/
def lpIndexAt (es : List LpElement) (p : ℕ) : Option ℕ :=
  (List.range (es.length + 1)).find? fun i ↦ lpOffset es i = p

/-- A list that fits into `UINT32_MAX` bytes. -/
def lpAdmit (es : List LpElement) (r : LpReply) : Option (List LpElement × LpReply) :=
  if lpSize es ≤ 2 ^ 32 - 1 then some (es, r) else none

/-- Insert an element next to an existing one or in its place, and say where it is. -/
def lpListInsert (es : List LpElement) (e : LpElement) (p : ℕ) :
    LpWhere → Option (List LpElement × LpReply)
  | .before =>
    (lpIndexAt es p).bind fun i ↦
      lpAdmit (es.insertIdx i e) (.newp (some (lpOffset (es.insertIdx i e) i)))
  | .after =>
    (lpIndexAt es p).bind fun i ↦
      if i < es.length then
        lpAdmit (es.insertIdx (i + 1) e) (.newp (some (lpOffset (es.insertIdx (i + 1) e) (i + 1))))
      else none
  | .replace =>
    (lpIndexAt es p).bind fun i ↦
      if i < es.length then lpAdmit (es.set i e) (.newp (some (lpOffset (es.set i e) i))) else none

/-- One call on a plain list. It is defined where the contract of the listpack is: the position is
one of the list, a `long long` is one, and the result fits. A string counts as the integer of which
it is the numeral. -/
def lpListStep (es : List LpElement) : LpCall → Option (List LpElement × LpReply)
  | .insertString s p whr => lpListInsert es (lpElementOfString s) p whr
  | .insertInteger lval p whr => if IsInt64 lval then lpListInsert es (.int lval) p whr else none
  | .appendString s => lpAdmit (es ++ [lpElementOfString s]) .done
  | .appendInteger lval => if IsInt64 lval then lpAdmit (es ++ [.int lval]) .done else none
  | .prependString s => lpAdmit (lpElementOfString s :: es) .done
  | .prependInteger lval => if IsInt64 lval then lpAdmit (.int lval :: es) .done else none
  | .replaceString p s =>
    (lpListInsert es (lpElementOfString s) p .replace).map fun r ↦ (r.1, .done)
  | .replaceInteger p lval =>
    if IsInt64 lval then lpListInsert es (.int lval) p .replace else none
  | .remove p =>
    (lpIndexAt es p).bind fun i ↦
      if i < es.length then
        some (es.eraseIdx i, .newp (if i < (es.eraseIdx i).length
          then some (lpOffset (es.eraseIdx i) i) else none))
      else none

theorem lpIndexAt_eq_some {es : List LpElement} {p i : ℕ} (h : lpIndexAt es p = some i) :
    ∃ L R, es = L ++ R ∧ i = L.length ∧ p = lpHdrSize + (lpBody L).length := by
  have hle : i < es.length + 1 := List.mem_range.mp (List.mem_of_find?_eq_some h)
  have hp : lpOffset es i = p := by simpa using List.find?_some h
  refine ⟨es.take i, es.drop i, (List.take_append_drop i es).symm, ?_, hp.symm⟩
  rw [List.length_take]
  omega

/-- The index of an element, not of the end. -/
theorem lpIndexAt_lt {es : List LpElement} {p i : ℕ} (h : lpIndexAt es p = some i)
    (hlt : i < es.length) :
    ∃ L o R, es = L ++ o :: R ∧ i = L.length ∧ p = lpHdrSize + (lpBody L).length := by
  obtain ⟨L, R, rfl, rfl, rfl⟩ := lpIndexAt_eq_some h
  cases R with
  | nil => simp at hlt
  | cons o R => exact ⟨L, o, R, rfl, rfl, rfl⟩

theorem lpAdmit_eq_some {es es' : List LpElement} {r r' : LpReply}
    (h : lpAdmit es r = some (es', r')) : es' = es ∧ r' = r ∧ lpSize es < 2 ^ 32 := by
  rw [lpAdmit] at h
  split_ifs at h with hsize
  obtain ⟨rfl, rfl⟩ := Prod.mk.inj (Option.some.inj h)
  exact ⟨rfl, rfl, by omega⟩

theorem lpOffset_append (L R : List LpElement) :
    lpOffset (L ++ R) L.length = lpHdrSize + (lpBody L).length := by
  rw [lpOffset, List.take_left]

private theorem insertIdx_length_append (L R : List LpElement) (e : LpElement) :
    (L ++ R).insertIdx L.length e = L ++ e :: R := by
  induction L with
  | nil => rfl
  | cons a L ih => rw [List.cons_append, List.length_cons, List.insertIdx_succ_cons, ih,
      List.cons_append]

/-! ## What is to be inserted -/

theorem lpGiven_elestr (s : List UInt8) : LpGiven (.elestr s) [lpElementOfString s] := by
  refine .one rfl ?_
  rw [lpEncoded, listPackEncodeGetType, lpElementOfString, listPackStringToInt64_eq]
  split_ifs with h
  · rfl
  · simp only [lpPayload, length_listPackEncodeString]

theorem lpGiven_eleint (v : ℤ) :
    LpGiven (.eleint (listPackEncodeIntegerGetType v)) [.int v] :=
  .one rfl rfl

/-- A string that fits into a listpack is short enough for the format. -/
theorem valid_lpElementOfString {s : List UInt8}
    (h : (lpEntry (lpElementOfString s)).length < 2 ^ 32) : (lpElementOfString s).Valid := by
  rw [length_lpEntry] at h
  rw [lpElementOfString] at h ⊢
  split_ifs at h ⊢ with hint
  · exact hint.1
  · have hpos := listPackEncodeBacklenBytes_pos (lpPayload (.str s)).length
    have hlen : (lpPayload (.str s)).length = _ := length_listPackEncodeString s
    rw [LpElement.Valid]
    split_ifs at hlen <;> omega

theorem length_lpEntry_lt {L R : List LpElement} {e : LpElement}
    (h : lpSize (L ++ e :: R) < 2 ^ 32) : (lpEntry e).length < 2 ^ 32 := by
  rw [lpSize, lpBody_append, lpBody_cons] at h
  simp only [List.length_append] at h
  omega

/-- A new element stands where `*newp` points. -/
theorem lpListInsert_eq_some {es es' : List LpElement} {e : LpElement} {p : ℕ} {whr : LpWhere}
    {r : LpReply} (h : lpListInsert es e p whr = some (es', r)) :
    ∃ L R, es' = L ++ e :: R ∧ r = .newp (some (lpHdrSize + (lpBody L).length)) ∧
      lpSize es' < 2 ^ 32 := by
  cases whr with
  | before =>
    obtain ⟨i, hi, hadmit⟩ := Option.bind_eq_some_iff.mp h
    obtain ⟨L, R, rfl, rfl, rfl⟩ := lpIndexAt_eq_some hi
    rw [insertIdx_length_append, lpOffset_append] at hadmit
    obtain ⟨rfl, rfl, hfits⟩ := lpAdmit_eq_some hadmit
    exact ⟨L, R, rfl, rfl, hfits⟩
  | after =>
    obtain ⟨i, hi, hadmit⟩ := Option.bind_eq_some_iff.mp h
    split_ifs at hadmit with hlt
    obtain ⟨L, o, R, rfl, rfl, rfl⟩ := lpIndexAt_lt hi hlt
    have hidx := insertIdx_length_append (L ++ [o]) R e
    rw [List.length_append, List.length_singleton, List.append_assoc, List.singleton_append] at hidx
    have hoff := lpOffset_append (L ++ [o]) (e :: R)
    rw [List.length_append, List.length_singleton] at hoff
    rw [hidx, hoff] at hadmit
    obtain ⟨rfl, rfl, hfits⟩ := lpAdmit_eq_some hadmit
    exact ⟨L ++ [o], R, rfl, rfl, hfits⟩
  | replace =>
    obtain ⟨i, hi, hadmit⟩ := Option.bind_eq_some_iff.mp h
    split_ifs at hadmit with hlt
    obtain ⟨L, o, R, rfl, rfl, rfl⟩ := lpIndexAt_lt hi hlt
    have hset : (L ++ o :: R).set L.length e = L ++ e :: R := by simp
    rw [hset, lpOffset_append] at hadmit
    obtain ⟨rfl, rfl, hfits⟩ := lpAdmit_eq_some hadmit
    exact ⟨L, R, rfl, rfl, hfits⟩

/-! ## Runs -/

section Step

variable (M : Allocator UInt8) {lp : List UInt8} {es es' : List LpElement} (h : LpHolds lp es)
  {ele : LpEle} {e : LpElement} (hele : LpGiven ele [e])
  (hvalid : (lpEntry e).length < 2 ^ 32 → e.Valid)

include h hele hvalid

theorem listPackInsert_refines {p : ℕ} {whr : LpWhere} {r : LpReply}
    (hspec : lpListInsert es e p whr = some (es', r)) :
    ∃ lp' newp, listPackInsert M lp ele p whr = some (lp', newp) ∧ r = .newp newp ∧
      LpHolds lp' es' := by
  cases whr with
  | before =>
    obtain ⟨i, hi, hadmit⟩ := Option.bind_eq_some_iff.mp hspec
    obtain ⟨L, R, rfl, rfl, rfl⟩ := lpIndexAt_eq_some hi
    rw [insertIdx_length_append, lpOffset_append] at hadmit
    obtain ⟨rfl, rfl, hfits⟩ := lpAdmit_eq_some hadmit
    obtain ⟨lp', hins, hholds⟩ := h.insert_before M hele hfits (hvalid (length_lpEntry_lt hfits))
    exact ⟨lp', _, hins, rfl, hholds⟩
  | after =>
    obtain ⟨i, hi, hadmit⟩ := Option.bind_eq_some_iff.mp hspec
    split_ifs at hadmit with hlt
    obtain ⟨L, o, R, rfl, rfl, rfl⟩ := lpIndexAt_lt hi hlt
    have hidx : (L ++ o :: R).insertIdx (L.length + 1) e = L ++ [o] ++ e :: R := by
      rw [show L ++ o :: R = L ++ [o] ++ R by simp,
        show L.length + 1 = (L ++ [o]).length by simp, insertIdx_length_append]
    have hoff : lpOffset (L ++ [o] ++ e :: R) (L.length + 1) =
        lpHdrSize + (lpBody (L ++ [o])).length := by
      rw [← lpOffset_append (L ++ [o]) (e :: R), List.length_append, List.length_singleton]
    rw [hidx, hoff] at hadmit
    obtain ⟨rfl, rfl, hfits⟩ := lpAdmit_eq_some hadmit
    have hv := hvalid (length_lpEntry_lt hfits)
    have heq : L ++ [o] ++ e :: R = L ++ o :: e :: R := by simp
    rw [heq] at hfits ⊢
    obtain ⟨lp', hins, hholds⟩ := h.insert_after M hele hfits hv
    exact ⟨lp', _, hins, rfl, hholds⟩
  | replace =>
    obtain ⟨i, hi, hadmit⟩ := Option.bind_eq_some_iff.mp hspec
    split_ifs at hadmit with hlt
    obtain ⟨L, o, R, rfl, rfl, rfl⟩ := lpIndexAt_lt hi hlt
    have hset : (L ++ o :: R).set L.length e = L ++ e :: R := by simp
    rw [hset, lpOffset_append] at hadmit
    obtain ⟨rfl, rfl, hfits⟩ := lpAdmit_eq_some hadmit
    obtain ⟨lp', hins, hholds⟩ := h.replace M hele hfits (hvalid (length_lpEntry_lt hfits))
    exact ⟨lp', _, hins, rfl, hholds⟩

theorem lpAppend_refines (hfits : lpSize (es ++ [e]) < 2 ^ 32) :
    ∃ lp', lpAppend M lp ele = some lp' ∧ LpHolds lp' (es ++ [e]) := by
  have h' : LpHolds lp (es ++ []) := by rwa [List.append_nil]
  obtain ⟨lp', hins, hholds⟩ := h'.insert_before M hele hfits (hvalid (length_lpEntry_lt hfits))
  refine ⟨lp', ?_, hholds⟩
  rw [lpAppend, h.totalBytes, Option.bind_some, lpSize, Nat.add_sub_cancel, hins, Option.map_some]

theorem lpPrepend_refines (hfits : lpSize (e :: es) < 2 ^ 32) :
    ∃ lp', lpPrepend M lp ele = some lp' ∧ LpHolds lp' (e :: es) := by
  cases es with
  | nil =>
    have hfirst : listPackFirst lp = some none := h.lpEntryAt_eof
    obtain ⟨lp', happ, hholds⟩ := lpAppend_refines M h hele hvalid hfits
    exact ⟨lp', by rw [lpPrepend, hfirst, Option.bind_some, happ], hholds⟩
  | cons a es =>
    have h' : LpHolds lp ([] ++ a :: es) := h
    have hfirst : listPackFirst lp = some (some lpHdrSize) := h'.lpEntryAt_entry
    have hfits' : lpSize ([] ++ e :: a :: es) < 2 ^ 32 := hfits
    obtain ⟨lp', hins, hholds⟩ := h'.insert_before M hele hfits' (hvalid (length_lpEntry_lt hfits'))
    refine ⟨lp', ?_, hholds⟩
    rw [lpBody_nil, List.length_nil, Nat.add_zero] at hins
    rw [lpPrepend, hfirst, Option.bind_some]
    simp only [hins, Option.map_some]

end Step

theorem lpRemove_refines (M : Allocator UInt8) {lp : List UInt8} {es es' : List LpElement}
    (h : LpHolds lp es) {p : ℕ} {r : LpReply}
    (hspec : lpListStep es (.remove p) = some (es', r)) :
    ∃ lp', listPackStep M lp (.remove p) = some (lp', r) ∧ LpHolds lp' es' := by
  obtain ⟨i, hi, hres⟩ := Option.bind_eq_some_iff.mp hspec
  by_cases hlt : i < es.length
  · obtain ⟨L, o, R, rfl, rfl, rfl⟩ := lpIndexAt_lt hi hlt
    have herase : (L ++ o :: R).eraseIdx L.length = L ++ R := by
      rw [List.eraseIdx_append_of_length_le le_rfl, Nat.sub_self]
      rfl
    rw [if_pos hlt, herase, lpOffset_append] at hres
    obtain ⟨rfl, rfl⟩ := Prod.mk.inj (Option.some.inj hres)
    obtain ⟨lp', hrem, hholds⟩ := h.remove M
    refine ⟨lp', ?_, hholds⟩
    rw [listPackStep, listPackRemove, hrem, Option.map_some]
    cases R with
    | nil => simp
    | cons r R => simp
  · rw [if_neg hlt] at hres
    simp at hres

/-- One call on a listpack does what it does on the list it holds. -/
theorem listPackStep_refines (M : Allocator UInt8) (lp : List UInt8) (es : List LpElement)
    (c : LpCall) (es' : List LpElement) (r : LpReply) (h : LpHolds lp es)
    (hspec : lpListStep es c = some (es', r)) :
    ∃ lp', listPackStep M lp c = some (lp', r) ∧ LpHolds lp' es' := by
  have hstr := fun s ↦ lpGiven_elestr s
  have hvstr := fun s ↦ @valid_lpElementOfString s
  cases c with
  | insertString s p whr =>
    obtain ⟨lp', newp, hins, rfl, hholds⟩ := listPackInsert_refines M h (hstr s) (hvstr s) hspec
    exact ⟨lp', by rw [listPackStep, listPackInsertString, hins, Option.map_some], hholds⟩
  | insertInteger lval p whr =>
    rw [lpListStep] at hspec
    split_ifs at hspec with hint
    obtain ⟨lp', newp, hins, rfl, hholds⟩ :=
      listPackInsert_refines M h (lpGiven_eleint lval) (fun _ ↦ hint) hspec
    exact ⟨lp', by rw [listPackStep, listPackInsertInteger, hins, Option.map_some], hholds⟩
  | appendString s =>
    obtain ⟨rfl, rfl, hfits⟩ := lpAdmit_eq_some hspec
    obtain ⟨lp', happ, hholds⟩ := lpAppend_refines M h (hstr s) (hvstr s) hfits
    exact ⟨lp', by rw [listPackStep, listPackAppendString, happ, Option.map_some], hholds⟩
  | appendInteger lval =>
    rw [lpListStep] at hspec
    split_ifs at hspec with hint
    obtain ⟨rfl, rfl, hfits⟩ := lpAdmit_eq_some hspec
    obtain ⟨lp', happ, hholds⟩ := lpAppend_refines M h (lpGiven_eleint lval) (fun _ ↦ hint) hfits
    exact ⟨lp', by rw [listPackStep, listPackAppendInteger, happ, Option.map_some], hholds⟩
  | prependString s =>
    obtain ⟨rfl, rfl, hfits⟩ := lpAdmit_eq_some hspec
    obtain ⟨lp', hpre, hholds⟩ := lpPrepend_refines M h (hstr s) (hvstr s) hfits
    exact ⟨lp', by rw [listPackStep, listPackPrependString, hpre, Option.map_some], hholds⟩
  | prependInteger lval =>
    rw [lpListStep] at hspec
    split_ifs at hspec with hint
    obtain ⟨rfl, rfl, hfits⟩ := lpAdmit_eq_some hspec
    obtain ⟨lp', hpre, hholds⟩ := lpPrepend_refines M h (lpGiven_eleint lval) (fun _ ↦ hint) hfits
    exact ⟨lp', by rw [listPackStep, listPackPrependInteger, hpre, Option.map_some], hholds⟩
  | replaceString p s =>
    obtain ⟨⟨es'', r'⟩, hlist, heq⟩ := Option.map_eq_some_iff.mp hspec
    obtain ⟨rfl, rfl⟩ := Prod.mk.inj heq
    obtain ⟨lp', newp, hins, -, hholds⟩ := listPackInsert_refines M h (hstr s) (hvstr s) hlist
    exact ⟨lp', by rw [listPackStep, listPackReplaceString, hins, Option.map_some, Option.map_some],
      hholds⟩
  | replaceInteger p lval =>
    rw [lpListStep] at hspec
    split_ifs at hspec with hint
    obtain ⟨lp', newp, hins, rfl, hholds⟩ :=
      listPackInsert_refines M h (lpGiven_eleint lval) (fun _ ↦ hint) hspec
    refine ⟨lp', ?_, hholds⟩
    rw [listPackStep, listPackReplaceInteger, listPackInsertInteger, hins, Option.map_some]
  | remove p => exact lpRemove_refines M h hspec

theorem holds_listPackNew (M : Allocator UInt8) (capacity : ℕ) :
    ∃ lp, listPackNew M capacity = some lp ∧ LpHolds lp [] := by
  have hlen := M.le_length (max capacity (lpHdrSize + 1))
  rw [listPackNew]
  generalize M.block (max capacity (lpHdrSize + 1)) = X at hlen ⊢
  have h7 : 7 ≤ X.length := (le_max_right _ _).trans hlen
  obtain ⟨a, b, c, d, e, f, g, slack, rfl⟩ :
      ∃ a b c d e f g slack, X = a :: b :: c :: d :: e :: f :: g :: slack := by
    match X, h7 with
    | a :: b :: c :: d :: e :: f :: g :: slack, _ => exact ⟨a, b, c, d, e, f, g, slack, rfl⟩
  have htotal : listPackSetTotalBytes (a :: b :: c :: d :: e :: f :: g :: slack) (lpHdrSize + 1) =
      some ([] ++ leBytes 4 7 ++ e :: f :: g :: slack) :=
    write_append [] _ (X := [a, b, c, d]) rfl
  have hnum : listPackSetNumElements ([] ++ leBytes 4 7 ++ e :: f :: g :: slack) 0 =
      some (lpHeader 7 0 ++ g :: slack) :=
    write_append (leBytes 4 7) (g :: slack) (X := [e, f]) rfl
  have heof : write (lpHeader 7 0 ++ g :: slack) lpHdrSize [lpEof] =
      some (lpHeader 7 0 ++ [lpEof] ++ slack) :=
    write_append (lpHeader 7 0) slack (X := [g]) rfl
  refine ⟨_, by rw [htotal, Option.bind_some, hnum, Option.bind_some, heof], ⟨0, slack, ?_, ?_⟩, ?_,
    by simp⟩
  · exact ⟨by decide, fun _ ↦ rfl⟩
  · rw [List.append_assoc]
    rfl
  · decide

/-- A well-formed listpack with the given payloads: the header has the number of its bytes; the
entries lie one behind the other from the end of the header on, and behind the last of them is the
only end marker at which one starts to read; each entry has the size that its first byte tells, and
its backlen read backwards is that size. -/
structure LpWellFormed (lp : List UInt8) (payloads : List (List UInt8)) : Prop where
  total : listPackGetTotalBytes lp =
    some (6 + (payloads.flatMap fun p ↦ p ++ listPackEncodeBacklen p.length).length + 1)
  entries : read lp 6 (payloads.flatMap fun p ↦ p ++ listPackEncodeBacklen p.length).length =
    some (payloads.flatMap fun p ↦ p ++ listPackEncodeBacklen p.length)
  eof : lp[6 + (payloads.flatMap fun p ↦ p ++ listPackEncodeBacklen p.length).length]? = some lpEof
  entry : ∀ L p R, payloads = L ++ p :: R →
    let start := 6 + (L.flatMap fun p ↦ p ++ listPackEncodeBacklen p.length).length
    lp[start]? ≠ some lpEof ∧
      listPackCurrentEncodeSizeUnsafe (lp.drop start) = some p.length ∧
      listPackDecodeBacklen lp (start + p.length + (listPackEncodeBacklen p.length).length - 1) =
        some p.length

private theorem flatMap_payload (es : List LpElement) :
    ((es.map lpPayload).flatMap fun p ↦ p ++ listPackEncodeBacklen p.length) = lpBody es :=
  List.flatMap_map lpPayload _ es

theorem LpHolds.wellFormed {lp : List UInt8} {es : List LpElement} (h : LpHolds lp es) :
    LpWellFormed lp (es.map lpPayload) := by
  refine ⟨?_, ?_, ?_, ?_⟩
  · rw [flatMap_payload]
    exact h.totalBytes
  · obtain ⟨num, slack, -, rfl⟩ := h.layout
    rw [flatMap_payload]
    have := read_append (lpHeader (lpSize es) num) (lpBody es) (lpEof :: slack)
    rwa [length_lpHeader] at this
  · obtain ⟨num, slack, -, rfl⟩ := h.layout
    rw [flatMap_payload]
    have hlen : 6 + (lpBody es).length = (lpHeader (lpSize es) num ++ lpBody es).length := by
      rw [List.length_append, length_lpHeader]
    rw [hlen, List.getElem?_append_right le_rfl, Nat.sub_self]
    rfl
  · intro L p R hes
    obtain ⟨L, eR, rfl, rfl, heR⟩ := List.map_eq_append_iff.mp hes
    obtain ⟨e, R, rfl, rfl, rfl⟩ := List.map_eq_cons_iff.mp heR
    rw [flatMap_payload]
    obtain ⟨A, C, rfl, hA, he, -⟩ := h.split
    obtain ⟨b, bs, hpay, heof, -⟩ := (lpPayload_readable he).head
    rw [lpHdrSize] at hA
    refine ⟨?_, ?_, ?_⟩
    · rw [← hA, lpEntry, hpay]
      simpa using heof
    · rw [← hA]
      exact listPackCurrentEncodeSizeUnsafe_entry he A C
    · have := listPackDecodeBacklen_entry he A C
      rwa [lpEntry, List.length_append, ← Nat.add_assoc, hA] at this

/-- **The listpack is a list.** Starting from a new listpack, whatever calls are made at positions
of entries and as long as the size stays within bounds, the block holds a well-formed listpack, it
decodes to the list that the calls make of the empty list, and every `*newp` is where the element
in question starts. -/
theorem listPack_run_refines (M : Allocator UInt8) (capacity : ℕ) (calls : List LpCall)
    (es : List LpElement) (replies : List LpReply)
    (hrun : CallMachine.run lpListStep [] calls = some (es, replies)) :
    ∃ lp₀ lp, listPackNew M capacity = some lp₀ ∧
      CallMachine.run (listPackStep M) lp₀ calls = some (lp, replies) ∧
      LpWellFormed lp (es.map lpPayload) ∧ lpDecode lp = some es := by
  obtain ⟨lp₀, hnew, hholds⟩ := holds_listPackNew M capacity
  obtain ⟨lp, hlp, hend⟩ := CallMachine.run_refines (listPackStep_refines M) hholds hrun
  exact ⟨lp₀, lp, hnew, hlp, hend.wellFormed, hend.lpDecode_eq⟩

/-- Blocks of exactly the size asked for. -/
def zeroAllocator : Allocator UInt8 := ⟨fun n ↦ List.replicate n 0, le_length_zeros⟩

/-- The calls of the test, and a number that comes as a string. -/
theorem listPack_run_refines_test : ∃ lp₀ lp, listPackNew zeroAllocator 1024 = some lp₀ ∧
    CallMachine.run (listPackStep zeroAllocator) lp₀
      [.insertString [104, 101, 108, 108, 111] 6 .before, .insertInteger 100 6 .after,
        .appendInteger 200, .appendString [119, 111, 114, 108, 100],
        .prependString [116, 101, 115, 116], .prependInteger 300, .replaceInteger 6 400,
        .replaceString 6 [116, 101, 115, 116, 50], .remove 6, .appendString [45, 49, 50]] =
      some (lp, [.newp (some 6), .newp (some 13), .done, .done, .done, .done, .newp (some 6), .done,
        .newp (some 6), .done]) ∧
    lpDecode lp = some [.str [116, 101, 115, 116], .str [104, 101, 108, 108, 111], .int 100,
      .int 200, .str [119, 111, 114, 108, 100], .int (-12)] := by
  obtain ⟨lp₀, lp, hnew, hrun, -, hdecode⟩ := listPack_run_refines zeroAllocator 1024
    [.insertString [104, 101, 108, 108, 111] 6 .before, .insertInteger 100 6 .after,
      .appendInteger 200, .appendString [119, 111, 114, 108, 100],
      .prependString [116, 101, 115, 116], .prependInteger 300, .replaceInteger 6 400,
      .replaceString 6 [116, 101, 115, 116, 50], .remove 6, .appendString [45, 49, 50]]
    [.str [116, 101, 115, 116], .str [104, 101, 108, 108, 111], .int 100, .int 200,
      .str [119, 111, 114, 108, 100], .int (-12)]
    [.newp (some 6), .newp (some 13), .done, .done, .done, .done, .newp (some 6), .done,
      .newp (some 6), .done] (by decide)
  exact ⟨lp₀, lp, hnew, hrun, hdecode⟩

end LatteC
