import LatteC.Ziplist.Cascade

/-!
# Deletion

The entry behind the deleted ones gets the smallest `prevlen` field for what is now in front of it.
This may change its raw length, and then the cascade runs behind it.

The only assertion that can fail is the one on the new size, in `zip_list_resize`: the cascade may
make a list of almost `UINT32_MAX` bytes too long.
-/

namespace LatteC

open Block

/-- The entry with the smallest `prevlen` field for `prev`. -/
def ZipItem.refit (e : ZipItem) (prev : ℕ) : ZipItem := { e with large := zipBigPrevlen ≤ prev }

/-- The entries `A` followed by `E`, of which the first is fit anew. -/
def zipJoin (A : List ZipItem) : (E : List ZipItem) → List ZipItem
  | [] => A
  | e :: E =>
    A ++ e.refit (zipLastLen 0 A) :: zipCascade (e.refit (zipLastLen 0 A)).rawLen E

/-- The list without `num` entries from the `k`-th on. -/
def zipRemove (es : List ZipItem) (k num : ℕ) : List ZipItem :=
  if num = 0 then es else zipJoin (es.take k) (es.drop (k + num))

section Refit

variable {prev : ℕ} {e : ZipItem} {A es : List ZipItem}

@[simp] theorem payload_refit (e : ZipItem) (prev : ℕ) : (e.refit prev).payload = e.payload := rfl

theorem prevlenSize_refit (e : ZipItem) (prev : ℕ) :
    (e.refit prev).prevlenSize = zipPrevEntryLengthSize prev := by
  rw [ZipItem.prevlenSize, ZipItem.refit, zipPrevEntryLengthSize]
  by_cases h : prev < zipBigPrevlen
  · rw [if_pos h, decide_eq_false (not_le.mpr h), if_neg Bool.false_ne_true]
  · rw [if_neg h, decide_eq_true (not_lt.mp h), if_pos rfl]

theorem rawLen_refit (e : ZipItem) (prev : ℕ) :
    (e.refit prev).rawLen = zipPrevEntryLengthSize prev + e.payload.length := by
  rw [ZipItem.rawLen, prevlenSize_refit, payload_refit]

theorem ZipItem.Ok.refit {old : ℕ} (h : e.Ok old) (hprev : prev < 2 ^ 32) :
    (e.refit prev).Ok prev := by
  refine ⟨?_, h.2⟩
  rw [ZipItem.refit]
  by_cases hbig : prev < zipBigPrevlen
  · rw [decide_eq_false (not_le.mpr hbig), if_neg Bool.false_ne_true]
    exact hbig
  · rw [decide_eq_true (not_lt.mp hbig), if_pos rfl]
    exact hprev

theorem ZipItem.Ok.lt (h : e.Ok prev) : prev < 2 ^ 32 := by
  have hfit := h.1
  rw [zipBigPrevlen] at hfit
  split_ifs at hfit <;> omega

/-- The same entries: the payloads of those that are kept. -/
theorem map_payload_zipRemove (es : List ZipItem) (k num : ℕ) :
    (zipRemove es k num).map ZipItem.payload =
      (es.take k ++ es.drop (k + num)).map ZipItem.payload := by
  rw [zipRemove]
  split_ifs with hnum
  · rw [hnum, Nat.add_zero, List.take_append_drop]
  · cases es.drop (k + num) with
    | nil => rw [zipJoin, List.append_nil]
    | cons e E =>
      rw [zipJoin, List.map_append, List.map_cons, map_payload_zipCascade, payload_refit,
        List.map_append, List.map_cons]

end Refit

/-! ## The loop -/

/-- The loop stops behind the entries to be deleted. -/
theorem zipDeleteLoop_spec {zlbytes prev : ℕ} {S : List UInt8} (num deleted : ℕ) (P : List UInt8)
    (es : List ZipItem) (hok : ZipItemsOk prev es) (hlow : zipListHeaderSize ≤ P.length)
    (hbytes : P.length + zipLen es + 1 = zlbytes) :
    zipDeleteLoop (P ++ (zipBody prev es ++ zipEnd :: S)) zlbytes num P.length deleted =
      some (P.length + zipLen (es.take num), deleted + (es.take num).length) := by
  induction num generalizing deleted P es prev with
  | zero =>
    rw [zipDeleteLoop, List.take_zero]
    cases es with
    | nil =>
      rw [zipBody, List.nil_append, getElem?_zipEnd, Option.bind_some, if_pos rfl]
      rfl
    | cons e es =>
      obtain ⟨b, hb, hne⟩ := exists_getElem?_bytes P (zipBody e.rawLen es ++ zipEnd :: S) hok.1
      rw [zipBody, List.append_assoc, hb, Option.bind_some, if_neg hne]
      rfl
  | succ num ih =>
    rw [zipDeleteLoop]
    cases es with
    | nil =>
      rw [zipBody, List.nil_append, getElem?_zipEnd, Option.bind_some, if_pos rfl]
      rfl
    | cons e es =>
      obtain ⟨he, hes⟩ := hok
      rw [zipLen_cons] at hbytes
      obtain ⟨b, hb, hne⟩ := exists_getElem?_bytes P (zipBody e.rawLen es ++ zipEnd :: S) he
      obtain ⟨cur, hsafe, -, -, hraw, -⟩ := @exists_zipAssertEntrySafe prev zlbytes e P
        (zipBody e.rawLen es ++ zipEnd :: S) he hlow (by omega) false
        (fun h ↦ absurd h Bool.false_ne_true)
      have hrest := ih (deleted + 1) (P ++ e.bytes prev) es hes
        (by rw [List.length_append]; omega) (by rw [List.length_append, length_bytes]; omega)
      rw [List.length_append, length_bytes, List.append_assoc] at hrest
      rw [zipBody, List.append_assoc, hb, Option.bind_some, if_neg hne]
      simp only [zipRawEntryLengthSafe, hsafe, Option.map_some, Option.bind_some, hraw]
      rw [hrest, List.take_succ_cons, zipLen_cons, List.length_cons]
      congr 2
      · omega
      · omega

/-! ## Closing the gap -/

section Shift

variable {A D E : List ZipItem} {e : ZipItem} {S : List UInt8}

/-- A deleted entry had a `prevlen` field for what is in front of it, and a byte more. -/
theorem ZipItem.Ok.size_lt {prev : ℕ} (h : e.Ok prev) : zipPrevEntryLengthSize prev < e.rawLen := by
  have hpos := h.2.length_pos
  have hfit := h.1
  rw [ZipItem.rawLen, ZipItem.prevlenSize, zipPrevEntryLengthSize]
  cases hlarge : e.large with
  | true =>
    rw [if_pos rfl]
    split_ifs <;> omega
  | false =>
    rw [hlarge, if_neg Bool.false_ne_true] at hfit
    rw [if_pos hfit, if_neg Bool.false_ne_true]
    omega

theorem size_lt_zipLen {prev : ℕ} (hne : D ≠ []) (hok : ZipItemsOk prev D) :
    zipPrevEntryLengthSize prev < zipLen D := by
  cases D with
  | nil => exact absurd rfl hne
  | cons d D =>
    rw [zipLen_cons]
    exact Nat.lt_of_lt_of_le hok.1.size_lt (Nat.le_add_right _ _)

/-- The new `prevlen` is stored so that it ends where the old one ended, over what is in front. -/
theorem exists_zipStorePrevEntryLength_refit (P V R : List UInt8) (e : ZipItem) (old prev : ℕ)
    (hroom : zipPrevEntryLengthSize prev ≤ V.length + e.prevlenSize) :
    ∃ U, U.length + zipPrevEntryLengthSize prev = V.length + e.prevlenSize ∧
      zipStorePrevEntryLength (P ++ (V ++ (e.bytes old ++ R))) (P.length + U.length) prev =
        some (P ++ (U ++ ((e.refit prev).bytes prev ++ R))) := by
  have hlen : (V ++ zipPrevlenField e.large old).length = V.length + e.prevlenSize := by
    rw [List.length_append, length_zipPrevlenField, ZipItem.prevlenSize]
  obtain ⟨U, Y, hcut, hY⟩ : ∃ U Y, V ++ zipPrevlenField e.large old = U ++ Y ∧
      Y.length = zipPrevEntryLengthSize prev := by
    refine ⟨_, _, (List.take_append_drop
      (V.length + e.prevlenSize - zipPrevEntryLengthSize prev) _).symm, ?_⟩
    rw [List.length_drop, hlen]
    omega
  have hU := congrArg List.length hcut
  rw [hlen, List.length_append, hY] at hU
  refine ⟨U, hU.symm, ?_⟩
  have hfield : (zipPrevlenField (zipBigPrevlen ≤ prev) prev).length = Y.length := by
    rw [hY, ← prevlenSize_refit e, length_zipPrevlenField, ZipItem.prevlenSize, ZipItem.refit]
  have hwrite := write_append (P ++ U) (e.payload ++ R) hfield
  rw [List.length_append] at hwrite
  have hmem : P ++ (V ++ (e.bytes old ++ R)) = P ++ U ++ Y ++ (e.payload ++ R) := by
    rw [List.append_assoc P U Y, ← hcut, ZipItem.bytes]
    simp only [List.append_assoc]
  rw [zipStorePrevEntryLength_eq, hmem, hwrite, ZipItem.bytes, ZipItem.refit]
  simp only [List.append_assoc]

/-- The byte behind an entry is `ZIP_END` exactly if no entry follows. -/
theorem exists_getElem?_zipBody {prev : ℕ} (hok : ZipItemsOk prev E) (P : List UInt8) :
    ∃ b, (P ++ (zipBody prev E ++ zipEnd :: S))[P.length]? = some b ∧ (b = zipEnd ↔ E = []) := by
  cases E with
  | nil => exact ⟨zipEnd, getElem?_zipEnd P S, by simp⟩
  | cons e E =>
    obtain ⟨b, hb, hne⟩ := exists_getElem?_bytes P (zipBody e.rawLen E ++ zipEnd :: S) hok.1
    rw [zipBody, List.append_assoc]
    exact ⟨b, hb, by simp [hne]⟩

/-- The last entry moves to the front by the size of the deleted ones. A change in the size of the
first entry that is kept moves only those behind it. -/
theorem zipTail_shift (e' : ZipItem) :
    (zipTail (A ++ e' :: E) : ℤ) = if E = [] then (zipTail (A ++ (D ++ e :: E)) : ℤ) - zipLen D
      else (zipTail (A ++ (D ++ e :: E)) : ℤ) - zipLen D + ((e'.rawLen : ℤ) - e.rawLen) := by
  have hconcat : ∀ (B : List ZipItem) (x : ZipItem),
      zipTail (B ++ [x]) = zipListHeaderSize + zipLen B := by
    intro B x
    rw [zipTail, List.dropLast_concat]
  rcases List.eq_nil_or_concat' E with rfl | ⟨E, x, rfl⟩
  · rw [if_pos rfl, hconcat, ← List.append_assoc, hconcat, zipLen_append]
    omega
  · have hold : A ++ (D ++ e :: (E ++ [x])) = A ++ (D ++ e :: E) ++ [x] := by simp
    have hnew : A ++ e' :: (E ++ [x]) = A ++ e' :: E ++ [x] := by simp
    rw [if_neg (by simp), hold, hnew, hconcat, hconcat, zipLen_append, zipLen_append, zipLen_append,
      zipLen_cons, zipLen_cons]
    omega

/-- The bytes of the entry behind the deleted ones and of all that follow move to the front. -/
theorem exists_zipDeleteShift {first : ZlEntry} {n : ℕ} (hD : D ≠ [])
    (hokD : ZipItemsOk (zipLastLen 0 A) D) (he : e.Ok (zipLastLen (zipLastLen 0 A) D))
    (hE : ZipItemsOk e.rawLen E) (hprev : zipLastLen 0 A < 2 ^ 32)
    (hsize : zipSize (A ++ (D ++ e :: E)) < 2 ^ 32)
    (hp : first.p = zipListHeaderSize + zipLen A) (hfirst : first.prevrawlen = zipLastLen 0 A) :
    ∃ S', zipDeleteShift
        (zipHeader (zipSize (A ++ (D ++ e :: E))) (zipTail (A ++ (D ++ e :: E))) n ++ zipBody 0 A ++
          (zipBody (zipLastLen 0 A) D ++ (e.bytes (zipLastLen (zipLastLen 0 A) D) ++
            (zipBody e.rawLen E ++ zipEnd :: S))))
        (zipSize (A ++ (D ++ e :: E))) first (zipListHeaderSize + zipLen A + zipLen D) (zipLen D) =
      some
        (zipHeader (zipSize (A ++ (D ++ e :: E))) (zipTail (A ++ (D ++ e :: E))) n ++ zipBody 0 A ++
          ((e.refit (zipLastLen 0 A)).bytes (zipLastLen 0 A) ++ (zipBody e.rawLen E ++ S')),
          zipTail (A ++ e.refit (zipLastLen 0 A) :: E),
          (zipPrevEntryLengthSize (zipLastLen 0 A) : ℤ) - e.prevlenSize) := by
  have hroomD := size_lt_zipLen hD hokD
  have hback := zipLastLen_le 0 A
  generalize hpv : zipLastLen 0 A = pv at *
  generalize hdl : zipLastLen pv D = dl at *
  have hraw : e.rawLen = e.prevlenSize + e.payload.length := rfl
  have hraw' := rawLen_refit e pv
  have hpayload := he.2.length_pos
  obtain ⟨bytes, hbytes⟩ : ∃ bytes, zipSize (A ++ (D ++ e :: E)) = bytes := ⟨_, rfl⟩
  have hsum : bytes = zipListHeaderSize + zipLen A + zipLen D + e.rawLen + zipLen E + 1 := by
    rw [← hbytes, zipSize, zipLen_append, zipLen_append, zipLen_cons]
    omega
  obtain ⟨tail, htail⟩ : ∃ tail, zipTail (A ++ (D ++ e :: E)) = tail := ⟨_, rfl⟩
  have htailLt : tail < 2 ^ 32 := by
    have := zipTail_lt_zipSize (A ++ (D ++ e :: E))
    omega
  rw [hbytes] at hsize ⊢
  rw [htail]
  obtain ⟨P, hP⟩ : ∃ P, zipHeader bytes tail n ++ zipBody 0 A = P := ⟨_, rfl⟩
  have hPlen : P.length = zipListHeaderSize + zipLen A := by
    rw [← hP, List.length_append, length_zipHeader, length_zipBody]
  rw [hP]
  -- how much the `prevlen` field grows or shrinks, and where it starts then
  have hdiff := zipDecodePrevlensize_bytes (P ++ zipBody pv D) (zipBody e.rawLen E ++ zipEnd :: S) he
  rw [List.length_append, length_zipBody, hPlen, List.append_assoc] at hdiff
  obtain ⟨U, hU, hstore⟩ := exists_zipStorePrevEntryLength_refit P (zipBody pv D)
    (zipBody e.rawLen E ++ zipEnd :: S) e dl pv (by rw [length_zipBody]; omega)
  rw [length_zipBody] at hU
  have hpos : (((zipListHeaderSize + zipLen A + zipLen D : ℕ) : ℤ) -
      ((zipPrevEntryLengthSize pv : ℤ) - e.prevlenSize)).toNat = P.length + U.length := by
    omega
  have hread : zipListTailOffset (P ++ (U ++ ((e.refit pv).bytes pv ++
      (zipBody e.rawLen E ++ zipEnd :: S)))) = some tail := by
    rw [← hP, List.append_assoc, zipListTailOffset_header _ htailLt]
  obtain ⟨cur, hsafe, -, -, hcur, -⟩ := @exists_zipAssertEntrySafe pv bytes (e.refit pv) (P ++ U)
    (zipBody e.rawLen E ++ zipEnd :: S) (he.refit hprev) (by rw [List.length_append]; omega)
    (by rw [List.length_append]; omega) true (fun _ ↦ by rw [List.length_append]; omega)
  rw [List.length_append, List.append_assoc] at hsafe
  -- everything from there on moves to the front
  obtain ⟨S', hmove⟩ := move_down P U ((e.refit pv).bytes pv ++ zipBody e.rawLen E) (zipEnd :: S)
  rw [List.length_append, length_bytes, length_zipBody] at hmove
  simp only [List.append_assoc] at hmove
  have hn : bytes - (P.length + U.length) - 1 = (e.refit pv).rawLen + zipLen E := by omega
  refine ⟨S', ?_⟩
  rw [zipDeleteShift, zipPrevLenByteDiff, hfirst, hdiff, Option.map_some, Option.bind_some, hp]
  simp only [hpos]
  rw [if_pos (by omega), hstore, Option.bind_some, hread, Option.bind_some, hsafe, Option.bind_some,
    hn, ← hPlen, hmove]
  -- the tail
  obtain ⟨b, hb, hend⟩ := @exists_getElem?_zipBody E S e.rawLen hE (P ++ U ++ (e.refit pv).bytes pv)
  rw [List.length_append, List.length_append, length_bytes, ← hcur, ← Nat.add_assoc,
    List.append_assoc, List.append_assoc] at hb
  have hshift := @zipTail_shift A D E e (e.refit pv)
  have hnewTail := zipTail_lt_zipSize (A ++ e.refit pv :: E)
  rw [zipSize, zipLen_append, zipLen_cons] at hnewTail
  rw [htail] at hshift
  rw [hb, Option.bind_some, Option.map_some]
  congr 2
  by_cases hnil : E = []
  · rw [if_pos hnil] at hshift
    rw [if_neg (not_not.mpr (hend.mpr hnil)), ← hshift, Int.emod_eq_of_lt (by omega) (by omega),
      Int.toNat_natCast]
  · have hdelta : (zipPrevEntryLengthSize pv : ℤ) - e.prevlenSize =
        ((e.refit pv).rawLen : ℤ) - e.rawLen := by
      omega
    rw [if_neg hnil] at hshift
    rw [if_pos (mt hend.mp hnil), hdelta, ← hshift, Int.emod_eq_of_lt (by omega) (by omega),
      Int.toNat_natCast]

end Shift

/-! ## The whole function -/

section Delete

variable {A D E : List ZipItem} {S : List UInt8} {n : ℕ}

/-- The block is cut behind `X`, and the deleted entries are taken off the number of entries. -/
theorem exists_zipDeleteResize (M : Allocator UInt8) {bytes tail len length deleted : ℕ}
    {X Y : List UInt8} (hlen : len = zipListHeaderSize + X.length + 1) (hlt : len < 2 ^ 32 - 1)
    (hn : ZipCounts n (length + deleted)) :
    ∃ n' slack, ZipCounts n' length ∧
      ∀ f : List UInt8 → Option (List UInt8),
        ((zipListResize M (zipHeader bytes tail n ++ X ++ Y) len).bind fun zl ↦
          (zipListIncrLength zl (-deleted)).bind f) =
          f (zipHeader len tail n' ++ (X ++ zipEnd :: slack)) := by
  obtain ⟨gap, slack, hgap, hresize⟩ := @exists_zipListResize bytes tail n M X Y len hlen.ge hlt
  obtain rfl : gap = [] := List.eq_nil_of_length_eq_zero (by omega)
  refine ⟨if n < 2 ^ 16 - 1 then n - deleted else n, slack, ?_, fun f ↦ ?_⟩
  · rw [ZipCounts] at hn ⊢
    split_ifs <;> omega
  · have hn' : n < 2 ^ 16 := by
      rw [ZipCounts] at hn
      omega
    have hle : n < 2 ^ 16 - 1 → deleted ≤ n := by
      rw [ZipCounts] at hn
      omega
    rw [hresize, Option.bind_some, List.append_nil, List.append_assoc,
      zipListIncrLength_header _ hn' hle, Option.bind_some]

/-- `__zip_list_delete` up to where it looks at what follows the deleted entries `D`. -/
theorem exists_zipListDeleteRange (M : Allocator UInt8) {R : List ZipItem} {num : ℕ}
    (hD : R.take num = D) (hne : D ≠ []) (hok : ZipItemsOk 0 (A ++ R))
    (hsize : zipSize (A ++ R) < 2 ^ 32) :
    ∃ first : ZlEntry, first.p = zipListHeaderSize + zipLen A ∧ first.prevrawlen = zipLastLen 0 A ∧
      ∀ zl, zl = zipHeader (zipSize (A ++ R)) (zipTail (A ++ R)) n ++ zipBody 0 A ++
          (zipBody (zipLastLen 0 A) R ++ zipEnd :: S) →
        zipListDeleteRange M zl (zipListHeaderSize + zipLen A) num =
          zl[zipListHeaderSize + zipLen A + zipLen D]?.bind fun b ↦
            (if b ≠ zipEnd then zipDeleteShift zl (zipSize (A ++ R)) first
                (zipListHeaderSize + zipLen A + zipLen D) (zipLen D)
              else some (zl, first.p - first.prevrawlen, 0)).bind fun m ↦
              let zlbytes := ((zipSize (A ++ R) : ℤ) - (zipLen D - m.2.2)).toNat
              (zipListResize M m.1 zlbytes).bind fun zl ↦
                (zipListIncrLength zl (-D.length)).bind fun zl ↦
                  if m.2.1 ≤ zlbytes - 1 then
                    (zipListSetTailOffset zl m.2.1).bind fun zl ↦
                      if m.2.2 ≠ 0 then
                        zipListCascadeUpdate M zl (zipListHeaderSize + zipLen A) else some zl
                  else none := by
  obtain ⟨hokA, hokR⟩ := zipItemsOk_append.mp hok
  obtain ⟨d, R, rfl⟩ : ∃ d R', R = d :: R' := by
    cases R with
    | nil => exact absurd (hD.symm.trans List.take_nil) hne
    | cons d R => exact ⟨d, R, rfl⟩
  obtain ⟨P, hP⟩ : ∃ P, zipHeader (zipSize (A ++ d :: R)) (zipTail (A ++ d :: R)) n ++ zipBody 0 A = P :=
    ⟨_, rfl⟩
  have hPlen : P.length = zipListHeaderSize + zipLen A := by
    rw [← hP, List.length_append, length_zipHeader, length_zipBody]
  obtain ⟨first, hentry, -, hprev, -, hp⟩ := exists_zipEntry P (zipBody d.rawLen R ++ zipEnd :: S) hokR.1
  have hloop := @zipDeleteLoop_spec (zipSize (A ++ d :: R)) (zipLastLen 0 A) S num 0 P (d :: R) hokR
    (by omega) (by rw [zipSize, zipLen_append, zipLen_cons]; omega)
  have hpos : 0 < zipLen D := by
    have := List.length_pos_iff.mpr hne
    have := length_le_zipLen D
    omega
  have hbody : P ++ (zipBody (zipLastLen 0 A) (d :: R) ++ zipEnd :: S) =
      P ++ (d.bytes (zipLastLen 0 A) ++ (zipBody d.rawLen R ++ zipEnd :: S)) := by
    rw [zipBody, List.append_assoc]
  rw [hD, Nat.zero_add] at hloop
  refine ⟨first, hp.trans hPlen, hprev, fun zl hzl ↦ ?_⟩
  have hbytes : zipListBytes zl = some (zipSize (A ++ d :: R)) := by
    rw [hzl, List.append_assoc, zipListBytes_header _ hsize]
  rw [hP] at hzl
  rw [← hzl] at hloop
  rw [← hbody, ← hzl] at hentry
  have htot : P.length + zipLen D - first.p = zipLen D := by omega
  rw [zipListDeleteRange, hbytes, Option.bind_some, ← hPlen, hentry, Option.bind_some, hloop,
    Option.bind_some]
  dsimp only
  rw [if_neg (by omega : ¬P.length + zipLen D < first.p), htot, if_neg hpos.ne']

theorem zipSize_append_le (A R : List ZipItem) : zipSize A + zipLen R = zipSize (A ++ R) := by
  rw [zipSize, zipSize, zipLen_append]
  omega

/-- No entry follows the deleted ones. -/
theorem exists_zipListDeleteRange_end (M : Allocator UInt8) {num : ℕ} (hD : D.take num = D)
    (hne : D ≠ []) (hok : ZipItemsOk 0 (A ++ D)) (hsize : zipSize (A ++ D) < 2 ^ 32)
    (hn : ZipCounts n (A ++ D).length) :
    ∃ zl, zipListDeleteRange M
        (zipHeader (zipSize (A ++ D)) (zipTail (A ++ D)) n ++ zipBody 0 A ++
          (zipBody (zipLastLen 0 A) D ++ zipEnd :: S)) (zipListHeaderSize + zipLen A) num = some zl ∧
      ZipWellFormed zl A := by
  obtain ⟨first, hp, hprev, hdelete⟩ := @exists_zipListDeleteRange A D S n M D num hD hne hok hsize
  have hsum := zipSize_append_le A D
  have hpos : 0 < zipLen D := by
    have := List.length_pos_iff.mpr hne
    have := length_le_zipLen D
    omega
  have hnext := getElem?_zipEnd (zipHeader (zipSize (A ++ D)) (zipTail (A ++ D)) n ++ zipBody 0 A ++
    zipBody (zipLastLen 0 A) D) S
  rw [List.length_append, List.length_append, length_zipHeader, length_zipBody, length_zipBody,
    List.append_assoc] at hnext
  have hlen : zipSize A = zipListHeaderSize + (zipBody 0 A).length + 1 := by
    rw [zipSize, length_zipBody]
  rw [List.length_append] at hn
  obtain ⟨n', slack, hn', hresize⟩ := @exists_zipDeleteResize n M (zipSize (A ++ D)) (zipTail (A ++ D))
    (zipSize A) A.length D.length (zipBody 0 A) (zipBody (zipLastLen 0 A) D ++ zipEnd :: S) hlen
    (by omega) hn
  have hnew : ((zipSize (A ++ D) : ℤ) - (zipLen D - 0)).toNat = zipSize A := by omega
  have htail : first.p - first.prevrawlen = zipTail A := by rw [hp, hprev, zipTail_eq]
  have hle : zipTail A ≤ zipSize A - 1 := Nat.le_sub_one_of_lt (zipTail_lt_zipSize A)
  refine ⟨_, ?_, n', slack, rfl, by omega, (zipItemsOk_append.mp hok).1, hn'⟩
  rw [hdelete _ rfl, hnext, Option.bind_some, if_neg (not_not.mpr rfl), Option.bind_some]
  dsimp only
  rw [hnew, hresize, htail, if_pos hle, zipListSetTailOffset_header, Option.bind_some,
    if_neg (not_not.mpr rfl), List.append_assoc]

/-- What the cascade leaves behind the entries `A` is well-formed if it is not too long. -/
theorem zipWellFormed_zipCascade {rest : List ZipItem} {e : ZipItem} {old : ℕ} (hokA : ZipItemsOk 0 A)
    (he : e.Ok (zipLastLen 0 A)) (hrest : ZipItemsOk old rest) (slack : List UInt8)
    (hn : ZipCounts n (A ++ e :: rest).length)
    (hfit : zipSize (A ++ e :: zipCascade e.rawLen rest) < 2 ^ 32 - 1) :
    ZipWellFormed (zipHeader (zipSize (A ++ e :: zipCascade e.rawLen rest))
      (zipTail (A ++ e :: zipCascade e.rawLen rest)) n ++
        zipBody 0 (A ++ e :: zipCascade e.rawLen rest) ++ zipEnd :: slack)
      (A ++ e :: zipCascade e.rawLen rest) := by
  have hlength := congrArg List.length (map_payload_zipCascade e.rawLen rest)
  rw [List.length_map, List.length_map] at hlength
  have hlen : e.rawLen + zipLen (zipCascade e.rawLen rest) < 2 ^ 32 := by
    rw [← zipSize_append_le, zipLen_cons] at hfit
    omega
  refine ⟨n, slack, rfl, by omega, ?_, ?_⟩
  · rw [zipItemsOk_append]
    exact ⟨hokA, he, zipItemsOk_zipCascade hrest hlen⟩
  · rwa [List.length_append, List.length_cons, hlength, ← List.length_cons, ← List.length_append]

/-- The deletion up to the cascade, which is needed if the entry `e` behind the deleted ones has another length
than before. -/
theorem zipListDeleteRange_refit (M : Allocator UInt8) {E : List ZipItem} {e : ZipItem} {num : ℕ}
    (hD : (D ++ e :: E).take num = D) (hne : D ≠ []) (hok : ZipItemsOk 0 (A ++ (D ++ e :: E)))
    (hsize : zipSize (A ++ (D ++ e :: E)) < 2 ^ 32) (hn : ZipCounts n (A ++ (D ++ e :: E)).length) :
    zipSize (A ++ e.refit (zipLastLen 0 A) :: E) < 2 ^ 32 - 1 ∧
    ∃ n' slack, ZipCounts n' (A ++ e.refit (zipLastLen 0 A) :: E).length ∧
      zipListDeleteRange M
        (zipHeader (zipSize (A ++ (D ++ e :: E))) (zipTail (A ++ (D ++ e :: E))) n ++ zipBody 0 A ++
          (zipBody (zipLastLen 0 A) (D ++ e :: E) ++ zipEnd :: S)) (zipListHeaderSize + zipLen A) num =
      if (zipPrevEntryLengthSize (zipLastLen 0 A) : ℤ) - e.prevlenSize ≠ 0 then
        zipListCascadeUpdate M
          (zipHeader (zipSize (A ++ e.refit (zipLastLen 0 A) :: E))
            (zipTail (A ++ e.refit (zipLastLen 0 A) :: E)) n' ++ zipBody 0 A ++
              ((e.refit (zipLastLen 0 A)).bytes (zipLastLen 0 A) ++
                (zipBody e.rawLen E ++ zipEnd :: slack))) (zipListHeaderSize + zipLen A)
      else
        some (zipHeader (zipSize (A ++ e.refit (zipLastLen 0 A) :: E))
          (zipTail (A ++ e.refit (zipLastLen 0 A) :: E)) n' ++ zipBody 0 A ++
            ((e.refit (zipLastLen 0 A)).bytes (zipLastLen 0 A) ++
              (zipBody e.rawLen E ++ zipEnd :: slack))) := by
  obtain ⟨first, hp, hprev, hdelete⟩ :=
    @exists_zipListDeleteRange A D S n M (D ++ e :: E) num hD hne hok hsize
  obtain ⟨hokD, he, hokE⟩ := zipItemsOk_append.mp (zipItemsOk_append.mp hok).2
  have hpv : zipLastLen 0 A < 2 ^ 32 := by
    cases D with
    | nil => exact absurd rfl hne
    | cons d D => exact hokD.1.lt
  obtain ⟨S', hshift⟩ := @exists_zipDeleteShift A D E e S first n hne hokD he hokE hpv hsize hp hprev
  have hroom := size_lt_zipLen hne hokD
  have hraw' := rawLen_refit e (zipLastLen 0 A)
  obtain ⟨pv, hpv'⟩ : ∃ pv, zipLastLen 0 A = pv := ⟨_, rfl⟩
  rw [hpv'] at hokD he hpv hshift hroom hdelete hraw' ⊢
  obtain ⟨e', he'⟩ : ∃ e', e.refit pv = e' := ⟨_, rfl⟩
  rw [he'] at hshift hraw' ⊢
  have hraw : e.rawLen = e.prevlenSize + e.payload.length := rfl
  have hsum : zipSize (A ++ (D ++ e :: E)) = zipSize A + zipLen D + e.rawLen + zipLen E := by
    rw [← zipSize_append_le, zipLen_append, zipLen_cons]
    omega
  have hsum' : zipSize (A ++ e' :: E) = zipSize A + e'.rawLen + zipLen E := by
    rw [← zipSize_append_le, zipLen_cons]
    omega
  have hcount : (A ++ (D ++ e :: E)).length = (A ++ e' :: E).length + D.length := by
    simp only [List.length_append, List.length_cons]
    omega
  have hX : zipSize (A ++ e' :: E) =
      zipListHeaderSize + (zipBody 0 A ++ (e'.bytes pv ++ zipBody e.rawLen E)).length + 1 := by
    rw [List.length_append, List.length_append, length_zipBody, length_zipBody, length_bytes, zipSize,
      zipLen_append, zipLen_cons]
  rw [hcount] at hn
  obtain ⟨n', slack, hn', hresize⟩ := @exists_zipDeleteResize n M (zipSize (A ++ (D ++ e :: E)))
    (zipTail (A ++ (D ++ e :: E))) (zipSize (A ++ e' :: E)) (A ++ e' :: E).length D.length
    (zipBody 0 A ++ (e'.bytes pv ++ zipBody e.rawLen E)) S' hX (by omega) hn
  refine ⟨by omega, n', slack, hn', ?_⟩
  have hnew : ((zipSize (A ++ (D ++ e :: E)) : ℤ) -
      (zipLen D - ((zipPrevEntryLengthSize pv : ℤ) - e.prevlenSize))).toNat = zipSize (A ++ e' :: E) := by
    omega
  have hle := Nat.le_sub_one_of_lt (zipTail_lt_zipSize (A ++ e' :: E))
  have hbody : zipBody pv (D ++ e :: E) ++ zipEnd :: S =
      zipBody pv D ++ (e.bytes (zipLastLen pv D) ++ (zipBody e.rawLen E ++ zipEnd :: S)) := by
    rw [zipBody_append, zipBody]
    simp only [List.append_assoc]
  obtain ⟨b, hb, hbne⟩ := exists_getElem?_bytes
    (zipHeader (zipSize (A ++ (D ++ e :: E))) (zipTail (A ++ (D ++ e :: E))) n ++ zipBody 0 A ++ zipBody pv D)
    (zipBody e.rawLen E ++ zipEnd :: S) he
  rw [List.length_append, List.length_append, length_zipHeader, length_zipBody, length_zipBody,
    List.append_assoc] at hb
  have hcut : ∀ H T : List UInt8, H ++ zipBody 0 A ++ (e'.bytes pv ++ (zipBody e.rawLen E ++ T)) =
      H ++ (zipBody 0 A ++ (e'.bytes pv ++ zipBody e.rawLen E)) ++ T := by
    intro H T
    simp only [List.append_assoc]
  rw [hdelete _ rfl, hbody, hb, Option.bind_some, if_pos hbne, hshift, Option.bind_some]
  dsimp only
  rw [hnew, hcut, hresize, if_pos hle, zipListSetTailOffset_header, Option.bind_some]
  simp only [List.append_assoc]

/-- The entry `e` follows the deleted ones. -/
theorem zipListDeleteRange_inner (M : Allocator UInt8) {E : List ZipItem} {e : ZipItem} {num : ℕ}
    (hD : (D ++ e :: E).take num = D) (hne : D ≠ []) (hok : ZipItemsOk 0 (A ++ (D ++ e :: E)))
    (hsize : zipSize (A ++ (D ++ e :: E)) < 2 ^ 32)
    (hn : ZipCounts n (A ++ (D ++ e :: E)).length) :
    if zipSize (zipJoin A (e :: E)) < 2 ^ 32 - 1 then
      ∃ zl, zipListDeleteRange M
          (zipHeader (zipSize (A ++ (D ++ e :: E))) (zipTail (A ++ (D ++ e :: E))) n ++ zipBody 0 A ++
            (zipBody (zipLastLen 0 A) (D ++ e :: E) ++ zipEnd :: S))
          (zipListHeaderSize + zipLen A) num = some zl ∧ ZipWellFormed zl (zipJoin A (e :: E))
    else
      zipListDeleteRange M
          (zipHeader (zipSize (A ++ (D ++ e :: E))) (zipTail (A ++ (D ++ e :: E))) n ++ zipBody 0 A ++
            (zipBody (zipLastLen 0 A) (D ++ e :: E) ++ zipEnd :: S))
          (zipListHeaderSize + zipLen A) num = none := by
  obtain ⟨hokA, hokR⟩ := zipItemsOk_append.mp hok
  obtain ⟨hokD, he, hokE⟩ := zipItemsOk_append.mp hokR
  have hpv : zipLastLen 0 A < 2 ^ 32 := by
    cases D with
    | nil => exact absurd rfl hne
    | cons d D => exact hokD.1.lt
  obtain ⟨hshort, n', slack, hn', heval⟩ := @zipListDeleteRange_refit A D S n M E e num hD hne hok hsize hn
  have hok' : (e.refit (zipLastLen 0 A)).Ok (zipLastLen 0 A) := he.refit hpv
  have hwf := fun slack ↦ @zipWellFormed_zipCascade A n' E _ _ hokA hok' hokE slack hn'
  have hraw' := rawLen_refit e (zipLastLen 0 A)
  have hraw : e.rawLen = e.prevlenSize + e.payload.length := rfl
  rw [zipJoin, heval]
  by_cases hsame : zipPrevEntryLengthSize (zipLastLen 0 A) = e.prevlenSize
  · -- the entry keeps its raw length
    have hcascade : zipCascade (e.refit (zipLastLen 0 A)).rawLen E = E := by
      refine zipCascade_of_zipGrowing (zipGrowing_of_ok ?_)
      rwa [hraw', hsame, ← hraw]
    have hfit : zipSize (A ++ e.refit (zipLastLen 0 A) :: zipCascade (e.refit (zipLastLen 0 A)).rawLen E) <
        2 ^ 32 - 1 := by
      rwa [hcascade]
    have hdone := hwf slack hfit
    rw [if_pos hfit, if_neg (not_not.mpr (sub_eq_zero.mpr (congrArg Nat.cast hsame)))]
    refine ⟨_, rfl, ?_⟩
    rw [hcascade, zipBody_append, zipBody, hraw', hsame, ← hraw] at hdone
    rw [hcascade]
    simpa only [List.append_assoc] using hdone
  · have hchanged : (zipPrevEntryLengthSize (zipLastLen 0 A) : ℤ) - e.prevlenSize ≠ 0 := by omega
    have hsizes : (e.prevlenSize = 1 ∨ e.prevlenSize = 5) ∧
        (zipPrevEntryLengthSize (zipLastLen 0 A) = 1 ∨ zipPrevEntryLengthSize (zipLastLen 0 A) = 5) := by
      rw [ZipItem.prevlenSize, zipPrevEntryLengthSize]
      split_ifs <;> decide
    have hupdate := @zipListCascadeUpdate_spec A E (e.refit (zipLastLen 0 A)) slack e.rawLen n' M hok' hokE
      e.rawLen_pos (by omega) hshort
    rw [if_pos hchanged]
    split_ifs at hupdate ⊢ with hfit
    · obtain ⟨slack', hupdate⟩ := hupdate
      exact ⟨_, hupdate, hwf slack' hfit⟩
    · exact hupdate

/-- Deleting no entries changes nothing. -/
theorem zipListDeleteRange_zero (M : Allocator UInt8) {R : List ZipItem} (hne : R ≠ [])
    (hok : ZipItemsOk 0 (A ++ R)) (hsize : zipSize (A ++ R) < 2 ^ 32) :
    zipListDeleteRange M
        (zipHeader (zipSize (A ++ R)) (zipTail (A ++ R)) n ++ zipBody 0 A ++
          (zipBody (zipLastLen 0 A) R ++ zipEnd :: S)) (zipListHeaderSize + zipLen A) 0 =
      some (zipHeader (zipSize (A ++ R)) (zipTail (A ++ R)) n ++ zipBody 0 A ++
        (zipBody (zipLastLen 0 A) R ++ zipEnd :: S)) := by
  obtain ⟨-, hokR⟩ := zipItemsOk_append.mp hok
  obtain ⟨bytes, hbytes⟩ : ∃ bytes, zipSize (A ++ R) = bytes := ⟨_, rfl⟩
  obtain ⟨P, hP⟩ : ∃ P, zipHeader bytes (zipTail (A ++ R)) n ++ zipBody 0 A = P := ⟨_, rfl⟩
  have hPlen : P.length = zipListHeaderSize + zipLen A := by
    rw [← hP, List.length_append, length_zipHeader, length_zipBody]
  have hread : zipListBytes (P ++ (zipBody (zipLastLen 0 A) R ++ zipEnd :: S)) = some bytes := by
    rw [← hP, List.append_assoc, zipListBytes_header _ (by omega)]
  have hloop := @zipDeleteLoop_spec bytes (zipLastLen 0 A) S 0 0 P R hokR (by omega)
    (by rw [← hbytes, zipSize, zipLen_append]; omega)
  rw [List.take_zero, zipLen_nil, List.length_nil, Nat.add_zero, Nat.add_zero] at hloop
  cases R with
  | nil => exact absurd rfl hne
  | cons d R =>
    obtain ⟨first, hentry, -, -, -, hp⟩ :=
      exists_zipEntry P (zipBody d.rawLen R ++ zipEnd :: S) hokR.1
    have hbody : P ++ (zipBody (zipLastLen 0 A) (d :: R) ++ zipEnd :: S) =
        P ++ (d.bytes (zipLastLen 0 A) ++ (zipBody d.rawLen R ++ zipEnd :: S)) := by
      rw [zipBody, List.append_assoc]
    rw [← hbody] at hentry
    rw [hbytes, hP, zipListDeleteRange, hread, Option.bind_some, ← hPlen, hentry, Option.bind_some,
      hloop, Option.bind_some]
    dsimp only
    rw [hp, if_neg (lt_irrefl _), Nat.sub_self, if_pos rfl]

/-- What `__zip_list_delete` does to a well-formed list. -/
theorem zipListDeleteRange_remove (M : Allocator UInt8) {zl : List UInt8} {es : List ZipItem}
    (h : ZipWellFormed zl es) {k : ℕ} (hk : k < es.length) (num : ℕ) :
    (num = 0 ∨ zipSize (zipRemove es k num) < 2 ^ 32 - 1 →
      ∃ zl', zipListDeleteRange M zl (zipListHeaderSize + zipLen (es.take k)) num = some zl' ∧
        ZipWellFormed zl' (zipRemove es k num)) ∧
    (num ≠ 0 → 2 ^ 32 - 1 ≤ zipSize (zipRemove es k num) →
      zipListDeleteRange M zl (zipListHeaderSize + zipLen (es.take k)) num = none) := by
  have hzl := h
  obtain ⟨n, S, rfl, hsize, hok, hn⟩ := h
  obtain ⟨A, hA⟩ : ∃ A, es.take k = A := ⟨_, rfl⟩
  obtain ⟨R, hR⟩ : ∃ R, es.drop k = R := ⟨_, rfl⟩
  have hes : es = A ++ R := by rw [← hA, ← hR, List.take_append_drop]
  have hRne : R ≠ [] := by
    rw [← hR]
    exact (List.drop_eq_nil_iff.not).mpr (not_le.mpr hk)
  have hmem : zipHeader (zipSize es) (zipTail es) n ++ zipBody 0 es ++ zipEnd :: S =
      zipHeader (zipSize (A ++ R)) (zipTail (A ++ R)) n ++ zipBody 0 A ++
        (zipBody (zipLastLen 0 A) R ++ zipEnd :: S) := by
    rw [hes, zipBody_append]
    simp only [List.append_assoc]
  rw [hes] at hok hsize hn
  rw [zipRemove, hA]
  by_cases hnum : num = 0
  · refine ⟨fun _ ↦ ?_, fun hne ↦ absurd hnum hne⟩
    rw [hnum, if_pos rfl]
    refine ⟨_, ?_, hzl⟩
    rw [hmem, zipListDeleteRange_zero M hRne hok hsize]
  · have hdrop : es.drop (k + num) = R.drop num := by rw [← hR, List.drop_drop]
    have hDne : R.take num ≠ [] := by
      rw [Ne, List.take_eq_nil_iff, not_or]
      exact ⟨hnum, hRne⟩
    obtain ⟨D, hD⟩ : ∃ D, R.take num = D := ⟨_, rfl⟩
    have hsplit := List.take_append_drop num R
    rw [hmem, if_neg hnum, hdrop]
    rw [hD] at hDne hsplit
    cases hE : R.drop num with
    | nil =>
      rw [hE, List.append_nil] at hsplit
      obtain rfl := hsplit
      have hsum := zipSize_append_le A D
      have hpos := List.length_pos_iff.mpr hDne
      have hle := length_le_zipLen D
      rw [zipJoin]
      exact ⟨fun _ ↦ exists_zipListDeleteRange_end M hD hDne hok hsize hn,
        fun _ hbig ↦ absurd hbig (by omega)⟩
    | cons e E =>
      rw [hE] at hsplit
      obtain rfl := hsplit
      have hinner := @zipListDeleteRange_inner A D S n M E e num hD hDne hok hsize hn
      refine ⟨fun hfit ↦ ?_, fun _ hbig ↦ ?_⟩
      · rwa [if_pos (hfit.resolve_left hnum)] at hinner
      · rwa [if_neg (not_lt.mpr hbig)] at hinner

/-- Deleting `num` entries from the `k`-th on, for every well-formed list: the result is well-formed
and holds the other entries. Only when it would have `UINT32_MAX` bytes or more, the assertion of
`zip_list_resize` fails. -/
theorem zipListDeleteRange_spec (M : Allocator UInt8) {zl : List UInt8} {es : List ZipItem}
    (h : ZipWellFormed zl es) {k : ℕ} (hk : k < es.length) (num : ℕ) :
    (zipRemove es k num).map ZipItem.payload =
        (es.take k ++ es.drop (k + num)).map ZipItem.payload ∧
      (num = 0 ∨ zipSize (zipRemove es k num) < 2 ^ 32 - 1 →
        ∃ zl', zipListDeleteRange M zl (zipListHeaderSize + zipLen (es.take k)) num = some zl' ∧
          ZipWellFormed zl' (zipRemove es k num)) ∧
      (num ≠ 0 → 2 ^ 32 - 1 ≤ zipSize (zipRemove es k num) →
        zipListDeleteRange M zl (zipListHeaderSize + zipLen (es.take k)) num = none) :=
  ⟨map_payload_zipRemove es k num, zipListDeleteRange_remove M h hk num⟩

end Delete

/-! ## Strings of fewer than 256 bytes -/

section Text

/-- An entry for a string of `n` bytes whose length is stored in 14 bits. -/
def zipText (large : Bool) (n : UInt8) : ZipItem := ⟨large, 0x40 :: n :: List.replicate n.toNat 0⟩

theorem zipPayload_zipText (large : Bool) (n : UInt8) : ZipPayload (zipText large n).payload := by
  refine ⟨0x40, 2, n.toNat, rfl, ?_, by decide, ?_⟩
  · have hlen : zipDecodeLength (zipText large n).payload (zipEntryEncoding 0x40) =
        some (2, 0 * 256 + n.toNat) := rfl
    rw [hlen, Nat.zero_mul, Nat.zero_add]
  · rw [zipText, List.length_cons, List.length_cons, List.length_replicate]
    omega

theorem rawLen_zipText (large : Bool) (n : UInt8) :
    (zipText large n).rawLen = (if large then 5 else 1) + 2 + n.toNat := by
  have hpayload : (zipText large n).payload.length = 2 + n.toNat := by
    rw [zipText, List.length_cons, List.length_cons, List.length_replicate]
    omega
  rw [ZipItem.rawLen, hpayload, ← Nat.add_assoc]
  rfl

/-- A long string, a short one, and two whose entries take 253 bytes. -/
def zipTexts : List ZipItem :=
  [zipText false 255, zipText true 0, zipText false 250, zipText false 250]

theorem zipWellFormed_zipTexts : ZipWellFormed
    (zipHeader (zipSize zipTexts) (zipTail zipTexts) 4 ++ zipBody 0 zipTexts ++ [zipEnd]) zipTexts :=
  ⟨4, [], rfl, by decide +kernel, ⟨⟨by decide, zipPayload_zipText _ _⟩,
    ⟨by decide +kernel, zipPayload_zipText _ _⟩, ⟨by decide +kernel, zipPayload_zipText _ _⟩,
    ⟨by decide +kernel, zipPayload_zipText _ _⟩, trivial⟩, Or.inl ⟨rfl, by decide⟩⟩

/-- Without the second string the two behind it grow, one after the other. -/
theorem zipListDeleteRange_zipTexts : ∃ zl', zipListDeleteRange
      ⟨fun n ↦ List.replicate n 0, le_length_zeros⟩
      (zipHeader (zipSize zipTexts) (zipTail zipTexts) 4 ++ zipBody 0 zipTexts ++ [zipEnd]) 268 1 =
        some zl' ∧
    ZipWellFormed zl' [zipText false 255, zipText true 250, zipText true 250] := by
  have hremove : zipRemove zipTexts 1 1 = [zipText false 255, zipText true 250, zipText true 250] := by
    decide +kernel
  have hp : zipListHeaderSize + zipLen (zipTexts.take 1) = 268 := by decide +kernel
  have hspec := (zipListDeleteRange_spec
    ⟨fun n ↦ List.replicate n 0, le_length_zeros⟩ zipWellFormed_zipTexts
    (show 1 < zipTexts.length by decide) 1).2.1 (Or.inr (by decide +kernel))
  rwa [hremove, hp] at hspec

section Replicate

variable {c : ZipItem} {prev : ℕ}

theorem zipLen_replicate (N : ℕ) (c : ZipItem) : zipLen (List.replicate N c) = N * c.rawLen := by
  rw [zipLen, List.map_replicate, List.sum_replicate_nat]

theorem zipItemsOk_replicate (N : ℕ) (hprev : c.Ok prev) (hself : c.Ok c.rawLen) :
    ZipItemsOk prev (List.replicate N c) := by
  induction N generalizing prev with
  | zero => trivial
  | succ N ih => exact ⟨hprev, ih hself⟩

theorem zipGrowing_replicate (N : ℕ) (hsmall : c.large = false) (hprev : zipBigPrevlen ≤ prev)
    (hself : zipBigPrevlen ≤ c.rawLen + 4) :
    zipGrowing prev (List.replicate N c) = List.replicate N c := by
  induction N generalizing prev with
  | zero => rfl
  | succ N ih =>
    rw [List.replicate_succ, zipGrowing, hsmall, decide_eq_true hprev, if_pos (by rfl), ih hself]

end Replicate

/-- The same with `N + 1` strings at the end. -/
def zipManyTexts (N : ℕ) : List ZipItem :=
  zipText false 255 :: zipText true 0 :: List.replicate (N + 1) (zipText false 250)

theorem zipSize_zipManyTexts (N : ℕ) : zipSize (zipManyTexts N) = 276 + 253 * (N + 1) := by
  rw [zipSize, zipManyTexts, zipLen_cons, zipLen_cons, zipLen_replicate, rawLen_zipText,
    rawLen_zipText, rawLen_zipText]
  have h255 : (255 : UInt8).toNat = 255 := rfl
  have h250 : (250 : UInt8).toNat = 250 := rfl
  have h0 : (0 : UInt8).toNat = 0 := rfl
  rw [h255, h250, h0, if_pos rfl, if_neg Bool.false_ne_true, zipListHeaderSize]
  omega

theorem zipSize_zipRemove_zipManyTexts (N : ℕ) :
    zipSize (zipRemove (zipManyTexts N) 1 1) = 269 + 257 * (N + 1) := by
  have hremove : zipRemove (zipManyTexts N) 1 1 =
      zipText false 255 :: zipText true 250 ::
        zipCascade 257 (List.replicate N (zipText false 250)) := by
    have hlen : (zipText true 250).rawLen = 257 := by rw [rawLen_zipText]; rfl
    have hlen' : zipLastLen 0 [zipText false 255] = 258 := by
      rw [zipLastLen, zipLastLen, rawLen_zipText]
      rfl
    have hrefit : (zipText false 250).refit 258 = zipText true 250 := rfl
    rw [zipRemove, if_neg (by decide), zipManyTexts, List.replicate_succ, List.take_succ_cons,
      List.take_zero]
    show zipJoin [zipText false 255] (zipText false 250 :: List.replicate N (zipText false 250)) = _
    rw [zipJoin, hlen', hrefit, hlen]
    rfl
  have hgrow := zipGrowing_replicate N (show (zipText false 250).large = false from rfl)
    (show zipBigPrevlen ≤ 257 by decide) (by rw [rawLen_zipText]; decide)
  rw [hremove, zipSize, zipLen_cons, zipLen_cons, zipLen_zipCascade, hgrow, List.length_replicate,
    zipLen_replicate, rawLen_zipText, rawLen_zipText, rawLen_zipText]
  have h255 : (255 : UInt8).toNat = 255 := rfl
  have h250 : (250 : UInt8).toNat = 250 := rfl
  rw [h255, h250, if_pos rfl, if_neg Bool.false_ne_true, zipListHeaderSize]
  omega

theorem zipWellFormed_zipManyTexts {N : ℕ} (hsize : 276 + 253 * (N + 1) < 2 ^ 32) : ZipWellFormed
    (zipHeader (zipSize (zipManyTexts N)) (zipTail (zipManyTexts N)) (2 ^ 16 - 1) ++
      zipBody 0 (zipManyTexts N) ++ [zipEnd]) (zipManyTexts N) := by
  have hlen : (zipText false 250).rawLen = 253 := by rw [rawLen_zipText]; rfl
  have hlen₀ : (zipText true 0).rawLen = 7 := by rw [rawLen_zipText]; rfl
  have hlen₁ : (zipText false 255).rawLen = 258 := by rw [rawLen_zipText]; rfl
  refine ⟨2 ^ 16 - 1, [], rfl, by rwa [zipSize_zipManyTexts], ⟨⟨by decide, zipPayload_zipText _ _⟩,
    ⟨?_, zipPayload_zipText _ _⟩, zipItemsOk_replicate _ ⟨?_, zipPayload_zipText _ _⟩
      ⟨?_, zipPayload_zipText _ _⟩⟩, Or.inr rfl⟩
  · rw [hlen₁]
    decide
  · rw [hlen₀]
    decide
  · rw [hlen]
    decide

/-- In a list of some 4.2 GB, the cascade makes `zip_list_resize` fail. -/
theorem zipListDeleteRange_asserts : ¬∀ (M : Allocator UInt8) (zl : List UInt8) (es : List ZipItem)
    (k num : ℕ), ZipWellFormed zl es → k < es.length →
      ∃ zl' es', zipListDeleteRange M zl (zipListHeaderSize + zipLen (es.take k)) num = some zl' ∧
        ZipWellFormed zl' es' ∧
          es'.map ZipItem.payload = (es.take k ++ es.drop (k + num)).map ZipItem.payload := by
  intro h
  obtain ⟨N, hN⟩ : ∃ N, N + 1 = 16900000 := ⟨16899999, rfl⟩
  have hwf := zipWellFormed_zipManyTexts (show 276 + 253 * (N + 1) < 2 ^ 32 by omega)
  have hk : 1 < (zipManyTexts N).length := by
    rw [zipManyTexts, List.length_cons, List.length_cons]
    omega
  let M : Allocator UInt8 := ⟨fun n ↦ List.replicate n 0, le_length_zeros⟩
  obtain ⟨zl', es', hdelete, -, -⟩ := h M _ _ 1 1 hwf hk
  have hnone := (zipListDeleteRange_remove M hwf hk 1).2 Nat.one_ne_zero
    (by rw [zipSize_zipRemove_zipManyTexts]; omega)
  exact absurd (hdelete.symm.trans hnone) (Option.some_ne_none _)

end Text

end LatteC
