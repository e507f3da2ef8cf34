import LatteC.Ziplist.Layout
import Mathlib.Data.List.Induction

/-!
# The cascade

Behind an entry whose raw length has changed, `prevlen` fields of one byte grow to five as long as
each is in front of an entry that has itself become too long for one byte. `zipGrowing` are the entries
that grow and `zipStaying` the rest; only the first of the rest has its `prevlen` stored anew, in the
width it has.

`__zip_list_cascade_update` finds the two parts from the front, then it makes room and moves the growing
entries from the back. The first loop is followed from the front, the second one from the back.
-/

namespace LatteC

open Block

/-- The entry with a `prevlen` field of five bytes. -/
def ZipItem.grow (e : ZipItem) : ZipItem := { e with large := true }

/-- The first entries, of those behind one of `prev` bytes, whose `prevlen` field has to grow. -/
def zipGrowing : ℕ → List ZipItem → List ZipItem
  | _, [] => []
  | prev, e :: es => if !e.large && zipBigPrevlen ≤ prev then e :: zipGrowing (e.rawLen + 4) es else []

/-- The others. -/
def zipStaying : ℕ → List ZipItem → List ZipItem
  | _, [] => []
  | prev, e :: es => if !e.large && zipBigPrevlen ≤ prev then zipStaying (e.rawLen + 4) es else e :: es

/-- What the cascade makes of the entries behind one that has now `prev` bytes. -/
def zipCascade (prev : ℕ) (es : List ZipItem) : List ZipItem :=
  (zipGrowing prev es).map ZipItem.grow ++ zipStaying prev es

/-- Behind one of `prev` bytes, each of the entries has to grow. -/
def ZipChain : ℕ → List ZipItem → Prop
  | _, [] => True
  | prev, e :: es => e.large = false ∧ zipBigPrevlen ≤ prev ∧ ZipChain (e.rawLen + 4) es

/-- Where the last of some entries starts, the first of which is at `p`; without any, `off`. -/
def zipLastOffset : (off p : ℕ) → List ZipItem → ℕ
  | off, _, [] => off
  | _, p, e :: es => zipLastOffset p (p + e.rawLen) es

section Growing

variable {prev old new : ℕ} {e : ZipItem} {G es rest : List ZipItem}

@[simp] theorem payload_grow (e : ZipItem) : e.grow.payload = e.payload := rfl

theorem rawLen_grow (h : e.large = false) : e.grow.rawLen = e.rawLen + 4 := by
  simp only [ZipItem.rawLen, ZipItem.prevlenSize, ZipItem.grow, h, if_true, Bool.false_eq_true,
    if_false]
  omega

theorem zipGrowing_append_zipStaying (prev : ℕ) (es : List ZipItem) :
    zipGrowing prev es ++ zipStaying prev es = es := by
  induction es generalizing prev with
  | nil => rfl
  | cons e es ih =>
    rw [zipGrowing, zipStaying]
    split_ifs
    · rw [List.cons_append, ih]
    · rfl

theorem zipChain_zipGrowing (prev : ℕ) (es : List ZipItem) : ZipChain prev (zipGrowing prev es) := by
  induction es generalizing prev with
  | nil => trivial
  | cons e es ih =>
    rw [zipGrowing]
    split_ifs with h
    · rw [Bool.and_eq_true, Bool.not_eq_true', decide_eq_true_eq] at h
      exact ⟨h.1, h.2, ih _⟩
    · trivial

/-- The first of the others, if any, keeps its width for what is in front of it now. -/
theorem head_zipStaying (prev : ℕ) (es : List ZipItem) :
    ∀ e E, zipStaying prev es = e :: E → e.large = true ∨
      zipLastLen prev ((zipGrowing prev es).map ZipItem.grow) < zipBigPrevlen := by
  induction es generalizing prev with
  | nil =>
    intro e E h
    exact absurd h (by simp [zipStaying])
  | cons a es ih =>
    intro e E h
    rw [zipStaying] at h
    rw [zipGrowing]
    split_ifs at h ⊢ with hgrow
    · rw [List.map_cons, zipLastLen]
      rw [Bool.and_eq_true, Bool.not_eq_true', decide_eq_true_eq] at hgrow
      rw [rawLen_grow hgrow.1]
      exact ih _ e E h
    · obtain ⟨rfl, -⟩ := List.cons.inj h
      rw [List.map_nil, zipLastLen]
      rw [Bool.and_eq_true, Bool.not_eq_true', decide_eq_true_eq, not_and, not_le,
        ← Bool.not_eq_true, Decidable.imp_iff_not_or, Decidable.not_not] at hgrow
      exact hgrow

theorem zipChain_concat : ZipChain prev (G ++ [e]) ↔
    ZipChain prev G ∧ e.large = false ∧ zipBigPrevlen ≤ zipLastLen prev (G.map ZipItem.grow) := by
  induction G generalizing prev with
  | nil => simp [ZipChain, zipLastLen]
  | cons a G ih =>
    rw [List.cons_append, ZipChain, ZipChain, List.map_cons, zipLastLen, ih]
    constructor
    · rintro ⟨hsmall, hbig, hG, hrest⟩
      rw [rawLen_grow hsmall]
      exact ⟨⟨hsmall, hbig, hG⟩, hrest⟩
    · rintro ⟨⟨hsmall, hbig, hG⟩, hrest⟩
      rw [rawLen_grow hsmall] at hrest
      exact ⟨hsmall, hbig, hG, hrest⟩

theorem zipLen_map_grow (h : ZipChain prev G) :
    zipLen (G.map ZipItem.grow) = zipLen G + 4 * G.length := by
  induction G generalizing prev with
  | nil => rfl
  | cons e G ih =>
    obtain ⟨hsmall, -, hG⟩ := h
    rw [List.map_cons, zipLen_cons, zipLen_cons, rawLen_grow hsmall, ih hG, List.length_cons]
    omega

/-- The last entry of a chain grows by four, too. -/
theorem zipLastLen_map_grow (h : ZipChain new G) (hnew : new = old + 4) :
    zipLastLen new (G.map ZipItem.grow) = zipLastLen old G + 4 := by
  induction G generalizing old new with
  | nil => exact hnew
  | cons e G ih =>
    obtain ⟨hsmall, -, hG⟩ := h
    rw [List.map_cons, zipLastLen, zipLastLen, rawLen_grow hsmall]
    exact ih hG rfl

theorem zipLastOffset_concat (off p : ℕ) (G : List ZipItem) (e : ZipItem) :
    zipLastOffset off p (G ++ [e]) = p + zipLen G := by
  induction G generalizing off p with
  | nil => rfl
  | cons a G ih =>
    rw [List.cons_append, zipLastOffset, ih, zipLen_cons, Nat.add_assoc]

theorem map_payload_zipCascade (prev : ℕ) (es : List ZipItem) :
    (zipCascade prev es).map ZipItem.payload = es.map ZipItem.payload := by
  have hgrow : ((zipGrowing prev es).map ZipItem.grow).map ZipItem.payload =
      (zipGrowing prev es).map ZipItem.payload := by
    rw [List.map_map]
    rfl
  rw [zipCascade, List.map_append, hgrow, ← List.map_append, zipGrowing_append_zipStaying]

theorem zipLen_zipCascade (prev : ℕ) (es : List ZipItem) :
    zipLen (zipCascade prev es) = zipLen es + 4 * (zipGrowing prev es).length := by
  have hes := congrArg zipLen (zipGrowing_append_zipStaying prev es)
  rw [zipLen_append] at hes
  rw [zipCascade, zipLen_append, zipLen_map_grow (zipChain_zipGrowing prev es)]
  omega

/-- Entries that fit already do not grow. -/
theorem zipGrowing_of_ok (h : ZipItemsOk prev es) : zipGrowing prev es = [] := by
  cases es with
  | nil => rfl
  | cons e es =>
    rw [zipGrowing, if_neg]
    intro hgrow
    rw [Bool.and_eq_true, Bool.not_eq_true', decide_eq_true_eq] at hgrow
    have hfit := h.1.1
    rw [hgrow.1, if_neg Bool.false_ne_true] at hfit
    omega

theorem zipCascade_of_zipGrowing (h : zipGrowing prev es = []) : zipCascade prev es = es := by
  have hes := zipGrowing_append_zipStaying prev es
  rw [h, List.nil_append] at hes
  rw [zipCascade, h, List.map_nil, List.nil_append, hes]

/-- What the cascade leaves behind is in order if it is not too long for a field of four bytes. -/
theorem zipItemsOk_zipCascade (h : ZipItemsOk old es) (hlen : prev + zipLen (zipCascade prev es) < 2 ^ 32) :
    ZipItemsOk prev (zipCascade prev es) := by
  induction es generalizing old prev with
  | nil => trivial
  | cons e es ih =>
    obtain ⟨⟨hfit, hpayload⟩, hes⟩ := h
    rw [zipCascade, zipGrowing, zipStaying] at hlen ⊢
    split_ifs at hlen ⊢ with hgrow
    · rw [Bool.and_eq_true, Bool.not_eq_true', decide_eq_true_eq] at hgrow
      rw [List.map_cons, List.cons_append, zipLen_cons, rawLen_grow hgrow.1] at hlen
      have hrest := ih hes (show e.rawLen + 4 + zipLen (zipCascade (e.rawLen + 4) es) < 2 ^ 32 by
        rw [zipCascade]
        omega)
      rw [List.map_cons, List.cons_append, ZipItemsOk, rawLen_grow hgrow.1]
      refine ⟨⟨?_, hpayload⟩, hrest⟩
      rw [ZipItem.grow, if_pos rfl]
      omega
    · rw [List.map_nil, List.nil_append] at hlen ⊢
      refine ⟨⟨?_, hpayload⟩, hes⟩
      rw [Bool.and_eq_true, Bool.not_eq_true', decide_eq_true_eq, not_and, not_le] at hgrow
      cases hlarge : e.large with
      | true =>
        rw [if_pos rfl]
        omega
      | false => exact hgrow hlarge

end Growing

/-! ## Storing a `prevlen` -/

section Store

variable {e : ZipItem} {old new : ℕ} (P R : List UInt8)

/-- What `zip_store_prev_entry_length` stores: the smallest field. -/
theorem zipStorePrevEntryLength_eq (zl : List UInt8) (p len : ℕ) :
    zipStorePrevEntryLength zl p len = write zl p (zipPrevlenField (zipBigPrevlen ≤ len) len) := by
  rw [zipStorePrevEntryLength]
  by_cases h : len < zipBigPrevlen
  · rw [if_pos h, decide_eq_false (not_le.mpr h)]
    rfl
  · rw [if_neg h, decide_eq_true (not_lt.mp h)]
    rfl

theorem write_zipPrevlenField (e : ZipItem) (old new : ℕ) :
    write (P ++ (e.bytes old ++ R)) P.length (zipPrevlenField e.large new) =
      some (P ++ (e.bytes new ++ R)) := by
  have hwrite := write_append P (e.payload ++ R)
    (show (zipPrevlenField e.large new).length = (zipPrevlenField e.large old).length by
      rw [length_zipPrevlenField, length_zipPrevlenField])
  simp only [List.append_assoc] at hwrite
  rw [ZipItem.bytes, ZipItem.bytes, List.append_assoc, List.append_assoc]
  exact hwrite

theorem zipStorePrevEntryLengthLarge_bytes (h : e.large = true) :
    zipStorePrevEntryLengthLarge (P ++ (e.bytes old ++ R)) P.length new =
      some (P ++ (e.bytes new ++ R)) := by
  have hwrite := write_zipPrevlenField P R e old new
  rwa [h] at hwrite

/-- A `prevlen` is stored in the width it has if that is the smallest. -/
theorem zipStorePrevEntryLength_bytes (h : e.prevlenSize = zipPrevEntryLengthSize new) :
    zipStorePrevEntryLength (P ++ (e.bytes old ++ R)) P.length new =
      some (P ++ (e.bytes new ++ R)) := by
  have hlarge : decide (zipBigPrevlen ≤ new) = e.large := by
    rw [ZipItem.prevlenSize, zipPrevEntryLengthSize] at h
    by_cases hlt : new < zipBigPrevlen
    · rw [decide_eq_false (not_le.mpr hlt)]
      by_contra hne
      rw [(Bool.not_eq_false _).mp (Ne.symm hne), if_pos rfl, if_pos hlt] at h
      exact absurd h (by decide)
    · rw [decide_eq_true (not_lt.mp hlt)]
      by_contra hne
      rw [if_neg (Ne.symm hne), if_neg hlt] at h
      exact absurd h (by decide)
  rw [zipStorePrevEntryLength_eq, hlarge, write_zipPrevlenField]

/-- An entry stays when its width is at least the one needed. -/
theorem zipPrevEntryLengthSize_le_iff :
    zipPrevEntryLengthSize new ≤ e.prevlenSize ↔ e.large = true ∨ new < zipBigPrevlen := by
  rw [zipPrevEntryLengthSize, ZipItem.prevlenSize]
  cases e.large <;> split_ifs <;> simp_all

/-- Both ways to store the `prevlen` of an entry that does not grow. -/
theorem zipStore_staying (h : zipPrevEntryLengthSize new ≤ e.prevlenSize) :
    (if e.prevlenSize = zipPrevEntryLengthSize new then
        zipStorePrevEntryLength (P ++ (e.bytes old ++ R)) P.length new
      else zipStorePrevEntryLengthLarge (P ++ (e.bytes old ++ R)) P.length new) =
      some (P ++ (e.bytes new ++ R)) := by
  split_ifs with heq
  · exact zipStorePrevEntryLength_bytes P R heq
  · have hlarge : e.large = true := by
      by_contra hsmall
      have hone : e.prevlenSize = 1 := by rw [ZipItem.prevlenSize, if_neg hsmall]
      have hpos : 1 ≤ zipPrevEntryLengthSize new := by
        rw [zipPrevEntryLengthSize]
        split_ifs <;> decide
      omega
    exact zipStorePrevEntryLengthLarge_bytes P R hlarge

end Store

/-! ## The first loop -/

section Loop

variable {old new curlen rounds off extra cnt : ℕ} {P S : List UInt8} {rest : List ZipItem}

/-- The first loop finds the entries that grow, adds up how much, and stores the `prevlen` of the
first of the others. -/
theorem zipCascadeLoop_spec (hok : ZipItemsOk old rest) (hne : new = old + 4 ∨ new + 4 = old)
    (hlow : zipListHeaderSize ≤ P.length) (hcur : P.length + zipLen rest + 1 = curlen)
    (hrounds : rest.length < rounds) :
    zipCascadeLoop curlen rounds
        { zl := P ++ (zipBody old rest ++ zipEnd :: S), prevlen := new
          prevlensize := zipPrevEntryLengthSize new, prevoffset := off, p := P.length
          extra := extra, cnt := cnt } =
      some
        { zl := P ++ (zipBody old (zipGrowing new rest) ++
            (zipBody (zipLastLen new ((zipGrowing new rest).map ZipItem.grow)) (zipStaying new rest) ++
              zipEnd :: S))
          prevlen := zipLastLen new ((zipGrowing new rest).map ZipItem.grow)
          prevlensize :=
            zipPrevEntryLengthSize (zipLastLen new ((zipGrowing new rest).map ZipItem.grow))
          prevoffset := zipLastOffset off P.length (zipGrowing new rest)
          p := P.length + zipLen (zipGrowing new rest)
          extra := extra + 4 * (zipGrowing new rest).length
          cnt := cnt + (zipGrowing new rest).length } := by
  induction rest generalizing old new rounds off extra cnt P with
  | nil =>
    obtain ⟨rounds, rfl⟩ := Nat.exists_eq_add_of_lt hrounds
    rw [List.length_nil, Nat.zero_add, zipCascadeLoop, zipBody, List.nil_append, getElem?_zipEnd,
      Option.bind_some, if_pos rfl]
    rfl
  | cons e es ih =>
    obtain ⟨rounds, rfl⟩ := Nat.exists_eq_add_of_lt hrounds
    obtain ⟨he, hes⟩ := hok
    rw [zipLen_cons] at hcur
    obtain ⟨b, hb, hbne⟩ := exists_getElem?_bytes P (zipBody e.rawLen es ++ zipEnd :: S) he
    obtain ⟨cur, hsafe, hsize, hprev, hraw, -⟩ := exists_zipAssertEntrySafe P
      (zipBody e.rawLen es ++ zipEnd :: S) he hlow (by omega : P.length + e.rawLen + 1 ≤ curlen)
      (v := false) (fun h ↦ absurd h Bool.false_ne_true)
    have hchanged : ¬old = new := by omega
    rw [zipCascadeLoop, zipBody, List.append_assoc]
    simp only [hb, Option.bind_some, if_neg hbne, hsafe, hprev, hsize, if_neg hchanged]
    by_cases hstay : zipPrevEntryLengthSize new ≤ e.prevlenSize
    · -- the `prevlen` fits into the field
      have hgrow : ¬(!e.large && zipBigPrevlen ≤ new) = true := by
        rw [Bool.and_eq_true, Bool.not_eq_true', decide_eq_true_eq]
        rintro ⟨hsmall, hbig⟩
        rcases zipPrevEntryLengthSize_le_iff.mp hstay with h | h
        · rw [hsmall] at h
          exact absurd h Bool.false_ne_true
        · omega
      rw [if_pos hstay, zipStore_staying P _ hstay, Option.map_some, zipGrowing, zipStaying,
        if_neg hgrow, if_neg hgrow]
      simp only [zipBody, List.map_nil, zipLastLen, zipLastOffset, List.nil_append, zipLen_nil,
        List.length_nil, Nat.mul_zero, Nat.add_zero, List.append_assoc]
    · -- the entry grows
      have hboth := not_or.mp (mt zipPrevEntryLengthSize_le_iff.mpr hstay)
      have hsmall : e.large = false := Bool.not_eq_true _ ▸ hboth.1
      have hbig : zipBigPrevlen ≤ new := not_lt.mp hboth.2
      have hgrow : (!e.large && zipBigPrevlen ≤ new) = true := by
        rw [Bool.and_eq_true, Bool.not_eq_true', decide_eq_true_eq]
        exact ⟨hsmall, hbig⟩
      have hold := he.1
      rw [hsmall, if_neg Bool.false_ne_true] at hold
      have hnew : new = old + 4 := by omega
      have hstep := @ih e.rawLen (e.rawLen + 4) (es.length + 1 + rounds) P.length (extra + 4)
        (cnt + 1) (P ++ e.bytes old) hes (Or.inl rfl) (by rw [List.length_append]; omega)
        (by rw [List.length_append, length_bytes]; omega) (by omega)
      rw [List.length_append, length_bytes, List.append_assoc] at hstep
      rw [if_neg hstay, if_pos (Or.inr hnew.symm), hraw, zipGrowing, zipStaying, if_pos hgrow,
        if_pos hgrow, List.length_cons, hstep]
      simp only [zipBody, List.map_cons, zipLastLen, zipLastOffset, rawLen_grow hsmall, zipLen_cons,
        List.length_cons, List.append_assoc, Nat.add_assoc, Nat.mul_add, Nat.mul_one]
      congr 2
      · omega
      · omega

end Loop

/-! ## The second loop -/

section Move

variable {old new firstentrylen : ℕ} {A : List UInt8} {G : List ZipItem}

/-- From the end of some entries, one step back leads to the start of the last of them. -/
theorem zipLastOffset_back (old p : ℕ) (G : List ZipItem) :
    zipLastOffset (p + zipLen G - zipLastLen old G) p G = p + zipLen G - zipLastLen old G := by
  induction G using List.reverseRecOn with
  | nil => rfl
  | append_singleton G e _ =>
    rw [zipLastOffset_concat, zipLastLen_concat, zipLen_append, zipLen_cons, zipLen_nil]
    omega

theorem zipLastLen_pos (hold : 0 < old) (hok : ZipItemsOk old G) : 0 < zipLastLen old G := by
  induction G generalizing old with
  | nil => exact hold
  | cons e G ih => exact ih (Nat.lt_of_lt_of_le Nat.two_pos hok.1.two_le) hok.2

/-- One round: the payload moves up over the gap behind it, and five bytes in front of it take the new
`prevlen`. -/
theorem zipCascadeMove_step (P T : List UInt8) (firstentrylen cnt : ℕ) {X : List UInt8}
    {e : ZipItem} {prev k : ℕ} (he : e.Ok prev) (hsmall : e.large = false)
    (hpos : 0 < prev) (hbig : zipBigPrevlen ≤ prev + 4)
    (hX : X.length = k + 4) :
    ∃ X', X'.length = k ∧
      zipCascadeMove firstentrylen (cnt + 1) (P ++ (e.bytes prev ++ (X ++ T)))
          (P.length + e.rawLen + X.length) P.length =
        zipCascadeMove firstentrylen cnt (P ++ (X' ++ (e.grow.bytes (prev + 4) ++ T)))
          (P.length + k) (P.length - prev) := by
  obtain ⟨cur, hentry, hsize, hprev, hraw, -⟩ := exists_zipEntry P (X ++ T) he
  have hone : e.prevlenSize = 1 := by
    rw [ZipItem.prevlenSize, hsmall, if_neg Bool.false_ne_true]
  have hrawLen : e.rawLen = 1 + e.payload.length := by rw [ZipItem.rawLen, hone]
  have hbytes : e.bytes prev = [UInt8.ofNat prev] ++ e.payload := by
    rw [ZipItem.bytes, hsmall, zipPrevlenField, if_neg Bool.false_ne_true]
  -- the payload moves up
  obtain ⟨Z, hZ, hmove⟩ := move_up (P ++ [UInt8.ofNat prev]) e.payload X T
  rw [List.length_append, List.length_singleton] at hmove
  -- what is left in front of it is cut where the new field starts
  obtain ⟨X', Y', hcut, hX', hY'⟩ : ∃ X' Y', [UInt8.ofNat prev] ++ Z = X' ++ Y' ∧ X'.length = k ∧
      Y'.length = 5 := by
    refine ⟨_, _, (List.take_append_drop k _).symm, ?_, ?_⟩
    · rw [List.length_take, List.length_append, List.length_singleton]
      omega
    · rw [List.length_drop, List.length_append, List.length_singleton]
      omega
  have hwrite := write_append (P ++ X') (e.payload ++ T)
    (show (zipPrevlenField true (prev + 4)).length = Y'.length by
      rw [length_zipPrevlenField, hY']
      rfl)
  have hbefore : P ++ [UInt8.ofNat prev] ++ (Z ++ (e.payload ++ T)) =
      P ++ X' ++ Y' ++ (e.payload ++ T) := by
    rw [List.append_assoc P X' Y', ← hcut]
    simp only [List.append_assoc]
  have hstore : zipStorePrevEntryLength (P ++ [UInt8.ofNat prev] ++ (Z ++ (e.payload ++ T)))
      (P.length + k) (prev + 4) = some (P ++ (X' ++ (e.grow.bytes (prev + 4) ++ T))) := by
    rw [List.length_append, hX'] at hwrite
    rw [zipStorePrevEntryLength, if_neg (not_lt.mpr hbig), zipStorePrevEntryLengthLarge, hbefore]
    rw [zipPrevlenField, if_pos rfl] at hwrite
    rw [hwrite, ZipItem.bytes, ZipItem.grow, zipPrevlenField, if_pos rfl]
    simp only [List.append_assoc]
  refine ⟨X', hX', ?_⟩
  have hdst : P.length + e.rawLen + X.length - (e.rawLen - 1) = P.length + 1 + X.length := by omega
  have hn : e.rawLen - 1 = e.payload.length := by omega
  have hback : P.length + e.rawLen + X.length - (e.rawLen + 4) = P.length + k := by omega
  have hmem : P ++ (e.bytes prev ++ (X ++ T)) =
      P ++ [UInt8.ofNat prev] ++ (e.payload ++ (X ++ T)) := by
    rw [hbytes]
    simp only [List.append_assoc]
  rw [zipCascadeMove, hentry, Option.bind_some]
  simp only [hraw, hsize, hprev, hone]
  rw [hdst, hn, hmem, hmove, Option.bind_some, hback, if_neg (Nat.pos_iff_ne_zero.mp hpos), hstore,
    Option.bind_some]

/-- The second loop moves a chain of growing entries up over a gap of four bytes for each. -/
theorem zipCascadeMove_spec {X T : List UInt8} {off : ℕ} (hchain : ZipChain new G)
    (hok : ZipItemsOk old G) (hold : 0 < old) (hnew : new = old + 4)
    (hX : X.length = 4 * G.length) :
    zipCascadeMove firstentrylen G.length (A ++ (zipBody old G ++ (X ++ T)))
        (A.length + zipLen G + X.length) (zipLastOffset off A.length G) =
      some (A ++ (zipBody new (G.map ZipItem.grow) ++ T)) := by
  induction G using List.reverseRecOn generalizing X T off with
  | nil =>
    obtain rfl := List.eq_nil_of_length_eq_zero (by simpa using hX)
    rfl
  | append_singleton G e ih =>
    obtain ⟨hG, hsmall, hbig⟩ := zipChain_concat.mp hchain
    obtain ⟨hokG, he, -⟩ := zipItemsOk_append.mp hok
    rw [zipLastLen_map_grow hG hnew] at hbig
    rw [List.length_append, List.length_singleton] at hX ⊢
    have hlen : (A ++ zipBody old G).length = A.length + zipLen G := by
      rw [List.length_append, length_zipBody]
    have hmem : A ++ (zipBody old (G ++ [e]) ++ (X ++ T)) =
        A ++ zipBody old G ++ (e.bytes (zipLastLen old G) ++ (X ++ T)) := by
      rw [zipBody_append, zipBody, zipBody]
      simp only [List.append_nil, List.append_assoc]
    have hp : A.length + zipLen (G ++ [e]) + X.length =
        A.length + zipLen G + e.rawLen + X.length := by
      rw [zipLen_append, zipLen_cons, zipLen_nil]
      omega
    have hmoved : zipBody new ((G ++ [e]).map ZipItem.grow) ++ T =
        zipBody new (G.map ZipItem.grow) ++ (e.grow.bytes (zipLastLen old G + 4) ++ T) := by
      rw [List.map_append, List.map_singleton, zipBody_append, zipLastLen_map_grow hG hnew, zipBody,
        zipBody]
      simp only [List.append_nil, List.append_assoc]
    obtain ⟨X', hX', hstep⟩ := zipCascadeMove_step (A ++ zipBody old G) T firstentrylen G.length he
      hsmall (zipLastLen_pos hold hokG) hbig (show X.length = 4 * G.length + 4 by omega)
    have hrest := @ih X' (e.grow.bytes (zipLastLen old G + 4) ++ T)
      (A.length + zipLen G - zipLastLen old G) hG hokG hX'
    rw [hlen] at hstep
    rw [zipLastOffset_back, hX'] at hrest
    rw [zipLastOffset_concat, hmem, hp, hmoved, hstep, List.append_assoc, hrest]

end Move

/-! ## Both -/

/-- The offset of the last entry is one step back from the end. -/
theorem zipTail_eq (A : List ZipItem) :
    zipTail A = zipListHeaderSize + zipLen A - zipLastLen 0 A := by
  rcases List.eq_nil_or_concat' A with rfl | ⟨A, a, rfl⟩
  · rfl
  · rw [zipTail, List.dropLast_concat, zipLastLen_concat, zipLen_append, zipLen_cons, zipLen_nil]
    omega

theorem zipTail_lt_zipSize (es : List ZipItem) : zipTail es < zipSize es := by
  rw [zipTail_eq, zipSize]
  omega

section Update

variable {A rest : List ZipItem} {e : ZipItem} {S : List UInt8} {old n : ℕ}

theorem ZipItem.rawLen_pos (e : ZipItem) : 0 < e.rawLen := by
  rw [ZipItem.rawLen, ZipItem.prevlenSize]
  split_ifs <;> omega

theorem length_le_zipLen (es : List ZipItem) : es.length ≤ zipLen es := by
  induction es with
  | nil => exact Nat.le_refl _
  | cons e es ih =>
    have := e.rawLen_pos
    rw [List.length_cons, zipLen_cons]
    omega

/-- If an entry grows, the one in front of it has become longer. -/
theorem eq_add_of_zipGrowing_ne_nil {new : ℕ} (hrest : ZipItemsOk old rest)
    (hne : new = old + 4 ∨ new + 4 = old) (h : zipGrowing new rest ≠ []) : new = old + 4 := by
  cases rest with
  | nil => exact absurd rfl h
  | cons e es =>
    have hchain := zipChain_zipGrowing new (e :: es)
    rw [zipGrowing] at h hchain
    split_ifs at h hchain with hgrow
    · have hfit := hrest.1.1
      rw [hchain.1, if_neg Bool.false_ne_true] at hfit
      have := hchain.2.1
      omega
    · exact absurd rfl h

/-- The tail moves up with the growing entries in front of it. Its own growth does not move it. -/
theorem zipCascadeTail_spec {B G K : List ZipItem} {g : ZipItem} {bytes new : ℕ}
    (hchain : ZipChain new (G ++ [g])) (R : List UInt8) :
    zipCascadeTail (zipHeader bytes (zipTail (B ++ (G ++ [g] ++ K))) n ++ R)
        (zipTail (B ++ (G ++ [g] ++ K))) (zipListHeaderSize + zipLen B + zipLen G)
        (4 * (G ++ [g]).length) =
      some (zipHeader bytes (zipTail (B ++ ((G ++ [g]).map ZipItem.grow ++ K))) n ++ R) := by
  have hG := zipLen_map_grow (zipChain_concat.mp hchain).1
  have hGg := zipLen_map_grow hchain
  have hlen : (G ++ [g]).length = G.length + 1 := by rw [List.length_append, List.length_singleton]
  rw [zipCascadeTail]
  rcases List.eq_nil_or_concat' K with rfl | ⟨K, k, rfl⟩
  · have htail : zipTail (B ++ (G ++ [g] ++ [])) = zipListHeaderSize + zipLen B + zipLen G := by
      rw [List.append_nil, zipTail_append B (by simp), List.dropLast_concat]
    have hnew : zipTail (B ++ ((G ++ [g]).map ZipItem.grow ++ [])) =
        zipListHeaderSize + zipLen B + zipLen G + 4 * G.length := by
      rw [List.append_nil, List.map_append, List.map_singleton, zipTail_append B (by simp),
        List.dropLast_concat, hG]
      omega
    rw [htail, if_pos rfl, hnew, hlen]
    split_ifs with hextra
    · have hmove : zipListHeaderSize + zipLen B + zipLen G + 4 * (G.length + 1) - 4 =
          zipListHeaderSize + zipLen B + zipLen G + 4 * G.length := by
        omega
      rw [zipListSetTailOffset_header, hmove]
    · have hone : G.length = 0 := by omega
      rw [hone, Nat.mul_zero, Nat.add_zero]
  · have hg := g.rawLen_pos
    have htail : zipTail (B ++ (G ++ [g] ++ (K ++ [k]))) =
        zipListHeaderSize + zipLen B + (zipLen (G ++ [g]) + zipLen K) := by
      rw [zipTail_append B (by simp), ← List.append_assoc, List.dropLast_concat, zipLen_append]
    have hnew : zipTail (B ++ ((G ++ [g]).map ZipItem.grow ++ (K ++ [k]))) =
        zipListHeaderSize + zipLen B + (zipLen (G ++ [g]) + zipLen K) + 4 * (G ++ [g]).length := by
      rw [zipTail_append B (by simp), ← List.append_assoc, List.dropLast_concat, zipLen_append, hGg]
      omega
    have hne : ¬zipListHeaderSize + zipLen B + (zipLen (G ++ [g]) + zipLen K) =
        zipListHeaderSize + zipLen B + zipLen G := by
      rw [zipLen_append, zipLen_cons]
      omega
    rw [htail, if_neg hne, zipListSetTailOffset_header, hnew]

/-- What `__zip_list_cascade_update` does when it knows the growing entries: it makes room for them,
moves what is behind them, `Y`, and then them. -/
theorem exists_zipCascade_room (M : Allocator UInt8) {G : List ZipItem} {B Y : List UInt8}
    {bytes tail new curlen off firstentrylen : ℕ} (hchain : ZipChain new G) (hok : ZipItemsOk old G)
    (hold : 0 < old) (hnew : new = old + 4)
    (hcur : curlen = zipListHeaderSize + B.length + zipLen G + Y.length + 1)
    (hfit : curlen + 4 * G.length < 2 ^ 32 - 1) :
    ∃ slack,
      ((zipListResize M (zipHeader bytes tail n ++ (B ++ (zipBody old G ++ (Y ++ zipEnd :: S))))
          (curlen + 4 * G.length)).bind fun zl ↦
        (move zl (zipListHeaderSize + B.length + zipLen G + 4 * G.length)
            (zipListHeaderSize + B.length + zipLen G)
            (curlen - (zipListHeaderSize + B.length + zipLen G) - 1)).bind fun zl ↦
          zipCascadeMove firstentrylen G.length zl
            (zipListHeaderSize + B.length + zipLen G + 4 * G.length)
            (zipLastOffset off (zipListHeaderSize + B.length) G)) =
        some (zipHeader (curlen + 4 * G.length) tail n ++
          (B ++ (zipBody new (G.map ZipItem.grow) ++ (Y ++ zipEnd :: slack)))) := by
  have hX : (B ++ (zipBody old G ++ Y)).length = B.length + zipLen G + Y.length := by
    rw [List.length_append, List.length_append, length_zipBody, Nat.add_assoc]
  obtain ⟨gap, slack, hgap, hresize⟩ := @exists_zipListResize bytes tail n M
    (B ++ (zipBody old G ++ Y)) (zipEnd :: S) (curlen + 4 * G.length) (by omega) hfit
  have hgap' : gap.length = 4 * G.length := by omega
  have hmem : zipHeader bytes tail n ++ (B ++ (zipBody old G ++ (Y ++ zipEnd :: S))) =
      zipHeader bytes tail n ++ (B ++ (zipBody old G ++ Y)) ++ zipEnd :: S := by
    simp only [List.append_assoc]
  obtain ⟨H, hH⟩ : ∃ H, zipHeader (curlen + 4 * G.length) tail n = H := ⟨_, rfl⟩
  have hHlen : H.length = zipListHeaderSize := by rw [← hH, length_zipHeader]
  obtain ⟨Z, hZ, hmove⟩ := move_up (H ++ B ++ zipBody old G) Y gap (zipEnd :: slack)
  have hmem' : H ++ (B ++ (zipBody old G ++ Y)) ++ gap ++ zipEnd :: slack =
      H ++ B ++ zipBody old G ++ (Y ++ (gap ++ zipEnd :: slack)) := by
    simp only [List.append_assoc]
  have hlast := @zipCascadeMove_spec old new firstentrylen (H ++ B) G Z (Y ++ zipEnd :: slack) off
    hchain hok hold hnew (hZ.trans hgap')
  have hn : curlen - (zipListHeaderSize + B.length + zipLen G) - 1 = Y.length := by omega
  rw [List.length_append, List.length_append, length_zipBody, hHlen, hgap'] at hmove
  rw [hZ, hgap', List.length_append, hHlen] at hlast
  refine ⟨slack, ?_⟩
  rw [hmem, hresize, hH, Option.bind_some, hmem', hn, hmove, Option.bind_some, List.append_assoc,
    hlast, List.append_assoc]

section Cascade

variable {G K : List ZipItem} {B Y : List UInt8} {bytes : ℕ}
  (hbytes : zipSize (A ++ e :: rest) = bytes) (hB : zipBody 0 A ++ e.bytes (zipLastLen 0 A) = B)
  (hY : zipBody (zipLastLen e.rawLen (G.map ZipItem.grow)) K = Y)

include hbytes hB

theorem zipCascade_lengths : B.length = zipLen A + e.rawLen ∧
    bytes = zipListHeaderSize + B.length + zipLen rest + 1 := by
  have hBlen : B.length = zipLen A + e.rawLen := by
    rw [← hB, List.length_append, length_zipBody, length_bytes]
  refine ⟨hBlen, ?_⟩
  rw [← hbytes, zipSize, zipLen_append, zipLen_cons]
  omega

include hY

/-- `__zip_list_cascade_update` from the end of its first loop on, which has found the growing entries. -/
theorem zipListCascadeUpdate_eq (M : Allocator UInt8) (he : e.Ok (zipLastLen 0 A))
    (hrest : ZipItemsOk old rest) (hne : e.rawLen = old + 4 ∨ e.rawLen + 4 = old)
    (hsize : bytes < 2 ^ 32 - 1) (hG : zipGrowing e.rawLen rest = G) (hK : zipStaying e.rawLen rest = K) :
    zipListCascadeUpdate M
        (zipHeader bytes (zipTail (A ++ e :: rest)) n ++ (B ++ (zipBody old rest ++ zipEnd :: S)))
        (zipListHeaderSize + zipLen A) =
      if 4 * G.length = 0 then
        some (zipHeader bytes (zipTail (A ++ e :: rest)) n ++ (B ++ (zipBody old G ++ (Y ++ zipEnd :: S))))
      else
        (zipCascadeTail
            (zipHeader bytes (zipTail (A ++ e :: rest)) n ++ (B ++ (zipBody old G ++ (Y ++ zipEnd :: S))))
            (zipTail (A ++ e :: rest))
            (zipLastOffset (zipListHeaderSize + zipLen A) (zipListHeaderSize + B.length) G)
            (4 * G.length)).bind fun zl ↦
          (zipListResize M zl (bytes + 4 * G.length)).bind fun zl ↦
            (move zl (zipListHeaderSize + B.length + zipLen G + 4 * G.length)
                (zipListHeaderSize + B.length + zipLen G)
                (bytes - (zipListHeaderSize + B.length + zipLen G) - 1)).bind fun zl ↦
              zipCascadeMove e.rawLen G.length zl
                (zipListHeaderSize + B.length + zipLen G + 4 * G.length)
                (zipLastOffset (zipListHeaderSize + zipLen A) (zipListHeaderSize + B.length) G) := by
  obtain ⟨hBlen, hsum⟩ := zipCascade_lengths hbytes hB
  have htail : zipTail (A ++ e :: rest) < 2 ^ 32 :=
    (zipTail_lt_zipSize (A ++ e :: rest)).trans (by omega)
  obtain ⟨P, hP⟩ : ∃ P, zipHeader bytes (zipTail (A ++ e :: rest)) n ++ zipBody 0 A = P := ⟨_, rfl⟩
  have hPlen : P.length = zipListHeaderSize + zipLen A := by
    rw [← hP, List.length_append, length_zipHeader, length_zipBody]
  have hcut : ∀ R, zipHeader bytes (zipTail (A ++ e :: rest)) n ++ (B ++ R) =
      P ++ (e.bytes (zipLastLen 0 A) ++ R) := by
    intro R
    rw [← hP, ← hB]
    simp only [List.append_assoc]
  obtain ⟨b, hb, hbne⟩ := exists_getElem?_bytes P (zipBody old rest ++ zipEnd :: S) he
  obtain ⟨cur, hentry, -, -, hraw, -⟩ := exists_zipEntry P (zipBody old rest ++ zipEnd :: S) he
  have hloop := @zipCascadeLoop_spec old e.rawLen bytes bytes P.length 0 0
    (P ++ e.bytes (zipLastLen 0 A)) S rest hrest hne
    (by rw [List.length_append]; omega) (by rw [List.length_append, length_bytes]; omega)
    (by have := length_le_zipLen rest; omega)
  rw [List.length_append, length_bytes, List.append_assoc, List.append_assoc] at hloop
  have hread₁ : zipListBytes (P ++ (e.bytes (zipLastLen 0 A) ++ (zipBody old rest ++ zipEnd :: S))) =
      some bytes := by
    rw [← hP, List.append_assoc, zipListBytes_header _ (by omega)]
  have hread₂ : zipListTailOffset
      (P ++ (e.bytes (zipLastLen 0 A) ++ (zipBody old rest ++ zipEnd :: S))) =
      some (zipTail (A ++ e :: rest)) := by
    rw [← hP, List.append_assoc, zipListTailOffset_header _ htail]
  have hp : P.length + e.rawLen = zipListHeaderSize + B.length := by omega
  rw [zipListCascadeUpdate, hcut, hcut, hread₁, Option.bind_some, hread₂, Option.bind_some, ← hPlen, hb,
    Option.bind_some, if_neg hbne, hentry, Option.bind_some]
  simp only [hraw, hloop, Option.bind_some, Nat.zero_add]
  simp only [hG, hK, hY, hp]

/-- Behind the first loop, if an entry grows. -/
theorem zipCascade_grow (M : Allocator UInt8) (hchain : ZipChain e.rawLen G) (hokG : ZipItemsOk old G)
    (hold : 0 < old) (hnew : e.rawLen = old + 4) (hnil : G ≠ []) (hsplit : G ++ K = rest) :
    ∃ slack, ((zipCascadeTail
          (zipHeader bytes (zipTail (A ++ e :: rest)) n ++ (B ++ (zipBody old G ++ (Y ++ zipEnd :: S))))
          (zipTail (A ++ e :: rest))
          (zipLastOffset (zipListHeaderSize + zipLen A) (zipListHeaderSize + B.length) G)
          (4 * G.length)).bind fun zl ↦
        (zipListResize M zl (bytes + 4 * G.length)).bind fun zl ↦
          (move zl (zipListHeaderSize + B.length + zipLen G + 4 * G.length)
              (zipListHeaderSize + B.length + zipLen G)
              (bytes - (zipListHeaderSize + B.length + zipLen G) - 1)).bind fun zl ↦
            zipCascadeMove e.rawLen G.length zl
              (zipListHeaderSize + B.length + zipLen G + 4 * G.length)
              (zipLastOffset (zipListHeaderSize + zipLen A) (zipListHeaderSize + B.length) G)) =
      if bytes + 4 * G.length < 2 ^ 32 - 1 then
        some (zipHeader (bytes + 4 * G.length) (zipTail (A ++ e :: (G.map ZipItem.grow ++ K))) n ++
          (B ++ (zipBody e.rawLen (G.map ZipItem.grow) ++ (Y ++ zipEnd :: slack))))
      else none := by
  obtain ⟨hBlen, hsum⟩ := zipCascade_lengths hbytes hB
  have hYlen : Y.length = zipLen K := by rw [← hY, length_zipBody]
  have hsplitLen := congrArg zipLen hsplit
  rw [zipLen_append] at hsplitLen
  have htail : zipCascadeTail
      (zipHeader bytes (zipTail (A ++ e :: rest)) n ++ (B ++ (zipBody old G ++ (Y ++ zipEnd :: S))))
      (zipTail (A ++ e :: rest))
      (zipLastOffset (zipListHeaderSize + zipLen A) (zipListHeaderSize + B.length) G) (4 * G.length) =
      some (zipHeader bytes (zipTail (A ++ e :: (G.map ZipItem.grow ++ K))) n ++
        (B ++ (zipBody old G ++ (Y ++ zipEnd :: S)))) := by
    obtain ⟨G', g, rfl⟩ := (List.eq_nil_or_concat' G).resolve_left hnil
    have hcons := List.append_cons A e
    have hBzip : zipListHeaderSize + B.length = zipListHeaderSize + zipLen (A ++ [e]) := by
      rw [hBlen, zipLen_append, zipLen_cons, zipLen_nil, Nat.add_zero]
    rw [zipLastOffset_concat, hBzip, ← hsplit, hcons (G' ++ [g] ++ K),
      hcons ((G' ++ [g]).map ZipItem.grow ++ K)]
    exact zipCascadeTail_spec hchain _
  rw [htail, Option.bind_some]
  split_ifs with hfit
  · exact @exists_zipCascade_room S old n M G B Y bytes
      (zipTail (A ++ e :: (G.map ZipItem.grow ++ K))) e.rawLen bytes (zipListHeaderSize + zipLen A) e.rawLen
      hchain hokG hold hnew (by omega) hfit
  · refine ⟨[], ?_⟩
    rw [zipListResize, if_neg hfit, Option.bind_none]

end Cascade

/-- `__zip_list_cascade_update` at an entry `e` whose raw length has changed by four. It fails, in
`zip_list_resize`, only if the list becomes too long. -/
theorem zipListCascadeUpdate_spec (M : Allocator UInt8) (he : e.Ok (zipLastLen 0 A))
    (hrest : ZipItemsOk old rest) (hold : 0 < old)
    (hne : e.rawLen = old + 4 ∨ e.rawLen + 4 = old)
    (hsize : zipSize (A ++ e :: rest) < 2 ^ 32 - 1) :
    if zipSize (A ++ e :: zipCascade e.rawLen rest) < 2 ^ 32 - 1 then
      ∃ slack, zipListCascadeUpdate M
          (zipHeader (zipSize (A ++ e :: rest)) (zipTail (A ++ e :: rest)) n ++ zipBody 0 A ++
            (e.bytes (zipLastLen 0 A) ++ (zipBody old rest ++ zipEnd :: S)))
          (zipListHeaderSize + zipLen A) =
        some (zipHeader (zipSize (A ++ e :: zipCascade e.rawLen rest))
            (zipTail (A ++ e :: zipCascade e.rawLen rest)) n ++
          zipBody 0 (A ++ e :: zipCascade e.rawLen rest) ++ zipEnd :: slack)
    else
      zipListCascadeUpdate M
          (zipHeader (zipSize (A ++ e :: rest)) (zipTail (A ++ e :: rest)) n ++ zipBody 0 A ++
            (e.bytes (zipLastLen 0 A) ++ (zipBody old rest ++ zipEnd :: S)))
          (zipListHeaderSize + zipLen A) = none := by
  obtain ⟨B, hB⟩ : ∃ B, zipBody 0 A ++ e.bytes (zipLastLen 0 A) = B := ⟨_, rfl⟩
  have hcut : ∀ H R : List UInt8, H ++ zipBody 0 A ++ (e.bytes (zipLastLen 0 A) ++ R) = H ++ (B ++ R) := by
    intro H R
    rw [← hB]
    simp only [List.append_assoc]
  have hnewSize : zipSize (A ++ e :: zipCascade e.rawLen rest) =
      zipSize (A ++ e :: rest) + 4 * (zipGrowing e.rawLen rest).length := by
    rw [zipSize, zipSize, zipLen_append, zipLen_append, zipLen_cons, zipLen_cons, zipLen_zipCascade]
    omega
  have hchain := zipChain_zipGrowing e.rawLen rest
  have hsplit := zipGrowing_append_zipStaying e.rawLen rest
  have hgrown : zipGrowing e.rawLen rest ≠ [] → e.rawLen = old + 4 := eq_add_of_zipGrowing_ne_nil hrest hne
  have heq := @zipListCascadeUpdate_eq A rest e S old n _ _ B _ _ rfl hB rfl M he hrest hne hsize rfl rfl
  rw [hcut, heq, hnewSize, zipCascade]
  generalize zipStaying e.rawLen rest = K at *
  generalize zipGrowing e.rawLen rest = G at *
  have hdone : ∀ bytes slack, zipHeader bytes (zipTail (A ++ e :: (G.map ZipItem.grow ++ K))) n ++
      (B ++ (zipBody e.rawLen (G.map ZipItem.grow) ++
        (zipBody (zipLastLen e.rawLen (G.map ZipItem.grow)) K ++ zipEnd :: slack))) =
      zipHeader bytes (zipTail (A ++ e :: (G.map ZipItem.grow ++ K))) n ++
        zipBody 0 (A ++ e :: (G.map ZipItem.grow ++ K)) ++ zipEnd :: slack := by
    intro bytes slack
    rw [zipBody_append, zipBody, zipBody_append, ← hB]
    simp only [List.append_assoc]
  by_cases hnil : G = []
  · -- nothing grows
    subst hnil
    rw [List.nil_append] at hsplit
    subst hsplit
    rw [List.length_nil, Nat.mul_zero, if_pos rfl, Nat.add_zero, if_pos hsize]
    exact ⟨S, congrArg some (hdone _ S)⟩
  · have hokG : ZipItemsOk old G := (zipItemsOk_append.mp (hsplit.symm ▸ hrest)).1
    have hpos : ¬4 * G.length = 0 := by
      have := List.length_pos_iff.mpr hnil
      omega
    obtain ⟨slack, hgrow⟩ := @zipCascade_grow A rest e S old n G K B _ _ rfl hB rfl M hchain hokG hold
      (hgrown hnil) hnil hsplit
    rw [if_neg hpos, hgrow, hdone]
    split_ifs with hfit
    · exact ⟨slack, rfl⟩
    · rfl

end Update

end LatteC
