import LatteC.Ziplist.Basic

/-!
# What a ziplist holds

A well-formed ziplist is determined by its entries, each with the width of its `prevlen` field and
with its payload, which is the encoding and the data. The value of a `prevlen` field is no part of
the entry: it is the size of the one before. A width that the value does not need is allowed, as the
cascade leaves such fields behind.

The lemmas of this file read a block at the start of an entry.
-/

namespace LatteC

open Block

/-! ## Entries -/

/-- An entry as it is stored, up to the value of its `prevlen` field: whether that field takes five
bytes, and what follows it. -/
structure ZipItem where
  large : Bool
  payload : List UInt8
  deriving DecidableEq

/-- The size of the `prevlen` field. -/
def ZipItem.prevlenSize (e : ZipItem) : ℕ := if e.large then 5 else 1

/-- The raw length. -/
def ZipItem.rawLen (e : ZipItem) : ℕ := e.prevlenSize + e.payload.length

/-- A `prevlen` field. -/
def zipPrevlenField (large : Bool) (prev : ℕ) : List UInt8 :=
  if large then UInt8.ofNat zipBigPrevlen :: leBytes 4 prev else [UInt8.ofNat prev]

/-- The entry behind one of `prev` bytes. -/
def ZipItem.bytes (e : ZipItem) (prev : ℕ) : List UInt8 := zipPrevlenField e.large prev ++ e.payload

/-- Entries back to back, behind one of `prev` bytes. -/
def zipBody : ℕ → List ZipItem → List UInt8
  | _, [] => []
  | prev, e :: es => e.bytes prev ++ zipBody e.rawLen es

/-- The size of some entries. -/
def zipLen (es : List ZipItem) : ℕ := (es.map ZipItem.rawLen).sum

/-- The raw length of the last entry, or `prev` if there is none. -/
def zipLastLen : ℕ → List ZipItem → ℕ
  | prev, [] => prev
  | _, e :: es => zipLastLen e.rawLen es

/-- The bytes are an encoding with as much data as it says. -/
def ZipPayload (payload : List UInt8) : Prop :=
  ∃ b lensize len, payload[0]? = some b ∧
    zipDecodeLength payload (zipEntryEncoding b) = some (lensize, len) ∧ lensize ≠ 0 ∧
      payload.length = lensize + len

/-- The `prevlen` field can hold `prev`, and the payload is one. -/
def ZipItem.Ok (e : ZipItem) (prev : ℕ) : Prop :=
  (prev < if e.large then 2 ^ 32 else zipBigPrevlen) ∧ ZipPayload e.payload

/-- The same for entries in a row. -/
def ZipItemsOk : ℕ → List ZipItem → Prop
  | _, [] => True
  | prev, e :: es => e.Ok prev ∧ ZipItemsOk e.rawLen es

/-! ## The whole list -/

/-- The header. -/
def zipHeader (bytes tail n : ℕ) : List UInt8 := leBytes 4 bytes ++ leBytes 4 tail ++ leBytes 2 n

/-- The total number of bytes. -/
def zipSize (es : List ZipItem) : ℕ := zipListHeaderSize + zipLen es + 1

/-- The offset of the last entry; for the empty list, where the first one would be. -/
def zipTail (es : List ZipItem) : ℕ := zipListHeaderSize + zipLen es.dropLast

/-- The number of entries in the header is right, or saturated. -/
def ZipCounts (n length : ℕ) : Prop := n = length ∧ n < 2 ^ 16 ∨ n = 2 ^ 16 - 1

/-- The block starts with the ziplist of the entries `es`: they are back to back with each `prevlen` field
holding the raw length of the entry before, and the fields of the header are right. -/
def ZipWellFormed (zl : List UInt8) (es : List ZipItem) : Prop :=
  ∃ n slack, zl = zipHeader (zipSize es) (zipTail es) n ++ zipBody 0 es ++ zipEnd :: slack ∧
    zipSize es < 2 ^ 32 ∧ ZipItemsOk 0 es ∧ ZipCounts n es.length

/-! ## Sizes -/

section Sizes

variable {prev : ℕ} {e : ZipItem} {A B es : List ZipItem}

theorem length_zipPrevlenField (large : Bool) (prev : ℕ) :
    (zipPrevlenField large prev).length = if large then 5 else 1 := by
  cases large with
  | false => rfl
  | true => rw [zipPrevlenField, if_pos rfl, if_pos rfl, List.length_cons, length_leBytes]

@[simp] theorem length_bytes (e : ZipItem) (prev : ℕ) : (e.bytes prev).length = e.rawLen := by
  rw [ZipItem.bytes, List.length_append, length_zipPrevlenField, ZipItem.rawLen,
    ZipItem.prevlenSize]

@[simp] theorem zipLen_nil : zipLen [] = 0 := rfl

@[simp] theorem zipLen_cons (e : ZipItem) (es : List ZipItem) :
    zipLen (e :: es) = e.rawLen + zipLen es := by
  rw [zipLen, List.map_cons, List.sum_cons, zipLen]

@[simp] theorem zipLen_append (A B : List ZipItem) : zipLen (A ++ B) = zipLen A + zipLen B := by
  rw [zipLen, List.map_append, List.sum_append, zipLen, zipLen]

@[simp] theorem length_zipBody (prev : ℕ) (es : List ZipItem) :
    (zipBody prev es).length = zipLen es := by
  induction es generalizing prev with
  | nil => rfl
  | cons e es ih => rw [zipBody, List.length_append, length_bytes, ih, zipLen_cons]

theorem zipBody_append (prev : ℕ) (A B : List ZipItem) :
    zipBody prev (A ++ B) = zipBody prev A ++ zipBody (zipLastLen prev A) B := by
  induction A generalizing prev with
  | nil => rfl
  | cons e A ih => rw [List.cons_append, zipBody, zipBody, zipLastLen, ih, List.append_assoc]

theorem zipLastLen_concat (prev : ℕ) (A : List ZipItem) (e : ZipItem) :
    zipLastLen prev (A ++ [e]) = e.rawLen := by
  induction A generalizing prev with
  | nil => rfl
  | cons a A ih => rw [List.cons_append, zipLastLen, ih]

theorem zipItemsOk_append : ZipItemsOk prev (A ++ B) ↔
    ZipItemsOk prev A ∧ ZipItemsOk (zipLastLen prev A) B := by
  induction A generalizing prev with
  | nil => simp [ZipItemsOk, zipLastLen]
  | cons e A ih => rw [List.cons_append, ZipItemsOk, ZipItemsOk, zipLastLen, ih, and_assoc]

theorem ZipPayload.length_pos {payload : List UInt8} (h : ZipPayload payload) :
    0 < payload.length := by
  obtain ⟨b, lensize, len, -, -, hne, hlen⟩ := h
  omega

theorem ZipItem.Ok.two_le (h : e.Ok prev) : 2 ≤ e.rawLen := by
  have hpos := h.2.length_pos
  rw [ZipItem.rawLen, ZipItem.prevlenSize]
  split_ifs <;> omega

/-- The raw length of the last entry is among those that are summed up. -/
theorem zipLastLen_le (prev : ℕ) (es : List ZipItem) : zipLastLen prev es ≤ prev + zipLen es := by
  induction es generalizing prev with
  | nil => exact Nat.le_add_right _ _
  | cons e es ih =>
    have := ih e.rawLen
    rw [zipLastLen, zipLen_cons]
    omega

theorem zipTail_append {B : List ZipItem} (A : List ZipItem) (hB : B ≠ []) :
    zipTail (A ++ B) = zipListHeaderSize + zipLen A + zipLen B.dropLast := by
  rw [zipTail, List.dropLast_append_of_ne_nil hB, zipLen_append, Nat.add_assoc]

end Sizes

/-! ## The header -/

section Header

variable {bytes tail n : ℕ} (R : List UInt8)

@[simp] theorem length_zipHeader (bytes tail n : ℕ) :
    (zipHeader bytes tail n).length = zipListHeaderSize := by
  rw [zipHeader, List.length_append, List.length_append, length_leBytes, length_leBytes,
    length_leBytes]
  rfl

theorem zipListBytes_header (h : bytes < 2 ^ 32) :
    zipListBytes (zipHeader bytes tail n ++ R) = some bytes := by
  have hread := read_append [] (leBytes 4 bytes) (leBytes 4 tail ++ leBytes 2 n ++ R)
  rw [List.length_nil, length_leBytes] at hread
  have heq : zipHeader bytes tail n ++ R =
      [] ++ leBytes 4 bytes ++ (leBytes 4 tail ++ leBytes 2 n ++ R) := by
    simp [zipHeader]
  rw [zipListBytes, heq, hread, Option.map_some, leValue_leBytes h]

theorem zipListTailOffset_header (h : tail < 2 ^ 32) :
    zipListTailOffset (zipHeader bytes tail n ++ R) = some tail := by
  have hread := read_append (leBytes 4 bytes) (leBytes 4 tail) (leBytes 2 n ++ R)
  rw [length_leBytes, length_leBytes] at hread
  have heq : zipHeader bytes tail n ++ R =
      leBytes 4 bytes ++ leBytes 4 tail ++ (leBytes 2 n ++ R) := by
    simp [zipHeader]
  rw [zipListTailOffset, heq, hread, Option.map_some, leValue_leBytes h]

theorem zipListSetTailOffset_header (v : ℕ) :
    zipListSetTailOffset (zipHeader bytes tail n ++ R) v = some (zipHeader bytes v n ++ R) := by
  have hwrite := write_append (leBytes 4 bytes) (leBytes 2 n ++ R)
    (show (leBytes 4 v).length = (leBytes 4 tail).length by rw [length_leBytes, length_leBytes])
  rw [length_leBytes] at hwrite
  have heq : ∀ t, zipHeader bytes t n ++ R =
      leBytes 4 bytes ++ leBytes 4 t ++ (leBytes 2 n ++ R) := by
    simp [zipHeader]
  rw [zipListSetTailOffset, heq, hwrite, heq]

/-- The number of entries is counted down, unless it is saturated. -/
theorem zipListIncrLength_header {deleted : ℕ} (hn : n < 2 ^ 16) (hle : n < 2 ^ 16 - 1 → deleted ≤ n) :
    zipListIncrLength (zipHeader bytes tail n ++ R) (-deleted) =
      some (zipHeader bytes tail (if n < 2 ^ 16 - 1 then n - deleted else n) ++ R) := by
  have hread := read_append (leBytes 4 bytes ++ leBytes 4 tail) (leBytes 2 n) R
  rw [List.length_append, length_leBytes, length_leBytes, length_leBytes] at hread
  have hlength : zipListLength (zipHeader bytes tail n ++ R) = some n := by
    rw [zipListLength, zipHeader, hread, Option.map_some, leValue_leBytes hn]
  rw [zipListIncrLength, hlength, Option.bind_some]
  by_cases hlt : n < 2 ^ 16 - 1
  · have hvalue : (((n : ℤ) + -deleted) % 2 ^ 16).toNat = n - deleted := by
      have := hle hlt
      rw [Int.emod_eq_of_lt (by omega) (by omega)]
      omega
    have hwrite := write_append (leBytes 4 bytes ++ leBytes 4 tail) R
      (show (leBytes 2 (n - deleted)).length = (leBytes 2 n).length by
        rw [length_leBytes, length_leBytes])
    rw [List.length_append, length_leBytes, length_leBytes] at hwrite
    rw [if_pos hlt, if_pos hlt, hvalue, zipHeader, hwrite, zipHeader]
  · rw [if_neg hlt, if_neg hlt]

/-- Resizing keeps what fits. The gap in front of the new end is left over, or new. -/
theorem exists_zipListResize (M : Allocator UInt8) (X Y : List UInt8) {len : ℕ}
    (hfit : zipListHeaderSize + X.length + 1 ≤ len) (hlt : len < 2 ^ 32 - 1) :
    ∃ gap slack, gap.length = len - (zipListHeaderSize + X.length + 1) ∧
      zipListResize M (zipHeader bytes tail n ++ X ++ Y) len =
        some (zipHeader len tail n ++ X ++ gap ++ zipEnd :: slack) := by
  have hkeep : (zipHeader bytes tail n ++ X).length ≤ len := by
    rw [List.length_append, length_zipHeader]
    omega
  obtain ⟨S, hresize, hlen⟩ := M.resize_append (zipHeader bytes tail n ++ X) Y hkeep
  rw [List.length_append, List.length_append, length_zipHeader] at hlen
  have hwrite₁ : write (zipHeader bytes tail n ++ X ++ S) 0 (leBytes 4 len) =
      some (zipHeader len tail n ++ X ++ S) := by
    have := write_append [] (leBytes 4 tail ++ leBytes 2 n ++ X ++ S)
      (show (leBytes 4 len).length = (leBytes 4 bytes).length by rw [length_leBytes, length_leBytes])
    simpa [zipHeader] using this
  -- the gap, the end, and the slack behind it
  obtain ⟨gap, b, slack, rfl, hgap⟩ : ∃ gap b slack, S = gap ++ b :: slack ∧
      gap.length = len - (zipListHeaderSize + X.length + 1) := by
    have hlt' : len - (zipListHeaderSize + X.length + 1) < S.length := by omega
    refine ⟨S.take (len - (zipListHeaderSize + X.length + 1)), _, _,
      (List.take_append_drop (len - (zipListHeaderSize + X.length + 1)) S).symm.trans
        (congrArg _ (List.drop_eq_getElem_cons hlt')), ?_⟩
    rw [List.length_take, Nat.min_eq_left hlt'.le]
  have hwrite₂ : write (zipHeader len tail n ++ X ++ (gap ++ b :: slack)) (len - 1) [zipEnd] =
      some (zipHeader len tail n ++ X ++ gap ++ zipEnd :: slack) := by
    have := write_append (zipHeader len tail n ++ X ++ gap) slack
      (show [zipEnd].length = [b].length from rfl)
    have hoff : (zipHeader len tail n ++ X ++ gap).length = len - 1 := by
      rw [List.length_append, List.length_append, length_zipHeader, hgap]
      omega
    rw [hoff] at this
    simpa using this
  refine ⟨gap, slack, hgap, ?_⟩
  rw [zipListResize, if_pos hlt, hresize, hwrite₁, Option.bind_some, hwrite₂]

end Header

/-! ## Reading an entry -/

section Read

variable {prev : ℕ} {e : ZipItem}

/-- The first byte of an entry tells the width of its `prevlen` field, and is not `ZIP_END`. -/
theorem exists_bytes_eq_cons (h : e.Ok prev) (X : List UInt8) :
    ∃ b rest, e.bytes prev ++ X = b :: rest ∧ b ≠ zipEnd ∧
      (if b.toNat < zipBigPrevlen then 1 else 5) = e.prevlenSize := by
  obtain ⟨hfit, -⟩ := h
  cases hlarge : e.large with
  | true =>
    refine ⟨UInt8.ofNat zipBigPrevlen, leBytes 4 prev ++ e.payload ++ X, ?_, by decide, ?_⟩
    · rw [ZipItem.bytes, hlarge, zipPrevlenField, if_pos rfl]
      rfl
    · rw [ZipItem.prevlenSize, hlarge]
      rfl
  | false =>
    rw [hlarge, if_neg Bool.false_ne_true, zipBigPrevlen] at hfit
    have hnat : (UInt8.ofNat prev).toNat = prev := by
      rw [UInt8.toNat_ofNat', Nat.mod_eq_of_lt (by omega)]
    refine ⟨UInt8.ofNat prev, e.payload ++ X, ?_, fun heq ↦ ?_, ?_⟩
    · rw [ZipItem.bytes, hlarge]
      rfl
    · have h255 : prev = 255 := by rw [← hnat, heq]; rfl
      omega
    · rw [hnat, ZipItem.prevlenSize, hlarge]
      exact if_pos hfit

variable (P R : List UInt8)

theorem zipDecodePrevlensize_bytes (h : e.Ok prev) :
    zipDecodePrevlensize (P ++ (e.bytes prev ++ R)) P.length = some e.prevlenSize := by
  obtain ⟨b, rest, heq, -, hsize⟩ := exists_bytes_eq_cons h R
  rw [zipDecodePrevlensize, heq, List.getElem?_append_right (Nat.le_refl _), Nat.sub_self,
    List.getElem?_cons_zero, Option.map_some, hsize]

theorem zipDecodePrevlen_bytes (h : e.Ok prev) :
    zipDecodePrevlen (P ++ (e.bytes prev ++ R)) P.length = some (e.prevlenSize, prev) := by
  rw [zipDecodePrevlen, zipDecodePrevlensize_bytes P R h, Option.bind_some]
  obtain ⟨hfit, -⟩ := h
  cases hlarge : e.large with
  | true =>
    rw [hlarge, if_pos rfl] at hfit
    have hsize : e.prevlenSize = 5 := by rw [ZipItem.prevlenSize, hlarge]; rfl
    have hread : read (P ++ (e.bytes prev ++ R)) (P.length + 1) 4 = some (leBytes 4 prev) := by
      have := read_append (P ++ [UInt8.ofNat zipBigPrevlen]) (leBytes 4 prev) (e.payload ++ R)
      rw [List.length_append, List.length_singleton, length_leBytes] at this
      rw [ZipItem.bytes, hlarge, zipPrevlenField, if_pos rfl]
      simpa using this
    rw [hsize, if_neg (by decide), hread, Option.map_some, leValue_leBytes (by exact hfit)]
  | false =>
    rw [hlarge, if_neg Bool.false_ne_true, zipBigPrevlen] at hfit
    have hsize : e.prevlenSize = 1 := by rw [ZipItem.prevlenSize, hlarge]; rfl
    rw [hsize, if_pos rfl, ZipItem.bytes, hlarge, zipPrevlenField, if_neg Bool.false_ne_true,
      List.append_assoc, List.singleton_append, List.getElem?_append_right (Nat.le_refl _),
      Nat.sub_self, List.getElem?_cons_zero, Option.map_some, UInt8.toNat_ofNat',
      Nat.mod_eq_of_lt (by omega)]

/-- The encoding is read off the payload, whatever follows it. -/
theorem zipDecodeLength_append {ptr : List UInt8} {encoding : UInt8} {r : ℕ × ℕ}
    (h : zipDecodeLength ptr encoding = some r) (C : List UInt8) :
    zipDecodeLength (ptr ++ C) encoding = some r := by
  have hget : ∀ {i : ℕ} {b : UInt8}, ptr[i]? = some b → (ptr ++ C)[i]? = some b := by
    intro i b hb
    rw [List.getElem?_append_left (List.getElem?_eq_some_iff.mp hb).1, hb]
  rw [zipDecodeLength] at h ⊢
  by_cases hstr : encoding < zipStrMask
  · rw [if_pos hstr] at h ⊢
    by_cases h06 : encoding = zipStr06b
    · rw [if_pos h06] at h ⊢
      obtain ⟨b, hb, rfl⟩ := Option.map_eq_some_iff.mp h
      rw [hget hb, Option.map_some]
    · rw [if_neg h06] at h ⊢
      by_cases h14 : encoding = zipStr14b
      · rw [if_pos h14] at h ⊢
        obtain ⟨b, hb, h⟩ := Option.bind_eq_some_iff.mp h
        obtain ⟨b', hb', rfl⟩ := Option.map_eq_some_iff.mp h
        rw [hget hb, Option.bind_some, hget hb', Option.map_some]
      · rw [if_neg h14] at h ⊢
        by_cases h32 : encoding = zipStr32b
        · rw [if_pos h32] at h ⊢
          obtain ⟨l, hl, rfl⟩ := Option.map_eq_some_iff.mp h
          rw [read_append_of_eq_some hl C, Option.map_some]
        · rw [if_neg h32] at h ⊢
          exact h
  · rw [if_neg hstr] at h ⊢
    exact h

/-- What `zip_entry` and `zip_entry_safe` decode at the start of an entry. -/
theorem exists_zipDecodeEntry (h : e.Ok prev) :
    ∃ cur, zipDecodeEntry (P ++ (e.bytes prev ++ R)) P.length = some cur ∧
      cur.prevrawlensize = e.prevlenSize ∧ cur.prevrawlen = prev ∧ cur.lensize ≠ 0 ∧
      cur.headersize + cur.len = e.rawLen ∧ cur.p = P.length ∧
      ∃ b, (P ++ (e.bytes prev ++ R))[P.length + e.prevlenSize]? = some b ∧
        cur.encoding = zipEntryEncoding b ∧
        ∃ ptr, zipDecodeLength ptr (zipEntryEncoding b) = some (cur.lensize, cur.len) := by
  obtain ⟨b, lensize, len, hhead, hdecode, hne, hlen⟩ := h.2
  have hfield : (zipPrevlenField e.large prev).length = e.prevlenSize := length_zipPrevlenField _ _
  have hdrop : (P ++ (e.bytes prev ++ R)).drop (P.length + e.prevlenSize) = e.payload ++ R := by
    rw [List.drop_length_add_append, ZipItem.bytes, List.append_assoc, ← hfield, List.drop_left]
  have hb : (P ++ (e.bytes prev ++ R))[P.length + e.prevlenSize]? = some b := by
    have hget : (e.payload ++ R)[0]? = e.payload[0]? :=
      List.getElem?_append_left (List.getElem?_eq_some_iff.mp hhead).1
    rwa [← hdrop, List.getElem?_drop, Nat.add_zero, hhead] at hget
  refine ⟨⟨e.prevlenSize, prev, lensize, len, zipEntryEncoding b, P.length⟩, ?_, rfl, rfl, hne, ?_,
    rfl, b, hb, rfl, e.payload, hdecode⟩
  · rw [zipDecodeEntry, zipDecodePrevlen_bytes P R h, Option.bind_some]
    simp only [hb, Option.bind_some, hdrop, zipDecodeLength_append hdecode R, Option.map_some]
  · simp only [ZlEntry.headersize, ZipItem.rawLen, hlen]
    omega

theorem exists_getElem?_bytes (h : e.Ok prev) :
    ∃ b, (P ++ (e.bytes prev ++ R))[P.length]? = some b ∧ b ≠ zipEnd := by
  obtain ⟨b, rest, heq, hne, -⟩ := exists_bytes_eq_cons h R
  refine ⟨b, ?_, hne⟩
  rw [heq, List.getElem?_append_right (Nat.le_refl _), Nat.sub_self, List.getElem?_cons_zero]

omit P R in
theorem getElem?_zipEnd (P S : List UInt8) : (P ++ zipEnd :: S)[P.length]? = some zipEnd := by
  rw [List.getElem?_append_right (Nat.le_refl _), Nat.sub_self, List.getElem?_cons_zero]

/-- `zip_entry` at the start of an entry. -/
theorem exists_zipEntry (h : e.Ok prev) :
    ∃ cur, zipEntry (P ++ (e.bytes prev ++ R)) P.length = some cur ∧
      cur.prevrawlensize = e.prevlenSize ∧ cur.prevrawlen = prev ∧
      cur.headersize + cur.len = e.rawLen ∧ cur.p = P.length := by
  obtain ⟨cur, hdecode, hsize, hprev, hne, hlen, hp, -⟩ := exists_zipDecodeEntry P R h
  refine ⟨cur, ?_, hsize, hprev, hlen, hp⟩
  rw [zipEntry, hdecode, Option.bind_some, if_neg hne]

end Read

/-! ## The checks -/

theorem zipOutOfRange_eq_false {zlbytes : ℕ} {p : ℤ} :
    zipOutOfRange zlbytes p = false ↔ (zipListHeaderSize : ℤ) ≤ p ∧ p ≤ (zlbytes : ℤ) - 1 := by
  rw [zipOutOfRange, Bool.or_eq_false_iff, decide_eq_false_iff_not, decide_eq_false_iff_not,
    not_lt, not_lt]

/-- The two macros agree on how many bytes an encoding takes. -/
theorem zipEncodingLenSize_eq {ptr : List UInt8} {encoding : UInt8} {lensize len : ℕ}
    (h : zipDecodeLength ptr encoding = some (lensize, len)) (hne : lensize ≠ 0) :
    zipEncodingLenSize encoding = lensize ∧ lensize ≤ 5 := by
  have hbad : some (0, 0) ≠ some (lensize, len) := fun heq ↦
    hne (congrArg Prod.fst (Option.some.inj heq)).symm
  have hone : ∀ {n : ℕ}, some (1, n) = some (lensize, len) → lensize = 1 := fun heq ↦
    (congrArg Prod.fst (Option.some.inj heq)).symm
  rw [zipDecodeLength] at h
  by_cases hstr : encoding < zipStrMask
  · rw [if_pos hstr] at h
    by_cases h06 : encoding = zipStr06b
    · rw [if_pos h06] at h
      obtain ⟨b, -, heq⟩ := Option.map_eq_some_iff.mp h
      obtain ⟨rfl, -⟩ := Prod.mk.inj heq
      rw [h06]
      decide
    · rw [if_neg h06] at h
      by_cases h14 : encoding = zipStr14b
      · rw [if_pos h14] at h
        obtain ⟨b, -, h⟩ := Option.bind_eq_some_iff.mp h
        obtain ⟨b', -, heq⟩ := Option.map_eq_some_iff.mp h
        obtain ⟨rfl, -⟩ := Prod.mk.inj heq
        rw [h14]
        decide
      · rw [if_neg h14] at h
        by_cases h32 : encoding = zipStr32b
        · rw [if_pos h32] at h
          obtain ⟨l, -, heq⟩ := Option.map_eq_some_iff.mp h
          obtain ⟨rfl, -⟩ := Prod.mk.inj heq
          rw [h32]
          decide
        · rw [if_neg h32] at h
          exact absurd h hbad
  · rw [if_neg hstr] at h
    split_ifs at h with h8 h16 h24 h32 h64 himm
    · rw [hone h, h8]
      decide
    · rw [hone h, h16]
      decide
    · rw [hone h, h24]
      decide
    · rw [hone h, h32]
      decide
    · rw [hone h, h64]
      decide
    · rw [hone h, zipEncodingLenSize, if_pos himm, ite_self]
      decide
    · exact absurd h hbad

/-- `assert(zip_entry_safe(...))` holds at the start of an entry that ends inside the list. -/
theorem exists_zipAssertEntrySafe {prev zlbytes : ℕ} {e : ZipItem} (P R : List UInt8) (h : e.Ok prev)
    (hlow : zipListHeaderSize ≤ P.length) (hfit : P.length + e.rawLen + 1 ≤ zlbytes) {v : Bool}
    (hprev : v = true → zipListHeaderSize + prev ≤ P.length) :
    ∃ cur, zipAssertEntrySafe (P ++ (e.bytes prev ++ R)) zlbytes P.length v = some cur ∧
      cur.prevrawlensize = e.prevlenSize ∧ cur.prevrawlen = prev ∧
      cur.headersize + cur.len = e.rawLen ∧ cur.p = P.length := by
  obtain ⟨cur, hdecode, hsize, hpr, hne, hlen, hp, b, hb, henc, ptr, hptr⟩ :=
    exists_zipDecodeEntry P R h
  have hpos := h.two_le
  have hsum : cur.prevrawlensize + cur.lensize + cur.len = e.rawLen := hlen
  have hcheck : zipCheckEntry zlbytes P.length v cur = some cur := by
    have hend : zipOutOfRange zlbytes (P.length + cur.headersize + cur.len) = false := by
      rw [zipOutOfRange_eq_false]
      omega
    have hback : (v && zipOutOfRange zlbytes ((P.length : ℤ) - cur.prevrawlen)) = false := by
      cases v with
      | false => rfl
      | true =>
        rw [Bool.true_and, zipOutOfRange_eq_false, hpr]
        have := hprev rfl
        omega
    rw [zipCheckEntry, hend, if_neg Bool.false_ne_true, hback, if_neg Bool.false_ne_true]
  refine ⟨cur, ?_, hsize, hpr, hlen, hp⟩
  rw [zipAssertEntrySafe, zipEntrySafe]
  by_cases hfast : zipListHeaderSize ≤ P.length ∧ P.length + 10 < zlbytes - 1
  · rw [if_pos hfast, hdecode, Option.map_some, if_neg hne, hcheck, Option.join_some]
  · obtain ⟨hlensize, hle⟩ := zipEncodingLenSize_eq hptr hne
    have hrange : zipOutOfRange zlbytes P.length = false := zipOutOfRange_eq_false.mpr (by omega)
    have hrange₁ : zipOutOfRange zlbytes (P.length + e.prevlenSize) = false :=
      zipOutOfRange_eq_false.mpr (by omega)
    have hrange₂ : zipOutOfRange zlbytes (P.length + e.prevlenSize + cur.lensize) = false :=
      zipOutOfRange_eq_false.mpr (by omega)
    have hvalid : cur.lensize ≠ zipEncodingSizeInvalid := by
      rw [zipEncodingSizeInvalid]
      omega
    rw [if_neg hfast, hrange, if_neg Bool.false_ne_true, zipDecodePrevlensize_bytes P R h,
      Option.bind_some, hrange₁, if_neg Bool.false_ne_true, hb, Option.bind_some]
    simp only [hlensize]
    rw [if_neg hvalid, hrange₂, if_neg Bool.false_ne_true, hdecode, Option.map_some, hcheck,
      Option.join_some]

end LatteC
