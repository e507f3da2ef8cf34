import LatteC.Foundation.Bits
import LatteC.Foundation.Block

/-!
# The entries of a listpack

`src/listpack/listpack.c`, the part about one entry. An entry is the *payload*, whose first byte
tells which of nine encodings it has, followed by the *backlen*: the length of the payload in base
128, most significant digit first, every digit but the first one marked. Reading it backwards
leads from the end of an entry to its start.

A `unsigned char*` into a block is given here by the bytes from there on; reading past the end is
a fault, `none`.
-/

namespace LatteC

open Block

/-- An element, as it is stored. -/
inductive LpElement where
  | str (s : List UInt8)
  | int (v : ℤ)
  deriving DecidableEq

/-- A value of type `int64_t`. -/
def IsInt64 (v : ℤ) : Prop := -2 ^ 63 ≤ v ∧ v < 2 ^ 63

instance (v : ℤ) : Decidable (IsInt64 v) := inferInstanceAs (Decidable (_ ∧ _))

/-! ## The first byte -/

/-- `LP_EOF`. -/
def lpEof : UInt8 := 0xFF

/-- `LP_ENCODING_IS_7BIT_UINT`. -/
def lpEncodingIs7bitUint (byte : UInt8) : Bool := byte &&& 0x80 == 0

/-- `LP_ENCODING_IS_6BIT_STR`. -/
def lpEncodingIs6bitStr (byte : UInt8) : Bool := byte &&& 0xC0 == 0x80

/-- `LP_ENCODING_IS_13BIT_INT`. -/
def lpEncodingIs13bitInt (byte : UInt8) : Bool := byte &&& 0xE0 == 0xC0

/-- `LP_ENCODING_IS_12BIT_STR`. -/
def lpEncodingIs12bitStr (byte : UInt8) : Bool := byte &&& 0xF0 == 0xE0

/-- `LP_ENCODING_IS_16BIT_INT`. -/
def lpEncodingIs16bitInt (byte : UInt8) : Bool := byte == 0xF1

/-- `LP_ENCODING_IS_24BIT_INT`. -/
def lpEncodingIs24bitInt (byte : UInt8) : Bool := byte == 0xF2

/-- `LP_ENCODING_IS_32BIT_INT`. -/
def lpEncodingIs32bitInt (byte : UInt8) : Bool := byte == 0xF3

/-- `LP_ENCODING_IS_64BIT_INT`. -/
def lpEncodingIs64bitInt (byte : UInt8) : Bool := byte == 0xF4

/-- `LP_ENCODING_IS_32BIT_STR`. -/
def lpEncodingIs32bitStr (byte : UInt8) : Bool := byte == 0xF0

/-- `LP_ENCODING_6BIT_STR_LEN`. -/
def lpEncoding6bitStrLen (byte : UInt8) : ℕ := (byte &&& 0x3F).toNat

/-- `LP_ENCODING_12BIT_STR_LEN`. -/
def lpEncoding12bitStrLen (byte next : UInt8) : ℕ := (byte &&& 0xF).toNat * 2 ^ 8 + next.toNat

/-- `list_pack_current_encode_size_unsafe`. -/
def listPackCurrentEncodeSizeUnsafe : (p : List UInt8) → Option ℕ
  | [] => none
  | b :: bs =>
    if lpEncodingIs7bitUint b then some 1
    else if lpEncodingIs6bitStr b then some (1 + lpEncoding6bitStrLen b)
    else if lpEncodingIs13bitInt b then some 2
    else if lpEncodingIs16bitInt b then some 3
    else if lpEncodingIs24bitInt b then some 4
    else if lpEncodingIs32bitInt b then some 5
    else if lpEncodingIs64bitInt b then some 9
    else if lpEncodingIs12bitStr b then bs.head?.map fun b' ↦ 2 + lpEncoding12bitStrLen b b'
    -- the sum is of type `uint32_t`
    else if lpEncodingIs32bitStr b then (read bs 0 4).map fun l ↦ (5 + leValue l) % 2 ^ 32
    else if b = lpEof then some 1
    else some 0

/-- `list_pack_current_encode_size_bytes`. -/
def listPackCurrentEncodeSizeBytes (encoding : UInt8) : ℕ :=
  if lpEncodingIs7bitUint encoding then 1
  else if lpEncodingIs6bitStr encoding then 1
  else if lpEncodingIs13bitInt encoding then 1
  else if lpEncodingIs16bitInt encoding then 1
  else if lpEncodingIs24bitInt encoding then 1
  else if lpEncodingIs32bitInt encoding then 1
  else if lpEncodingIs64bitInt encoding then 1
  else if lpEncodingIs12bitStr encoding then 2
  else if lpEncodingIs32bitStr encoding then 5
  else if encoding = lpEof then 1
  else 0

/-! ## Writing a payload -/

/-- `if (v < 0) v = (1 << w) + v`. -/
def lpUnsigned (w : ℕ) (v : ℤ) : ℕ := (if v < 0 then 2 ^ w + v else v).toNat

/-- `list_pack_encode_integer_get_type`: the bytes it leaves in `intenc`, `enclen` of them. -/
def listPackEncodeIntegerGetType (v : ℤ) : List UInt8 :=
  if 0 ≤ v ∧ v ≤ 127 then [UInt8.ofNat v.toNat]
  else if -4096 ≤ v ∧ v ≤ 4095 then
    [UInt8.ofNat (lpUnsigned 13 v / 2 ^ 8 ||| 0xC0), UInt8.ofNat (lpUnsigned 13 v % 256)]
  else if -32768 ≤ v ∧ v ≤ 32767 then 0xF1 :: leBytes 2 (lpUnsigned 16 v)
  else if -8388608 ≤ v ∧ v ≤ 8388607 then 0xF2 :: leBytes 3 (lpUnsigned 24 v)
  else if -2147483648 ≤ v ∧ v ≤ 2147483647 then 0xF3 :: leBytes 4 (lpUnsigned 32 v)
  else 0xF4 :: leBytes 8 (lpUnsigned 64 v)

/-- `list_pack_encode_string`. -/
def listPackEncodeString (s : List UInt8) : List UInt8 :=
  let len := s.length
  if len < 64 then UInt8.ofNat (len ||| 0x80) :: s
  else if len < 4096 then
    UInt8.ofNat (len / 2 ^ 8 ||| 0xE0) :: UInt8.ofNat (len % 256) :: s
  else 0xF0 :: leBytes 4 len ++ s

theorem length_listPackEncodeString (s : List UInt8) : (listPackEncodeString s).length =
    if s.length < 64 then 1 + s.length else if s.length < 4096 then 2 + s.length
    else 5 + s.length := by
  rw [listPackEncodeString]
  split_ifs
  · rw [List.length_cons, Nat.add_comm]
  · rw [List.length_cons, List.length_cons]
    omega
  · rw [List.cons_append, List.length_cons, List.length_append, length_leBytes]
    omega

/-! ## Reading a payload -/

/-- The end of `list_pack_get_with_buffer`: from the unsigned to the signed value. -/
def lpSigned (uval negstart negmax : ℕ) : ℤ :=
  if negstart ≤ uval then -((negmax - uval : ℕ) : ℤ) - 1 else uval

/-- `list_pack_get_with_buffer` without an `intbuf`. A string is returned as a pointer and a length:
here the bytes these describe. -/
def listPackGet : (p : List UInt8) → Option LpElement
  | [] => none
  | b :: bs =>
    if lpEncodingIs6bitStr b then (read bs 0 (lpEncoding6bitStrLen b)).map .str
    else if lpEncodingIs12bitStr b then
      bs.head?.bind fun b' ↦ (read bs 1 (lpEncoding12bitStrLen b b')).map .str
    else if lpEncodingIs32bitStr b then
      (read bs 0 4).bind fun l ↦ (read bs 4 (leValue l)).map .str
    else if lpEncodingIs7bitUint b then some (.int (lpSigned (b &&& 0x7f).toNat (2 ^ 64 - 1) 0))
    else if lpEncodingIs13bitInt b then
      bs.head?.map fun b' ↦
        .int (lpSigned ((b &&& 0x1f).toNat * 2 ^ 8 + b'.toNat) (2 ^ 12) 8191)
    else if lpEncodingIs16bitInt b then
      (read bs 0 2).map fun l ↦ .int (lpSigned (leValue l) (2 ^ 15) (2 ^ 16 - 1))
    else if lpEncodingIs24bitInt b then
      (read bs 0 3).map fun l ↦ .int (lpSigned (leValue l) (2 ^ 23) (2 ^ 24 - 1))
    else if lpEncodingIs32bitInt b then
      (read bs 0 4).map fun l ↦ .int (lpSigned (leValue l) (2 ^ 31) (2 ^ 32 - 1))
    else if lpEncodingIs64bitInt b then
      (read bs 0 8).map fun l ↦ .int (lpSigned (leValue l) (2 ^ 63) (2 ^ 64 - 1))
    else some (.int (lpSigned (12345678900000000 + b.toNat) (2 ^ 64 - 1) 0))

/-! ## The backlen -/

/-- `list_pack_encode_backlen_bytes`. -/
def listPackEncodeBacklenBytes (l : ℕ) : ℕ :=
  if l ≤ 127 then 1 else if l < 16383 then 2 else if l < 2097151 then 3
  else if l < 268435455 then 4 else 5

/-- `list_pack_encode_backlen`: the bytes it leaves in `buf`. -/
def listPackEncodeBacklen (l : ℕ) : List UInt8 :=
  if l ≤ 127 then [UInt8.ofNat l]
  else if l < 16383 then [UInt8.ofNat (l / 2 ^ 7), UInt8.ofNat (l % 128 ||| 128)]
  else if l < 2097151 then
    [UInt8.ofNat (l / 2 ^ 14), UInt8.ofNat (l / 2 ^ 7 % 128 ||| 128), UInt8.ofNat (l % 128 ||| 128)]
  else if l < 268435455 then
    [UInt8.ofNat (l / 2 ^ 21), UInt8.ofNat (l / 2 ^ 14 % 128 ||| 128),
      UInt8.ofNat (l / 2 ^ 7 % 128 ||| 128), UInt8.ofNat (l % 128 ||| 128)]
  else
    [UInt8.ofNat (l / 2 ^ 28), UInt8.ofNat (l / 2 ^ 21 % 128 ||| 128),
      UInt8.ofNat (l / 2 ^ 14 % 128 ||| 128), UInt8.ofNat (l / 2 ^ 7 % 128 ||| 128),
      UInt8.ofNat (l % 128 ||| 128)]

/-- The loop of `list_pack_decode_backlen`, over the bytes from `p` backwards; `n` is the number of
bytes it may still read. -/
def lpDecodeBacklenFrom : (n shift val : ℕ) → List UInt8 → Option ℕ
  | 0, _, _, _ => some (2 ^ 64 - 1)
  | _ + 1, _, _, [] => none
  | n + 1, shift, val, b :: bs =>
    let val := val ||| (b &&& 127).toNat <<< shift
    if b &&& 128 == 0 then some val else lpDecodeBacklenFrom n (shift + 7) val bs

/-- `list_pack_decode_backlen`, at offset `p` of a block. -/
def listPackDecodeBacklen (lp : List UInt8) (p : ℕ) : Option ℕ :=
  if p < lp.length then lpDecodeBacklenFrom 5 0 0 (lp.take (p + 1)).reverse else none

/-! ## Round trips -/

/-- The payload of an element. -/
def lpPayload : LpElement → List UInt8
  | .str s => listPackEncodeString s
  | .int v => listPackEncodeIntegerGetType v

/-- The elements the format can hold. -/
def LpElement.Valid : LpElement → Prop
  | .str s => s.length + 5 < 2 ^ 32
  | .int v => IsInt64 v

instance : ∀ e : LpElement, Decidable e.Valid
  | .str s => inferInstanceAs (Decidable (s.length + 5 < 2 ^ 32))
  | .int v => inferInstanceAs (Decidable (IsInt64 v))

/-- What the functions that look at the first byte see of a payload. -/
structure LpReadable (payload : List UInt8) (e : LpElement) : Prop where
  size : ∀ rest, listPackCurrentEncodeSizeUnsafe (payload ++ rest) = some payload.length
  get : ∀ rest, listPackGet (payload ++ rest) = some e
  head : ∃ b bs, payload = b :: bs ∧ b ≠ lpEof ∧ listPackCurrentEncodeSizeBytes b ≠ 0 ∧
    listPackCurrentEncodeSizeBytes b ≤ payload.length

private theorem byte_7bitUint : ∀ n < 128, lpEncodingIs7bitUint (UInt8.ofNat n) = true ∧
    lpEncodingIs6bitStr (UInt8.ofNat n) = false ∧ lpEncodingIs12bitStr (UInt8.ofNat n) = false ∧
    lpEncodingIs32bitStr (UInt8.ofNat n) = false ∧ (UInt8.ofNat n &&& 0x7f).toNat = n ∧
    UInt8.ofNat n ≠ lpEof := by
  decide

private theorem byte_6bitStr : ∀ n < 64, lpEncodingIs7bitUint (UInt8.ofNat (n ||| 0x80)) = false ∧
    lpEncodingIs6bitStr (UInt8.ofNat (n ||| 0x80)) = true ∧
    lpEncoding6bitStrLen (UInt8.ofNat (n ||| 0x80)) = n ∧
    UInt8.ofNat (n ||| 0x80) ≠ lpEof := by
  decide

private theorem byte_12bitStr : ∀ n < 16, lpEncodingIs7bitUint (UInt8.ofNat (n ||| 0xE0)) = false ∧
    lpEncodingIs6bitStr (UInt8.ofNat (n ||| 0xE0)) = false ∧
    lpEncodingIs13bitInt (UInt8.ofNat (n ||| 0xE0)) = false ∧
    lpEncodingIs16bitInt (UInt8.ofNat (n ||| 0xE0)) = false ∧
    lpEncodingIs24bitInt (UInt8.ofNat (n ||| 0xE0)) = false ∧
    lpEncodingIs32bitInt (UInt8.ofNat (n ||| 0xE0)) = false ∧
    lpEncodingIs64bitInt (UInt8.ofNat (n ||| 0xE0)) = false ∧
    lpEncodingIs12bitStr (UInt8.ofNat (n ||| 0xE0)) = true ∧
    (UInt8.ofNat (n ||| 0xE0) &&& 0xF).toNat = n ∧ UInt8.ofNat (n ||| 0xE0) ≠ lpEof := by
  decide

private theorem byte_13bitInt : ∀ n < 32, lpEncodingIs7bitUint (UInt8.ofNat (n ||| 0xC0)) = false ∧
    lpEncodingIs6bitStr (UInt8.ofNat (n ||| 0xC0)) = false ∧
    lpEncodingIs12bitStr (UInt8.ofNat (n ||| 0xC0)) = false ∧
    lpEncodingIs32bitStr (UInt8.ofNat (n ||| 0xC0)) = false ∧
    lpEncodingIs13bitInt (UInt8.ofNat (n ||| 0xC0)) = true ∧
    (UInt8.ofNat (n ||| 0xC0) &&& 0x1f).toNat = n ∧ UInt8.ofNat (n ||| 0xC0) ≠ lpEof := by
  decide

private theorem read_zero_append {α : Type*} (X C : List α) : read (X ++ C) 0 X.length = some X :=
  read_append [] X C

private theorem readable_6bitStr {s : List UInt8} (h : s.length < 64) :
    LpReadable (UInt8.ofNat (s.length ||| 0x80) :: s) (.str s) := by
  obtain ⟨h7, h6, hlen, heof⟩ := byte_6bitStr s.length h
  generalize UInt8.ofNat (s.length ||| 0x80) = b at h7 h6 hlen heof ⊢
  refine ⟨fun rest ↦ ?_, fun rest ↦ ?_, b, s, rfl, heof, ?_⟩
  · simp [listPackCurrentEncodeSizeUnsafe, h7, h6, hlen, Nat.add_comm]
  · simp [listPackGet, h6, hlen, read_zero_append]
  · simp [listPackCurrentEncodeSizeBytes, h7, h6]

private theorem readable_12bitStr {s : List UInt8} (h : s.length < 4096) :
    LpReadable (UInt8.ofNat (s.length / 2 ^ 8 ||| 0xE0) :: UInt8.ofNat (s.length % 256) :: s)
      (.str s) := by
  obtain ⟨h7, h6, h13, h16, h24, h32, h64, h12, hlow, heof⟩ :=
    byte_12bitStr (s.length / 2 ^ 8) (by omega)
  have hlen : lpEncoding12bitStrLen (UInt8.ofNat (s.length / 2 ^ 8 ||| 0xE0))
      (UInt8.ofNat (s.length % 256)) = s.length := by
    rw [lpEncoding12bitStrLen, hlow, UInt8.toNat_ofNat']
    omega
  generalize UInt8.ofNat (s.length / 2 ^ 8 ||| 0xE0) = b at *
  generalize UInt8.ofNat (s.length % 256) = b' at *
  refine ⟨fun rest ↦ ?_, fun rest ↦ ?_, b, b' :: s, rfl, heof, ?_⟩
  · simp only [listPackCurrentEncodeSizeUnsafe, List.cons_append, h7, h6, h13, h16, h24, h32, h64,
      h12, List.head?_cons, Option.map_some, hlen, List.length_cons, Bool.false_eq_true, if_false,
      if_true, Option.some.injEq]
    omega
  · have hread : read (b' :: (s ++ rest)) 1 s.length = some s := read_append [b'] s rest
    simp [listPackGet, h6, h12, hlen, hread]
  · simp [listPackCurrentEncodeSizeBytes, h7, h6, h13, h16, h24, h32, h64, h12]

private theorem readable_32bitStr {s : List UInt8} (h : s.length + 5 < 2 ^ 32) :
    LpReadable (0xF0 :: leBytes 4 s.length ++ s) (.str s) := by
  have hval : leValue (leBytes 4 s.length) = s.length := leValue_leBytes (by omega)
  have hhead : ∀ rest, read (leBytes 4 s.length ++ (s ++ rest)) 0 4 = some (leBytes 4 s.length) := by
    intro rest
    have := read_zero_append (leBytes 4 s.length) (s ++ rest)
    rwa [length_leBytes] at this
  have htail : ∀ rest, read (leBytes 4 s.length ++ (s ++ rest)) 4 s.length = some s := by
    intro rest
    have := read_append (leBytes 4 s.length) s rest
    rwa [length_leBytes, List.append_assoc] at this
  have hsize : ∀ bs, listPackCurrentEncodeSizeUnsafe (0xF0 :: bs) =
      (read bs 0 4).map fun l ↦ (5 + leValue l) % 2 ^ 32 := fun _ ↦ rfl
  have hget : ∀ bs, listPackGet (0xF0 :: bs) =
      (read bs 0 4).bind fun l ↦ (read bs 4 (leValue l)).map .str := fun _ ↦ rfl
  refine ⟨fun rest ↦ ?_, fun rest ↦ ?_, 0xF0, leBytes 4 s.length ++ s, rfl, by decide, by decide,
    ?_⟩
  · rw [List.cons_append, List.cons_append, List.append_assoc, hsize, hhead, Option.map_some, hval,
      List.length_cons, List.length_append, length_leBytes, Nat.mod_eq_of_lt (by omega)]
    congr 1
    omega
  · rw [List.cons_append, List.cons_append, List.append_assoc, hget, hhead, Option.bind_some, hval,
      htail, Option.map_some]
  · rw [List.cons_append, List.length_cons, List.length_append, length_leBytes,
      show listPackCurrentEncodeSizeBytes 0xF0 = 5 from rfl]
    omega

/-- Two's complement, there and back. -/
theorem lpSigned_lpUnsigned {k : ℕ} {v : ℤ} (hlo : -2 ^ k ≤ v) (hhi : v < 2 ^ k) :
    lpUnsigned (k + 1) v < 2 ^ (k + 1) ∧
      lpSigned (lpUnsigned (k + 1) v) (2 ^ k) (2 ^ (k + 1) - 1) = v := by
  have hpow : (2 : ℤ) ^ (k + 1) = 2 * 2 ^ k := by ring
  have hcast : ((2 ^ k : ℕ) : ℤ) = 2 ^ k := by push_cast; rfl
  have hpow' : (2 : ℕ) ^ (k + 1) = 2 * 2 ^ k := by ring
  rw [lpUnsigned, lpSigned, hpow, hpow']
  generalize (2 : ℤ) ^ k = N at *
  generalize (2 : ℕ) ^ k = M at *
  split_ifs <;> omega

/-- An integer of `w + 1` bytes behind its marker. -/
private theorem readable_int {b : UInt8} {w : ℕ} {v : ℤ}
    (hsize : ∀ bs, listPackCurrentEncodeSizeUnsafe (b :: bs) = some (w + 2))
    (hget : ∀ bs, listPackGet (b :: bs) = (read bs 0 (w + 1)).map fun l ↦
      .int (lpSigned (leValue l) (2 ^ (8 * w + 7)) (2 ^ (8 * w + 8) - 1)))
    (heof : b ≠ lpEof) (hbytes : listPackCurrentEncodeSizeBytes b = 1)
    (hlo : -2 ^ (8 * w + 7) ≤ v) (hhi : v < 2 ^ (8 * w + 7)) :
    LpReadable (b :: leBytes (w + 1) (lpUnsigned (8 * w + 8) v)) (.int v) := by
  obtain ⟨hlt, hsigned⟩ := lpSigned_lpUnsigned hlo hhi
  have hval : leValue (leBytes (w + 1) (lpUnsigned (8 * w + 8) v)) = lpUnsigned (8 * w + 8) v := by
    refine leValue_leBytes ?_
    rwa [show (256 : ℕ) = 2 ^ 8 from rfl, ← pow_mul, Nat.mul_add, Nat.mul_one]
  refine ⟨fun rest ↦ ?_, fun rest ↦ ?_, b, _, rfl, heof, ?_⟩
  · rw [List.cons_append, hsize, List.length_cons, length_leBytes]
  · have hread := read_zero_append (leBytes (w + 1) (lpUnsigned (8 * w + 8) v)) rest
    rw [length_leBytes] at hread
    rw [List.cons_append, hget, hread, Option.map_some, hval, hsigned]
  · rw [hbytes, List.length_cons]
    omega

private theorem readable_7bitUint {v : ℤ} (hlo : 0 ≤ v) (hhi : v ≤ 127) :
    LpReadable [UInt8.ofNat v.toNat] (.int v) := by
  obtain ⟨h7, h6, h12, h32, hlow, heof⟩ := byte_7bitUint v.toNat (by omega)
  generalize UInt8.ofNat v.toNat = b at *
  refine ⟨fun rest ↦ ?_, fun rest ↦ ?_, b, [], rfl, heof, ?_⟩
  · simp [listPackCurrentEncodeSizeUnsafe, h7]
  · have hsigned : lpSigned v.toNat (2 ^ 64 - 1) 0 = v := by
      rw [lpSigned, if_neg (by omega)]
      omega
    simp only [listPackGet, List.cons_append, h6, h12, h32, h7, hlow, hsigned, Bool.false_eq_true,
      if_false, if_true]
  · simp [listPackCurrentEncodeSizeBytes, h7]

private theorem readable_13bitInt {v : ℤ} (hlo : -4096 ≤ v) (hhi : v ≤ 4095) :
    LpReadable [UInt8.ofNat (lpUnsigned 13 v / 2 ^ 8 ||| 0xC0), UInt8.ofNat (lpUnsigned 13 v % 256)]
      (.int v) := by
  obtain ⟨hlt, hsigned⟩ : lpUnsigned 13 v < 2 ^ 13 ∧
      lpSigned (lpUnsigned 13 v) (2 ^ 12) 8191 = v :=
    lpSigned_lpUnsigned (k := 12) (by omega) (by omega)
  obtain ⟨h7, h6, h12, h32, h13, hlow, heof⟩ := byte_13bitInt (lpUnsigned 13 v / 2 ^ 8) (by omega)
  have hval : (UInt8.ofNat (lpUnsigned 13 v / 2 ^ 8 ||| 0xC0) &&& 0x1f).toNat * 2 ^ 8 +
      (UInt8.ofNat (lpUnsigned 13 v % 256)).toNat = lpUnsigned 13 v := by
    rw [hlow, UInt8.toNat_ofNat']
    omega
  generalize UInt8.ofNat (lpUnsigned 13 v / 2 ^ 8 ||| 0xC0) = b at *
  generalize UInt8.ofNat (lpUnsigned 13 v % 256) = b' at *
  refine ⟨fun rest ↦ ?_, fun rest ↦ ?_, b, [b'], rfl, heof, ?_⟩
  · simp [listPackCurrentEncodeSizeUnsafe, h7, h6, h13]
  · simp only [listPackGet, List.cons_append, h6, h12, h32, h7, h13, List.head?_cons,
      Option.map_some, Bool.false_eq_true, if_false, if_true, hval,
      hsigned]
  · simp [listPackCurrentEncodeSizeBytes, h7, h6, h13]

/-- **Every element is read back** from its payload, whatever stands behind it. -/
theorem lpPayload_readable {e : LpElement} (h : e.Valid) : LpReadable (lpPayload e) e := by
  cases e with
  | str s =>
    rw [lpPayload, listPackEncodeString]
    split_ifs with h64 h4096
    · exact readable_6bitStr h64
    · exact readable_12bitStr h4096
    · exact readable_32bitStr h
  | int v =>
    obtain ⟨hlo, hhi⟩ : -2 ^ 63 ≤ v ∧ v < 2 ^ 63 := h
    rw [lpPayload, listPackEncodeIntegerGetType]
    split_ifs with h7 h13 h16 h24 h32
    · exact readable_7bitUint h7.1 h7.2
    · exact readable_13bitInt h13.1 h13.2
    · exact readable_int (w := 1) (fun _ ↦ rfl) (fun _ ↦ rfl) (by decide) rfl (by omega) (by omega)
    · exact readable_int (w := 2) (fun _ ↦ rfl) (fun _ ↦ rfl) (by decide) rfl (by omega) (by omega)
    · exact readable_int (w := 3) (fun _ ↦ rfl) (fun _ ↦ rfl) (by decide) rfl (by omega) (by omega)
    · exact readable_int (w := 7) (fun _ ↦ rfl) (fun _ ↦ rfl) (by decide) rfl (by omega) (by omega)

theorem length_listPackEncodeBacklen (l : ℕ) :
    (listPackEncodeBacklen l).length = listPackEncodeBacklenBytes l := by
  rw [listPackEncodeBacklen, listPackEncodeBacklenBytes]
  split_ifs <;> rfl

theorem listPackEncodeBacklenBytes_pos (l : ℕ) : 0 < listPackEncodeBacklenBytes l := by
  rw [listPackEncodeBacklenBytes]
  split_ifs <;> decide

theorem listPackEncodeBacklenBytes_le (l : ℕ) : listPackEncodeBacklenBytes l ≤ 5 := by
  rw [listPackEncodeBacklenBytes]
  split_ifs <;> decide

private theorem byte_marked : ∀ d < 128, (UInt8.ofNat (d ||| 128) &&& 127).toNat = d ∧
    (UInt8.ofNat (d ||| 128) &&& 128 == 0) = false := by
  decide

private theorem byte_unmarked : ∀ d < 128, (UInt8.ofNat d &&& 127).toNat = d ∧
    (UInt8.ofNat d &&& 128 == 0) = true := by
  decide

private theorem lpDecodeBacklenFrom_marked {n shift val d : ℕ} (bs : List UInt8) (hd : d < 128)
    (h : val < 2 ^ shift) : lpDecodeBacklenFrom (n + 1) shift val (UInt8.ofNat (d ||| 128) :: bs) =
      lpDecodeBacklenFrom n (shift + 7) (val + d * 2 ^ shift) bs := by
  obtain ⟨hlow, hbit⟩ := byte_marked d hd
  rw [lpDecodeBacklenFrom, hlow, hbit, Bits.or_shiftLeft h d]
  rfl

private theorem lpDecodeBacklenFrom_unmarked {n shift val d : ℕ} (bs : List UInt8) (hd : d < 128)
    (h : val < 2 ^ shift) : lpDecodeBacklenFrom (n + 1) shift val (UInt8.ofNat d :: bs) =
      some (val + d * 2 ^ shift) := by
  obtain ⟨hlow, hbit⟩ := byte_unmarked d hd
  rw [lpDecodeBacklenFrom, hlow, hbit, Bits.or_shiftLeft h d]
  rfl

/-- **The backlen is read back** from its end. -/
theorem lpDecodeBacklenFrom_encode {l : ℕ} (h : l < 2 ^ 35) (rest : List UInt8) :
    lpDecodeBacklenFrom 5 0 0 ((listPackEncodeBacklen l).reverse ++ rest) = some l := by
  rw [listPackEncodeBacklen]
  split_ifs with h1 h2 h3 h4 <;> simp only [List.reverse_cons, List.reverse_nil, List.nil_append,
    List.cons_append]
  · rw [lpDecodeBacklenFrom_unmarked _ (by omega) (by omega)]
    congr 1
    omega
  · rw [lpDecodeBacklenFrom_marked _ (by omega) (by omega),
      lpDecodeBacklenFrom_unmarked _ (by omega) (by omega)]
    congr 1
    omega
  · rw [lpDecodeBacklenFrom_marked _ (by omega) (by omega),
      lpDecodeBacklenFrom_marked _ (by omega) (by omega),
      lpDecodeBacklenFrom_unmarked _ (by omega) (by omega)]
    congr 1
    omega
  · rw [lpDecodeBacklenFrom_marked _ (by omega) (by omega),
      lpDecodeBacklenFrom_marked _ (by omega) (by omega),
      lpDecodeBacklenFrom_marked _ (by omega) (by omega),
      lpDecodeBacklenFrom_unmarked _ (by omega) (by omega)]
    congr 1
    omega
  · rw [lpDecodeBacklenFrom_marked _ (by omega) (by omega),
      lpDecodeBacklenFrom_marked _ (by omega) (by omega),
      lpDecodeBacklenFrom_marked _ (by omega) (by omega),
      lpDecodeBacklenFrom_marked _ (by omega) (by omega),
      lpDecodeBacklenFrom_unmarked _ (by omega) (by omega)]
    congr 1
    omega

end LatteC
