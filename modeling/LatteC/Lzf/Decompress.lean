import LatteC.Foundation.Block
import LatteC.Foundation.Lz77
import LatteC.Sds.Varint

/-!
# Decompression

`lzf_decompress` of `src/lzf/lzf_d.c`, with `CHECK_INPUT` and without `lzf_movsb`, as `src/lzf/lzfP.h` has it.

Pointers are offsets into their buffers. A read behind the input, a write behind the output or a read of the
output in front of its start has no value.
-/

namespace LatteC

open Block

/-- The `errno` of `lzf_decompress`. -/
inductive LzfErrno
  | e2big
  | einval
  deriving DecidableEq

/-- What a call leaves: the number it returns, `errno` if it is set, and the output buffer. -/
structure LzfReturn where
  size : ℕ
  errno : Option LzfErrno
  out : List UInt8
  deriving DecidableEq

/-- The two pointers and the output buffer at the top of the loop. -/
structure LzfState where
  ip : ℕ
  op : ℕ
  out : List UInt8

/-- `*op++ = *ref++`, `n` times. -/
def lzfCopyOctets : (n : ℕ) → (out : List UInt8) → (op ref : ℕ) → Option (List UInt8)
  | 0, out, _, _ => some out
  | n + 1, out, op, ref =>
    out[ref]?.bind fun b ↦ (write out op [b]).bind fun out ↦ lzfCopyOctets n out (op + 1) (ref + 1)

/-- The `switch (len)` of a back reference. Up to 9 it is octet by octet, and above that a `memcpy` where the
areas are disjoint. -/
def lzfCopyRef (len : ℕ) (out : List UInt8) (op ref : ℕ) : Option (List UInt8) :=
  if len ≤ 9 then lzfCopyOctets (len + 2) out op ref
  else if ref + (len + 2) ≤ op then (read out ref (len + 2)).bind (write out op)
  else lzfCopyOctets (len + 2) out op ref

/-- A literal run, behind its `ctrl`. -/
def lzfLiteral (inp : List UInt8) (s : LzfState) (ctrl : ℕ) : Option (LzfErrno ⊕ LzfState) :=
  if s.out.length < s.op + ctrl then some (.inl .e2big)
  else if inp.length < s.ip + ctrl then some (.inl .einval)
  else
    (read inp s.ip ctrl).bind fun bytes ↦
      (write s.out s.op bytes).map fun out ↦ .inr ⟨s.ip + ctrl, s.op + ctrl, out⟩

/-- The length of a back reference and the pointer behind it: `7` says that a byte more is to be added. -/
def lzfRefLen (inp : List UInt8) (ip len : ℕ) : Option (LzfErrno ⊕ ℕ × ℕ) :=
  if len = 7 then
    inp[ip]?.map fun b ↦ if inp.length ≤ ip + 1 then .inl .einval else .inr (len + b.toNat, ip + 1)
  else some (.inr (len, ip))

/-- The end of a back reference, from its last byte on. -/
def lzfRef (inp : List UInt8) (s : LzfState) (ref : ℤ) (len : ℕ) : Option (LzfErrno ⊕ LzfState) :=
  inp[s.ip]?.bind fun b ↦
    if s.out.length < s.op + len + 2 then some (.inl .e2big)
    else if ref - b.toNat < 0 then some (.inl .einval)
    else
      (lzfCopyRef len s.out s.op (ref - b.toNat).toNat).map fun out ↦
        .inr ⟨s.ip + 1, s.op + (len + 2), out⟩

/-- A back reference, behind its `ctrl`. -/
def lzfBackReference (inp : List UInt8) (s : LzfState) (ctrl : ℕ) : Option (LzfErrno ⊕ LzfState) :=
  if inp.length ≤ s.ip then some (.inl .einval)
  else
    (lzfRefLen inp s.ip (ctrl / 32)).bind fun r ↦
      match r with
      | .inl e => some (.inl e)
      | .inr (len, ip) => lzfRef inp { s with ip := ip } (s.op - (ctrl % 32) * 256 - 1) len

/-- One round of the loop. -/
def lzfDecompressStep (inp : List UInt8) (s : LzfState) : Option (LzfErrno ⊕ LzfState) :=
  inp[s.ip]?.bind fun b ↦
    if b.toNat < 32 then lzfLiteral inp { s with ip := s.ip + 1 } (b.toNat + 1)
    else lzfBackReference inp { s with ip := s.ip + 1 } b.toNat

/-- The loop. Every round reads a byte at least, so that `fuel` for the bytes that are left is enough. -/
def lzfDecompressLoop (inp : List UInt8) : (fuel : ℕ) → LzfState → Option LzfReturn
  | 0, s => if s.ip < inp.length then none else some ⟨s.op, none, s.out⟩
  | fuel + 1, s =>
    if s.ip < inp.length then
      (lzfDecompressStep inp s).bind fun r ↦
        match r with
        | .inl e => some ⟨0, some e, s.out⟩
        | .inr s => lzfDecompressLoop inp fuel s
    else some ⟨s.op, none, s.out⟩

/-- `lzf_decompress`. -/
def lzfDecompress (inp out : List UInt8) : Option LzfReturn := lzfDecompressLoop inp inp.length ⟨0, 0, out⟩

/-! ## The format -/

/-- What a token can say: 1 to 32 literals, or 3 to 264 bytes from 1 to 8192 back. -/
def LzfToken.Fits : Lz77.Token UInt8 → Prop
  | .lit xs => 1 ≤ xs.length ∧ xs.length ≤ 32
  | .ref d n => 1 ≤ d ∧ d ≤ 8192 ∧ 3 ≤ n ∧ n ≤ 264

/-- The bytes of a token: `000LLLLL` and the literals, `LLLooooo oooooooo`, or `111ooooo LLLLLLLL oooooooo`. -/
def LzfToken.encode : Lz77.Token UInt8 → List UInt8
  | .lit xs => UInt8.ofNat (xs.length - 1) :: xs
  | .ref d n =>
    if n < 9 then [UInt8.ofNat ((d - 1) / 256 + (n - 2) * 32), UInt8.ofNat (d - 1)]
    else [UInt8.ofNat ((d - 1) / 256 + 7 * 32), UInt8.ofNat (n - 9), UInt8.ofNat (d - 1)]

/-- The first token of some bytes, and the bytes behind it; none if they stop in the middle of it. -/
def LzfToken.decode : List UInt8 → Option (Lz77.Token UInt8 × List UInt8)
  | [] => none
  | b :: bs =>
    if b.toNat < 32 then
      if bs.length < b.toNat + 1 then none else some (.lit (bs.take (b.toNat + 1)), bs.drop (b.toNat + 1))
    else if b.toNat < 224 then
      match bs with
      | [] => none
      | c :: bs => some (.ref (b.toNat % 32 * 256 + c.toNat + 1) (b.toNat / 32 + 2), bs)
    else
      match bs with
      | m :: c :: bs => some (.ref (b.toNat % 32 * 256 + c.toNat + 1) (m.toNat + 9), bs)
      | _ => none

theorem LzfToken.decode_lit {b : UInt8} {bs : List UInt8} (hb : b.toNat < 32)
    (hlen : b.toNat + 1 ≤ bs.length) :
    decode (b :: bs) = some (.lit (bs.take (b.toNat + 1)), bs.drop (b.toNat + 1)) := by
  rw [decode.eq_def]
  simp only [if_pos hb, if_neg (Nat.not_lt.mpr hlen)]

theorem LzfToken.decode_short {b c : UInt8} {bs : List UInt8} (hb : 32 ≤ b.toNat) (hb' : b.toNat < 224) :
    decode (b :: c :: bs) = some (.ref (b.toNat % 32 * 256 + c.toNat + 1) (b.toNat / 32 + 2), bs) := by
  rw [decode.eq_def]
  simp only [if_neg (Nat.not_lt.mpr hb), if_pos hb']

theorem LzfToken.decode_long {b m c : UInt8} {bs : List UInt8} (hb : 224 ≤ b.toNat) :
    decode (b :: m :: c :: bs) = some (.ref (b.toNat % 32 * 256 + c.toNat + 1) (m.toNat + 9), bs) := by
  have hb' : ¬b.toNat < 32 := by omega
  rw [decode.eq_def]
  simp only [if_neg hb', if_neg (Nat.not_lt.mpr hb)]

/-- **What is written is read.** -/
theorem LzfToken.decode_encode {t : Lz77.Token UInt8} (h : Fits t) (tail : List UInt8) :
    decode (encode t ++ tail) = some (t, tail) := by
  cases t with
  | lit xs =>
    obtain ⟨hpos, hle⟩ := h
    have hb : (UInt8.ofNat (xs.length - 1)).toNat + 1 = xs.length := by
      rw [UInt8.toNat_ofNat']
      omega
    rw [encode, List.cons_append, decode_lit (by omega) (by rw [hb, List.length_append]; omega), hb,
      List.take_left, List.drop_left]
  | ref d n =>
    obtain ⟨hd, hd', hn, hn'⟩ := h
    have hc : (UInt8.ofNat (d - 1)).toNat = (d - 1) % 256 := UInt8.toNat_ofNat' ..
    rw [encode]
    split_ifs with hshort
    · have hb : (UInt8.ofNat ((d - 1) / 256 + (n - 2) * 32)).toNat = (d - 1) / 256 + (n - 2) * 32 := by
        rw [UInt8.toNat_ofNat']
        omega
      have hdist : ((d - 1) / 256 + (n - 2) * 32) % 32 * 256 + (d - 1) % 256 + 1 = d := by omega
      have hlen : ((d - 1) / 256 + (n - 2) * 32) / 32 + 2 = n := by omega
      rw [List.cons_append, List.singleton_append, decode_short (by omega) (by omega), hb, hc, hdist, hlen]
    · have hb : (UInt8.ofNat ((d - 1) / 256 + 7 * 32)).toNat = (d - 1) / 256 + 7 * 32 := by
        rw [UInt8.toNat_ofNat']
        omega
      have hm : (UInt8.ofNat (n - 9)).toNat + 9 = n := by
        rw [UInt8.toNat_ofNat']
        omega
      have hdist : ((d - 1) / 256 + 7 * 32) % 32 * 256 + (d - 1) % 256 + 1 = d := by omega
      rw [List.cons_append, List.cons_append, List.singleton_append, decode_long (by omega), hb, hc, hm, hdist]

theorem ofNat_distance (b c : UInt8) :
    UInt8.ofNat (b.toNat % 32 * 256 + c.toNat + 1 - 1) = c := by
  apply UInt8.toNat_inj.mp
  have hc := c.toNat_lt
  rw [UInt8.toNat_ofNat']
  omega

/-- **What is read was written so.** -/
theorem LzfToken.encode_of_decode {bs tail : List UInt8} {t : Lz77.Token UInt8}
    (h : decode bs = some (t, tail)) : Fits t ∧ bs = encode t ++ tail := by
  cases bs with
  | nil => cases h
  | cons b bs =>
    have hlt := b.toNat_lt
    rw [decode.eq_def] at h
    simp only at h
    split_ifs at h with hb hlen hb'
    · obtain ⟨rfl, rfl⟩ := Prod.mk.inj (Option.some.inj h)
      have htake : (bs.take (b.toNat + 1)).length = b.toNat + 1 := List.length_take_of_le (Nat.not_lt.mp hlen)
      refine ⟨⟨by omega, by omega⟩, ?_⟩
      rw [encode, htake, Nat.add_sub_cancel, UInt8.ofNat_toNat, List.cons_append, List.take_append_drop]
    · cases bs with
      | nil => cases h
      | cons c bs =>
        have hc := c.toNat_lt
        obtain ⟨rfl, rfl⟩ := Prod.mk.inj (Option.some.inj h)
        refine ⟨⟨by omega, by omega, by omega, by omega⟩, ?_⟩
        have hhigh : (b.toNat % 32 * 256 + c.toNat + 1 - 1) / 256 + (b.toNat / 32 + 2 - 2) * 32 = b.toNat := by
          omega
        rw [encode, if_pos (by omega), hhigh, ofNat_distance, UInt8.ofNat_toNat]
        rfl
    · cases bs with
      | nil => cases h
      | cons m bs =>
        cases bs with
        | nil => cases h
        | cons c bs =>
          have hm := m.toNat_lt
          have hc := c.toNat_lt
          obtain ⟨rfl, rfl⟩ := Prod.mk.inj (Option.some.inj h)
          refine ⟨⟨by omega, by omega, by omega, by omega⟩, ?_⟩
          have hhigh : (b.toNat % 32 * 256 + c.toNat + 1 - 1) / 256 + 7 * 32 = b.toNat := by omega
          rw [encode, if_neg (by omega), hhigh, ofNat_distance, Nat.add_sub_cancel, UInt8.ofNat_toNat,
            UInt8.ofNat_toNat]
          rfl

/-! ## Copying -/

section Copy

variable {acc rest text : List UInt8} {d : ℕ}

/-- Octet by octet, a copy inside the buffer is the copy of a back reference, overlapping or not. -/
theorem lzfCopyOctets_eq {n : ℕ} (hpos : 0 < d) (hle : d ≤ acc.length) (hfit : n ≤ rest.length)
    (h : Lz77.copyBack d n acc = some text) :
    lzfCopyOctets n (acc ++ rest) acc.length (acc.length - d) = some (text ++ rest.drop n) := by
  induction n generalizing acc rest with
  | zero =>
    obtain rfl := Option.some.inj h
    rfl
  | succ n ih =>
    cases rest with
    | nil => exact absurd hfit (Nat.not_succ_le_zero n)
    | cons r rest =>
      obtain ⟨x, hx⟩ : ∃ x, acc[acc.length - d]? = some x := ⟨_, List.getElem?_eq_getElem (by omega)⟩
      rw [Lz77.copyBack_succ hpos hle hx] at h
      have hread : (acc ++ r :: rest)[acc.length - d]? = some x := by
        rw [List.getElem?_append_left (by omega), hx]
      have hwrite : write (acc ++ r :: rest) acc.length [x] = some (acc ++ [x] ++ rest) := by
        have := write_append acc rest (X := [r]) (Y := [x]) rfl
        rwa [List.append_assoc, List.singleton_append] at this
      have hnext : (acc ++ [x]).length = acc.length + 1 := List.length_append
      have hgo := ih (by omega) (Nat.le_of_succ_le_succ hfit) h
      rw [hnext, Nat.sub_add_comm hle] at hgo
      rw [lzfCopyOctets, hread, Option.bind_some, hwrite, Option.bind_some, hgo, List.drop_succ_cons]

/-- However the bytes are copied, it is the copy of a back reference. -/
theorem lzfCopyRef_eq {len : ℕ} (hpos : 0 < d) (hle : d ≤ acc.length) (hfit : len + 2 ≤ rest.length)
    (h : Lz77.copyBack d (len + 2) acc = some text) :
    lzfCopyRef len (acc ++ rest) acc.length (acc.length - d) = some (text ++ rest.drop (len + 2)) := by
  rw [lzfCopyRef]
  split_ifs with hshort hdisjoint
  · exact lzfCopyOctets_eq hpos hle hfit h
  · -- `memcpy` of disjoint areas
    have hcopied := Lz77.copyBack_of_le (by omega : len + 2 ≤ d) hpos hle
    rw [h] at hcopied
    obtain rfl := Option.some.inj hcopied
    have hlen : ((acc.drop (acc.length - d)).take (len + 2)).length = len + 2 := by
      rw [List.length_take, List.length_drop]
      omega
    have hread : read (acc ++ rest) (acc.length - d) (len + 2) =
        some ((acc.drop (acc.length - d)).take (len + 2)) := by
      rw [Block.read, if_pos (by rw [List.length_append]; omega), List.drop_append_of_le_length (by omega),
        List.take_append_of_le_length (by rw [List.length_drop]; omega)]
    rw [hread, Option.bind_some, write, if_pos (by rw [hlen, List.length_append]; omega), List.take_left, hlen,
      List.drop_length_add_append]
  · exact lzfCopyOctets_eq hpos hle hfit h

end Copy

/-! ## One round -/

/-- The state with a longer text, where there is one. -/
def lzfPlace (ip : ℕ) (rest : List UInt8) : Option (List UInt8) → LzfErrno ⊕ LzfState
  | none => .inl .einval
  | some text => .inr ⟨ip, text.length, text ++ rest⟩

/-- What a round does about a token: the output has no room for it, or it refers to what is in front of the
output, or it is put behind the text so far. -/
def lzfOutcome (t : Lz77.Token UInt8) (ip : ℕ) (acc rest : List UInt8) : LzfErrno ⊕ LzfState :=
  if rest.length < t.size then .inl .e2big
  else lzfPlace (ip + (LzfToken.encode t).length) (rest.drop t.size) (t.extend acc)

section Step

variable {inp acc rest bs : List UInt8} {ip : ℕ} {b c : UInt8}

/-- The end of a back reference. -/
theorem lzfRef_eq {h len : ℕ} (hc : inp[ip]? = some c) :
    lzfRef inp ⟨ip, acc.length, acc ++ rest⟩ (acc.length - (h * 256 : ℕ) - 1) len =
      some (if rest.length < len + 2 then .inl .e2big
        else lzfPlace (ip + 1) (rest.drop (len + 2))
          (Lz77.copyBack (h * 256 + c.toNat + 1) (len + 2) acc)) := by
  simp only [lzfRef, hc, Option.bind_some, List.length_append]
  by_cases hroom : rest.length < len + 2
  · rw [if_pos hroom, if_pos (by omega)]
  rw [if_neg hroom, if_neg (by omega)]
  by_cases hdist : acc.length < h * 256 + c.toNat + 1
  · have hnone : Lz77.copyBack (h * 256 + c.toNat + 1) (len + 2) acc = none := by
      rw [Lz77.copyBack, if_neg (Nat.succ_ne_zero _), if_pos hdist]
    rw [if_pos (by push_cast; omega), hnone, lzfPlace]
  · obtain ⟨xs, hxs, hlen⟩ :=
      Lz77.exists_copyBack (Nat.succ_pos (h * 256 + c.toNat)) (Nat.not_lt.mp hdist) (len + 2)
    have hptr : ((acc.length : ℤ) - (h * 256 : ℕ) - 1 - c.toNat).toNat =
        acc.length - (h * 256 + c.toNat + 1) := by
      push_cast
      omega
    rw [if_neg (by push_cast; omega), hptr,
      lzfCopyRef_eq (Nat.succ_pos _) (Nat.not_lt.mp hdist) (Nat.not_lt.mp hroom) hxs, hxs, Option.map_some,
      lzfPlace, List.length_append, hlen]

/-- A round that finds a literal run. -/
theorem lzfDecompressStep_lit (hdrop : inp.drop ip = b :: bs) (hb : b.toNat < 32)
    (hlen : b.toNat + 1 ≤ bs.length) :
    lzfDecompressStep inp ⟨ip, acc.length, acc ++ rest⟩ =
      some (lzfOutcome (.lit (bs.take (b.toNat + 1))) ip acc rest) := by
  have hget := getElem?_of_drop hdrop
  have hnext := drop_succ_of_drop hdrop
  have hinp : inp.length - (ip + 1) = bs.length := by rw [← List.length_drop, hnext]
  have hsize : (bs.take (b.toNat + 1)).length = b.toNat + 1 := List.length_take_of_le hlen
  rw [lzfDecompressStep, hget, Option.bind_some, if_pos hb, lzfLiteral, lzfOutcome, Lz77.Token.size, hsize]
  simp only [List.length_append]
  by_cases hroom : rest.length < b.toNat + 1
  · rw [if_pos (by omega), if_pos hroom]
  · have hread : read inp (ip + 1) (b.toNat + 1) = some (bs.take (b.toNat + 1)) := by
      rw [Block.read, if_pos (by omega), hnext]
    have hwrite := write_append acc (rest.drop (b.toNat + 1)) (X := rest.take (b.toNat + 1))
      (Y := bs.take (b.toNat + 1)) (by rw [hsize, List.length_take_of_le (Nat.not_lt.mp hroom)])
    rw [List.append_assoc acc (rest.take _), List.take_append_drop] at hwrite
    rw [if_neg (by omega), if_neg (by omega), if_neg hroom, hread, Option.bind_some, hwrite, Option.map_some,
      Lz77.Token.extend, lzfPlace, LzfToken.encode, List.length_cons, List.length_append, hsize]
    simp only [Nat.add_assoc, Nat.add_comm 1]

/-- A round that finds a back reference in two bytes. -/
theorem lzfDecompressStep_short (hdrop : inp.drop ip = b :: c :: bs) (hb : 32 ≤ b.toNat)
    (hb' : b.toNat < 224) :
    lzfDecompressStep inp ⟨ip, acc.length, acc ++ rest⟩ =
      some (lzfOutcome (.ref (b.toNat % 32 * 256 + c.toNat + 1) (b.toNat / 32 + 2)) ip acc rest) := by
  have hnext := drop_succ_of_drop hdrop
  have hinp : inp.length - (ip + 1) = (c :: bs).length := by rw [← List.length_drop, hnext]
  rw [List.length_cons] at hinp
  have hlen : ¬b.toNat / 32 = 7 := by omega
  have hencode : (LzfToken.encode (.ref (b.toNat % 32 * 256 + c.toNat + 1) (b.toNat / 32 + 2))).length = 2 := by
    rw [LzfToken.encode, if_pos (by omega)]
    rfl
  rw [lzfDecompressStep, getElem?_of_drop hdrop, Option.bind_some, if_neg (Nat.not_lt.mpr hb),
    lzfBackReference, if_neg (by simp only; omega), lzfRefLen, if_neg hlen, Option.bind_some]
  have hptr : (acc.length : ℤ) - (b.toNat : ℤ) % 32 * 256 - 1 =
      acc.length - ((b.toNat % 32 * 256 : ℕ) : ℤ) - 1 := by
    push_cast
    rfl
  simp only [hptr, lzfRef_eq (getElem?_of_drop hnext), lzfOutcome, hencode, Lz77.Token.size,
    Lz77.Token.extend]

/-- A round that finds a back reference in three bytes. -/
theorem lzfDecompressStep_long {m : UInt8} (hdrop : inp.drop ip = b :: m :: c :: bs) (hb : 224 ≤ b.toNat) :
    lzfDecompressStep inp ⟨ip, acc.length, acc ++ rest⟩ =
      some (lzfOutcome (.ref (b.toNat % 32 * 256 + c.toNat + 1) (m.toNat + 9)) ip acc rest) := by
  have hlt := b.toNat_lt
  have hnext := drop_succ_of_drop hdrop
  have hnext₂ := drop_succ_of_drop hnext
  have hinp : inp.length - (ip + 1 + 1) = (c :: bs).length := by rw [← List.length_drop, hnext₂]
  rw [List.length_cons] at hinp
  have hlen : b.toNat / 32 = 7 := by omega
  have hencode : (LzfToken.encode (.ref (b.toNat % 32 * 256 + c.toNat + 1) (m.toNat + 9))).length = 3 := by
    rw [LzfToken.encode, if_neg (by omega)]
    rfl
  rw [lzfDecompressStep, getElem?_of_drop hdrop, Option.bind_some, if_neg (by omega), lzfBackReference,
    if_neg (by simp only; omega), lzfRefLen, if_pos hlen, getElem?_of_drop hnext, Option.map_some,
    if_neg (by simp only; omega), Option.bind_some]
  have hptr : (acc.length : ℤ) - (b.toNat : ℤ) % 32 * 256 - 1 =
      acc.length - ((b.toNat % 32 * 256 : ℕ) : ℤ) - 1 := by
    push_cast
    rfl
  have hsize : b.toNat / 32 + m.toNat + 2 = m.toNat + 9 := by omega
  simp only [hptr, lzfRef_eq (getElem?_of_drop hnext₂), lzfOutcome, hencode, Lz77.Token.size,
    Lz77.Token.extend, hsize]

/-- **A round reads a token.** -/
theorem lzfDecompressStep_of_decode (acc rest : List UInt8) {t : Lz77.Token UInt8} {tail : List UInt8}
    (h : LzfToken.decode (inp.drop ip) = some (t, tail)) :
    lzfDecompressStep inp ⟨ip, acc.length, acc ++ rest⟩ = some (lzfOutcome t ip acc rest) := by
  cases hdrop : inp.drop ip with
  | nil =>
    rw [hdrop] at h
    cases h
  | cons b bs =>
    rw [hdrop, LzfToken.decode.eq_def] at h
    simp only at h
    split_ifs at h with hb hlen hb'
    · obtain ⟨rfl, -⟩ := Prod.mk.inj (Option.some.inj h)
      exact lzfDecompressStep_lit hdrop hb (Nat.not_lt.mp hlen)
    · cases bs with
      | nil => cases h
      | cons c bs =>
        obtain ⟨rfl, -⟩ := Prod.mk.inj (Option.some.inj h)
        exact lzfDecompressStep_short hdrop (Nat.not_lt.mp hb) hb'
    · cases bs with
      | nil => cases h
      | cons m bs =>
        cases bs with
        | nil => cases h
        | cons c bs =>
          obtain ⟨rfl, -⟩ := Prod.mk.inj (Option.some.inj h)
          exact lzfDecompressStep_long hdrop (Nat.not_lt.mp hb')

/-- A round that finds the input cut off in the middle of a token says so, or that the output is full. -/
theorem lzfDecompressStep_truncated (hdrop : inp.drop ip = b :: bs)
    (h : LzfToken.decode (inp.drop ip) = none) (s : LzfState) (hs : s.ip = ip) :
    ∃ e, lzfDecompressStep inp s = some (.inl e) := by
  subst hs
  have hnext := drop_succ_of_drop hdrop
  have hinp : inp.length - (s.ip + 1) = bs.length := by rw [← List.length_drop, hnext]
  rw [hdrop, LzfToken.decode.eq_def] at h
  simp only at h
  rw [lzfDecompressStep, getElem?_of_drop hdrop, Option.bind_some]
  split_ifs at h with hb hlen hb'
  · rw [if_pos hb, lzfLiteral]
    split_ifs with hroom hshort
    · exact ⟨_, rfl⟩
    · exact ⟨_, rfl⟩
    · simp only at hshort
      omega
  · rw [if_neg hb]
    cases bs with
    | nil =>
      rw [List.length_nil] at hinp
      rw [lzfBackReference, if_pos (by simp only; omega)]
      exact ⟨_, rfl⟩
    | cons c bs => cases h
  · rw [if_neg hb, lzfBackReference]
    cases bs with
    | nil =>
      rw [List.length_nil] at hinp
      rw [if_pos (by simp only; omega)]
      exact ⟨_, rfl⟩
    | cons m bs =>
      rw [List.length_cons] at hinp
      rw [if_neg (by simp only; omega), lzfRefLen, if_pos (by have := b.toNat_lt; omega),
        getElem?_of_drop hnext, Option.map_some]
      cases bs with
      | nil =>
        rw [List.length_nil] at hinp
        rw [if_pos (by simp only; omega)]
        exact ⟨_, rfl⟩
      | cons c bs => cases h

end Step

/-! ## Whole inputs -/

section Loop

variable {inp acc rest text : List UInt8} {ip fuel : ℕ}

theorem lzfDecompressLoop_of_inl {s : LzfState} {e : LzfErrno} (hip : s.ip < inp.length)
    (h : lzfDecompressStep inp s = some (.inl e)) :
    lzfDecompressLoop inp (fuel + 1) s = some ⟨0, some e, s.out⟩ := by
  rw [lzfDecompressLoop, if_pos hip, h, Option.bind_some]

theorem lzfDecompressLoop_of_inr {s s' : LzfState} (hip : s.ip < inp.length)
    (h : lzfDecompressStep inp s = some (.inr s')) :
    lzfDecompressLoop inp (fuel + 1) s = lzfDecompressLoop inp fuel s' := by
  rw [lzfDecompressLoop, if_pos hip, h, Option.bind_some]

theorem lzfDecompressLoop_of_le {s : LzfState} (hip : inp.length ≤ s.ip) :
    lzfDecompressLoop inp fuel s = some ⟨s.op, none, s.out⟩ := by
  cases fuel <;> rw [lzfDecompressLoop, if_neg (Nat.not_lt.mpr hip)]

/-- A token takes the loop to where the next one starts. -/
theorem drop_add_length_encode {t : Lz77.Token UInt8} {tail : List UInt8}
    (h : LzfToken.decode (inp.drop ip) = some (t, tail)) :
    inp.drop (ip + (LzfToken.encode t).length) = tail ∧ 1 ≤ (LzfToken.encode t).length := by
  obtain ⟨-, hbytes⟩ := LzfToken.encode_of_decode h
  refine ⟨by rw [← List.drop_drop, hbytes, List.drop_left], ?_⟩
  cases t with
  | lit xs => exact Nat.succ_pos _
  | ref d n =>
    rw [LzfToken.encode]
    split_ifs <;> exact Nat.succ_pos _

/-- **The loop on any input.** -/
theorem lzfDecompressLoop_spec (acc rest : List UInt8) (hfuel : inp.length - ip ≤ fuel) :
    ∃ r, lzfDecompressLoop inp fuel ⟨ip, acc.length, acc ++ rest⟩ = some r ∧
      r.out.length = acc.length + rest.length ∧ (r.errno ≠ none → r.size = 0) ∧
      (r.errno = none → ∃ ts text, (∀ t ∈ ts, LzfToken.Fits t) ∧
        inp.drop ip = ts.flatMap LzfToken.encode ∧ Lz77.expand ts acc = some text ∧
        text.length ≤ acc.length + rest.length ∧ r.size = text.length ∧
        r.out = text ++ rest.drop (text.length - acc.length)) := by
  induction fuel generalizing ip acc rest with
  | zero =>
    have hend : inp.length ≤ ip := by omega
    refine ⟨_, lzfDecompressLoop_of_le hend, List.length_append, fun h ↦ absurd rfl h, fun _ ↦ ?_⟩
    refine ⟨[], acc, by simp, List.drop_eq_nil_of_le hend, rfl, Nat.le_add_right _ _, rfl, ?_⟩
    rw [Nat.sub_self, List.drop_zero]
  | succ fuel ih =>
    by_cases hip : ip < inp.length
    swap
    · have hend := Nat.not_lt.mp hip
      refine ⟨_, lzfDecompressLoop_of_le hend, List.length_append, fun h ↦ absurd rfl h, fun _ ↦ ?_⟩
      refine ⟨[], acc, by simp, List.drop_eq_nil_of_le hend, rfl, Nat.le_add_right _ _, rfl, ?_⟩
      rw [Nat.sub_self, List.drop_zero]
    -- a round that ends the call leaves the output as it is
    have hends : ∀ e, lzfDecompressStep inp ⟨ip, acc.length, acc ++ rest⟩ = some (.inl e) →
        ∃ r, lzfDecompressLoop inp (fuel + 1) ⟨ip, acc.length, acc ++ rest⟩ = some r ∧
          r.out.length = acc.length + rest.length ∧ (r.errno ≠ none → r.size = 0) ∧ r.errno ≠ none :=
      fun e he ↦ ⟨_, lzfDecompressLoop_of_inl hip he, List.length_append, fun _ ↦ rfl, Option.some_ne_none e⟩
    cases hdecode : LzfToken.decode (inp.drop ip) with
    | none =>
      obtain ⟨b, bs, hdrop⟩ := List.exists_cons_of_ne_nil (mt List.drop_eq_nil_iff.mp (Nat.not_le.mpr hip))
      obtain ⟨e, he⟩ := lzfDecompressStep_truncated hdrop hdecode ⟨ip, acc.length, acc ++ rest⟩ rfl
      obtain ⟨r, hr, hlen, hsize, hne⟩ := hends e he
      exact ⟨r, hr, hlen, hsize, fun h ↦ absurd h hne⟩
    | some p =>
      obtain ⟨t, tail⟩ := p
      have hstep := lzfDecompressStep_of_decode acc rest hdecode
      rw [lzfOutcome] at hstep
      by_cases hroom : rest.length < t.size
      · rw [if_pos hroom] at hstep
        obtain ⟨r, hr, hlen, hsize, hne⟩ := hends _ hstep
        exact ⟨r, hr, hlen, hsize, fun h ↦ absurd h hne⟩
      rw [if_neg hroom] at hstep
      cases hextend : t.extend acc with
      | none =>
        rw [hextend, lzfPlace] at hstep
        obtain ⟨r, hr, hlen, hsize, hne⟩ := hends _ hstep
        exact ⟨r, hr, hlen, hsize, fun h ↦ absurd h hne⟩
      | some text =>
        rw [hextend, lzfPlace] at hstep
        obtain ⟨hnext, hpos⟩ := drop_add_length_encode hdecode
        obtain ⟨hfits, hbytes⟩ := LzfToken.encode_of_decode hdecode
        have hlonger := Lz77.Token.length_extend hextend
        have hless : inp.length - (ip + (LzfToken.encode t).length) ≤ fuel := by omega
        obtain ⟨r, hr, hlen, hsize, hok⟩ := ih text (rest.drop t.size) hless
        rw [List.length_drop] at hlen
        refine ⟨r, by rw [lzfDecompressLoop_of_inr hip hstep, hr], by omega, hsize, fun hnone ↦ ?_⟩
        obtain ⟨ts, text', hall, hdrop, hexpand, hfit, hr_size, hr_out⟩ := hok hnone
        have hmore := Lz77.length_le_of_expand hexpand
        rw [List.length_drop] at hfit
        refine ⟨t :: ts, text', List.forall_mem_cons.mpr ⟨hfits, hall⟩, ?_, ?_, by omega, hr_size, ?_⟩
        · rw [List.flatMap_cons, ← hdrop, hnext, hbytes]
        · rw [Lz77.expand_cons, hextend, Option.bind_some, hexpand]
        · rw [hr_out, List.drop_drop]
          congr 2
          omega

/-- **The loop on tokens.** -/
theorem lzfDecompressLoop_of_tokens (acc rest : List UInt8) {ts : List (Lz77.Token UInt8)}
    (hfits : ∀ t ∈ ts, LzfToken.Fits t)
    (hfuel : inp.length - ip ≤ fuel) (hip : ip ≤ inp.length)
    (hdrop : inp.drop ip = ts.flatMap LzfToken.encode) (h : Lz77.expand ts acc = some text) :
    (text.length ≤ acc.length + rest.length →
      lzfDecompressLoop inp fuel ⟨ip, acc.length, acc ++ rest⟩ =
        some ⟨text.length, none, text ++ rest.drop (text.length - acc.length)⟩) ∧
    (acc.length + rest.length < text.length →
      ∃ out, lzfDecompressLoop inp fuel ⟨ip, acc.length, acc ++ rest⟩ = some ⟨0, some .e2big, out⟩) := by
  induction ts generalizing ip acc rest fuel with
  | nil =>
    have hend := List.drop_eq_nil_iff.mp hdrop
    obtain rfl := Option.some.inj h
    refine ⟨fun _ ↦ ?_, fun hlt ↦ absurd hlt (Nat.not_lt.mpr (Nat.le_add_right _ _))⟩
    rw [lzfDecompressLoop_of_le hend, Nat.sub_self, List.drop_zero]
  | cons t ts ih =>
    rw [List.flatMap_cons] at hdrop
    have hdecode : LzfToken.decode (inp.drop ip) = some (t, ts.flatMap LzfToken.encode) := by
      rw [hdrop, LzfToken.decode_encode (hfits t List.mem_cons_self)]
    obtain ⟨hnext, hpos⟩ := drop_add_length_encode hdecode
    have hall : inp.length - ip = (LzfToken.encode t).length + (ts.flatMap LzfToken.encode).length := by
      rw [← List.length_drop, hdrop, List.length_append]
    have hlt : ip < inp.length := by omega
    cases fuel with
    | zero => omega
    | succ fuel =>
      rw [Lz77.expand_cons, Option.bind_eq_some_iff] at h
      obtain ⟨longer, hextend, h⟩ := h
      have hlonger := Lz77.Token.length_extend hextend
      have hmore := Lz77.length_le_of_expand h
      have hstep := lzfDecompressStep_of_decode acc rest hdecode
      rw [lzfOutcome] at hstep
      by_cases hroom : rest.length < t.size
      · rw [if_pos hroom] at hstep
        exact ⟨fun hle ↦ by omega, fun _ ↦ ⟨_, lzfDecompressLoop_of_inl hlt hstep⟩⟩
      rw [if_neg hroom, hextend, lzfPlace] at hstep
      have hrest : (rest.drop t.size).length = rest.length - t.size := List.length_drop
      have hskip : (rest.drop t.size).drop (text.length - longer.length) =
          rest.drop (text.length - acc.length) := by
        rw [List.drop_drop]
        congr 1
        omega
      obtain ⟨hok, hfull⟩ := ih longer (rest.drop t.size)
        (fun t ht ↦ hfits t (List.mem_cons_of_mem _ ht)) (by omega : inp.length - _ ≤ fuel) (by omega) hnext h
      rw [lzfDecompressLoop_of_inr hlt hstep, ← hskip]
      exact ⟨fun hle ↦ hok (by omega), fun hlt ↦ hfull (by omega)⟩

end Loop

/-- **Decompression is safe and sound.** On any bytes and any output buffer `lzf_decompress` comes to its end
and stays inside its buffers. When it sets no `errno`, the input was a list of tokens, and the text of the
tokens is in the output, with nothing behind it touched; and with `errno` set it returns 0. -/
theorem lzfDecompress_safe (inp out : List UInt8) :
    ∃ r, lzfDecompress inp out = some r ∧ r.out.length = out.length ∧ (r.errno ≠ none → r.size = 0) ∧
      (r.errno = none → ∃ ts text, (∀ t ∈ ts, LzfToken.Fits t) ∧ inp = ts.flatMap LzfToken.encode ∧
        Lz77.expand ts [] = some text ∧ text.length ≤ out.length ∧ r.size = text.length ∧
        r.out = text ++ out.drop text.length) := by
  obtain ⟨r, hr, hlen, hsize, hok⟩ :=
    lzfDecompressLoop_spec [] out (Nat.sub_le inp.length 0)
  rw [List.length_nil, Nat.zero_add] at hlen
  refine ⟨r, hr, hlen, hsize, fun hnone ↦ ?_⟩
  obtain ⟨ts, text, hfits, hbytes, hexpand, hfit, hr_size, hr_out⟩ := hok hnone
  rw [List.length_nil, Nat.zero_add] at hfit
  exact ⟨ts, text, hfits, hbytes, hexpand, hfit, hr_size, hr_out⟩


example : lzfDecompress [1, 97, 98, 224, 1, 1] (List.replicate 12 0) =
    some ⟨12, none, [97, 98, 97, 98, 97, 98, 97, 98, 97, 98, 97, 98]⟩ := by decide

end LatteC
