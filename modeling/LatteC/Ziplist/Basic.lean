import LatteC.Foundation.Block

/-!
# The ziplist

`src/list/ziplist.c`: a list serialized into one block. In front there is a header of ten bytes, the
total number of bytes (four), the offset of the last entry (four) and the number of entries (two);
behind the last entry there is one byte `ZIP_END`. An entry starts with the length of the one before
it, in one byte or in five.

A ziplist is its block, which may be longer than the ziplist in it; a pointer into it is an offset. The
host is little endian, as the code that writes `p[0] = len` next to a `memcpy` of a `uint32_t` has it.
A function that fails an assertion or reaches outside the block returns `none`. Lengths are natural
numbers where the source has `unsigned int` and `size_t`; the two places that can wrap are the tail
offset and the number of entries.
-/

namespace LatteC

open Block

/-- `ZIPLIST_HEADER_SIZE`. -/
def zipListHeaderSize : ℕ := 10

/-- `ZIP_END`. -/
def zipEnd : UInt8 := 255

/-- `ZIP_BIG_PREVLEN`. -/
def zipBigPrevlen : ℕ := 254

/-- `ZIPLIST_BYTES`. -/
def zipListBytes (zl : List UInt8) : Option ℕ := (read zl 0 4).map leValue

/-- `ZIPLIST_TAIL_OFFSET`. -/
def zipListTailOffset (zl : List UInt8) : Option ℕ := (read zl 4 4).map leValue

/-- `ZIPLIST_LENGTH`. -/
def zipListLength (zl : List UInt8) : Option ℕ := (read zl 8 2).map leValue

/-- The assignment to `ZIPLIST_TAIL_OFFSET`. -/
def zipListSetTailOffset (zl : List UInt8) (v : ℕ) : Option (List UInt8) := write zl 4 (leBytes 4 v)

/-! ## Reading an entry -/

/-- `zlentry_t`. -/
structure ZlEntry where
  prevrawlensize : ℕ
  prevrawlen : ℕ
  lensize : ℕ
  len : ℕ
  encoding : UInt8
  p : ℕ

/-- The field `headersize`. -/
def ZlEntry.headersize (e : ZlEntry) : ℕ := e.prevrawlensize + e.lensize

/-- `ZIP_DECODE_PREVLENSIZE`. -/
def zipDecodePrevlensize (zl : List UInt8) (p : ℕ) : Option ℕ :=
  zl[p]?.map fun b ↦ if b.toNat < zipBigPrevlen then 1 else 5

/-- `ZIP_DECODE_PREVLEN`: `prevlensize` and `prevlen`. -/
def zipDecodePrevlen (zl : List UInt8) (p : ℕ) : Option (ℕ × ℕ) :=
  (zipDecodePrevlensize zl p).bind fun prevlensize ↦
    if prevlensize = 1 then zl[p]?.map fun b ↦ (prevlensize, b.toNat)
    else (read zl (p + 1) 4).map fun l ↦ (prevlensize, leValue l)

/-- `ZIP_STR_MASK`. -/
def zipStrMask : UInt8 := 0xc0

/-- `ZIP_STR_06B`. -/
def zipStr06b : UInt8 := 0x00

/-- `ZIP_STR_14B`. -/
def zipStr14b : UInt8 := 0x40

/-- `ZIP_STR_32B`. -/
def zipStr32b : UInt8 := 0x80

/-- `ZIP_INT_16B`. -/
def zipInt16b : UInt8 := 0xc0

/-- `ZIP_INT_32B`. -/
def zipInt32b : UInt8 := 0xd0

/-- `ZIP_INT_64B`. -/
def zipInt64b : UInt8 := 0xe0

/-- `ZIP_INT_24B`. -/
def zipInt24b : UInt8 := 0xf0

/-- `ZIP_INT_8B`. -/
def zipInt8b : UInt8 := 0xfe

/-- `ZIP_INT_IMM_MIN`. -/
def zipIntImmMin : UInt8 := 0xf1

/-- `ZIP_INT_IMM_MAX`. -/
def zipIntImmMax : UInt8 := 0xfd

/-- `ZIP_ENTRY_ENCODING`. -/
def zipEntryEncoding (b : UInt8) : UInt8 := if b < zipStrMask then b &&& zipStrMask else b

/-- `ZIP_DECODE_LENGTH`: `lensize` and `len`, of the entry whose encoding starts the bytes `ptr`. -/
def zipDecodeLength (ptr : List UInt8) (encoding : UInt8) : Option (ℕ × ℕ) :=
  if encoding < zipStrMask then
    if encoding = zipStr06b then ptr[0]?.map fun b ↦ (1, (b &&& 0x3f).toNat)
    else if encoding = zipStr14b then
      ptr[0]?.bind fun b ↦ ptr[1]?.map fun b' ↦ (2, (b &&& 0x3f).toNat * 256 + b'.toNat)
    else if encoding = zipStr32b then (read ptr 1 4).map fun l ↦ (5, leValue l.reverse)
    else some (0, 0)
  else if encoding = zipInt8b then some (1, 1)
  else if encoding = zipInt16b then some (1, 2)
  else if encoding = zipInt24b then some (1, 3)
  else if encoding = zipInt32b then some (1, 4)
  else if encoding = zipInt64b then some (1, 8)
  else if zipIntImmMin ≤ encoding ∧ encoding ≤ zipIntImmMax then some (1, 0)
  else some (0, 0)

/-- The two macros above and `ZIP_DECODE_PREVLEN`, as `zip_entry` and `zip_entry_safe` use them. -/
def zipDecodeEntry (zl : List UInt8) (p : ℕ) : Option ZlEntry :=
  (zipDecodePrevlen zl p).bind fun prev ↦
    zl[p + prev.1]?.bind fun b ↦
      (zipDecodeLength (zl.drop (p + prev.1)) (zipEntryEncoding b)).map fun l ↦
        { prevrawlensize := prev.1, prevrawlen := prev.2, lensize := l.1, len := l.2
          encoding := zipEntryEncoding b, p := p }

/-- `zip_entry`. -/
def zipEntry (zl : List UInt8) (p : ℕ) : Option ZlEntry :=
  (zipDecodeEntry zl p).bind fun e ↦ if e.lensize = 0 then none else some e

/-- `ZIP_ENCODING_SIZE_INVALID`. -/
def zipEncodingSizeInvalid : ℕ := 0xff

/-- `zip_encoding_len_size`. -/
def zipEncodingLenSize (encoding : UInt8) : ℕ :=
  if encoding = zipInt16b ∨ encoding = zipInt32b ∨ encoding = zipInt24b ∨ encoding = zipInt64b ∨
      encoding = zipInt8b then 1
  else if zipIntImmMin ≤ encoding ∧ encoding ≤ zipIntImmMax then 1
  else if encoding = zipStr06b then 1
  else if encoding = zipStr14b then 2
  else if encoding = zipStr32b then 5
  else zipEncodingSizeInvalid

/-- `OUT_OF_RANGE`. -/
def zipOutOfRange (zlbytes : ℕ) (p : ℤ) : Bool :=
  decide (p < zipListHeaderSize) || decide ((zlbytes : ℤ) - 1 < p)

/-- The checks at the end of both paths of `zip_entry_safe`. -/
def zipCheckEntry (zlbytes p : ℕ) (validatePrevlen : Bool) (e : ZlEntry) : Option ZlEntry :=
  if zipOutOfRange zlbytes (p + e.headersize + e.len) then none
  else if validatePrevlen && zipOutOfRange zlbytes ((p : ℤ) - e.prevrawlen) then none
  else some e

/-- `zip_entry_safe`. The inner `none` is the return value 0. -/
def zipEntrySafe (zl : List UInt8) (zlbytes p : ℕ) (validatePrevlen : Bool) :
    Option (Option ZlEntry) :=
  if zipListHeaderSize ≤ p ∧ p + 10 < zlbytes - 1 then
    (zipDecodeEntry zl p).map fun e ↦
      if e.lensize = 0 then none else zipCheckEntry zlbytes p validatePrevlen e
  else if zipOutOfRange zlbytes p then some none
  else
    (zipDecodePrevlensize zl p).bind fun prevrawlensize ↦
      if zipOutOfRange zlbytes (p + prevrawlensize) then some none
      else
        zl[p + prevrawlensize]?.bind fun b ↦
          let lensize := zipEncodingLenSize (zipEntryEncoding b)
          if lensize = zipEncodingSizeInvalid then some none
          else if zipOutOfRange zlbytes (p + prevrawlensize + lensize) then some none
          else (zipDecodeEntry zl p).map (zipCheckEntry zlbytes p validatePrevlen)

/-- `assert(zip_entry_safe(...))`. -/
def zipAssertEntrySafe (zl : List UInt8) (zlbytes p : ℕ) (validatePrevlen : Bool) : Option ZlEntry :=
  (zipEntrySafe zl zlbytes p validatePrevlen).join

/-- `zip_raw_entry_length_safe`. -/
def zipRawEntryLengthSafe (zl : List UInt8) (zlbytes p : ℕ) : Option ℕ :=
  (zipAssertEntrySafe zl zlbytes p false).map fun e ↦ e.headersize + e.len

/-! ## Writing -/

/-- `zip_store_prev_entry_length` with a NULL pointer. -/
def zipPrevEntryLengthSize (len : ℕ) : ℕ := if len < zipBigPrevlen then 1 else 5

/-- `zip_store_prev_entry_length_large`. -/
def zipStorePrevEntryLengthLarge (zl : List UInt8) (p len : ℕ) : Option (List UInt8) :=
  write zl p (UInt8.ofNat zipBigPrevlen :: leBytes 4 len)

/-- `zip_store_prev_entry_length`. -/
def zipStorePrevEntryLength (zl : List UInt8) (p len : ℕ) : Option (List UInt8) :=
  if len < zipBigPrevlen then write zl p [UInt8.ofNat len]
  else zipStorePrevEntryLengthLarge zl p len

/-- `zip_prev_len_byte_diff`. -/
def zipPrevLenByteDiff (zl : List UInt8) (p len : ℕ) : Option ℤ :=
  (zipDecodePrevlensize zl p).map fun (prevlensize : ℕ) ↦
    (zipPrevEntryLengthSize len : ℤ) - prevlensize

/-- `zip_list_resize`. -/
def zipListResize (M : Allocator UInt8) (zl : List UInt8) (len : ℕ) : Option (List UInt8) :=
  if len < 2 ^ 32 - 1 then
    (write (M.resize zl len) 0 (leBytes 4 len)).bind fun zl ↦ write zl (len - 1) [zipEnd]
  else none

/-- `ZIPLIST_INCR_LENGTH`. -/
def zipListIncrLength (zl : List UInt8) (incr : ℤ) : Option (List UInt8) :=
  (zipListLength zl).bind fun n ↦
    if n < 2 ^ 16 - 1 then write zl 8 (leBytes 2 (((n : ℤ) + incr) % 2 ^ 16).toNat) else some zl

/-! ## The cascade -/

/-- The variables of the first loop of `__zip_list_cascade_update`. -/
structure ZipCascade where
  zl : List UInt8
  prevlen : ℕ
  prevlensize : ℕ
  prevoffset : ℕ
  p : ℕ
  extra : ℕ
  cnt : ℕ

/-- The first loop of `__zip_list_cascade_update`, which finds the entries that grow. It may take as
many rounds as `rounds` says. -/
def zipCascadeLoop (curlen : ℕ) : (rounds : ℕ) → ZipCascade → Option ZipCascade
  | 0, _ => none
  | rounds + 1, s =>
    s.zl[s.p]?.bind fun b ↦
      if b = zipEnd then some s
      else
        (zipAssertEntrySafe s.zl curlen s.p false).bind fun cur ↦
          if cur.prevrawlen = s.prevlen then some s
          else if s.prevlensize ≤ cur.prevrawlensize then
            (if cur.prevrawlensize = s.prevlensize then
              zipStorePrevEntryLength s.zl s.p s.prevlen
            else zipStorePrevEntryLengthLarge s.zl s.p s.prevlen).map fun zl ↦ { s with zl := zl }
          else if cur.prevrawlen = 0 ∨ cur.prevrawlen + 4 = s.prevlen then
            let rawlen := cur.headersize + cur.len
            zipCascadeLoop curlen rounds
              { zl := s.zl, prevlen := rawlen + 4, prevlensize := zipPrevEntryLengthSize (rawlen + 4)
                prevoffset := s.p, p := s.p + rawlen, extra := s.extra + 4, cnt := s.cnt + 1 }
          else none

/-- The second loop of `__zip_list_cascade_update`, which moves these entries, the last one first. -/
def zipCascadeMove (firstentrylen : ℕ) :
    (cnt : ℕ) → (zl : List UInt8) → (p prevoffset : ℕ) → Option (List UInt8)
  | 0, zl, _, _ => some zl
  | cnt + 1, zl, p, prevoffset =>
    (zipEntry zl prevoffset).bind fun cur ↦
      let rawlen := cur.headersize + cur.len
      (move zl (p - (rawlen - cur.prevrawlensize)) (prevoffset + cur.prevrawlensize)
          (rawlen - cur.prevrawlensize)).bind fun zl ↦
        (zipStorePrevEntryLength zl (p - (rawlen + 4))
            (if cur.prevrawlen = 0 then firstentrylen else cur.prevrawlen + 4)).bind fun zl ↦
          zipCascadeMove firstentrylen cnt zl (p - (rawlen + 4)) (prevoffset - cur.prevrawlen)

/-- The update of the tail offset between the two loops. -/
def zipCascadeTail (zl : List UInt8) (tail prevoffset extra : ℕ) : Option (List UInt8) :=
  if tail = prevoffset then
    if extra - 4 ≠ 0 then zipListSetTailOffset zl (tail + extra - 4) else some zl
  else zipListSetTailOffset zl (tail + extra)

/-- `__zip_list_cascade_update`. -/
def zipListCascadeUpdate (M : Allocator UInt8) (zl : List UInt8) (p : ℕ) : Option (List UInt8) :=
  (zipListBytes zl).bind fun curlen ↦
    (zipListTailOffset zl).bind fun tail ↦
      zl[p]?.bind fun b ↦
        if b = zipEnd then some zl
        else
          (zipEntry zl p).bind fun cur ↦
            let firstentrylen := cur.headersize + cur.len
            (zipCascadeLoop curlen curlen
                { zl := zl, prevlen := firstentrylen
                  prevlensize := zipPrevEntryLengthSize firstentrylen, prevoffset := p
                  p := p + firstentrylen, extra := 0, cnt := 0 }).bind fun s ↦
              if s.extra = 0 then some s.zl
              else
                (zipCascadeTail s.zl tail s.prevoffset s.extra).bind fun zl ↦
                  (zipListResize M zl (curlen + s.extra)).bind fun zl ↦
                    (move zl (s.p + s.extra) s.p (curlen - s.p - 1)).bind fun zl ↦
                      zipCascadeMove firstentrylen s.cnt zl (s.p + s.extra) s.prevoffset

/-! ## Deletion -/

/-- The loop of `__zip_list_delete`: the pointer behind the entries to be deleted, and `deleted`. -/
def zipDeleteLoop (zl : List UInt8) (zlbytes : ℕ) : (num p deleted : ℕ) → Option (ℕ × ℕ)
  | num, p, deleted =>
    zl[p]?.bind fun b ↦
      if b = zipEnd then some (p, deleted)
      else
        match num with
        | 0 => some (p, deleted)
        | num + 1 => (zipRawEntryLengthSafe zl zlbytes p).bind fun rawlen ↦
          zipDeleteLoop zl zlbytes num (p + rawlen) (deleted + 1)

/-- The branch of `__zip_list_delete` in which an entry follows the deleted ones, at `p`. It stores the
new `prevlen` of that entry and moves the rest of the list to the front. The block, `set_tail` and
`nextdiff`. -/
def zipDeleteShift (zl : List UInt8) (zlbytes : ℕ) (first : ZlEntry) (p totlen : ℕ) :
    Option (List UInt8 × ℕ × ℤ) :=
  (zipPrevLenByteDiff zl p first.prevrawlen).bind fun nextdiff ↦
    let p := ((p : ℤ) - nextdiff).toNat
    if first.p ≤ p ∧ p < zlbytes - 1 then
      (zipStorePrevEntryLength zl p first.prevrawlen).bind fun zl ↦
        (zipListTailOffset zl).bind fun tailOffset ↦
          (zipAssertEntrySafe zl zlbytes p true).bind fun tail ↦
            zl[p + tail.headersize + tail.len]?.bind fun b ↦
              let setTail := if b ≠ zipEnd then (tailOffset : ℤ) - totlen + nextdiff
                else (tailOffset : ℤ) - totlen
              (move zl first.p p (zlbytes - p - 1)).map fun zl ↦
                (zl, (setTail % 2 ^ 32).toNat, nextdiff)
    else none

/-- `__zip_list_delete`. -/
def zipListDeleteRange (M : Allocator UInt8) (zl : List UInt8) (p num : ℕ) : Option (List UInt8) :=
  (zipListBytes zl).bind fun zlbytes ↦
    (zipEntry zl p).bind fun first ↦
      (zipDeleteLoop zl zlbytes num p 0).bind fun r ↦
        if r.1 < first.p then none
        else
          let totlen := r.1 - first.p
          if totlen = 0 then some zl
          else
            zl[r.1]?.bind fun b ↦
              (if b ≠ zipEnd then zipDeleteShift zl zlbytes first r.1 totlen
                else some (zl, first.p - first.prevrawlen, 0)).bind fun m ↦
                let zlbytes := ((zlbytes : ℤ) - (totlen - m.2.2)).toNat
                (zipListResize M m.1 zlbytes).bind fun zl ↦
                  (zipListIncrLength zl (-r.2)).bind fun zl ↦
                    if m.2.1 ≤ zlbytes - 1 then
                      (zipListSetTailOffset zl m.2.1).bind fun zl ↦
                        if m.2.2 ≠ 0 then zipListCascadeUpdate M zl p else some zl
                    else none

/-- `zip_list_delete`. The pointer keeps its offset. -/
def zipListDelete (M : Allocator UInt8) (zl : List UInt8) (p : ℕ) : Option (List UInt8) :=
  zipListDeleteRange M zl p 1

end LatteC
