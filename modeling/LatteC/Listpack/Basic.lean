import LatteC.Listpack.Number

/-!
# The listpack

`src/listpack/listpack.c`: the elements of a list, serialized into one block. In front there is a
header of six bytes, the total number of bytes (four) and the number of elements (two); behind the
last entry there is one byte `LP_EOF`.

A `list_pack_t*` is its block, which may be longer than the listpack in it; a pointer into it is an
offset. `zmalloc_size` is the usable size of a block, as it is wherever the C library can tell
(`HAVE_MALLOC_SIZE`), and allocation succeeds. A function that fails an assertion or reaches
outside the block returns `none`.
-/

namespace LatteC

open Block

/-- `LP_HDR_SIZE`. -/
def lpHdrSize : ℕ := 6

/-- `list_pack_get_total_bytes` (and `list_pack_bytes`). -/
def listPackGetTotalBytes (lp : List UInt8) : Option ℕ := (read lp 0 4).map leValue

/-- `list_pack_set_total_bytes`. -/
def listPackSetTotalBytes (lp : List UInt8) (v : ℕ) : Option (List UInt8) :=
  write lp 0 (leBytes 4 v)

/-- `list_pack_get_num_elements`. -/
def listPackGetNumElements (lp : List UInt8) : Option ℕ := (read lp 4 2).map leValue

/-- `list_pack_set_num_elements`. -/
def listPackSetNumElements (lp : List UInt8) (v : ℕ) : Option (List UInt8) :=
  write lp 4 (leBytes 2 v)

/-- `list_pack_new`. -/
def listPackNew (M : Allocator UInt8) (capacity : ℕ) : Option (List UInt8) :=
  (listPackSetTotalBytes (M.block (max capacity (lpHdrSize + 1))) (lpHdrSize + 1)).bind fun lp ↦
    (listPackSetNumElements lp 0).bind fun lp ↦ write lp lpHdrSize [lpEof]

/-! ## Moving from entry to entry -/

/-- `list_pack_skip`. -/
def listPackSkip (lp : List UInt8) (p : ℕ) : Option ℕ :=
  (listPackCurrentEncodeSizeUnsafe (lp.drop p)).map fun entrylen ↦
    p + (entrylen + listPackEncodeBacklenBytes entrylen)

/-- What `list_pack_validate_next` returns: 0, or 1 and the new `*pp`. -/
inductive LpValidation where
  | rejected
  | accepted (pp : Option ℕ)

/-- `OUT_OF_RANGE`. -/
def lpOutOfRange (lpbytes p : ℕ) : Bool := p < lpHdrSize || lpbytes - 1 < p

/-- `list_pack_validate_next`. -/
def listPackValidateNext (lp : List UInt8) (pp : Option ℕ) (lpbytes : ℕ) : Option LpValidation :=
  match pp with
  | none => some .rejected
  | some p =>
    if lpOutOfRange lpbytes p then some .rejected
    else
      lp[p]?.bind fun b ↦
        if b = lpEof then some (.accepted none)
        else
          let lenbytes := listPackCurrentEncodeSizeBytes b
          if lenbytes = 0 then some .rejected
          else if lpOutOfRange lpbytes (p + lenbytes) then some .rejected
          else
            (listPackCurrentEncodeSizeUnsafe (lp.drop p)).bind fun size ↦
              let encodedBacklen := listPackEncodeBacklenBytes size
              let entrylen := size + encodedBacklen
              if lpOutOfRange lpbytes (p + entrylen) then some .rejected
              else
                (listPackDecodeBacklen lp (p + entrylen - 1)).map fun prevlen ↦
                  -- the sum is of type `uint64_t`
                  if (prevlen + encodedBacklen) % 2 ^ 64 ≠ entrylen then .rejected
                  else .accepted (some (p + entrylen))

/-- `list_pack_assert_valid_entry`. -/
def listPackAssertValidEntry (lp : List UInt8) (lpbytes p : ℕ) : Option Unit :=
  (listPackValidateNext lp (some p) lpbytes).bind fun r ↦
    match r with
    | .rejected => none
    | .accepted _ => some ()

/-- `p` unless it is at the end of the listpack: how `list_pack_first` and `list_pack_next` end. -/
def lpEntryAt (lp : List UInt8) (p : ℕ) : Option (Option ℕ) :=
  lp[p]?.bind fun b ↦
    if b = lpEof then some none
    else
      (listPackGetTotalBytes lp).bind fun lpbytes ↦
        (listPackAssertValidEntry lp lpbytes p).map fun _ ↦ some p

/-- `list_pack_first`. -/
def listPackFirst (lp : List UInt8) : Option (Option ℕ) := lpEntryAt lp lpHdrSize

/-- `list_pack_next`. -/
def listPackNext (lp : List UInt8) (p : ℕ) : Option (Option ℕ) :=
  (listPackSkip lp p).bind (lpEntryAt lp)

/-! ## Insertion, replacement and removal -/

/-- The `where` of an insertion. -/
inductive LpWhere where
  | before
  | after
  | replace
  deriving DecidableEq

/-- What `_list_pack_insert` is to insert: `elestr`, or the `intenc` of `eleint`, or neither of
them, which means to delete. -/
inductive LpEle where
  | elestr (s : List UInt8)
  | eleint (intenc : List UInt8)
  | delete

/-- `list_pack_encode_get_type`: `intenc` for `LP_ENCODING_INT`, and `enclen`. -/
def listPackEncodeGetType (ele : List UInt8) : Option (List UInt8) × ℕ :=
  match listPackStringToInt64 ele with
  | some v => (some (listPackEncodeIntegerGetType v), (listPackEncodeIntegerGetType v).length)
  | none =>
    let size := ele.length
    (none, if size < 64 then 1 + size else if size < 4096 then 2 + size else 5 + size)

/-- The bytes that `_list_pack_insert` stores in front of the backlen, and `enclen`. -/
def lpEncoded : LpEle → List UInt8 × ℕ
  | .elestr s =>
    match listPackEncodeGetType s with
    | (some intenc, enclen) => (intenc, enclen)
    | (none, enclen) => (listPackEncodeString s, enclen)
  | .eleint intenc => (intenc, intenc.length)
  | .delete => ([], 0)

/-- Both pointers are NULL. -/
def LpEle.isDelete : LpEle → Bool
  | .delete => true
  | _ => false

/-- The position and the `where` to work with: an insertion behind an entry is one in front of the
next. -/
def lpPosition (lp : List UInt8) (p : ℕ) : LpWhere → Option (ℕ × LpWhere)
  | .after =>
    (listPackSkip lp p).bind fun p ↦
      (listPackGetTotalBytes lp).bind fun total ↦
        -- `assert_integrity`
        if lpHdrSize ≤ p ∧ p < total then some (p, .before) else none
  | whr => some (p, whr)

/-- `replaced_len`, a `uint32_t`. -/
def lpReplacedLen (lp : List UInt8) (p : ℕ) : LpWhere → Option ℕ
  | .replace =>
    (listPackCurrentEncodeSizeUnsafe (lp.drop p)).bind fun size ↦
      let len := (size + listPackEncodeBacklenBytes size) % 2 ^ 32
      (listPackGetTotalBytes lp).bind fun total ↦
        -- `assert_integrity_len`
        if lpHdrSize ≤ p ∧ p + len < total then some len else none
  | _ => some 0

/-- `*newp`: behind a removed last entry there is nothing to point at. -/
def lpNewp (lp : List UInt8) (dst : ℕ) (delete : Bool) : Option (Option ℕ) :=
  if delete then lp[dst]?.map fun b ↦ if b = lpEof then none else some dst else some (some dst)

/-- Count an element in or out. The number of elements stays at `UINT16_MAX` once it is there. -/
def lpRecount (lp : List UInt8) (delete : Bool) (whr : LpWhere) : Option (List UInt8) :=
  if whr ≠ .replace ∨ delete then
    (listPackGetNumElements lp).bind fun num ↦
      if num = 2 ^ 16 - 1 then some lp
      else if delete then listPackSetNumElements lp ((num + (2 ^ 32 - 1)) % 2 ^ 32)
      else listPackSetNumElements lp (num + 1)
  else some lp

/-- `_list_pack_insert` from the position on: `replaced_len` bytes at `poff` give way to the new
entry. In front of an entry these are none, so the two `memmove`s of the source are one here. -/
def lpInsertAt (M : Allocator UInt8) (lp : List UInt8) (ele : LpEle) (poff replacedLen : ℕ)
    (whr : LpWhere) : Option (List UInt8 × Option ℕ) :=
  let enc := (lpEncoded ele).1
  let enclen := (lpEncoded ele).2
  let backlen := if ele.isDelete then [] else listPackEncodeBacklen enclen
  (listPackGetTotalBytes lp).bind fun oldBytes ↦
    let newBytes := oldBytes + enclen + backlen.length - replacedLen
    if 2 ^ 32 - 1 < newBytes ∨ oldBytes < poff + replacedLen then none
    else
      let lp := if oldBytes < newBytes ∧ lp.length < newBytes then M.resize lp newBytes else lp
      (move lp (poff + (enclen + backlen.length)) (poff + replacedLen)
        (oldBytes - poff - replacedLen)).bind fun lp ↦
        let lp := if newBytes < oldBytes then M.resize lp newBytes else lp
        (lpNewp lp poff ele.isDelete).bind fun newp ↦
          (write lp poff enc).bind fun lp ↦
            (write lp (poff + enclen) backlen).bind fun lp ↦
              (lpRecount lp ele.isDelete whr).bind fun lp ↦
                (listPackSetTotalBytes lp newBytes).map fun lp ↦ (lp, newp)

/-- `_list_pack_insert`. The second component is `*newp`. -/
def listPackInsert (M : Allocator UInt8) (lp : List UInt8) (ele : LpEle) (p : ℕ) (whr : LpWhere) :
    Option (List UInt8 × Option ℕ) :=
  let whr := if ele.isDelete then .replace else whr
  (lpPosition lp p whr).bind fun pos ↦
    (lpReplacedLen lp pos.1 pos.2).bind fun replacedLen ↦
      lpInsertAt M lp ele pos.1 replacedLen pos.2

section Interface

variable (M : Allocator UInt8) (lp : List UInt8)

/-- `list_pack_insert_string`. -/
def listPackInsertString (s : List UInt8) (p : ℕ) (whr : LpWhere) :
    Option (List UInt8 × Option ℕ) :=
  listPackInsert M lp (.elestr s) p whr

/-- `list_pack_insert_integer`. -/
def listPackInsertInteger (lval : ℤ) (p : ℕ) (whr : LpWhere) : Option (List UInt8 × Option ℕ) :=
  listPackInsert M lp (.eleint (listPackEncodeIntegerGetType lval)) p whr

/-- Insertion in front of the end of the listpack: `list_pack_append_string` and
`list_pack_append_integer`. -/
def lpAppend (ele : LpEle) : Option (List UInt8) :=
  (listPackGetTotalBytes lp).bind fun bytes ↦
    (listPackInsert M lp ele (bytes - 1) .before).map Prod.fst

/-- Insertion in front of the first entry, if there is one. -/
def lpPrepend (ele : LpEle) : Option (List UInt8) :=
  (listPackFirst lp).bind fun p ↦
    match p with
    | none => lpAppend M lp ele
    | some p => (listPackInsert M lp ele p .before).map Prod.fst

/-- `list_pack_append_string`. -/
def listPackAppendString (s : List UInt8) : Option (List UInt8) := lpAppend M lp (.elestr s)

/-- `list_pack_append_integer`. -/
def listPackAppendInteger (lval : ℤ) : Option (List UInt8) :=
  lpAppend M lp (.eleint (listPackEncodeIntegerGetType lval))

/-- `list_pack_prepend_string`. -/
def listPackPrependString (s : List UInt8) : Option (List UInt8) := lpPrepend M lp (.elestr s)

/-- `list_pack_prepend_integer`. -/
def listPackPrependInteger (lval : ℤ) : Option (List UInt8) :=
  lpPrepend M lp (.eleint (listPackEncodeIntegerGetType lval))

/-- `list_pack_replace_string`, which leaves `*p` as it is. -/
def listPackReplaceString (p : ℕ) (s : List UInt8) : Option (List UInt8) :=
  (listPackInsert M lp (.elestr s) p .replace).map Prod.fst

/-- `list_pack_replace_integer`, with the new `*p`. -/
def listPackReplaceInteger (p : ℕ) (lval : ℤ) : Option (List UInt8 × Option ℕ) :=
  listPackInsertInteger M lp lval p .replace

/-- `list_pack_remove`. -/
def listPackRemove (p : ℕ) : Option (List UInt8 × Option ℕ) := listPackInsert M lp .delete p .replace

end Interface

/-! ## Decoding -/

/-- Read an entry and go to the next one, to the end; `fuel` bounds the number of entries. -/
def lpDecodeFrom (lp : List UInt8) : (fuel : ℕ) → Option ℕ → Option (List LpElement)
  | _, none => some []
  | 0, some _ => none
  | fuel + 1, some p =>
    (listPackGet (lp.drop p)).bind fun e ↦
      (listPackNext lp p).bind fun next ↦ (lpDecodeFrom lp fuel next).map (e :: ·)

/-- The elements of a listpack from front to back, as a caller reads them through `list_pack_first`,
`list_pack_get` and `list_pack_next`. -/
def lpDecode (lp : List UInt8) : Option (List LpElement) :=
  (listPackFirst lp).bind (lpDecodeFrom lp lp.length)

end LatteC
