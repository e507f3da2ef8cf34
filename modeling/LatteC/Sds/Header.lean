import LatteC.Foundation.Block
import Mathlib.Tactic.NormNum

/-!
# Strings with their headers

`src/sds/sds.c` and `src/sds/sds.h` on the bytes of the allocation: a string is a pointer into a
block, and in front of it stand the two length fields and the byte with the header type. Access
outside the block is a fault.

## What a call can end in

`zmalloc` and its siblings call `abort` when no memory is left, and the `assert`s of the source stop
the program as well; both are outcomes of the model. `zrealloc` of a size of zero frees the block and
returns NULL.
-/

namespace LatteC

open Block

/-- Why a call does not return a string. -/
inductive SdsHalt where
  /-- An assertion of the source failed. -/
  | assert
  /-- `zmalloc` or `zrealloc` aborted: out of memory. -/
  | oom
  /-- The call returned NULL. -/
  | null
  /-- A read or a write outside the block. -/
  | fault
  deriving DecidableEq, Repr

/-- The outcome of a call. -/
abbrev SdsResult := Except SdsHalt

theorem ok_bind {α β : Type} (a : α) (f : α → SdsResult β) : ((.ok a : SdsResult α) >>= f) = f a := rfl

/-- An access to a block. -/
def orFault {α : Type} : Option α → SdsResult α
  | some a => .ok a
  | none => .error .fault

/-- `assert`. -/
def sassert (p : Prop) [Decidable p] : SdsResult Unit :=
  if p then .ok () else .error .assert

/-! ## The allocator -/

/-- `zmalloc` at one call: what it returns for a request of `n` bytes. The block is as long as its
usable size. -/
structure Zmalloc where
  malloc : ℕ → Option (List UInt8)
  le_length : ∀ {n b}, malloc n = some b → n ≤ b.length
  length_lt : ∀ {n b}, malloc n = some b → b.length < 2 ^ 64
  /-- `je_nallocx`, in a build with that allocator. -/
  nallocx : Option (ℕ → ℕ)
  le_nallocx : ∀ {f}, nallocx = some f → ∀ n, n ≤ f n

/-- `zmalloc(n)`. -/
def Zmalloc.alloc (M : Zmalloc) (n : ℕ) : SdsResult (List UInt8) :=
  match M.malloc n with
  | some b => .ok b
  | none => .error .oom

/-- `zrealloc(b, n)`. -/
def Zmalloc.realloc (M : Zmalloc) (b : List UInt8) (n : ℕ) : SdsResult (List UInt8) :=
  if n = 0 then .error .null
  else match M.malloc n with
    | some fresh => .ok (b.take n ++ fresh.drop (min n b.length))
    | none => .error .oom

/-! ## Header types -/

/-- `SDS_TYPE_5` to `SDS_TYPE_64`. -/
inductive SdsType where
  | type5
  | type8
  | type16
  | type32
  | type64
  deriving DecidableEq, Repr

/-- The value of the constant. -/
def SdsType.code : SdsType → ℕ
  | type5 => 0
  | type8 => 1
  | type16 => 2
  | type32 => 3
  | type64 => 4

/-- The type of a value. -/
def SdsType.ofCode : ℕ → Option SdsType
  | 0 => some type5
  | 1 => some type8
  | 2 => some type16
  | 3 => some type32
  | 4 => some type64
  | _ => none

/-- How many bytes the fields `len` and `alloc` have each. The shortest header has neither. -/
def SdsType.width : SdsType → ℕ
  | type5 => 0
  | type8 => 1
  | type16 => 2
  | type32 => 4
  | type64 => 8

/-- `sdsHdrSize`: the size of the packed structure. -/
def sdsHdrSize : SdsType → ℕ
  | .type5 => 1
  | .type8 => 3
  | .type16 => 5
  | .type32 => 9
  | .type64 => 17

/-- `sdsReqType`, with 64-bit longs. -/
def sdsReqType (stringSize : ℕ) : SdsType :=
  if stringSize < 2 ^ 5 then .type5
  else if stringSize < 2 ^ 8 then .type8
  else if stringSize < 2 ^ 16 then .type16
  else if stringSize < 2 ^ 32 then .type32
  else .type64

/-- `sdsTypeMaxSize`. -/
def sdsTypeMaxSize : SdsType → ℕ
  | .type5 => 2 ^ 5 - 1
  | .type8 => 2 ^ 8 - 1
  | .type16 => 2 ^ 16 - 1
  | .type32 => 2 ^ 32 - 1
  | .type64 => 2 ^ 64 - 1

/-- Subtraction of a `size_t`. -/
def usableSub (a b : ℕ) : ℕ := (a + 2 ^ 64 - b) % 2 ^ 64

/-- What is left of the usable size of a block behind the header and without the NUL, as far as the
header can say it. -/
def usableRoom (type : SdsType) (usable : ℕ) : ℕ :=
  let usable := usableSub (usableSub usable (sdsHdrSize type)) 1
  if usable > sdsTypeMaxSize type then sdsTypeMaxSize type else usable

/-! ## The string and its header -/

/-- An `sds_t`: the allocation, and where in it the string begins. -/
structure Sds where
  block : List UInt8
  pos : ℕ
  deriving DecidableEq, Repr

namespace Sds

/-- The `n` bytes that begin `back` bytes in front of the string. -/
def peek (s : Sds) (back n : ℕ) : SdsResult (List UInt8) :=
  if back ≤ s.pos then orFault (Block.read s.block (s.pos - back) n) else .error .fault

/-- Store bytes from `back` bytes in front of the string on. -/
def poke (s : Sds) (back : ℕ) (xs : List UInt8) : SdsResult Sds :=
  if back ≤ s.pos then
    (orFault (Block.write s.block (s.pos - back) xs)).map fun b ↦ { s with block := b }
  else .error .fault

/-- `memcpy(s+i, xs, …)`. -/
def store (s : Sds) (i : ℕ) (xs : List UInt8) : SdsResult Sds :=
  (orFault (Block.write s.block (s.pos + i) xs)).map fun b ↦ { s with block := b }

/-- `s[-1]`. -/
def flags (s : Sds) : SdsResult ℕ := (s.peek 1 1).map leValue

/-- `s[-1] & SDS_TYPE_MASK`. The switches of the source pass over the values that are of no type;
here they count as a fault. -/
def type (s : Sds) : SdsResult SdsType := do
  let flags ← s.flags
  orFault (SdsType.ofCode (flags % 8))

/-- `SDS_HDR(T,s)->len`. -/
def lenField (s : Sds) (t : SdsType) : SdsResult ℕ := (s.peek (sdsHdrSize t) t.width).map leValue

/-- `SDS_HDR(T,s)->alloc`. -/
def allocField (s : Sds) (t : SdsType) : SdsResult ℕ :=
  (s.peek (sdsHdrSize t - t.width) t.width).map leValue

/-- `sds_len`. -/
def len (s : Sds) : SdsResult ℕ := do
  match ← s.type with
  | .type5 => (s.flags).map (· / 8)
  | t => s.lenField t

/-- `sds_set_len`. -/
def setLen (s : Sds) (newlen : ℕ) : SdsResult Sds := do
  match ← s.type with
  | .type5 => s.poke 1 [UInt8.ofNat (newlen * 8)]
  | t => s.poke (sdsHdrSize t) (leBytes t.width newlen)

/-- `sds_set_alloc`. -/
def setAlloc (s : Sds) (newlen : ℕ) : SdsResult Sds := do
  match ← s.type with
  -- this type has no total allocation info
  | .type5 => .ok s
  | t => s.poke (sdsHdrSize t - t.width) (leBytes t.width newlen)

/-- `sds_avail`. The fields of the two small types are promoted to `int`, and the difference is then
converted to `size_t`. -/
def avail (s : Sds) : SdsResult ℕ := do
  match ← s.type with
  | .type5 => .ok 0
  | .type32 =>
    let len ← s.lenField .type32
    let alloc ← s.allocField .type32
    .ok ((alloc + 2 ^ 32 - len) % 2 ^ 32)
  | t =>
    let len ← s.lenField t
    let alloc ← s.allocField t
    .ok (usableSub alloc len)

/-- `sds_alloc`. -/
def alloc (s : Sds) : SdsResult ℕ := do
  match ← s.type with
  | .type5 => (s.flags).map (· / 8)
  | t => s.allocField t

/-! ## Calls -/

/-- The argument `init` of `sds_new_len`. -/
inductive Init where
  /-- A pointer to `initlen` bytes. -/
  | bytes (xs : List UInt8)
  /-- NULL. -/
  | null (initlen : ℕ)
  /-- `SDS_NOINIT`. -/
  | noinit (initlen : ℕ)

/-- The argument `initlen`. -/
def Init.initlen : Init → ℕ
  | bytes xs => xs.length
  | null n => n
  | noinit n => n

/-- The switch of `sds_new_len` that fills the header in. -/
def initHeader (s : Sds) (type : SdsType) (initlen usable : ℕ) : SdsResult Sds :=
  match type with
  | .type5 => s.poke 1 [UInt8.ofNat (initlen * 8)]
  | t => do
    let s ← s.poke (sdsHdrSize t) (leBytes t.width initlen)
    let s ← s.poke (sdsHdrSize t - t.width) (leBytes t.width usable)
    s.poke 1 [UInt8.ofNat t.code]

/-- NULL asks for zeros. -/
def Init.memset (init : Init) (sh : List UInt8) (hdrlen : ℕ) : SdsResult (List UInt8) :=
  match init with
  | null n => orFault (Block.write sh 0 (List.replicate (hdrlen + n + 1) 0))
  | _ => .ok sh

/-- The copy of the bytes of `init`. -/
def Init.memcpy (init : Init) (s : Sds) : SdsResult Sds :=
  match init with
  | bytes xs => if xs.length = 0 then .ok s else s.store 0 xs
  | _ => .ok s

/-- `sds_new_len`. -/
def newLen (M : Zmalloc) (init : Init) : SdsResult Sds := do
  let initlen := init.initlen
  let type := sdsReqType initlen
  -- empty strings are usually created in order to append
  let type := if type = .type5 ∧ initlen = 0 then .type8 else type
  let hdrlen := sdsHdrSize type
  sassert (initlen < (initlen + hdrlen + 1) % 2 ^ 64)
  let sh ← M.alloc ((hdrlen + initlen + 1) % 2 ^ 64)
  let usable := sh.length
  let sh ← init.memset sh hdrlen
  let s : Sds := ⟨sh, hdrlen⟩
  let s ← s.initHeader type initlen (usableRoom type usable)
  let s ← init.memcpy s
  s.store initlen [0]

/-- `SDS_MAX_PREALLOC`. -/
def maxPrealloc : ℕ := 1024 * 1024

/-- `zrealloc` of the allocation, to `n` bytes behind a header of the same type. -/
def reallocBlock (s : Sds) (M : Zmalloc) (type : SdsType) (n : ℕ) : SdsResult Sds := do
  let newsh ← M.realloc s.block n
  .ok ⟨newsh, sdsHdrSize type⟩

/-- A new allocation of `n` bytes with a header of another size, and the first `k` bytes from `s` on.
Of the header only the type is filled in. -/
def copyBlock (s : Sds) (M : Zmalloc) (type : SdsType) (k n : ℕ) : SdsResult Sds := do
  let newsh ← M.alloc n
  let old ← orFault (Block.read s.block s.pos k)
  let newsh ← orFault (Block.write newsh (sdsHdrSize type) old)
  poke ⟨newsh, sdsHdrSize type⟩ 1 [UInt8.ofNat type.code]

/-- The two ways of `_sds_make_room_for` to a larger block, of `n` bytes. -/
def growBlock (s : Sds) (M : Zmalloc) (oldtype type : SdsType) (len n : ℕ) : SdsResult Sds :=
  if oldtype = type then s.reallocBlock M type n
  else do
    let s ← s.copyBlock M type (len + 1) n
    s.setLen len

/-- `_sds_make_room_for`; `exact` is the flag `SDS_MAKE_ROOM_EXACT`. -/
def makeRoomForFlags (M : Zmalloc) (s : Sds) (addlen : ℕ) (exact : Bool) : SdsResult Sds := do
  let avail ← s.avail
  let oldtype ← s.type
  if avail ≥ addlen then .ok s
  else
    let len ← s.len
    let reqlen := (len + addlen) % 2 ^ 64
    sassert (reqlen > len)
    let newlen :=
      if exact then reqlen
      else if reqlen < maxPrealloc then (reqlen * 2) % 2 ^ 64
      else (reqlen + maxPrealloc) % 2 ^ 64
    let type := sdsReqType newlen
    -- type 5 is not able to remember empty space
    let type := if type = .type5 then .type8 else type
    let hdrlen := sdsHdrSize type
    sassert ((hdrlen + newlen + 1) % 2 ^ 64 > reqlen)
    let s ← s.growBlock M oldtype type len ((hdrlen + newlen + 1) % 2 ^ 64)
    s.setAlloc (usableRoom type s.block.length)

/-- `sds_make_room_for`. -/
def makeRoomFor (M : Zmalloc) (s : Sds) (addlen : ℕ) : SdsResult Sds :=
  makeRoomForFlags M s addlen false

/-- `sds_make_room_forExact`. -/
def makeRoomForExact (M : Zmalloc) (s : Sds) (addlen : ℕ) : SdsResult Sds :=
  makeRoomForFlags M s addlen true

/-- `sds_cat_len`. -/
def catLen (M : Zmalloc) (s : Sds) (t : List UInt8) : SdsResult Sds := do
  let curlen ← s.len
  let s ← s.makeRoomFor M t.length
  let s ← s.store curlen t
  let s ← s.setLen ((curlen + t.length) % 2 ^ 64)
  s.store (curlen + t.length) [0]

/-- `sds_clear`. -/
def clear (s : Sds) : SdsResult Sds := do
  let s ← s.setLen 0
  s.store 0 [0]

/-- The assertion of `sds_incr_len`, with the conversions of each header type. -/
def incrAllowed (t : SdsType) (len alloc : ℕ) (incr : ℤ) : Prop :=
  match t with
  | .type5 => (0 < incr ∧ len + incr < 32) ∨ (incr < 0 ∧ -incr % 2 ^ 32 ≤ len)
  | .type8 | .type16 => (0 ≤ incr ∧ incr ≤ (alloc : ℤ) - len) ∨ (incr < 0 ∧ -incr % 2 ^ 32 ≤ len)
  | .type32 =>
    (0 ≤ incr ∧ incr % 2 ^ 32 ≤ ((alloc : ℤ) - len) % 2 ^ 32) ∨ (incr < 0 ∧ -incr % 2 ^ 32 ≤ len)
  | .type64 =>
    (0 ≤ incr ∧ incr % 2 ^ 64 ≤ ((alloc : ℤ) - len) % 2 ^ 64) ∨ (incr < 0 ∧ -incr % 2 ^ 64 ≤ len)

instance (t : SdsType) (len alloc : ℕ) (incr : ℤ) : Decidable (incrAllowed t len alloc incr) :=
  match t with
  | .type5 | .type8 | .type16 | .type32 | .type64 => inferInstanceAs (Decidable (_ ∨ _))

/-- `sds_incr_len`. The new length is read back from the field, in its width. -/
def incrLen (s : Sds) (incr : ℤ) : SdsResult Sds := do
  match ← s.type with
  | .type5 =>
    let oldlen ← s.len
    sassert (incrAllowed .type5 oldlen 0 incr)
    let len := ((oldlen + incr) % 2 ^ 64).toNat
    let s ← s.setLen len
    s.store len [0]
  | t =>
    let oldlen ← s.lenField t
    let alloc ← s.allocField t
    sassert (incrAllowed t oldlen alloc incr)
    let len := ((oldlen + incr) % 2 ^ (8 * t.width)).toNat
    let s ← s.setLen len
    s.store len [0]

/-- The two ways of `sds_resize` to a block of another size. A header of a larger type than needed
stays, unless the needed type is one of the two smallest. -/
def resizeBlock (s : Sds) (M : Zmalloc) (oldtype type : SdsType) (len size : ℕ) : SdsResult Sds :=
  if oldtype = type ∨ (type.code < oldtype.code ∧ type.code > SdsType.type8.code) then
    let newlen := (sdsHdrSize oldtype + size + 1) % 2 ^ 64
    -- with the one allocator that can tell, a block of the right size stays
    if M.nallocx.any (fun f ↦ f newlen = s.block.length) then .ok s
    else s.reallocBlock M oldtype newlen
  else s.copyBlock M type len ((sdsHdrSize type + size + 1) % 2 ^ 64)

/-- `sds_resize`. There is no check that the size of the block fits into a `size_t`. -/
def resize (M : Zmalloc) (s : Sds) (size : ℕ) (wouldRegrow : Bool) : SdsResult Sds := do
  let oldtype ← s.type
  let len ← s.len
  let alloc ← s.alloc
  if alloc = size then .ok s
  else
    let len := if size < len then size else len
    let type := sdsReqType size
    let type := if wouldRegrow ∧ type = .type5 then .type8 else type
    let s ← s.resizeBlock M oldtype type len size
    let s ← s.store len [0]
    let s ← s.setLen len
    s.setAlloc size

/-! ## The header as a layout

A string whose header has the type `t` stands behind `F₁` and `F₂`, the two fields, and the byte with
the type. -/

/-- The string behind a header of type `t` with the given bytes. -/
def frame (t : SdsType) (F₁ F₂ : List UInt8) (c : UInt8) (buf : List UInt8) : Sds :=
  ⟨F₁ ++ F₂ ++ [c] ++ buf, sdsHdrSize t⟩

/-- The byte in front of the string. The shortest header keeps the length in it. -/
def flagByte (t : SdsType) (len : ℕ) : UInt8 :=
  if t = .type5 then UInt8.ofNat (len * 8) else UInt8.ofNat t.code

/-- The string whose header says `len` and `alloc`. -/
def rep (t : SdsType) (len alloc : ℕ) (buf : List UInt8) : Sds :=
  frame t (leBytes t.width len) (leBytes t.width alloc) (flagByte t len) buf

end Sds

theorem sdsHdrSize_eq (t : SdsType) : sdsHdrSize t = t.width + t.width + 1 := by
  cases t <;> rfl

theorem sdsHdrSize_pos (t : SdsType) : 1 ≤ sdsHdrSize t := by
  cases t <;> decide

theorem sdsHdrSize_le (t : SdsType) : sdsHdrSize t ≤ 17 := by
  cases t <;> decide

theorem sdsTypeMaxSize_lt (t : SdsType) : sdsTypeMaxSize t < 2 ^ 64 := by
  cases t <;> decide

theorem lt_pow_width {t : SdsType} (ht : t ≠ .type5) {n : ℕ} (h : n ≤ sdsTypeMaxSize t) :
    n < 256 ^ t.width := by
  cases t
  · exact absurd rfl ht
  all_goals
    simp only [sdsTypeMaxSize, SdsType.width] at h ⊢
    omega

/-- The type that is chosen for a size can hold it. -/
theorem le_sdsTypeMaxSize_sdsReqType {n : ℕ} (h : n < 2 ^ 64) : n ≤ sdsTypeMaxSize (sdsReqType n) := by
  unfold sdsReqType
  split_ifs <;> simp only [sdsTypeMaxSize] <;> omega

namespace Sds

/-- Any block with room for the header is such a layout. -/
theorem exists_frame (t : SdsType) {sh : List UInt8} (h : sdsHdrSize t ≤ sh.length) :
    ∃ F₁ F₂ c, F₁.length = t.width ∧ F₂.length = t.width ∧
      (⟨sh, sdsHdrSize t⟩ : Sds) = frame t F₁ F₂ c (sh.drop (sdsHdrSize t)) := by
  rw [sdsHdrSize_eq] at h
  have hget : t.width + t.width < sh.length := by omega
  refine ⟨sh.take t.width, (sh.drop t.width).take t.width, sh[t.width + t.width], ?_, ?_, ?_⟩
  · rw [List.length_take]
    omega
  · rw [List.length_take, List.length_drop]
    omega
  · have hsplit : sh = sh.take t.width ++ (sh.drop t.width).take t.width ++ sh.drop (t.width + t.width) := by
      rw [List.append_assoc, ← List.drop_drop, List.take_append_drop, List.take_append_drop]
    have hcons := List.drop_eq_getElem_cons hget
    rw [frame, Sds.mk.injEq]
    refine ⟨?_, rfl⟩
    rw [sdsHdrSize_eq]
    conv_lhs => rw [hsplit, hcons]
    rw [List.append_assoc _ [_], List.singleton_append]

section Frame

variable {t : SdsType} {F₁ F₂ buf : List UInt8} {c : UInt8}

theorem peek_one_frame (h₁ : F₁.length = t.width) (h₂ : F₂.length = t.width) :
    (frame t F₁ F₂ c buf).peek 1 1 = .ok [c] := by
  have hoff : sdsHdrSize t - 1 = (F₁ ++ F₂).length := by
    rw [sdsHdrSize_eq, List.length_append]
    omega
  have hread := read_append (F₁ ++ F₂) [c] buf
  rw [List.length_singleton] at hread
  rw [peek, frame, if_pos (sdsHdrSize_pos t)]
  simp only [hoff, hread, orFault]

theorem flags_frame (h₁ : F₁.length = t.width) (h₂ : F₂.length = t.width) :
    (frame t F₁ F₂ c buf).flags = .ok c.toNat := by
  rw [flags, peek_one_frame h₁ h₂]
  simp [Except.map, leValue]

theorem type_frame (h₁ : F₁.length = t.width) (h₂ : F₂.length = t.width)
    (hc : c.toNat % 8 = t.code) : (frame t F₁ F₂ c buf).type = .ok t := by
  have hcode : SdsType.ofCode t.code = some t := by cases t <;> rfl
  simp only [type, flags_frame h₁ h₂, bind, Except.bind, hc, hcode, orFault]

theorem poke_flags_frame (h₁ : F₁.length = t.width) (h₂ : F₂.length = t.width) (c' : UInt8) :
    (frame t F₁ F₂ c buf).poke 1 [c'] = .ok (frame t F₁ F₂ c' buf) := by
  have hoff : sdsHdrSize t - 1 = (F₁ ++ F₂).length := by
    rw [sdsHdrSize_eq, List.length_append]
    omega
  have hwrite := write_append (F₁ ++ F₂) buf (show [c'].length = [c].length from rfl)
  rw [poke, frame, if_pos (sdsHdrSize_pos t)]
  simp only [hoff, hwrite, orFault, Except.map]
  rfl

theorem lenField_frame (h₁ : F₁.length = t.width) :
    (frame t F₁ F₂ c buf).lenField t = .ok (leValue F₁) := by
  have hread := read_append [] F₁ (F₂ ++ [c] ++ buf)
  simp only [List.nil_append, List.length_nil, h₁] at hread
  rw [lenField, peek, frame, if_pos le_rfl, Nat.sub_self, List.append_assoc F₁, List.append_assoc F₁,
    hread]
  rfl

theorem poke_lenField_frame (h₁ : F₁.length = t.width) {F : List UInt8} (hF : F.length = t.width) :
    (frame t F₁ F₂ c buf).poke (sdsHdrSize t) F = .ok (frame t F F₂ c buf) := by
  have hwrite := write_append [] (F₂ ++ [c] ++ buf) (show F.length = F₁.length by rw [hF, h₁])
  simp only [List.nil_append, List.length_nil] at hwrite
  rw [poke, frame, if_pos le_rfl, Nat.sub_self, List.append_assoc F₁, List.append_assoc F₁, hwrite]
  simp [orFault, Except.map, frame]

theorem allocField_frame (h₁ : F₁.length = t.width) (h₂ : F₂.length = t.width) :
    (frame t F₁ F₂ c buf).allocField t = .ok (leValue F₂) := by
  have hread := read_append F₁ F₂ ([c] ++ buf)
  have hoff : sdsHdrSize t - (sdsHdrSize t - t.width) = t.width := by
    rw [sdsHdrSize_eq]
    omega
  rw [allocField, peek, frame, if_pos (Nat.sub_le _ _), hoff, List.append_assoc (F₁ ++ F₂)]
  nth_rewrite 1 [← h₁]
  rw [← h₂, hread]
  rfl

theorem poke_allocField_frame (h₁ : F₁.length = t.width) (h₂ : F₂.length = t.width)
    {F : List UInt8} (hF : F.length = t.width) :
    (frame t F₁ F₂ c buf).poke (sdsHdrSize t - t.width) F = .ok (frame t F₁ F c buf) := by
  have hwrite := write_append F₁ ([c] ++ buf) (show F.length = F₂.length by rw [hF, h₂])
  have hoff : sdsHdrSize t - (sdsHdrSize t - t.width) = F₁.length := by
    rw [sdsHdrSize_eq, h₁]
    omega
  rw [poke, frame, if_pos (Nat.sub_le _ _), hoff, List.append_assoc (F₁ ++ F₂), hwrite]
  simp [orFault, Except.map, frame]

theorem length_hdr_frame (h₁ : F₁.length = t.width) (h₂ : F₂.length = t.width) :
    (F₁ ++ F₂ ++ [c]).length = sdsHdrSize t := by
  rw [sdsHdrSize_eq, List.length_append, List.length_append, List.length_singleton, h₁, h₂]

@[simp] theorem pos_frame : (frame t F₁ F₂ c buf).pos = sdsHdrSize t := rfl

theorem length_block_frame (h₁ : F₁.length = t.width) (h₂ : F₂.length = t.width) :
    (frame t F₁ F₂ c buf).block.length = sdsHdrSize t + buf.length := by
  rw [frame, List.length_append, length_hdr_frame h₁ h₂]

/-- Reading the buffer of a string. -/
theorem read_frame (h₁ : F₁.length = t.width) (h₂ : F₂.length = t.width) {i n : ℕ}
    {xs : List UInt8} (h : Block.read buf i n = some xs) :
    Block.read (frame t F₁ F₂ c buf).block ((frame t F₁ F₂ c buf).pos + i) n = some xs := by
  have hlen := length_hdr_frame (c := c) h₁ h₂
  rw [frame, ← hlen]
  exact read_prefix_append _ h

theorem store_frame (h₁ : F₁.length = t.width) (h₂ : F₂.length = t.width) {i : ℕ}
    {xs : List UInt8} {buf' : List UInt8} (h : Block.write buf i xs = some buf') :
    (frame t F₁ F₂ c buf).store i xs = .ok (frame t F₁ F₂ c buf') := by
  have hlen := length_hdr_frame (c := c) h₁ h₂
  have hwrite := write_prefix_append (F₁ ++ F₂ ++ [c]) h
  rw [store, frame]
  simp only [← hlen, hwrite, orFault, Except.map]
  rw [frame, hlen]

theorem setLen_frame (h₁ : F₁.length = t.width) (h₂ : F₂.length = t.width)
    (hc : c.toNat % 8 = t.code) (n : ℕ) :
    (frame t F₁ F₂ c buf).setLen n =
      .ok (frame t (leBytes t.width n) F₂ (if t = .type5 then UInt8.ofNat (n * 8) else c) buf) := by
  simp only [setLen, type_frame h₁ h₂ hc, bind, Except.bind]
  cases t
  · rw [if_pos rfl]
    simp only
    rw [poke_flags_frame h₁ h₂, List.length_eq_zero_iff.mp h₁]
    rfl
  all_goals
    simp only [reduceCtorEq, if_false]
    exact poke_lenField_frame h₁ (length_leBytes _ _)

theorem setAlloc_frame (h₁ : F₁.length = t.width) (h₂ : F₂.length = t.width)
    (hc : c.toNat % 8 = t.code) (n : ℕ) :
    (frame t F₁ F₂ c buf).setAlloc n = .ok (frame t F₁ (leBytes t.width n) c buf) := by
  simp only [setAlloc, type_frame h₁ h₂ hc, bind, Except.bind]
  cases t
  · rw [List.length_eq_zero_iff.mp h₂]
    rfl
  all_goals exact poke_allocField_frame h₁ h₂ (length_leBytes _ _)

theorem initHeader_frame (h₁ : F₁.length = t.width) (h₂ : F₂.length = t.width) (n a : ℕ) :
    (frame t F₁ F₂ c buf).initHeader t n a = .ok (rep t n a buf) := by
  cases t
  · rw [initHeader, poke_flags_frame h₁ h₂, List.length_eq_zero_iff.mp h₁,
      List.length_eq_zero_iff.mp h₂]
    rfl
  all_goals
    simp only [initHeader, poke_lenField_frame h₁ (length_leBytes _ _), bind, Except.bind,
      poke_allocField_frame (length_leBytes _ _) h₂ (length_leBytes _ _),
      poke_flags_frame (length_leBytes _ _) (length_leBytes _ _)]
    rfl

end Frame

/-! ## The fields of a header -/

theorem flagByte_mod (t : SdsType) (len : ℕ) : (flagByte t len).toNat % 8 = t.code := by
  rw [flagByte]
  split_ifs with ht
  · rw [ht, SdsType.code, UInt8.toNat_ofNat']
    omega
  · cases t <;> rfl

section Rep

variable {t : SdsType} {len alloc n : ℕ} {buf : List UInt8}

@[simp] theorem type_rep : (rep t len alloc buf).type = .ok t :=
  type_frame (length_leBytes _ _) (length_leBytes _ _) (flagByte_mod t len)

@[simp] theorem setLen_rep : (rep t len alloc buf).setLen n = .ok (rep t n alloc buf) := by
  rw [rep, setLen_frame (length_leBytes _ _) (length_leBytes _ _) (flagByte_mod t len), rep]
  simp only [flagByte]
  split_ifs <;> rfl

@[simp] theorem setAlloc_rep : (rep t len alloc buf).setAlloc n = .ok (rep t len n buf) :=
  setAlloc_frame (length_leBytes _ _) (length_leBytes _ _) (flagByte_mod t len) n

theorem store_rep {i : ℕ} {xs buf' : List UInt8} (h : Block.write buf i xs = some buf') :
    (rep t len alloc buf).store i xs = .ok (rep t len alloc buf') :=
  store_frame (length_leBytes _ _) (length_leBytes _ _) h

/-- The shortest header says nothing about the room. -/
theorem rep_type5 (a : ℕ) : rep .type5 len alloc buf = rep .type5 len a buf := rfl

theorem lenField_rep (ht : t ≠ .type5) (h : len ≤ sdsTypeMaxSize t) :
    (rep t len alloc buf).lenField t = .ok len := by
  rw [rep, lenField_frame (length_leBytes _ _), leValue_leBytes (lt_pow_width ht h)]

theorem allocField_rep (ht : t ≠ .type5) (h : alloc ≤ sdsTypeMaxSize t) :
    (rep t len alloc buf).allocField t = .ok alloc := by
  rw [rep, allocField_frame (length_leBytes _ _) (length_leBytes _ _),
    leValue_leBytes (lt_pow_width ht h)]

theorem flags_rep_type5 (h : len ≤ sdsTypeMaxSize .type5) :
    (rep .type5 len alloc buf).flags.map (· / 8) = .ok len := by
  rw [sdsTypeMaxSize] at h
  rw [rep, flags_frame (length_leBytes _ _) (length_leBytes _ _), flagByte, if_pos rfl, Except.map,
    UInt8.toNat_ofNat']
  congr 1
  omega

theorem len_rep (h : len ≤ sdsTypeMaxSize t) : (rep t len alloc buf).len = .ok len := by
  simp only [Sds.len, type_rep, bind, Except.bind]
  cases t
  · exact flags_rep_type5 h
  all_goals exact lenField_rep (by decide) h

/-- The shortest header has no room of its own. -/
theorem alloc_rep (hlen : len ≤ sdsTypeMaxSize t) (h : alloc ≤ sdsTypeMaxSize t) :
    (rep t len alloc buf).alloc = .ok (if t = .type5 then len else alloc) := by
  simp only [Sds.alloc, type_rep, bind, Except.bind]
  cases t
  · exact flags_rep_type5 hlen
  all_goals exact allocField_rep (by decide) h

theorem avail_rep (hle : len ≤ alloc) (h : alloc ≤ sdsTypeMaxSize t) :
    (rep t len alloc buf).avail = .ok (if t = .type5 then 0 else alloc - len) := by
  have hlen := le_trans hle h
  have hlt := lt_of_le_of_lt h (sdsTypeMaxSize_lt t)
  simp only [Sds.avail, type_rep, bind, Except.bind]
  cases t
  · rfl
  case type32 =>
    have hwidth : alloc ≤ 2 ^ 32 - 1 := h
    simp only [lenField_rep (by decide) hlen, allocField_rep (by decide) h, reduceCtorEq, if_false]
    congr 1
    omega
  all_goals
    simp only [lenField_rep (by decide) hlen, allocField_rep (by decide) h, reduceCtorEq, if_false,
      usableSub]
    congr 1
    omega

end Rep

end Sds

end LatteC
