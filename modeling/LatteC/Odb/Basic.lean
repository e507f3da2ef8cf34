import LatteC.Foundation.Block
import LatteC.Foundation.CallMachine
import LatteC.Sds.Basic

/-!
# The odb stream

`src/odb/odb.c`: numbers, strings and binaries written one after the other into a buffer `oio`, and
read back from it. Nothing in the stream tells one kind of record from another; the reader has to ask
for the records in the order in which they were written.

The counters `processed_bytes` and `max_processing_chunk` are left out, since nothing reads them.
A read that would copy from outside of the buffer is a fault, `none`; a read that reports failure to
its caller answers `some (_, none)`. Memory for what is read is always there.

## The argument

A record has an image in the stream, `OdbRecord.bytes`. Writing appends the image (`odbWrite_eq`),
reading at the front of an image takes it off (`odbRead_bytes`), and reading where the stream ends within
the image reports failure (`odbRead_short`). `Oio.At` says where a reader is; under it the unsigned
subtraction of `oio_buffer_read` does not wrap.
-/

namespace LatteC

open Block

/-- An `oio` with the buffer backend. -/
structure Oio where
  /-- The buffer itself, an sds. -/
  ptr : List UInt8
  pos : ℕ
deriving DecidableEq

/-- `odb_oio_create_buffer`. -/
def odbOioCreateBuffer : Oio := ⟨[], 0⟩

/-- `odb_oio_buffer_rewind`. -/
def odbOioBufferRewind (o : Oio) : Oio := { o with pos := 0 }

/-- `oio_buffer_read`: the bytes copied, or the answer `0`. `avail` is a `size_t`. -/
def oioBufferRead (o : Oio) (len : ℕ) : Option (Oio × Option (List UInt8)) :=
  let avail := (o.ptr.length + 2 ^ 64 - o.pos) % 2 ^ 64
  if avail < len then some (o, none)
  else (read o.ptr o.pos len).map fun buf ↦ ({ o with pos := o.pos + len }, some buf)

/-- `oio_buffer_write`; `none` is the answer `0`. -/
def oioBufferWrite (o : Oio) (buf : List UInt8) : Option Oio :=
  (sdsCatLen o.ptr buf).map fun ptr ↦ ⟨ptr, o.pos + buf.length⟩

/-- Follow a read that succeeded by a computation that does not read on. -/
def odbMapRead {α β : Type} (r : Option (Oio × Option α)) (f : α → β) : Option (Oio × Option β) :=
  r.map fun p ↦ (p.1, p.2.map f)

/-- Follow a read that succeeded by another one; a read that failed ends the record. -/
def odbBindRead {α β : Type} (r : Option (Oio × Option α)) (f : Oio → α → Option (Oio × Option β)) :
    Option (Oio × Option β) :=
  r.bind fun p ↦
    match p.2 with
    | none => some (p.1, none)
    | some a => f p.1 a

/-! ## Numbers -/

/-- `odb_write_u8`. -/
def odbWriteU8 (o : Oio) (v : UInt8) : Option Oio := oioBufferWrite o [v]

/-- `odb_write_u16` (`odb_write_u16_le`). -/
def odbWriteU16 (o : Oio) (v : UInt16) : Option Oio := oioBufferWrite o (leBytes 2 v.toNat)

/-- `odb_write_u32` (`odb_write_u32_le`, `put_u32_le`). -/
def odbWriteU32 (o : Oio) (v : UInt32) : Option Oio := oioBufferWrite o (leBytes 4 v.toNat)

/-- `odb_write_u64` (`odb_write_u64_le`). -/
def odbWriteU64 (o : Oio) (v : UInt64) : Option Oio := oioBufferWrite o (leBytes 8 v.toNat)

/-- `odb_read_u8` (`read_u8`). -/
def odbReadU8 (o : Oio) : Option (Oio × Option UInt8) :=
  odbMapRead (oioBufferRead o 1) fun buf ↦ UInt8.ofNat (leValue buf)

/-- `odb_read_u16` (`odb_read_u16_le`). -/
def odbReadU16 (o : Oio) : Option (Oio × Option UInt16) :=
  odbMapRead (oioBufferRead o 2) fun buf ↦ UInt16.ofNat (leValue buf)

/-- `odb_read_u32` (`odb_read_u32_le`, `get_u32_le`). -/
def odbReadU32 (o : Oio) : Option (Oio × Option UInt32) :=
  odbMapRead (oioBufferRead o 4) fun buf ↦ UInt32.ofNat (leValue buf)

/-- `odb_read_u64` (`odb_read_u64_le`). -/
def odbReadU64 (o : Oio) : Option (Oio × Option UInt64) :=
  odbMapRead (oioBufferRead o 8) fun buf ↦ UInt64.ofNat (leValue buf)

/-! ## Strings and binaries -/

/-- `odb_write_len32_le`. -/
def odbWriteLen32Le (o : Oio) (len : ℕ) : Option Oio := oioBufferWrite o (leBytes 4 len)

/-- `odb_read_len32_le`. -/
def odbReadLen32Le (o : Oio) : Option (Oio × Option ℕ) := odbMapRead (oioBufferRead o 4) leValue

/-- `odb_write_string`. -/
def odbWriteString (o : Oio) (s : List UInt8) : Option Oio :=
  if 0xFFFFFFFF < s.length then none
  else (odbWriteLen32Le o s.length).bind fun o ↦
    if s.length ≠ 0 then oioBufferWrite o s else some o

/-- `odb_write_binary`. -/
def odbWriteBinary (o : Oio) (buf : List UInt8) : Option Oio :=
  if 0xFFFFFFFF < buf.length then none
  else (odbWriteLen32Le o buf.length).bind fun o ↦
    if buf.length ≠ 0 then oioBufferWrite o buf else some o

/-- `odb_read_string`. -/
def odbReadString (o : Oio) : Option (Oio × Option (List UInt8)) :=
  odbBindRead (odbReadLen32Le o) fun o len ↦
    if len ≠ 0 then oioBufferRead o len else some (o, some [])

/-- `odb_read_binary`: `*out`, which is `NULL` for a binary of length zero, and `*out_len`. -/
def odbReadBinary (o : Oio) : Option (Oio × Option (Option (List UInt8) × ℕ)) :=
  odbBindRead (odbReadLen32Le o) fun o len ↦
    if len = 0 then some (o, some (none, 0))
    else odbMapRead (oioBufferRead o len) fun p ↦ (some p, len)

/-! ## Records -/

/-- What one typed write puts into the stream. -/
inductive OdbRecord where
  | u8 (v : UInt8)
  | u16 (v : UInt16)
  | u32 (v : UInt32)
  | u64 (v : UInt64)
  | string (s : List UInt8)
  | binary (buf : List UInt8)

/-- Which of the typed reads is called. -/
inductive OdbType where
  | u8 | u16 | u32 | u64 | string | binary

/-- What a typed read returns when it succeeds. -/
inductive OdbValue where
  | u8 (v : UInt8)
  | u16 (v : UInt16)
  | u32 (v : UInt32)
  | u64 (v : UInt64)
  | string (s : List UInt8)
  | binary (out : Option (List UInt8)) (outLen : ℕ)
deriving DecidableEq

namespace OdbRecord

def type : OdbRecord → OdbType
  | u8 _ => .u8
  | u16 _ => .u16
  | u32 _ => .u32
  | u64 _ => .u64
  | string _ => .string
  | binary _ => .binary

/-- The value written, as a read hands it over. -/
def value : OdbRecord → OdbValue
  | u8 v => .u8 v
  | u16 v => .u16 v
  | u32 v => .u32 v
  | u64 v => .u64 v
  | string s => .string s
  | binary [] => .binary none 0
  | binary (b :: bs) => .binary (some (b :: bs)) (bs.length + 1)

/-- The length of a string or binary fits into its length field. -/
def Fits : OdbRecord → Prop
  | string s => s.length ≤ 2 ^ 32 - 1
  | binary buf => buf.length ≤ 2 ^ 32 - 1
  | _ => True

instance : DecidablePred Fits
  | u8 _ | u16 _ | u32 _ | u64 _ => isTrue trivial
  | string s => inferInstanceAs (Decidable (s.length ≤ 2 ^ 32 - 1))
  | binary buf => inferInstanceAs (Decidable (buf.length ≤ 2 ^ 32 - 1))

/-- The image of a record in the stream. -/
def bytes : OdbRecord → List UInt8
  | u8 v => [v]
  | u16 v => leBytes 2 v.toNat
  | u32 v => leBytes 4 v.toNat
  | u64 v => leBytes 8 v.toNat
  | string s => leBytes 4 s.length ++ s
  | binary buf => leBytes 4 buf.length ++ buf

end OdbRecord

/-- One typed write. -/
def odbWrite (o : Oio) : OdbRecord → Option Oio
  | .u8 v => odbWriteU8 o v
  | .u16 v => odbWriteU16 o v
  | .u32 v => odbWriteU32 o v
  | .u64 v => odbWriteU64 o v
  | .string s => odbWriteString o s
  | .binary buf => odbWriteBinary o buf

/-- One typed read. -/
def odbRead (o : Oio) : OdbType → Option (Oio × Option OdbValue)
  | .u8 => odbMapRead (odbReadU8 o) .u8
  | .u16 => odbMapRead (odbReadU16 o) .u16
  | .u32 => odbMapRead (odbReadU32 o) .u32
  | .u64 => odbMapRead (odbReadU64 o) .u64
  | .string => odbMapRead (odbReadString o) .string
  | .binary => odbMapRead (odbReadBinary o) fun r ↦ .binary r.1 r.2

/-- A sequence of typed writes, all of which report success. -/
def odbWriteAll (o : Oio) (rs : List OdbRecord) : Option Oio := rs.foldlM odbWrite o

/-! ## Where a reader is -/

/-- The reader has `A` behind it and `R` before it. -/
structure Oio.At (o : Oio) (A R : List UInt8) : Prop where
  ptr_eq : o.ptr = A ++ R
  pos_eq : o.pos = A.length
  fits : o.ptr.length < 2 ^ 64

section Reading

variable {o : Oio} {A R : List UInt8} {α β : Type}

/-- The subtraction of `oio_buffer_read` does not wrap. -/
theorem Oio.At.avail (h : o.At A R) : (o.ptr.length + 2 ^ 64 - o.pos) % 2 ^ 64 = R.length := by
  have hlen : o.ptr.length = A.length + R.length := by rw [h.ptr_eq, List.length_append]
  have hfits := h.fits
  rw [h.pos_eq]
  omega

theorem Oio.At.oioBufferRead {X : List UInt8} (h : o.At A (X ++ R)) :
    ∃ o', oioBufferRead o X.length = some (o', some X) ∧ o'.At (A ++ X) R := by
  refine ⟨{ o with pos := o.pos + X.length }, ?_, ?_, ?_, h.fits⟩
  · have hle : ¬(X ++ R).length < X.length := by simp
    have hread : read o.ptr o.pos X.length = some X := by
      rw [h.ptr_eq, h.pos_eq, ← List.append_assoc, read_append]
    simp only [LatteC.oioBufferRead, h.avail, if_neg hle, hread, Option.map_some]
  · rw [h.ptr_eq, List.append_assoc]
  · rw [h.pos_eq, List.length_append]

theorem Oio.At.oioBufferRead_short {len : ℕ} (h : o.At A R) (hlen : R.length < len) :
    LatteC.oioBufferRead o len = some (o, none) := by
  simp only [LatteC.oioBufferRead, h.avail, if_pos hlen]

/-- A read of the value `a` from the image `X`, whatever stands around the image. -/
def OdbReads (f : Oio → Option (Oio × Option α)) (X : List UInt8) (a : α) : Prop :=
  ∀ ⦃o A R⦄, Oio.At o A (X ++ R) → ∃ o', f o = some (o', some a) ∧ o'.At (A ++ X) R

/-- A read that reports failure when the stream ends within the image `X`. -/
def OdbFailsWithin (f : Oio → Option (Oio × Option α)) (X : List UInt8) : Prop :=
  ∀ ⦃o A R⦄, Oio.At o A R → R <+: X → R.length < X.length → ∃ o', f o = some (o', none)

theorem odbReads_buffer (X : List UInt8) : OdbReads (oioBufferRead · X.length) X X :=
  fun _ _ _ h ↦ h.oioBufferRead

theorem odbFailsWithin_buffer (X : List UInt8) : OdbFailsWithin (oioBufferRead · X.length) X :=
  fun o _ _ h _ hlt ↦ ⟨o, h.oioBufferRead_short hlt⟩

theorem OdbReads.map {f : Oio → Option (Oio × Option α)} {X : List UInt8} {a : α}
    (hf : OdbReads f X a) (g : α → β) : OdbReads (fun o ↦ odbMapRead (f o) g) X (g a) := by
  intro o A R h
  obtain ⟨o', ho', hat⟩ := hf h
  exact ⟨o', by simp only [odbMapRead, ho', Option.map_some], hat⟩

theorem OdbFailsWithin.map {f : Oio → Option (Oio × Option α)} {X : List UInt8}
    (hf : OdbFailsWithin f X) (g : α → β) : OdbFailsWithin (fun o ↦ odbMapRead (f o) g) X := by
  intro o A R h hR hlt
  obtain ⟨o', ho'⟩ := hf h hR hlt
  exact ⟨o', by simp only [odbMapRead, ho', Option.map_some, Option.map_none]⟩

theorem OdbReads.bind {f : Oio → Option (Oio × Option α)} {g : Oio → α → Option (Oio × Option β)}
    {X Y : List UInt8} {a : α} {b : β} (hf : OdbReads f X a) (hg : OdbReads (g · a) Y b) :
    OdbReads (fun o ↦ odbBindRead (f o) g) (X ++ Y) b := by
  intro o A R h
  rw [List.append_assoc] at h
  obtain ⟨o₁, ho₁, h₁⟩ := hf h
  obtain ⟨o₂, ho₂, h₂⟩ := hg h₁
  refine ⟨o₂, ?_, by rwa [← List.append_assoc]⟩
  simp only [odbBindRead, ho₁, Option.bind_some, ho₂]

/-- The stream ends in the first part, whose read fails, or in the second. -/
theorem OdbFailsWithin.bind {f : Oio → Option (Oio × Option α)}
    {g : Oio → α → Option (Oio × Option β)} {X Y : List UInt8} {a : α} (hf : OdbReads f X a)
    (hf' : OdbFailsWithin f X) (hg : OdbFailsWithin (g · a) Y) :
    OdbFailsWithin (fun o ↦ odbBindRead (f o) g) (X ++ Y) := by
  intro o A R h hR hlt
  by_cases hX : R.length < X.length
  · have hRX : R <+: X := List.prefix_of_prefix_length_le hR (List.prefix_append X Y) hX.le
    obtain ⟨o', ho'⟩ := hf' h hRX hX
    exact ⟨o', by simp only [odbBindRead, ho', Option.bind_some]⟩
  · have hXR : X <+: R :=
      List.prefix_of_prefix_length_le (List.prefix_append X Y) hR (not_lt.mp hX)
    obtain ⟨T, rfl⟩ := hXR
    obtain ⟨o₁, ho₁, h₁⟩ := hf h
    rw [List.prefix_append_right_inj] at hR
    rw [List.length_append, List.length_append, Nat.add_lt_add_iff_left] at hlt
    obtain ⟨o₂, ho₂⟩ := hg h₁ hR hlt
    exact ⟨o₂, by simp only [odbBindRead, ho₁, Option.bind_some, ho₂]⟩

end Reading

/-! ## One record -/

theorem odbReads_number {α : Type} (w : ℕ) {v : ℕ} (hv : v < 256 ^ w) (g : ℕ → α) :
    OdbReads (fun o ↦ odbMapRead (oioBufferRead o w) fun buf ↦ g (leValue buf)) (leBytes w v)
      (g v) := by
  have h := (odbReads_buffer (leBytes w v)).map fun buf ↦ g (leValue buf)
  rwa [length_leBytes, leValue_leBytes hv] at h

theorem odbFailsWithin_number {α : Type} (w v : ℕ) (g : List UInt8 → α) :
    OdbFailsWithin (fun o ↦ odbMapRead (oioBufferRead o w) g) (leBytes w v) := by
  have h := (odbFailsWithin_buffer (leBytes w v)).map g
  rwa [length_leBytes] at h

theorem leBytes_one (v : UInt8) : leBytes 1 v.toNat = [v] := by
  have hv : v.toNat % 256 = v.toNat := Nat.mod_eq_of_lt v.toNat_lt
  rw [leBytes, leBytes, hv, UInt8.ofNat_toNat]

section Records

variable {s : List UInt8}

theorem odbReadLen32Le_reads (hs : s.length ≤ 2 ^ 32 - 1) :
    OdbReads odbReadLen32Le (leBytes 4 s.length) s.length :=
  odbReads_number 4 (by omega) id

theorem odbReadString_reads (hs : s.length ≤ 2 ^ 32 - 1) :
    OdbReads odbReadString (leBytes 4 s.length ++ s) s := by
  refine (odbReadLen32Le_reads hs).bind ?_
  by_cases hzero : s.length = 0
  · obtain rfl := List.length_eq_zero_iff.mp hzero
    exact fun o A R h ↦ ⟨o, rfl, by simpa using h⟩
  · simp only [ne_eq, hzero, not_false_eq_true, if_true]
    exact odbReads_buffer s

theorem odbReadString_failsWithin (hs : s.length ≤ 2 ^ 32 - 1) :
    OdbFailsWithin odbReadString (leBytes 4 s.length ++ s) := by
  refine .bind (odbReadLen32Le_reads hs) (odbFailsWithin_number 4 _ leValue) ?_
  intro o A R h hR hlt
  have hzero : s.length ≠ 0 := by omega
  simp only [ne_eq, hzero, not_false_eq_true, if_true]
  exact odbFailsWithin_buffer s h hR hlt

theorem odbReadBinary_reads (hs : s.length ≤ 2 ^ 32 - 1) :
    OdbReads odbReadBinary (leBytes 4 s.length ++ s)
      (if s.length = 0 then (none, 0) else (some s, s.length)) := by
  refine (odbReadLen32Le_reads hs).bind ?_
  by_cases hzero : s.length = 0
  · obtain rfl := List.length_eq_zero_iff.mp hzero
    exact fun o A R h ↦ ⟨o, rfl, by simpa using h⟩
  · simp only [if_neg hzero]
    exact (odbReads_buffer s).map fun p ↦ (some p, s.length)

theorem odbReadBinary_failsWithin (hs : s.length ≤ 2 ^ 32 - 1) :
    OdbFailsWithin odbReadBinary (leBytes 4 s.length ++ s) := by
  refine .bind (odbReadLen32Le_reads hs) (odbFailsWithin_number 4 _ leValue) ?_
  intro o A R h hR hlt
  have hzero : s.length ≠ 0 := by omega
  simp only [if_neg hzero]
  exact (odbFailsWithin_buffer s).map _ h hR hlt

end Records

theorem odbReadU8_reads (v : UInt8) : OdbReads odbReadU8 [v] v := by
  have h := odbReads_number 1 v.toNat_lt UInt8.ofNat
  rwa [leBytes_one, UInt8.ofNat_toNat] at h

theorem odbReadU32_reads (v : UInt32) : OdbReads odbReadU32 (leBytes 4 v.toNat) v := by
  have h := odbReads_number 4 v.toNat_lt UInt32.ofNat
  rwa [UInt32.ofNat_toNat] at h

/-- Reading at the front of a record's image returns the record's value and takes the image off. -/
theorem odbRead_bytes {r : OdbRecord} (hr : r.Fits) :
    OdbReads (odbRead · r.type) r.bytes r.value := by
  cases r with
  | u8 v => exact (odbReadU8_reads v).map OdbValue.u8
  | u16 v =>
    have h := (odbReads_number 2 v.toNat_lt UInt16.ofNat).map OdbValue.u16
    rwa [UInt16.ofNat_toNat] at h
  | u32 v => exact (odbReadU32_reads v).map OdbValue.u32
  | u64 v =>
    have h := (odbReads_number 8 v.toNat_lt UInt64.ofNat).map OdbValue.u64
    rwa [UInt64.ofNat_toNat] at h
  | string s => exact (odbReadString_reads hr).map OdbValue.string
  | binary buf =>
    have h := (odbReadBinary_reads hr).map fun p ↦ OdbValue.binary p.1 p.2
    cases buf with
    | nil => exact h
    | cons b bs => exact h

/-- Reading where the stream ends within a record's image reports failure. -/
theorem odbRead_short {r : OdbRecord} (hr : r.Fits) :
    OdbFailsWithin (odbRead · r.type) r.bytes := by
  cases r with
  | u8 v =>
    have h := (odbFailsWithin_number 1 v.toNat fun buf ↦ UInt8.ofNat (leValue buf)).map OdbValue.u8
    rwa [leBytes_one] at h
  | u16 v => exact (odbFailsWithin_number 2 v.toNat _).map OdbValue.u16
  | u32 v => exact (odbFailsWithin_number 4 v.toNat _).map OdbValue.u32
  | u64 v => exact (odbFailsWithin_number 8 v.toNat _).map OdbValue.u64
  | string s => exact (odbReadString_failsWithin hr).map OdbValue.string
  | binary buf => exact (odbReadBinary_failsWithin hr).map _

section Writing

variable {o : Oio}

theorem oioBufferWrite_eq {buf : List UInt8} (h : o.ptr.length + buf.length < 2 ^ 63) :
    oioBufferWrite o buf = some ⟨o.ptr ++ buf, o.pos + buf.length⟩ := by
  rw [oioBufferWrite, sdsCatLen, if_pos h, Option.map_some]

theorem oioBufferWrite_fits {o' : Oio} {buf : List UInt8} (h : oioBufferWrite o buf = some o') :
    o.ptr.length + buf.length < 2 ^ 63 := by
  by_contra hsize
  rw [oioBufferWrite, sdsCatLen, if_neg hsize] at h
  cases h

/-- `odb_write_string`, and `odb_write_binary` with it. -/
theorem odbWriteString_eq {s : List UInt8} (hs : s.length ≤ 2 ^ 32 - 1)
    (h : o.ptr.length + (4 + s.length) < 2 ^ 63) : odbWriteString o s =
      some ⟨o.ptr ++ (leBytes 4 s.length ++ s), o.pos + (4 + s.length)⟩ := by
  have hlen : ¬0xFFFFFFFF < s.length := by omega
  have hhead : odbWriteLen32Le o s.length =
      some ⟨o.ptr ++ leBytes 4 s.length, o.pos + 4⟩ := by
    rw [odbWriteLen32Le, oioBufferWrite_eq (by rw [length_leBytes]; omega), length_leBytes]
  rw [odbWriteString, if_neg hlen, hhead, Option.bind_some]
  by_cases hzero : s.length = 0
  · obtain rfl := List.length_eq_zero_iff.mp hzero
    simp
  · rw [if_pos hzero, oioBufferWrite_eq, List.append_assoc, Nat.add_assoc]
    rw [List.length_append, length_leBytes]
    omega

/-- A string that is written fits into its length field and into the buffer. -/
theorem odbWriteString_fits {o' : Oio} {s : List UInt8} (h : odbWriteString o s = some o') :
    s.length ≤ 2 ^ 32 - 1 ∧ o.ptr.length + (4 + s.length) < 2 ^ 63 := by
  have hlen : ¬0xFFFFFFFF < s.length := by
    intro hlen
    rw [odbWriteString, if_pos hlen] at h
    cases h
  rw [odbWriteString, if_neg hlen] at h
  obtain ⟨o₁, ho₁, h⟩ := Option.bind_eq_some_iff.mp h
  have hsize := oioBufferWrite_fits ho₁
  rw [odbWriteLen32Le, oioBufferWrite_eq hsize, Option.some.injEq] at ho₁
  rw [length_leBytes] at hsize
  refine ⟨by omega, ?_⟩
  split_ifs at h with hzero
  · have hsize' := oioBufferWrite_fits h
    rw [← ho₁, List.length_append, length_leBytes] at hsize'
    omega
  · omega

/-- Writing appends the image of the record. -/
theorem odbWrite_eq {r : OdbRecord} (hr : r.Fits) (h : o.ptr.length + r.bytes.length < 2 ^ 63) :
    odbWrite o r = some ⟨o.ptr ++ r.bytes, o.pos + r.bytes.length⟩ := by
  cases r with
  | u8 v | u16 v | u32 v | u64 v => exact oioBufferWrite_eq h
  | string s | binary s =>
    simp only [OdbRecord.bytes, List.length_append, length_leBytes] at h
    simp only [OdbRecord.bytes, List.length_append, length_leBytes]
    exact odbWriteString_eq hr h

theorem odbWrite_fits {o' : Oio} {r : OdbRecord} (h : odbWrite o r = some o') :
    r.Fits ∧ o.ptr.length + r.bytes.length < 2 ^ 63 := by
  cases r with
  | u8 v | u16 v | u32 v | u64 v => exact ⟨trivial, oioBufferWrite_fits h⟩
  | string s | binary s =>
    simp only [OdbRecord.bytes, List.length_append, length_leBytes]
    exact odbWriteString_fits h

end Writing

/-! ## Streams -/

/-- The image of a sequence of records. -/
def odbBytes (rs : List OdbRecord) : List UInt8 := rs.flatMap OdbRecord.bytes

@[simp] theorem odbBytes_nil : odbBytes [] = [] := rfl

@[simp] theorem odbBytes_cons (r : OdbRecord) (rs : List OdbRecord) :
    odbBytes (r :: rs) = r.bytes ++ odbBytes rs := rfl

@[simp] theorem odbBytes_append (rs rs' : List OdbRecord) :
    odbBytes (rs ++ rs') = odbBytes rs ++ odbBytes rs' := List.flatMap_append

theorem odbWriteAll_eq {rs : List OdbRecord} (hrs : ∀ r ∈ rs, r.Fits) {o : Oio}
    (h : o.ptr.length + (odbBytes rs).length < 2 ^ 63) :
    odbWriteAll o rs = some ⟨o.ptr ++ odbBytes rs, o.pos + (odbBytes rs).length⟩ := by
  induction rs generalizing o with
  | nil => simp [odbWriteAll]
  | cons r rs ih =>
    rw [odbBytes_cons, List.length_append] at h
    have hr := odbWrite_eq (o := o) (hrs r (by simp)) (by omega)
    rw [odbWriteAll, List.foldlM_cons, hr, Option.bind_eq_bind, Option.bind_some, ← odbWriteAll,
      ih (fun r' hr' ↦ hrs r' (by simp [hr'])) (by rw [List.length_append]; omega)]
    simp [Nat.add_assoc]

theorem odbWriteAll_fits {rs : List OdbRecord} {o o' : Oio} (ho : o.ptr.length < 2 ^ 63)
    (h : odbWriteAll o rs = some o') : o.ptr.length + (odbBytes rs).length < 2 ^ 63 := by
  induction rs generalizing o with
  | nil => simpa using ho
  | cons r rs ih =>
    rw [odbWriteAll, List.foldlM_cons, Option.bind_eq_bind] at h
    obtain ⟨o₁, hr, h⟩ := Option.bind_eq_some_iff.mp h
    obtain ⟨hfits, hsize⟩ := odbWrite_fits hr
    rw [odbWrite_eq hfits hsize, Option.some.injEq] at hr
    subst hr
    have hrest := ih (by rwa [List.length_append]) h
    rw [List.length_append] at hrest
    rw [odbBytes_cons, List.length_append]
    omega

/-- Reading a sequence of records takes off its image. -/
theorem run_odbRead {rs : List OdbRecord} (hrs : ∀ r ∈ rs, r.Fits) {o : Oio} {A R : List UInt8}
    (h : o.At A (odbBytes rs ++ R)) :
    ∃ o', CallMachine.run odbRead o (rs.map OdbRecord.type) =
      some (o', rs.map fun r ↦ some r.value) ∧ o'.At (A ++ odbBytes rs) R := by
  induction rs generalizing o A with
  | nil => exact ⟨o, rfl, by simpa using h⟩
  | cons r rs ih =>
    rw [odbBytes_cons, List.append_assoc] at h
    obtain ⟨o₁, ho₁, h₁⟩ := odbRead_bytes (hrs r (by simp)) h
    obtain ⟨o₂, ho₂, h₂⟩ := ih (fun r' hr' ↦ hrs r' (by simp [hr'])) h₁
    refine ⟨o₂, ?_, by rwa [odbBytes_cons, ← List.append_assoc]⟩
    rw [List.map_cons, CallMachine.run_cons_of_step ho₁, ho₂]
    rfl

/-- The record in which a stream is cut. -/
private theorem exists_record_cut {rs : List OdbRecord} {k : ℕ} (hk : k < (odbBytes rs).length) :
    ∃ done r rest, rs = done ++ r :: rest ∧ (odbBytes done).length ≤ k ∧
      k < (odbBytes (done ++ [r])).length := by
  induction rs generalizing k with
  | nil => simp at hk
  | cons r rs ih =>
    by_cases hr : k < r.bytes.length
    · exact ⟨[], r, rs, rfl, by simp, by simpa using hr⟩
    · rw [odbBytes_cons, List.length_append] at hk
      obtain ⟨done, r', rest, rfl, hdone, hr'⟩ := ih (k := k - r.bytes.length) (by omega)
      refine ⟨r :: done, r', rest, rfl, ?_, ?_⟩
      · rw [odbBytes_cons, List.length_append]
        omega
      · rw [List.cons_append, odbBytes_cons, List.length_append]
        omega

/-- A stream cut within the record `r` yields the records before it, and `r` is reported as failed. -/
theorem run_odbRead_cut {done : List OdbRecord} {r : OdbRecord} (hdone : ∀ r ∈ done, r.Fits)
    (hr : r.Fits) {T : List UInt8} (hT : T <+: r.bytes) (hlt : T.length < r.bytes.length) {o : Oio}
    (h : o.At [] (odbBytes done ++ T)) :
    ∃ o', CallMachine.run odbRead o ((done ++ [r]).map OdbRecord.type) =
      some (o', (done.map fun r ↦ some r.value) ++ [none]) := by
  obtain ⟨o₁, ho₁, h₁⟩ := run_odbRead hdone h
  obtain ⟨o₂, ho₂⟩ := odbRead_short hr h₁ hT hlt
  refine ⟨o₂, ?_⟩
  rw [List.map_append, CallMachine.run_append, ho₁, Option.bind_some, List.map_singleton,
    CallMachine.run_cons_of_step ho₂]
  rfl

/-- **What is written is read back.** The writes succeed as long as the buffer can hold their images;
the reads then return the values written and end where the buffer ends. From a strict prefix of the
buffer, the reads return the records that are in it as a whole, and the next one reports failure. -/
theorem odb_stream_round_trip (rs : List OdbRecord) (hrs : ∀ r ∈ rs, r.Fits) :
    ((rs.map fun r ↦ r.bytes.length).sum < 2 ^ 63 →
      (odbWriteAll odbOioCreateBuffer rs).isSome) ∧
    ∀ o, odbWriteAll odbOioCreateBuffer rs = some o →
      (∃ o', CallMachine.run odbRead (odbOioBufferRewind o) (rs.map OdbRecord.type) =
        some (o', rs.map fun r ↦ some r.value) ∧ o'.ptr = o.ptr ∧ o'.pos = o.ptr.length) ∧
      ∀ k < o.ptr.length, ∃ done r rest o₁ o₂ o', rs = done ++ r :: rest ∧
        odbWriteAll odbOioCreateBuffer done = some o₁ ∧ o₁.ptr.length ≤ k ∧
        odbWriteAll odbOioCreateBuffer (done ++ [r]) = some o₂ ∧ k < o₂.ptr.length ∧
        CallMachine.run odbRead ⟨o.ptr.take k, 0⟩ ((done ++ [r]).map OdbRecord.type) =
          some (o', (done.map fun r ↦ some r.value) ++ [none]) := by
  have hwrite (rs : List OdbRecord) (hrs : ∀ r ∈ rs, r.Fits)
      (h : (odbBytes rs).length < 2 ^ 63) : odbWriteAll odbOioCreateBuffer rs =
        some ⟨odbBytes rs, (odbBytes rs).length⟩ := by
    simpa [odbOioCreateBuffer] using
      odbWriteAll_eq (o := odbOioCreateBuffer) hrs (by simpa [odbOioCreateBuffer] using h)
  constructor
  · intro h
    rw [hwrite rs hrs (by rwa [odbBytes, List.length_flatMap])]
    rfl
  · intro o ho
    have hsize : (odbBytes rs).length < 2 ^ 63 := by
      simpa [odbOioCreateBuffer] using odbWriteAll_fits (by simp [odbOioCreateBuffer]) ho
    rw [hwrite rs hrs hsize, Option.some.injEq] at ho
    subst ho
    constructor
    · have hat : (odbOioBufferRewind ⟨odbBytes rs, (odbBytes rs).length⟩).At []
          (odbBytes rs ++ []) := by
        refine ⟨by simp [odbOioBufferRewind], rfl, ?_⟩
        change (odbBytes rs).length < 2 ^ 64
        omega
      obtain ⟨o', ho', hat'⟩ := run_odbRead hrs hat
      refine ⟨o', ho', by simpa using hat'.ptr_eq, ?_⟩
      rw [hat'.pos_eq, List.nil_append]
    · intro k hk
      obtain ⟨done, r, rest, rfl, hdone, hr⟩ := exists_record_cut hk
      have hdone_fits : ∀ r ∈ done, r.Fits := fun r' hr' ↦ hrs r' (by simp [hr'])
      have hr_fits : r.Fits := hrs r (by simp)
      simp only [odbBytes_append, odbBytes_cons, odbBytes_nil, List.append_nil,
        List.length_append] at hsize hr hk
      -- the part of `r` that is left
      obtain ⟨j, rfl⟩ := Nat.exists_eq_add_of_le hdone
      have hcut : (odbBytes (done ++ r :: rest)).take ((odbBytes done).length + j) =
          odbBytes done ++ r.bytes.take j := by
        rw [odbBytes_append, odbBytes_cons, List.take_length_add_append,
          List.take_append_of_le_length (by omega)]
      have hj : (r.bytes.take j).length < r.bytes.length := by
        rw [List.length_take]
        omega
      have hat : Oio.At ⟨(odbBytes (done ++ r :: rest)).take ((odbBytes done).length + j), 0⟩ []
          (odbBytes done ++ r.bytes.take j) := by
        refine ⟨hcut, rfl, ?_⟩
        change (List.take _ _).length < 2 ^ 64
        rw [hcut, List.length_append]
        omega
      obtain ⟨o', ho'⟩ :=
        run_odbRead_cut hdone_fits hr_fits (List.take_prefix j r.bytes) hj hat
      refine ⟨done, r, rest, _, _, o', rfl, hwrite done hdone_fits (by omega), hdone,
        hwrite (done ++ [r]) ?_ ?_, ?_, ho'⟩
      · intro r' hr'
        simp only [List.mem_append, List.mem_singleton] at hr'
        refine hrs r' ?_
        rw [List.mem_append, List.mem_cons]
        exact hr'.imp id Or.inl
      · simp only [odbBytes_append, odbBytes_cons, odbBytes_nil, List.append_nil,
          List.length_append]
        omega
      · simpa using hr

theorem odb_stream_round_trip_test :
    (∃ o', CallMachine.run odbRead ⟨[1, 2, 2, 0, 0, 0, 104, 105, 0, 0, 0, 0, 255], 0⟩
      [.u16, .string, .binary, .u8] = some (o', [some (.u16 513), some (.string [104, 105]),
        some (.binary none 0), some (.u8 255)]) ∧
      o'.ptr = [1, 2, 2, 0, 0, 0, 104, 105, 0, 0, 0, 0, 255] ∧ o'.pos = 13) :=
  ((odb_stream_round_trip [.u16 513, .string [104, 105], .binary [], .u8 255] (by decide)).2
    ⟨[1, 2, 2, 0, 0, 0, 104, 105, 0, 0, 0, 0, 255], 13⟩ (by decide)).1

end LatteC
