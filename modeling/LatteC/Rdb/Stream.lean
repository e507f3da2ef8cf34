import LatteC.Foundation.CallMachine
import LatteC.Rdb.Basic
import Mathlib.Data.List.Infix
import Mathlib.Tactic.SplitIfs

/-!
# Round trips of the rdb stream

Whatever is written in records of a type, a length below 2³² or a string shorter than this is read back, and
where the stream is cut off the first record that is not complete breaks the reader.

A length has an image in the stream, `rdbLenBytes`. Writing appends the image, reading at the front of an
image takes it off, and reading where the stream ends within the image fails; the rest is about readers
that stay broken in general.
-/

namespace LatteC

open Block StickyReader

/-! ## Writing -/

/-- The image of a length. -/
def rdbLenBytes (len : ℕ) : List UInt8 :=
  if len < 2 ^ 6 then [UInt8.ofNat (len % 256 ||| 0 * 2 ^ 6)]
  else if len < 2 ^ 14 then
    [UInt8.ofNat (len / 2 ^ 8 % 256 ||| 1 * 2 ^ 6), UInt8.ofNat (len % 256)]
  else if len ≤ 2 ^ 32 - 1 then UInt8.ofNat (2 * 2 ^ 6) :: leBytes 4 (htonl len)
  else UInt8.ofNat (3 * 2 ^ 6 ||| 0x01) :: leBytes 8 (htonll len)

/-- The io after bytes have been written to it. -/
def RedisModuleIo.written (io : RedisModuleIo) (p : List UInt8) : RedisModuleIo :=
  { io with
    ptr := io.ptr ++ p
    pos := io.pos + p.length
    bytesProcessed := io.bytesProcessed + UInt64.ofNat p.length }

@[simp] theorem RedisModuleIo.written_error (io : RedisModuleIo) (p : List UInt8) :
    (io.written p).error = io.error := rfl

@[simp] theorem RedisModuleIo.written_ptr (io : RedisModuleIo) (p : List UInt8) :
    (io.written p).ptr = io.ptr ++ p := rfl

theorem RedisModuleIo.written_written (io : RedisModuleIo) (p q : List UInt8) :
    (io.written p).written q = io.written (p ++ q) := by
  simp only [written, List.append_assoc, List.length_append, UInt64.ofNat_add, UInt64.add_assoc,
    Nat.add_assoc]

@[simp] theorem RedisModuleIo.written_nil (io : RedisModuleIo) : io.written [] = io := by
  simp [written]

section Writing

variable {io io' : RedisModuleIo} {p : List UInt8} {n : ℤ}

/-- A write that comes back has appended its bytes, as long as there was no error before. -/
theorem rdbWriteRaw_eq_some (herror : io.error = false) (h : rdbWriteRaw io p = some (io', n)) :
    io' = io.written p ∧ n = p.length := by
  rw [rdbWriteRaw, herror, if_neg Bool.false_ne_true, rdbBufferWrite] at h
  obtain ⟨r, hr, heq⟩ := Option.map_eq_some_iff.mp h
  obtain ⟨ptr, hptr, rfl⟩ := Option.map_eq_some_iff.mp hr
  rw [if_neg (not_not_intro rfl)] at heq
  obtain ⟨rfl, rfl⟩ := Prod.mk.inj heq
  rw [sdsCatLen] at hptr
  split_ifs at hptr
  obtain rfl := Option.some.inj hptr
  exact ⟨rfl, rfl⟩

/-- A write comes back if the buffer stays below 2⁶³ bytes. -/
theorem rdbWriteRaw_of_room (herror : io.error = false) (h : io.ptr.length + p.length < 2 ^ 63) :
    rdbWriteRaw io p = some (io.written p, (p.length : ℤ)) := by
  rw [rdbWriteRaw, herror, if_neg Bool.false_ne_true, rdbBufferWrite, sdsCatLen, if_pos h,
    Option.map_some, Option.map_some, if_neg (not_not_intro rfl)]
  rw [RedisModuleIo.written]

end Writing

/-- What a save does: if it comes back it has appended `X` and returns `k`, and with room it comes back. -/
structure RdbSaves (f : RedisModuleIo → Option (RedisModuleIo × ℤ)) (X : List UInt8) (k : ℤ) :
    Prop where
  eq_some : ∀ ⦃io io' n⦄, io.error = false → f io = some (io', n) → io' = io.written X ∧ n = k
  of_room : ∀ ⦃io⦄, io.error = false → io.ptr.length + X.length < 2 ^ 63 →
    f io = some (io.written X, k)

theorem rdbSaves_raw (p : List UInt8) : RdbSaves (rdbWriteRaw · p) p p.length :=
  ⟨fun _ _ _ ↦ rdbWriteRaw_eq_some, fun _ ↦ rdbWriteRaw_of_room⟩

theorem rdbSaves_return (k : ℤ) : RdbSaves (fun io ↦ some (io, k)) [] k where
  eq_some io io' n _ h := by
    obtain ⟨rfl, rfl⟩ := Prod.mk.inj (Option.some.inj h)
    exact ⟨io.written_nil.symm, rfl⟩
  of_room io _ _ := by rw [io.written_nil]

theorem RdbSaves.bind {f : RedisModuleIo → Option (RedisModuleIo × ℤ)}
    {g : RedisModuleIo → ℤ → Option (RedisModuleIo × ℤ)} {X Y : List UInt8} {k l : ℤ}
    (hf : RdbSaves f X k) (hk : k ≠ -1) (hg : RdbSaves (g · k) Y l) :
    RdbSaves (fun io ↦ rdbThen (f io) g) (X ++ Y) l where
  eq_some io io' n herror h := by
    rw [rdbThen] at h
    obtain ⟨⟨io₁, k'⟩, hio₁, hrest⟩ := Option.bind_eq_some_iff.mp h
    obtain ⟨rfl, rfl⟩ := hf.eq_some herror hio₁
    rw [if_neg hk] at hrest
    obtain ⟨rfl, rfl⟩ := hg.eq_some (by rwa [RedisModuleIo.written_error]) hrest
    exact ⟨io.written_written X Y, rfl⟩
  of_room io herror hroom := by
    rw [List.length_append, ← Nat.add_assoc] at hroom
    have hroom' : (io.written X).ptr.length + Y.length < 2 ^ 63 := by
      rwa [RedisModuleIo.written_ptr, List.length_append]
    rw [rdbThen, hf.of_room herror (by omega), Option.bind_some, if_neg hk,
      hg.of_room (by rwa [RedisModuleIo.written_error]) hroom', io.written_written]

/-- A byte, and what belongs to it. -/
theorem rdbSaves_tagged (b : UInt8) (p : List UInt8) (k : ℤ) :
    RdbSaves (fun io ↦ rdbThen (rdbWriteRaw io [b]) fun io _ ↦
      rdbThen (rdbWriteRaw io p) fun io _ ↦ some (io, k)) (b :: p) k := by
  have hbody : RdbSaves (fun io ↦ rdbThen (rdbWriteRaw io p) fun io _ ↦ some (io, k)) p k := by
    have h := (rdbSaves_raw p).bind (g := fun io _ ↦ some (io, k)) (by omega) (rdbSaves_return k)
    rwa [List.append_nil] at h
  exact (rdbSaves_raw [b]).bind
    (g := fun io _ ↦ rdbThen (rdbWriteRaw io p) fun io _ ↦ some (io, k)) (by omega) hbody

/-- **Saving a length** appends its image. -/
theorem rdbSaves_len (len : ℕ) :
    RdbSaves (rdbSaveLen · len) (rdbLenBytes len) (rdbLenBytes len).length := by
  unfold rdbSaveLen rdbLenBytes
  split_ifs
  · exact (rdbSaves_raw _).bind (g := fun io _ ↦ some (io, 1)) (by omega) (rdbSaves_return 1)
  · exact (rdbSaves_raw _).bind (g := fun io _ ↦ some (io, 2)) (by omega) (rdbSaves_return 2)
  · rw [List.length_cons, length_leBytes]
    exact rdbSaves_tagged _ _ _
  · rw [List.length_cons, length_leBytes]
    exact rdbSaves_tagged _ _ _

/-- **Saving a string** appends the image of its length and the string. -/
theorem rdbSaves_string (str : List UInt8) :
    RdbSaves (rdbSaveString · str) (rdbLenBytes str.length ++ str)
      ((rdbLenBytes str.length).length + str.length) := by
  refine (rdbSaves_len str.length).bind (g := fun io n1 ↦
    if 0 < str.length then rdbThen (rdbWriteRaw io str) fun io n2 ↦ some (io, n1 + n2)
    else some (io, n1 + 0)) (by omega) ?_
  by_cases hzero : 0 < str.length
  · simp only [if_pos hzero]
    have h := (rdbSaves_raw str).bind
      (g := fun io n2 ↦ some (io, ((rdbLenBytes str.length).length : ℤ) + n2)) (by omega)
      (rdbSaves_return ((rdbLenBytes str.length).length + str.length))
    rwa [List.append_nil] at h
  · simp only [if_neg hzero]
    obtain rfl := List.length_eq_zero_iff.mp (Nat.eq_zero_of_not_pos hzero)
    exact rdbSaves_return _

/-! ## Reading -/

/-- Where a reader is. -/
def rdbCursor : Cursor RedisModuleIo UInt8 where
  At io A R := io.ptr = A ++ R ∧ io.pos = A.length ∧ io.error = false
  Broken io := io.error = true

/-- What `rdb_read_raw` does with an image. -/
theorem rdbReadRaw_decodes (X : List UInt8) :
    Decodes rdbCursor (rdbReadRaw · X.length) X (some X) none where
  reads io A R h := by
    obtain ⟨hptr, hpos, herror⟩ := h
    have hdrop : io.ptr.drop io.pos = X ++ R := by rw [hptr, hpos, List.drop_left]
    have havail : io.ptr.length - io.pos = X.length + R.length := by
      rw [← List.length_drop, hdrop, List.length_append]
    have hlen : ¬io.ptr.length - io.pos < X.length := by omega
    refine ⟨{ io with
      pos := io.pos + X.length
      bytesProcessed := io.bytesProcessed + UInt64.ofNat X.length }, ?_, ?_, ?_, herror⟩
    · simp only [rdbReadRaw, herror, Bool.false_eq_true, if_false, rdbBufferRead, if_neg hlen, hdrop,
        List.take_left, ne_eq, not_true_eq_false]
    · rw [hptr, List.append_assoc]
    · rw [hpos, List.length_append]
  short io A R h _ hlt := by
    obtain ⟨hptr, hpos, herror⟩ := h
    have hdrop : io.ptr.drop io.pos = R := by rw [hptr, hpos, List.drop_left]
    have havail : io.ptr.length - io.pos = R.length := by rw [← List.length_drop, hdrop]
    refine ⟨{ io with pos := io.pos + R.length, error := true }, ?_, rfl⟩
    simp only [rdbReadRaw, herror, Bool.false_eq_true, if_false, rdbBufferRead, havail, if_pos hlt,
      hdrop, List.take_length, ne_eq, hlt.ne, not_false_eq_true, if_true]
  broken io h := by
    change io.error = true at h
    exact ⟨io, by rw [rdbReadRaw, if_pos h], h⟩

theorem rdbReadRaw_decodes_one (b : UInt8) :
    Decodes rdbCursor (rdbReadRaw · 1) [b] (some [b]) none := rdbReadRaw_decodes [b]

theorem rdbLoadType_decodes (t : UInt8) : Decodes rdbCursor rdbLoadType [t] (t.toNat : ℤ) (-1) := by
  have hbyte : Reads rdbCursor (fun io ↦ (io, (([t].headD 0).toNat : ℤ))) [] t.toNat (-1) :=
    .pure _ _
  exact (rdbReadRaw_decodes_one t).bind (g := fun io buf ↦ (io, ((buf.headD 0).toNat : ℤ))) hbyte

/-! ### Lengths -/

private theorem rdbByte_6bit : ∀ n < 64,
    (UInt8.ofNat (n % 256 ||| 0 * 2 ^ 6) &&& 0xC0).toNat / 2 ^ 6 = 0 ∧
      (UInt8.ofNat (n % 256 ||| 0 * 2 ^ 6) &&& 0x3F).toNat = n := by
  decide

private theorem rdbByte_14bit : ∀ n < 64,
    (UInt8.ofNat (n % 256 ||| 1 * 2 ^ 6) &&& 0xC0).toNat / 2 ^ 6 = 1 ∧
      (UInt8.ofNat (n % 256 ||| 1 * 2 ^ 6) &&& 0x3F).toNat = n := by
  decide

theorem leBytes_leValue (bs : List UInt8) : leBytes bs.length (leValue bs) = bs := by
  induction bs with
  | nil => rfl
  | cons b bs ih =>
    have hlow : (b.toNat + 256 * leValue bs) % 256 = b.toNat := by
      rw [Nat.add_mul_mod_self_left, Nat.mod_eq_of_lt b.toNat_lt]
    have hhigh : (b.toNat + 256 * leValue bs) / 256 = leValue bs := by
      have hb := b.toNat_lt
      omega
    rw [List.length_cons, leValue, leBytes, hlow, hhigh, ih, UInt8.ofNat_toNat]

theorem leValue_lt (bs : List UInt8) : leValue bs < 256 ^ bs.length := by
  induction bs with
  | nil => exact Nat.one_pos
  | cons b bs ih =>
    have hb := b.toNat_lt
    rw [leValue, List.length_cons, pow_succ]
    omega

/-- Two changes of the byte order cancel out. -/
theorem ntohl_htonl {len : ℕ} (h : len < 2 ^ 32) : ntohl (htonl len) = len := by
  have hlen : (leBytes 4 len).reverse.length = 4 := by rw [List.length_reverse, length_leBytes]
  have hswap := leBytes_leValue (leBytes 4 len).reverse
  rw [hlen] at hswap
  rw [ntohl, htonl, hswap, List.reverse_reverse, leValue_leBytes (by omega)]

/-- The first byte of a length is read like any other. -/
theorem rdbLoadLen_decodes_of_rest {b : UInt8} {Y : List UInt8} {len : ℕ}
    (h : Reads rdbCursor (rdbLoadLenRest · b) Y (len, false) (rdbLenerr, false)) :
    Decodes rdbCursor rdbLoadLen (b :: Y) (len, false) (rdbLenerr, false) := by
  have hread := (rdbReadRaw_decodes_one b).bind
    (g := fun io (buf : List UInt8) ↦ rdbLoadLenRest io (buf.headD 0)) h
  exact hread

/-- **Loading a length** below 2³² at the front of its image returns it. -/
theorem rdbLoadLen_decodes {len : ℕ} (h : len < 2 ^ 32) :
    Decodes rdbCursor rdbLoadLen (rdbLenBytes len) (len, false) (rdbLenerr, false) := by
  unfold rdbLenBytes
  split_ifs with h6 h14 h32
  · obtain ⟨htype, hlow⟩ := rdbByte_6bit len h6
    refine rdbLoadLen_decodes_of_rest ?_
    simp only [rdbLoadLenRest, htype, hlow, if_true]
    exact .pure _ _
  · obtain ⟨htype, hlow⟩ := rdbByte_14bit (len / 2 ^ 8) (by omega)
    have hvalue : len / 2 ^ 8 * 2 ^ 8 ||| (UInt8.ofNat (len % 256)).toNat = len := by
      have hbyte : (UInt8.ofNat (len % 256)).toNat = len % 256 := by simp
      rw [hbyte, Nat.mul_comm, ← Nat.two_pow_add_eq_or_of_lt (Nat.mod_lt _ (by decide))]
      omega
    refine rdbLoadLen_decodes_of_rest ?_
    simp only [rdbLoadLenRest, htype, hlow, if_neg one_ne_zero, if_true]
    have hread := (rdbReadRaw_decodes_one (UInt8.ofNat (len % 256))).bind (Y := [])
      (e := (rdbLenerr, false)) (b := (len, false))
      (g := fun io buf ↦ (io, len / 2 ^ 8 * 2 ^ 8 ||| (buf.headD 0).toNat, false)) ?_
    · exact hread.toReads
    · rw [List.headD_cons, hvalue]
      exact .pure _ _
  · have htype : (UInt8.ofNat (2 * 2 ^ 6) &&& 0xC0).toNat / 2 ^ 6 = 2 := by decide
    have hbound : htonl len < 256 ^ 4 := by
      have hlt := leValue_lt (leBytes 4 len).reverse
      rwa [List.length_reverse, length_leBytes] at hlt
    have hraw := rdbReadRaw_decodes (leBytes 4 (htonl len))
    rw [length_leBytes] at hraw
    refine rdbLoadLen_decodes_of_rest ?_
    simp only [rdbLoadLenRest, htype, if_true, OfNat.ofNat_ne_zero, OfNat.ofNat_ne_one, if_false]
    have hread := hraw.bind (Y := []) (e := (rdbLenerr, false)) (b := (len, false))
      (g := fun io buf ↦ (io, ntohl (leValue buf), false)) ?_
    · rw [List.append_nil] at hread
      exact hread.toReads
    · rw [leValue_leBytes hbound, ntohl_htonl h]
      exact .pure _ _
  · omega

/-- Loading a length of 2³² or more at the front of its image returns 1, as a special format. -/
theorem rdbLoadLen_of_le {len : ℕ} (h : 2 ^ 32 ≤ len) {io : RedisModuleIo} {A R : List UInt8}
    (hat : rdbCursor.At io A (rdbLenBytes len ++ R)) : (rdbLoadLen io).2 = (1, true) := by
  have hbytes : rdbLenBytes len = UInt8.ofNat (3 * 2 ^ 6 ||| 0x01) :: leBytes 8 (htonll len) := by
    rw [rdbLenBytes, if_neg (by omega), if_neg (by omega), if_neg (by omega)]
  rw [hbytes] at hat
  obtain ⟨io', hread, -⟩ := (rdbReadRaw_decodes_one (UInt8.ofNat (3 * 2 ^ 6 ||| 0x01))).reads hat
  rw [rdbLoadLen, hread]
  rfl

/-! ### Strings -/

/-- The length of a string, unless there is none or it stands for a special format. -/
def rdbPlainLen (r : ℕ × Bool) : Option ℕ :=
  if r.2 then none else if r.1 = rdbLenerr then none else some r.1

theorem rdbLoadString_eq (io : RedisModuleIo) : rdbLoadString io =
    thenRead ((rdbLoadLen io).1, rdbPlainLen (rdbLoadLen io).2) none fun io len ↦
      if 0 < len then rdbReadRaw io len else (io, some (List.replicate len 0)) := by
  rw [rdbLoadString, rdbPlainLen, thenRead]
  by_cases hencoded : (rdbLoadLen io).2.2
  · simp only [hencoded, if_true]
  · by_cases herr : (rdbLoadLen io).2.1 = rdbLenerr
    · simp only [hencoded, herr, if_true, Bool.false_eq_true, if_false]
    · simp only [hencoded, herr, Bool.false_eq_true, if_false]

/-- **Loading a string** shorter than 2³² at the front of its image returns it. -/
theorem rdbLoadString_decodes {str : List UInt8} (h : str.length < 2 ^ 32) :
    Decodes rdbCursor rdbLoadString (rdbLenBytes str.length ++ str) (some str) none := by
  have hplain : rdbPlainLen (str.length, false) = some str.length := by
    rw [rdbPlainLen, if_neg Bool.false_ne_true, if_neg]
    rw [rdbLenerr]
    omega
  have hlen := (rdbLoadLen_decodes h).map rdbPlainLen
  rw [hplain] at hlen
  have hbody : Reads rdbCursor (fun io ↦ if 0 < str.length then rdbReadRaw io str.length
      else (io, some (List.replicate str.length 0))) str (some str) none := by
    by_cases hzero : 0 < str.length
    · simp only [if_pos hzero]
      exact (rdbReadRaw_decodes str).toReads
    · obtain rfl := List.length_eq_zero_iff.mp (Nat.eq_zero_of_not_pos hzero)
      exact .pure _ _
  have hread := hlen.bind (g := fun io len ↦ if 0 < len then rdbReadRaw io len
    else (io, some (List.replicate len 0))) hbody
  rwa [← funext rdbLoadString_eq] at hread

/-! ## One length -/

/-- What `rdb_save_len` writes into a new buffer, with anything behind it, is read back by `rdb_load_len` as
a plain length, which takes as many bytes as were reported. -/
def RdbLenRoundTrip (n : UInt64) (rest : List UInt8) : Prop :=
  ∃ io k, rdbSaveLen (rdbInitIoBuffer none) n.toNat = some (io, k) ∧
    ∃ io', rdbLoadLen (rdbInitIoBuffer (some (io.ptr ++ rest))) = (io', n.toNat, false) ∧
      (io'.pos : ℤ) = k

@[simp] theorem rdbInitIoBuffer_none_ptr : (rdbInitIoBuffer none).ptr = [] := rfl

theorem rdbCursor_at_init (p : List UInt8) : rdbCursor.At (rdbInitIoBuffer (some p)) [] p :=
  ⟨rfl, rfl, rfl⟩

theorem length_rdbLenBytes_le (len : ℕ) : (rdbLenBytes len).length ≤ 9 := by
  unfold rdbLenBytes
  split_ifs <;> simp

theorem rdbSaveLen_init (len : ℕ) : rdbSaveLen (rdbInitIoBuffer none) len =
    some ((rdbInitIoBuffer none).written (rdbLenBytes len), ((rdbLenBytes len).length : ℤ)) := by
  refine (rdbSaves_len len).of_room rfl ?_
  have hle := length_rdbLenBytes_le len
  simp only [rdbInitIoBuffer, Option.getD_none, List.length_nil]
  omega

theorem rdbLenRoundTrip_of_le {n : UInt64} (h : 2 ^ 32 ≤ n.toNat) (rest : List UInt8) :
    ¬RdbLenRoundTrip n rest := by
  rintro ⟨io, k, hsave, io', hload, -⟩
  rw [rdbSaveLen_init] at hsave
  obtain ⟨rfl, rfl⟩ := Prod.mk.inj (Option.some.inj hsave)
  have hspecial := rdbLoadLen_of_le h (rdbCursor_at_init (rdbLenBytes n.toNat ++ rest))
  rw [RedisModuleIo.written_ptr, rdbInitIoBuffer_none_ptr, List.nil_append] at hload
  rw [hload] at hspecial
  exact Bool.false_ne_true (Prod.mk.inj hspecial).2

/-- **Where a length comes back**: below 2³². -/
theorem rdb_len_round_trip_iff (n : UInt64) (rest : List UInt8) :
    RdbLenRoundTrip n rest ↔ n.toNat < 2 ^ 32 := by
  constructor
  · intro h
    by_contra hle
    exact rdbLenRoundTrip_of_le (not_lt.mp hle) rest h
  · intro h
    obtain ⟨io', hload, -, hpos, -⟩ :=
      (rdbLoadLen_decodes h).reads (rdbCursor_at_init (rdbLenBytes n.toNat ++ rest))
    refine ⟨_, _, rdbSaveLen_init n.toNat, io', ?_, ?_⟩
    · rw [RedisModuleIo.written_ptr, ← hload]
      rfl
    · rw [hpos, List.nil_append]

/-- The length 2³² comes back as the special format 1. -/
theorem rdb_len_round_trip_special :
    ¬RdbLenRoundTrip 4294967296 [] ∧
      ¬∀ (n : UInt64) (rest : List UInt8), n.toNat < 2 ^ 64 - 1 → RdbLenRoundTrip n rest := by
  have hspecial : ¬RdbLenRoundTrip 4294967296 [] := rdbLenRoundTrip_of_le (by decide) []
  exact ⟨hspecial, fun h ↦ hspecial (h _ _ (by decide))⟩

/-! ## Streams of records -/

/-- What one save puts into the stream. -/
inductive RdbRecord where
  | type (t : UInt8)
  | len (n : ℕ)
  | string (str : List UInt8)

/-- Which of the loads is called. -/
inductive RdbType where
  | type
  | len
  | string

/-- What a load returns; a length comes with `isencoded`. -/
inductive RdbReply where
  | type (r : ℤ)
  | len (n : ℕ) (isencoded : Bool)
  | string (val : Option (List UInt8))
deriving DecidableEq

namespace RdbRecord

def kind : RdbRecord → RdbType
  | type _ => .type
  | len _ => .len
  | string _ => .string

/-- What a load returns for the record. -/
def reply : RdbRecord → RdbReply
  | type t => .type t.toNat
  | len n => .len n false
  | string str => .string (some str)

/-- A length below 2³², and a string whose length is. -/
def Fits : RdbRecord → Prop
  | type _ => True
  | len n => n < 2 ^ 32
  | string str => str.length < 2 ^ 32

/-- The image of a record in the stream. -/
def bytes : RdbRecord → List UInt8
  | type t => [t]
  | len n => rdbLenBytes n
  | string str => rdbLenBytes str.length ++ str

end RdbRecord

/-- What a load returns when it fails: -1, `RDB_LENERR` or NULL. -/
def RdbType.failure : RdbType → RdbReply
  | .type => .type (-1)
  | .len => .len rdbLenerr false
  | .string => .string none

/-- One save. -/
def rdbSave (io : RedisModuleIo) : RdbRecord → Option (RedisModuleIo × ℤ)
  | .type t => rdbSaveType io t
  | .len n => rdbSaveLen io n
  | .string str => rdbSaveString io str

/-- One load. -/
def rdbLoad : RdbType → RedisModuleIo → RedisModuleIo × RdbReply
  | .type, io => ((rdbLoadType io).1, .type (rdbLoadType io).2)
  | .len, io => ((rdbLoadLen io).1, .len (rdbLoadLen io).2.1 (rdbLoadLen io).2.2)
  | .string, io => ((rdbLoadString io).1, .string (rdbLoadString io).2)

/-- Save the records in order, with what the calls returned. -/
def rdbSaveAll (io : RedisModuleIo) (rs : List RdbRecord) : Option (RedisModuleIo × List ℤ) :=
  CallMachine.run rdbSave io rs

/-- Load in order, whatever the calls return. -/
def rdbLoadAll (io : RedisModuleIo) (ts : List RdbType) : RedisModuleIo × List RdbReply :=
  runReads rdbLoad io ts

/-- A save appends the image of its record. -/
theorem rdbSave_saves (r : RdbRecord) : ∃ k, RdbSaves (rdbSave · r) r.bytes k := by
  cases r with
  | type t => exact ⟨_, rdbSaves_raw [t]⟩
  | len n => exact ⟨_, rdbSaves_len n⟩
  | string str => exact ⟨_, rdbSaves_string str⟩

/-- A load at the front of the image of a record returns it. -/
theorem rdbLoad_decodes {r : RdbRecord} (hr : r.Fits) :
    Decodes rdbCursor (rdbLoad r.kind) r.bytes r.reply r.kind.failure := by
  cases r with
  | type t => exact (rdbLoadType_decodes t).map RdbReply.type
  | len n => exact (rdbLoadLen_decodes hr).map fun p ↦ RdbReply.len p.1 p.2
  | string str => exact (rdbLoadString_decodes hr).map RdbReply.string

/-- No load succeeds after an error. -/
theorem rdbLoad_broken (t : RdbType) {io : RedisModuleIo} (h : rdbCursor.Broken io) :
    ∃ io', rdbLoad t io = (io', t.failure) ∧ rdbCursor.Broken io' := by
  cases t with
  | type => exact (rdbLoad_decodes (r := .type 0) trivial).broken h
  | len => exact (rdbLoad_decodes (r := .len 0) (by decide : 0 < 2 ^ 32)).broken h
  | string => exact (rdbLoad_decodes (r := .string []) (by decide : 0 < 2 ^ 32)).broken h

section Saving

variable {io io' : RedisModuleIo} {ns : List ℤ}

/-- Saves that come back have appended the images of the records. -/
theorem rdbSaveAll_ptr {rs : List RdbRecord} (herror : io.error = false)
    (h : rdbSaveAll io rs = some (io', ns)) : io'.ptr = io.ptr ++ rs.flatMap RdbRecord.bytes := by
  induction rs generalizing io ns with
  | nil =>
    obtain ⟨rfl, -⟩ := Prod.mk.inj (Option.some.inj h)
    rw [List.flatMap_nil, List.append_nil]
  | cons r rs ih =>
    obtain ⟨io₁, n, ns', hsave, hrest, -⟩ := CallMachine.run_cons_eq_some h
    obtain ⟨k, hk⟩ := rdbSave_saves r
    obtain ⟨rfl, -⟩ := hk.eq_some herror hsave
    have hptr : io'.ptr = (io.written r.bytes).ptr ++ rs.flatMap RdbRecord.bytes :=
      @ih (io.written r.bytes) ns' herror hrest
    rw [hptr, RedisModuleIo.written_ptr, List.flatMap_cons, List.append_assoc]

/-- Saves come back if the buffer stays below 2⁶³ bytes. -/
theorem rdbSaveAll_of_room {rs : List RdbRecord} (herror : io.error = false)
    (h : io.ptr.length + (rs.flatMap RdbRecord.bytes).length < 2 ^ 63) :
    ∃ io' ns, rdbSaveAll io rs = some (io', ns) := by
  induction rs generalizing io with
  | nil => exact ⟨io, [], rfl⟩
  | cons r rs ih =>
    obtain ⟨k, hk⟩ := rdbSave_saves r
    rw [List.flatMap_cons, List.length_append] at h
    have hsave := hk.of_room herror (by omega)
    obtain ⟨io', ns, hrest⟩ := @ih (io.written r.bytes) herror (by
      rw [RedisModuleIo.written_ptr, List.length_append]
      omega)
    refine ⟨io', k :: ns, ?_⟩
    rw [rdbSaveAll] at hrest ⊢
    rw [CallMachine.run_cons_of_step hsave, hrest]
    rfl

end Saving

/-- **Streams of records.** The saves come back as long as the buffer stays below 2⁶³ bytes; `w` is what
they have written. Read from a new io, all of `w` gives the records. A strict prefix gives the records that
are complete in it; the load of the first one that is not fails and sets the error, and every load after
it fails. -/
theorem rdb_stream_round_trip (buffer : Option (List UInt8)) (rs : List RdbRecord)
    (hrs : ∀ r ∈ rs, r.Fits) :
    ((buffer.getD []).length + (rs.flatMap RdbRecord.bytes).length < 2 ^ 63 →
      ∃ io ns, rdbSaveAll (rdbInitIoBuffer buffer) rs = some (io, ns)) ∧
    ∀ io ns, rdbSaveAll (rdbInitIoBuffer buffer) rs = some (io, ns) →
      ∃ w, io.ptr = buffer.getD [] ++ w ∧
        (∃ io₁, rdbLoadAll (rdbInitIoBuffer (some w)) (rs.map RdbRecord.kind) =
          (io₁, rs.map RdbRecord.reply) ∧ io₁.error = false) ∧
        ∀ p, p <+: w → p ≠ w → ∃ done r rest io₁ io₂, rs = done ++ r :: rest ∧
          (done.flatMap RdbRecord.bytes).length ≤ p.length ∧
          p.length < ((done ++ [r]).flatMap RdbRecord.bytes).length ∧
          rdbLoadAll (rdbInitIoBuffer (some p)) (done.map RdbRecord.kind) =
            (io₁, done.map RdbRecord.reply) ∧ io₁.error = false ∧
          rdbLoad r.kind io₁ = (io₂, r.kind.failure) ∧ io₂.error = true ∧
          ∀ later, ∃ io₃, rdbLoadAll io₂ later = (io₃, later.map RdbType.failure) ∧
            io₃.error = true := by
  have hdecodes : ∀ r ∈ rs,
      Decodes rdbCursor (rdbLoad r.kind) r.bytes r.reply r.kind.failure :=
    fun r hr ↦ rdbLoad_decodes (hrs r hr)
  refine ⟨fun hroom ↦ rdbSaveAll_of_room rfl hroom, fun io ns hsave ↦ ?_⟩
  refine ⟨rs.flatMap RdbRecord.bytes, rdbSaveAll_ptr rfl hsave, ?_, ?_⟩
  · have hat := rdbCursor_at_init (rs.flatMap RdbRecord.bytes)
    rw [← List.append_nil (rs.flatMap RdbRecord.bytes)] at hat
    obtain ⟨io₁, hrun, -, -, herror⟩ := runReads_whole hdecodes hat
    rw [List.append_nil] at hrun
    exact ⟨io₁, by rw [rdbLoadAll, runReads_map, hrun], herror⟩
  · intro p hp hne
    have hlt : p.length < (rs.flatMap RdbRecord.bytes).length := by
      refine lt_of_le_of_ne hp.length_le fun heq ↦ hne (hp.eq_of_length heq)
    obtain ⟨done, r, rest, io₁, io₂, heq, hle, hcut, hrun, ⟨-, -, herror⟩, hfail, hbroken⟩ :=
      runReads_cut hdecodes (rdbCursor_at_init p) hp hlt
    refine ⟨done, r, rest, io₁, io₂, heq, hle, hcut, by rw [rdbLoadAll, runReads_map, hrun], herror,
      hfail, hbroken, fun later ↦ ?_⟩
    exact runReads_broken (fun t _ ↦ rdbLoad_broken t) later hbroken

/-- Three records, with a length of five bytes among them. -/
theorem rdb_stream_round_trip_three :
    ∃ io ns, rdbSaveAll (rdbInitIoBuffer none) [.type 7, .len 20000, .string [104, 105]] = some (io, ns) ∧
      ∃ io₁, rdbLoadAll (rdbInitIoBuffer (some io.ptr)) [.type, .len, .string] =
        (io₁, [.type 7, .len 20000 false, .string (some [104, 105])]) ∧ io₁.error = false := by
  have hfits : ∀ r ∈ [RdbRecord.type 7, .len 20000, .string [104, 105]], r.Fits := by
    intro r hr
    simp only [List.mem_cons, List.not_mem_nil, or_false] at hr
    obtain rfl | rfl | rfl := hr
    · trivial
    · exact (by decide : 20000 < 2 ^ 32)
    · exact (by decide : 2 < 2 ^ 32)
  obtain ⟨hsaves, hloads⟩ := rdb_stream_round_trip none _ hfits
  obtain ⟨io, ns, hsave⟩ := hsaves (by decide)
  obtain ⟨w, hptr, hload, -⟩ := hloads io ns hsave
  rw [← List.nil_append w] at hload
  exact ⟨io, ns, hsave, hptr ▸ hload⟩

end LatteC
