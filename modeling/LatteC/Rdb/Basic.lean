import LatteC.Foundation.Block
import LatteC.Foundation.StickyReader
import LatteC.Sds.Basic

/-!
# The rdb stream

`src/rdb/rdb.c`, on a buffer io: type bytes, lengths and strings written one after the other, and read back.
An error sticks: after it every read and every write fails.

Lengths have four encodings, which the two highest bits of the first byte tell apart. The writer of a length
of 2³² or more uses the tag that the reader takes for a special format.

Numbers are kept in memory with the lowest byte first. The checksum is left out, since it is never
computed, and so is the io over a file.
-/

namespace LatteC

open Block StickyReader

/-- A `RedisModuleIO` with the buffer backend. -/
structure RedisModuleIo where
  /-- The buffer itself, an sds. -/
  ptr : List UInt8
  pos : ℕ
  bytesProcessed : UInt64
  error : Bool
deriving DecidableEq

/-- `rdb_init_io_buffer`. -/
def rdbInitIoBuffer (buffer : Option (List UInt8)) : RedisModuleIo := ⟨buffer.getD [], 0, 0, false⟩

/-- `RDB_LENERR`. -/
def rdbLenerr : ℕ := 2 ^ 64 - 1

/-! ## The primitives -/

/-- `rdb_buffer_write`. Without memory the buffer is lost. -/
def rdbBufferWrite (io : RedisModuleIo) (buf : List UInt8) : Option (RedisModuleIo × ℕ) :=
  (sdsCatLen io.ptr buf).map fun ptr ↦
    ({ io with ptr := ptr, pos := io.pos + buf.length }, buf.length)

/-- `rdb_buffer_read`: the bytes that are there. `pos` is never past the end. -/
def rdbBufferRead (io : RedisModuleIo) (len : ℕ) : RedisModuleIo × List UInt8 :=
  let avail := io.ptr.length - io.pos
  let len := if avail < len then avail else len
  ({ io with pos := io.pos + len }, (io.ptr.drop io.pos).take len)

/-- `rdb_write_raw`, which returns the number of bytes or -1. -/
def rdbWriteRaw (io : RedisModuleIo) (p : List UInt8) : Option (RedisModuleIo × ℤ) :=
  if io.error then some (io, -1)
  else (rdbBufferWrite io p).map fun r ↦
    if r.2 ≠ p.length then ({ r.1 with error := true }, -1)
    else ({ r.1 with bytesProcessed := r.1.bytesProcessed + UInt64.ofNat p.length }, p.length)

/-- `rdb_read_raw`: the bytes read, or the answer -1. -/
def rdbReadRaw (io : RedisModuleIo) (len : ℕ) : RedisModuleIo × Option (List UInt8) :=
  if io.error then (io, none)
  else
    let r := rdbBufferRead io len
    if r.2.length ≠ len then ({ r.1 with error := true }, none)
    else ({ r.1 with bytesProcessed := r.1.bytesProcessed + UInt64.ofNat len }, some r.2)

/-- Go on after a write that did not return -1. -/
def rdbThen (r : Option (RedisModuleIo × ℤ)) (f : RedisModuleIo → ℤ → Option (RedisModuleIo × ℤ)) :
    Option (RedisModuleIo × ℤ) :=
  r.bind fun p ↦ if p.2 = -1 then some (p.1, -1) else f p.1 p.2

/-- `rdb_save_type`. -/
def rdbSaveType (io : RedisModuleIo) (type : UInt8) : Option (RedisModuleIo × ℤ) :=
  rdbWriteRaw io [type]

/-- `rdb_load_type`. -/
def rdbLoadType (io : RedisModuleIo) : RedisModuleIo × ℤ :=
  thenRead (rdbReadRaw io 1) (-1) fun io buf ↦ (io, (buf.headD 0).toNat)

/-! ## Lengths -/

/-- `htonl`: the number whose bytes in memory are those of `v` in the other order. -/
def htonl (v : ℕ) : ℕ := leValue (leBytes 4 v).reverse

/-- `ntohl`. -/
def ntohl (v : ℕ) : ℕ := leValue (leBytes 4 v).reverse

/-- `htonll`. -/
def htonll (v : ℕ) : ℕ := leValue (leBytes 8 v).reverse

/-- `rdb_save_len`, which returns the number of bytes or -1. -/
def rdbSaveLen (io : RedisModuleIo) (len : ℕ) : Option (RedisModuleIo × ℤ) :=
  if len < 2 ^ 6 then
    rdbThen (rdbWriteRaw io [UInt8.ofNat (len % 256 ||| 0 * 2 ^ 6)]) fun io _ ↦ some (io, 1)
  else if len < 2 ^ 14 then
    rdbThen (rdbWriteRaw io
        [UInt8.ofNat (len / 2 ^ 8 % 256 ||| 1 * 2 ^ 6), UInt8.ofNat (len % 256)])
      fun io _ ↦ some (io, 2)
  else if len ≤ 2 ^ 32 - 1 then
    rdbThen (rdbWriteRaw io [UInt8.ofNat (2 * 2 ^ 6)]) fun io _ ↦
      rdbThen (rdbWriteRaw io (leBytes 4 (htonl len))) fun io _ ↦ some (io, 1 + 4)
  else
    rdbThen (rdbWriteRaw io [UInt8.ofNat (3 * 2 ^ 6 ||| 0x01)]) fun io _ ↦
      rdbThen (rdbWriteRaw io (leBytes 8 (htonll len))) fun io _ ↦ some (io, 1 + 8)

/-- `rdb_load_len` once its first byte is there: the length, and `isencoded`. -/
def rdbLoadLenRest (io : RedisModuleIo) (b : UInt8) : RedisModuleIo × ℕ × Bool :=
  let type := (b &&& 0xC0).toNat / 2 ^ 6
  if type = 0 then (io, (b &&& 0x3F).toNat, false)
  else if type = 1 then
    thenRead (rdbReadRaw io 1) (rdbLenerr, false) fun io buf ↦
      (io, (b &&& 0x3F).toNat * 2 ^ 8 ||| (buf.headD 0).toNat, false)
  else if type = 2 then
    thenRead (rdbReadRaw io 4) (rdbLenerr, false) fun io buf ↦ (io, ntohl (leValue buf), false)
  else if type = 3 then (io, (b &&& 0x3F).toNat, true)
  else (io, rdbLenerr, false)

/-- `rdb_load_len`. -/
def rdbLoadLen (io : RedisModuleIo) : RedisModuleIo × ℕ × Bool :=
  thenRead (rdbReadRaw io 1) (rdbLenerr, false) fun io buf ↦ rdbLoadLenRest io (buf.headD 0)

/-! ## Strings -/

/-- `rdb_save_string`. -/
def rdbSaveString (io : RedisModuleIo) (str : List UInt8) : Option (RedisModuleIo × ℤ) :=
  rdbThen (rdbSaveLen io str.length) fun io n1 ↦
    if 0 < str.length then rdbThen (rdbWriteRaw io str) fun io n2 ↦ some (io, n1 + n2)
    else some (io, n1 + 0)

/-- `rdb_load_string`; `none` is NULL. Memory for what the length says is always there. -/
def rdbLoadString (io : RedisModuleIo) : RedisModuleIo × Option (List UInt8) :=
  let r := rdbLoadLen io
  let len := r.2.1
  let isencoded := r.2.2
  if isencoded then (r.1, none)
  else if len = rdbLenerr then (r.1, none)
  else if 0 < len then rdbReadRaw r.1 len
  else (r.1, some (List.replicate len 0))

end LatteC
