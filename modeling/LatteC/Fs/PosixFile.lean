import LatteC.Foundation.Block
import LatteC.Foundation.CallMachine
import LatteC.Sds.Basic

/-!
# Buffered files

The writer of `src/fs/posix_file.c`, which collects small pieces in a buffer, and `envReadFileToSds` of
`src/fs/env.c`, which reads a file in pieces.

What the kernel does is a list of outcomes, one for each `write` or `read` to come. A loop that would
need one more has no value: it is still waiting. Nor has an access outside a buffer. Names of files
are C strings without their NUL, and the `int` an append takes is the length of its data.
-/

namespace LatteC

open Block

/-! ## The system calls -/

/-- What a `write` or a `read` does: it moves some bytes, though no more than asked for or there are,
or a signal interrupts it, or it fails. -/
inductive IoOutcome
  | moved (n : ℕ)
  | eintr
  | failed (errno : ℕ)

/-- Some bytes are moved, or a signal came. -/
def IoOutcome.Good : IoOutcome → Prop
  | .moved n => 0 < n
  | .eintr => True
  | .failed _ => False

/-- Bytes are moved. -/
def IoOutcome.moves : IoOutcome → Bool
  | .moved _ => true
  | .eintr => false
  | .failed _ => false

/-- `Error*`. `errno_io_new` gets its code and its text from `errno` and a name. It takes the name for its
format, and for a name of 8 bytes or more it reads a block that nothing was written to; here it is taken to
work for every name. -/
inductive IoStatus
  | ok
  | errnoIo (errno : ℕ) (filename : List UInt8)
  deriving DecidableEq

/-- The kernel's side of a file that is written: what it has got, and the outcomes to come. -/
structure WriteEnd where
  written : List UInt8
  outcomes : List IoOutcome

/-- `writeUnbuffered`. -/
def writeUnbuffered (filename : List UInt8) :
    (outcomes : List IoOutcome) → (written data : List UInt8) → Option (WriteEnd × IoStatus)
  | [], written, data => if data.length = 0 then some (⟨written, []⟩, .ok) else none
  | o :: outcomes, written, data =>
    if data.length = 0 then some (⟨written, o :: outcomes⟩, .ok)
    else
      match o with
      | .moved n => writeUnbuffered filename outcomes (written ++ data.take n) (data.drop n)
      | .eintr => writeUnbuffered filename outcomes written data
      | .failed errno => some (⟨written, outcomes⟩, .errnoIo errno filename)

/-! ## The writer -/

/-- `sds_find_lastof`; `none` is `C_NPOS`. -/
def sdsFindLastof (haystack needle : List UInt8) : Option ℕ :=
  if needle.length = 0 then some 0
  else if haystack.length < needle.length then none
  else (List.range (haystack.length - needle.length + 1)).reverse.find? fun i ↦
    needle.isPrefixOf (haystack.drop i)

/-- `sds_starts_with`. -/
def sdsStartsWith (str prefixBytes : List UInt8) : Bool := prefixBytes.isPrefixOf str

/-- `baseName`. -/
def baseName (filename : List UInt8) : List UInt8 :=
  match sdsFindLastof filename [47] with
  | none => filename
  | some pos => filename.drop (pos + 1)

/-- `isManifest`: the name starts with `MANIFEST`. -/
def isManifest (filename : List UInt8) : Bool :=
  sdsStartsWith (baseName filename) [77, 65, 78, 73, 70, 69, 83, 84]

/-- `getDirName`. -/
def getDirName (path : List UInt8) : List UInt8 :=
  match sdsFindLastof path [47] with
  | none => [46]
  | some pos => path.take pos

/-- `kWritableFileBufferSize`. -/
def kWritableFileBufferSize : ℕ := 65536

/-- `PosixWritableFile`. -/
structure PosixWritableFile where
  fd : ℤ
  filename : List UInt8
  dirname : List UInt8
  pos : ℕ
  isManifest : Bool
  buffer : List UInt8

/-- `posixWritableFileCreate`. The buffer is what `zmalloc` gives, up to its last byte. -/
def posixWritableFileCreate (filename : List UInt8) (fd : ℤ) (block : List UInt8) :
    PosixWritableFile where
  fd := fd
  filename := filename
  dirname := getDirName filename
  pos := 0
  isManifest := isManifest filename
  buffer := block.set (kWritableFileBufferSize - 1) 0

/-- `posixWritableFileFlushBuffer`. -/
def posixWritableFileFlushBuffer (k : WriteEnd) (writer : PosixWritableFile) :
    Option ((WriteEnd × PosixWritableFile) × IoStatus) :=
  (read writer.buffer 0 writer.pos).bind fun data ↦
    (writeUnbuffered writer.filename k.outcomes k.written data).map fun r ↦
      ((r.1, { writer with pos := 0 }), r.2)

/-- `kWritableFileBufferSize - writer->pos`, which is a `size_t`. -/
def bufferRoom (writer : PosixWritableFile) : ℕ :=
  (2 ^ 64 + kWritableFileBufferSize - writer.pos) % 2 ^ 64

/-- `posixWriteableFileAppend`. -/
def posixWriteableFileAppend (k : WriteEnd) (writer : PosixWritableFile) (data : List UInt8) :
    Option ((WriteEnd × PosixWritableFile) × IoStatus) :=
  let copySize := if data.length < bufferRoom writer then data.length else bufferRoom writer
  (write writer.buffer writer.pos (data.take copySize)).bind fun buffer ↦
    let writer := { writer with pos := writer.pos + copySize, buffer := buffer }
    let writeData := data.drop copySize
    if writeData.length = 0 then some ((k, writer), .ok)
    else
      (posixWritableFileFlushBuffer k writer).bind fun r ↦
        if r.2 ≠ .ok then some r
        else if writeData.length < kWritableFileBufferSize then
          (write r.1.2.buffer 0 writeData).map fun buffer ↦
            ((r.1.1, { r.1.2 with pos := writeData.length, buffer := buffer }), .ok)
        else
          (writeUnbuffered writer.filename r.1.1.outcomes r.1.1.written writeData).map fun r' ↦
            ((r'.1, r.1.2), r'.2)

/-- `posixWritableFileFlush`. -/
def posixWritableFileFlush (k : WriteEnd) (writer : PosixWritableFile) :
    Option ((WriteEnd × PosixWritableFile) × IoStatus) :=
  posixWritableFileFlushBuffer k writer

/-- The calls of a sync besides `write`, each with its `errno` if it fails: the `open` of the directory,
its `fsync`, and the `fsync` of the file. -/
structure SyncOutcomes where
  opened : Option ℕ
  dirSynced : Option ℕ
  synced : Option ℕ

/-- `posixWritableFileSyncFd`. -/
def posixWritableFileSyncFd (synced : Option ℕ) (fdPath : List UInt8) : IoStatus :=
  match synced with
  | none => .ok
  | some errno => .errnoIo errno fdPath

/-- `posixWritableFileSyncDirIfManifest`. -/
def posixWritableFileSyncDirIfManifest (writer : PosixWritableFile) (o : SyncOutcomes) : IoStatus :=
  if !writer.isManifest then .ok
  else
    match o.opened with
    | some errno => .errnoIo errno writer.dirname
    | none => posixWritableFileSyncFd o.dirSynced writer.dirname

/-- `posixWritableFileSync`. -/
def posixWritableFileSync (k : WriteEnd) (file : PosixWritableFile) (o : SyncOutcomes) :
    Option ((WriteEnd × PosixWritableFile) × IoStatus) :=
  let error := posixWritableFileSyncDirIfManifest file o
  if error ≠ .ok then some ((k, file), error)
  else
    (posixWritableFileFlushBuffer k file).map fun r ↦
      if r.2 ≠ .ok then r else (r.1, posixWritableFileSyncFd o.synced r.1.2.filename)

/-- `posixWritableFileClose`; `closed` is the `errno` of `close` if that fails. -/
def posixWritableFileClose (k : WriteEnd) (file : PosixWritableFile) (closed : Option ℕ) :
    Option ((WriteEnd × PosixWritableFile) × IoStatus) :=
  (posixWritableFileFlushBuffer k file).map fun r ↦
    ((r.1.1, { r.1.2 with fd := -1 }),
      match closed with
      | none => r.2
      | some errno => if r.2 = .ok then .errnoIo errno r.1.2.filename else r.2)

/-- A call of the writer. -/
inductive WriterCall
  | append (data : List UInt8)
  | flush
  | sync (o : SyncOutcomes)
  | close (closed : Option ℕ)

/-- The state behind a call, and its status. -/
def posixWritableFileStep (s : WriteEnd × PosixWritableFile) :
    WriterCall → Option ((WriteEnd × PosixWritableFile) × IoStatus)
  | .append data => posixWriteableFileAppend s.1 s.2 data
  | .flush => posixWritableFileFlush s.1 s.2
  | .sync o => posixWritableFileSync s.1 s.2 o
  | .close closed => posixWritableFileClose s.1 s.2 closed

/-! ## The reader -/

/-- The kernel's side of a file that is read: what is still to be read, and the outcomes to come. -/
structure ReadEnd where
  rest : List UInt8
  outcomes : List IoOutcome

/-- `slice_t`. -/
structure Slice where
  p : List UInt8
  len : ℕ

/-- `posixSequentialFileRead`. -/
def posixSequentialFileRead (filename : List UInt8) (n : ℕ) :
    (outcomes : List IoOutcome) → (rest : List UInt8) → Slice →
      Option ((ReadEnd × Slice) × IoStatus)
  | [], _, _ => none
  | .moved m :: outcomes, rest, slice =>
    (write slice.p slice.len (rest.take (min m n))).map fun p ↦
      ((⟨rest.drop (min m n), outcomes⟩, ⟨p, slice.len + (rest.take (min m n)).length⟩), .ok)
  | .eintr :: outcomes, rest, slice => posixSequentialFileRead filename n outcomes rest slice
  | .failed errno :: outcomes, rest, slice =>
    some ((⟨rest, outcomes⟩, slice), .errnoIo errno filename)

/-- `kBufferSize`. -/
def kBufferSize : ℕ := 8192

/-- The loop of `envReadFileToSds`, for as many rounds as `rounds` says: the status, and what `data`
is set to. -/
def envReadLoop (fname : List UInt8) :
    (rounds : ℕ) → ReadEnd → (buffer : Slice) → (result : List UInt8) →
      Option (IoStatus × Option (List UInt8))
  | 0, _, _, _ => none
  | rounds + 1, k, buffer, result =>
    (posixSequentialFileRead fname kBufferSize k.outcomes k.rest buffer).bind fun r ↦
      if r.2 ≠ .ok then some (r.2, none)
      else if r.1.2.len = 0 then some (.ok, some result)
      else
        (read r.1.2.p 0 r.1.2.len).bind fun bytes ↦
          (sdsCatLen result bytes).bind fun result ↦
            envReadLoop fname rounds r.1.1 { r.1.2 with len := 0 } result

/-- `envReadFileToSds`, for a file with the given contents; `opened` is the `errno` of `open` if that
fails. Every round takes an outcome. -/
def envReadFileToSds (fname : List UInt8) (opened : Option ℕ) (contents : List UInt8)
    (outcomes : List IoOutcome) : Option (IoStatus × Option (List UInt8)) :=
  match opened with
  | some errno => some (.errnoIo errno fname, none)
  | none =>
    envReadLoop fname outcomes.length ⟨contents, outcomes⟩ ⟨List.replicate kBufferSize 0, 0⟩ []

end LatteC
