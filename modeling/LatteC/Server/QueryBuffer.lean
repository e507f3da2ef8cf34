import LatteC.Sds.Range

/-!
# The query buffer of a client

`read_query_from_client` of `src/server/client.c`: what a connection delivers is appended to `querybuf`, and the
callback `exec` moves `qb_pos` over what it has dealt with. If it returns something other than 0 the bytes in
front of `qb_pos` are dropped.

## Modelling

What `conn_read` answers and what `exec` does may be different every time, and come with each call, as does the
allocator. The times of the calls are left out, and so are the replies that go out at the end: they do not
touch the buffer.
-/

namespace LatteC

open Block Sds

/-- `PROTO_IOBUF_LEN`. -/
def protoIobufLen : ℕ := 1024 * 16

/-- The fields of `latte_client_t` that are about the query buffer. -/
structure QueryClient where
  querybuf : Sds
  qbPos : ℕ
  querybufPeak : ℕ

/-- What `conn_read` answers. -/
inductive QueryConn where
  /-- -1, and the connection is still there. -/
  | again
  /-- -1, and the connection is not. -/
  | failed
  /-- 0. -/
  | closed
  /-- The bytes that were read. -/
  | data (chunk : List UInt8)

/-- The bytes that have come in. -/
def QueryConn.bytes : QueryConn → List UInt8
  | data chunk => chunk
  | _ => []

/-- The callback `exec`: where it leaves `qb_pos`, and what it returns. -/
abbrev QueryExec := QueryClient → (nread : ℕ) → ℕ × ℤ

/-- The end of `read_query_from_client`, with the bytes in the buffer behind `qblen`. -/
def QueryClient.readQueryExec (c : QueryClient) (nread : ℕ) (exec : QueryExec) : SdsResult (QueryClient × ℕ) := do
  let querybuf ← c.querybuf.incrLen nread
  let c := { c with querybuf := querybuf }
  let r := exec c nread
  if r.2 = 0 then .ok ({ c with qbPos := r.1 }, r.1 - c.qbPos)
  else
    let querybuf ← c.querybuf.range ((r.1 : ℤ).bmod (2 ^ 64)) (-1)
    .ok ({ c with querybuf := querybuf, qbPos := 0 }, r.1 - c.qbPos)

/-- `read_query_from_client`: the client, if it is not freed, with the number of bytes that `exec` has
passed. -/
def QueryClient.readQueryFromClient (M : Zmalloc) (c : QueryClient) (conn : QueryConn) (exec : QueryExec) :
    SdsResult (Option (QueryClient × ℕ)) := do
  let qblen ← c.querybuf.len
  let peak := if c.querybufPeak < qblen then qblen else c.querybufPeak
  let querybuf ← c.querybuf.makeRoomFor M protoIobufLen
  match conn with
  | .again => .ok (some ({ c with querybuf := querybuf, querybufPeak := peak }, 0))
  | .failed => .ok none
  | .closed => .ok none
  | .data chunk => do
    let querybuf ← querybuf.store qblen chunk
    let r ← QueryClient.readQueryExec { c with querybuf := querybuf, querybufPeak := peak } chunk.length exec
    .ok (some r)

/-- A call of `read_query_from_client`. -/
structure QueryRead where
  M : Zmalloc
  conn : QueryConn
  exec : QueryExec

/-- What a call may rely on: the allocator hands out no block of `2 ^ 63` bytes, a read delivers something and
no more than was asked for, and `exec` moves `qb_pos` forward, to the end of the buffer at most. -/
structure QueryRead.Right (r : QueryRead) : Prop where
  small : ∀ n b, r.M.malloc n = some b → b.length < 2 ^ 63
  chunk : ∀ xs, r.conn = .data xs → xs ≠ [] ∧ xs.length ≤ protoIobufLen
  exec : ∀ (c : QueryClient) (nread len : ℕ), c.querybuf.len = .ok len → c.qbPos ≤ len →
    c.qbPos ≤ (r.exec c nread).1 ∧ (r.exec c nread).1 ≤ len

/-! ## What it is for -/

/-- A call leaves a client as described, or ends the run: the connection has ended, and the client is freed, or
the allocator refused. -/
def QueryRead.Outcome (r : QueryRead) (post : QueryClient → (passed : ℕ) → Prop) :
    SdsResult (Option (QueryClient × ℕ)) → Prop
  | .ok none => r.conn = .failed ∨ r.conn = .closed
  | .ok (some (c, passed)) => post c passed
  | .error halt => halt = .oom ∧ ∃ n, r.M.malloc n = none

/-- What a call keeps. The string may be shorter than `2 ^ 63` bytes only because its block is. -/
structure QueryClient.Inv (c : QueryClient) (received : List UInt8) (consumed : ℕ) : Prop where
  consumed_le : consumed ≤ received.length
  small : c.querybuf.block.length < 2 ^ 63
  querybuf : ∃ b, c.querybuf.Holds b ∧ c.qbPos ≤ b.length ∧ b.drop c.qbPos = received.drop consumed

/-- A string is shorter than its block. -/
theorem Sds.Holds.length_lt {s : Sds} {b : List UInt8} (h : s.Holds b) : b.length < s.block.length := by
  obtain ⟨t, alloc, buf, rfl, hfits, -⟩ := h
  have hle := hfits.len_le
  have hlt := hfits.alloc_lt
  rw [rep, length_block_frame (length_leBytes _ _) (length_leBytes _ _)]
  omega

section Read

variable {c : QueryClient} {received : List UInt8} {consumed : ℕ} {exec : QueryExec}

/-- The chunk is in the buffer, behind what was there. -/
theorem Sds.RoomFor.append {b xs : List UInt8} {s : Sds} (h : s.RoomFor protoIobufLen b) (hne : xs ≠ [])
    (hle : xs.length ≤ protoIobufLen) :
    ∃ s₁ s₂, s.store b.length xs = .ok s₁ ∧ s₁.block.length = s.block.length ∧
      s₁.incrLen xs.length = .ok s₂ ∧ s₂.Holds (b ++ xs) := by
  obtain ⟨t, alloc, buf, rfl, hfits, hbuf, hroom⟩ := h
  have halloc := hfits.alloc_lt
  obtain ⟨buf', hwrite, hlen, htake⟩ := write_of_le (show b.length + xs.length ≤ buf.length by omega)
  rw [take_of_terminated hbuf] at htake
  have hfits' : Fits t b.length alloc buf' :=
    ⟨hfits.len_le, hfits.alloc_le, hlen ▸ halloc, hfits.short, hlen ▸ hfits.block_lt⟩
  have hpos : 0 < xs.length := List.length_pos_iff.mpr hne
  have hfit : (xs.length : ℤ) ≤ alloc - b.length := by omega
  obtain ⟨s', hincr, hholds⟩ := incrLen_rep hfits' hfit (by omega) (fun _ ↦ by omega)
  have hstore : (rep t b.length alloc buf).store b.length xs = .ok (rep t b.length alloc buf') :=
    store_rep hwrite
  refine ⟨_, s', hstore, length_of_store hstore, hincr, ?_⟩
  rwa [← Nat.cast_add, Int.toNat_natCast, htake] at hholds

end Read

/-! ## Runs -/

end LatteC
