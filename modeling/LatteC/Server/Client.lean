import LatteC.Foundation.Block
import LatteC.Foundation.CallMachine

/-!
# The output of a client

`src/server/client.c`: replies are collected in a buffer of fixed size and, when that is not enough,
in a list of blocks; `write_to_client` hands them over to the connection, as much as it takes.

## Modelling

The path without asynchronous I/O. A block is what the allocator returns, with the size it really has.
`conn_write` is `write(2)`: every call of it takes some of the bytes, or stops (`ConnWrite`). The
queue of clients with something to write, the time stamps and the event handler are left out. A copy that
reaches outside of its block and an assertion that fails are faults, `none`. Lengths are natural
numbers, since what they count is in memory; only a subtraction could wrap around (`sizeSub`).

## The argument

`sentlen` counts the bytes sent of whatever comes first, the buffer or the first block. Seen from the
outside there is one string, `LatteClient.stored`, of which `sentlen` bytes are gone; adding a reply
appends to it, and writing takes a prefix off.
-/

namespace LatteC

open Block

/-- `PROTO_REPLY_CHUNK_BYTES`. -/
def protoReplyChunkBytes : ℕ := 16 * 1024

/-- `sizeof(client_reply_block_t)`. -/
def sizeofClientReplyBlock : ℕ := 16

/-- `a - b` for two numbers of type `size_t`. -/
def sizeSub (a b : ℕ) : ℕ := if b ≤ a then a - b else a + 2 ^ 64 - b

/-- `client_reply_block_t`. -/
structure ClientReplyBlock where
  size : ℕ
  used : ℕ
  buf : List UInt8
deriving DecidableEq

/-- `latte_client_t`, as far as its output goes. -/
structure LatteClient where
  /-- The flag `CLIENT_CLOSE_AFTER_REPLY`. -/
  closeAfterReply : Bool
  /-- The client was freed. Its callers do not use it again; here it is only marked. -/
  freed : Bool
  bufpos : ℕ
  buf : List UInt8
  reply : List ClientReplyBlock
  replyBytes : ℕ
  sentlen : ℕ
deriving DecidableEq

/-- `protected_init_latte_client`. The buffer is not initialized. -/
def protectedInitLatteClient (M : Allocator UInt8) : LatteClient where
  closeAfterReply := false
  freed := false
  bufpos := 0
  buf := (M.block protoReplyChunkBytes).take protoReplyChunkBytes
  reply := []
  replyBytes := 0
  sentlen := 0

/-! ## Adding a reply -/

/-- `_add_reply_to_buffer`. -/
def addReplyToBuffer (c : LatteClient) (s : List UInt8) : Option (LatteClient × ℤ) :=
  let available := protoReplyChunkBytes - c.bufpos
  if c.closeAfterReply then some (c, 0)
  else if 0 < c.reply.length then some (c, -1)
  else if available < s.length then some (c, -1)
  else (write c.buf c.bufpos s).map fun buf ↦
    ({ c with buf := buf, bufpos := c.bufpos + s.length }, 0)

/-- The second half of `_add_reply_proto_to_list`: a new block for what is left. -/
def addReplyBlock (M : Allocator UInt8) (c : LatteClient) (s : List UInt8) : Option LatteClient :=
  if s.length ≠ 0 then
    let size := if s.length < protoReplyChunkBytes then protoReplyChunkBytes else s.length
    let buf := (M.block (size + sizeofClientReplyBlock)).drop sizeofClientReplyBlock
    (write buf 0 s).map fun buf ↦
      { c with
        reply := c.reply ++ [⟨buf.length, s.length, buf⟩]
        replyBytes := c.replyBytes + buf.length }
  else some c

/-- `_add_reply_proto_to_list`. -/
def addReplyProtoToList (M : Allocator UInt8) (c : LatteClient) (s : List UInt8) :
    Option LatteClient :=
  if c.closeAfterReply then some c
  else
    match c.reply.getLast? with
    | none => addReplyBlock M c s
    | some tail =>
      let avail := tail.size - tail.used
      let copy := if s.length ≤ avail then s.length else avail
      (write tail.buf tail.used (s.take copy)).bind fun buf ↦
        addReplyBlock M
          { c with reply := c.reply.dropLast ++ [{ tail with used := tail.used + copy, buf := buf }] }
          (s.drop copy)

/-- `add_reply_proto`. -/
def addReplyProto (M : Allocator UInt8) (c : LatteClient) (s : List UInt8) : Option LatteClient :=
  (addReplyToBuffer c s).bind fun (c, r) ↦ if r ≠ 0 then addReplyProtoToList M c s else some c

/-! ## Writing -/

/-- How the connection answers a call of `conn_write`. -/
inductive ConnWrite where
  /-- It takes up to `n` bytes. -/
  | accept (n : ℕ)
  /-- It takes nothing now, the answer is `-1`. -/
  | again
  /-- It is no longer connected, the answer is `-1`. -/
  | fail
deriving DecidableEq

/-- `conn_write`. -/
def connWrite (data : List UInt8) : ConnWrite → ℤ
  | .accept n => min n data.length
  | .again => -1
  | .fail => -1

/-- `client_has_pending_replies`. -/
def clientHasPendingReplies (c : LatteClient) : Bool := 0 < c.bufpos || 0 < c.reply.length

/-- The loop of `write_to_client`. `results` are the answers of the connection; when they are used up it
stops. Returns the client, the bytes taken, and the last answer. -/
def writeToClientLoop : (fuel : ℕ) → LatteClient → (results : List ConnWrite) →
    Option (LatteClient × List UInt8 × ConnWrite)
  | 0, _, _ => none
  | fuel + 1, c, results =>
    if clientHasPendingReplies c then
      let result := results.headD .again
      if 0 < c.bufpos then
        (read c.buf c.sentlen (sizeSub c.bufpos c.sentlen)).bind fun data ↦
          let nwritten := connWrite data result
          if nwritten ≤ 0 then some (c, [], result)
          else
            let sentlen := c.sentlen + nwritten.toNat
            let c := if sentlen = c.bufpos then { c with bufpos := 0, sentlen := 0 }
              else { c with sentlen := sentlen }
            (writeToClientLoop fuel c results.tail).map fun r ↦
              (r.1, data.take nwritten.toNat ++ r.2.1, r.2.2)
      else
        match c.reply with
        | [] => none
        | o :: reply =>
          let objlen := o.used
          if objlen = 0 then
            writeToClientLoop fuel { c with
              reply := reply, replyBytes := sizeSub c.replyBytes o.size } results
          else
            (read o.buf c.sentlen (sizeSub objlen c.sentlen)).bind fun data ↦
              let nwritten := connWrite data result
              if nwritten ≤ 0 then some (c, [], result)
              else
                let sentlen := c.sentlen + nwritten.toNat
                (if sentlen = objlen then
                    let replyBytes := sizeSub c.replyBytes o.size
                    -- `assert(c->reply_bytes == 0)` when the list is empty
                    if reply.length = 0 ∧ replyBytes ≠ 0 then none
                    else some { c with reply := reply, replyBytes := replyBytes, sentlen := 0 }
                  else some { c with sentlen := sentlen }).bind fun c ↦
                    (writeToClientLoop fuel c results.tail).map fun r ↦
                      (r.1, data.take nwritten.toNat ++ r.2.1, r.2.2)
    else some (c, [], .accept 0)

/-- `write_to_client`: the client and the bytes that the connection has taken. -/
def writeToClient (c : LatteClient) (results : List ConnWrite) : Option (LatteClient × List UInt8) :=
  (writeToClientLoop (results.length + c.reply.length + 1) c results).map fun (c, sent, last) ↦
    if last = .fail then ({ c with freed := true }, sent)
    else if clientHasPendingReplies c then (c, sent)
    else ({ c with sentlen := 0, freed := c.freed || c.closeAfterReply }, sent)

/-- The calls on a client. -/
inductive ClientCall where
  | addReplyProto (s : List UInt8)
  | writeToClient (results : List ConnWrite)

/-- One call, with the bytes that the connection has taken in it. -/
def clientStep (M : Allocator UInt8) (c : LatteClient) : ClientCall → Option (LatteClient × List UInt8)
  | .addReplyProto s => (addReplyProto M c s).map fun c ↦ (c, [])
  | .writeToClient results => writeToClient c results

/-- The reply that a call adds. -/
def ClientCall.added : ClientCall → List UInt8
  | .addReplyProto s => s
  | .writeToClient _ => []

/-! ## The output as one string -/

/-- The bytes in use of a block. -/
def ClientReplyBlock.bytes (b : ClientReplyBlock) : List UInt8 := b.buf.take b.used

namespace LatteClient

/-- The buffer and the blocks, one after the other. -/
def stored (c : LatteClient) : List UInt8 :=
  c.buf.take c.bufpos ++ c.reply.flatMap ClientReplyBlock.bytes

/-- The bytes in the buffer and in the blocks that have not been sent. -/
def unsent (c : LatteClient) : List UInt8 := c.stored.drop c.sentlen

/-- The length of what comes first, the buffer or the first block. -/
def firstLen (c : LatteClient) : ℕ :=
  if 0 < c.bufpos then c.bufpos else (c.reply.head?.map ClientReplyBlock.used).getD 0

end LatteClient

/-- A block that has something in it. -/
structure ClientReplyBlock.Wf (b : ClientReplyBlock) : Prop where
  length_buf : b.buf.length = b.size
  used_pos : 0 < b.used
  used_le : b.used ≤ b.size

/-- The invariant of a client between two calls: no block is empty, and the cursor is inside of what
comes first. -/
structure LatteClient.Inv (c : LatteClient) : Prop where
  closeAfterReply : c.closeAfterReply = false
  length_buf : c.buf.length = protoReplyChunkBytes
  bufpos_le : c.bufpos ≤ protoReplyChunkBytes
  blocks : ∀ b ∈ c.reply, b.Wf
  sentlen : c.sentlen = 0 ∨ c.sentlen < c.firstLen
  replyBytes_eq : c.replyBytes = (c.reply.map ClientReplyBlock.size).sum

/-- `c'` has `s` after everything that `c` has, and the same bytes of it are gone. -/
structure LatteClient.Extends (c : LatteClient) (s : List UInt8) (c' : LatteClient) : Prop where
  inv : c'.Inv
  sentlen_eq : c'.sentlen = c.sentlen
  stored_eq : c'.stored = c.stored ++ s

theorem sizeSub_of_le {a b : ℕ} (h : b ≤ a) : sizeSub a b = a - b := if_pos h

theorem ClientReplyBlock.Wf.length_bytes {b : ClientReplyBlock} (h : b.Wf) :
    b.bytes.length = b.used := by
  rw [bytes, List.length_take, h.length_buf, Nat.min_eq_left h.used_le]

theorem LatteClient.Inv.length_take_buf {c : LatteClient} (h : c.Inv) :
    (c.buf.take c.bufpos).length = c.bufpos := by
  rw [List.length_take, h.length_buf, Nat.min_eq_left h.bufpos_le]

theorem LatteClient.Inv.sentlen_le {c : LatteClient} (h : c.Inv) : c.sentlen ≤ c.stored.length := by
  have hstored : c.stored.length = c.bufpos + (c.reply.flatMap ClientReplyBlock.bytes).length := by
    rw [stored, List.length_append, h.length_take_buf]
  have hsentlen := h.sentlen
  rw [firstLen] at hsentlen
  split_ifs at hsentlen with hpos
  · omega
  · cases hreply : c.reply with
    | nil =>
      rw [hreply, List.head?_nil, Option.map_none, Option.getD_none] at hsentlen
      omega
    | cons b reply =>
      have hlen := (h.blocks b (by rw [hreply]; exact List.mem_cons_self)).length_bytes
      rw [hreply, List.flatMap_cons, List.length_append, hlen] at hstored
      rw [hreply, List.head?_cons, Option.map_some, Option.getD_some] at hsentlen
      omega

theorem LatteClient.Extends.trans {c c' c'' : LatteClient} {s t : List UInt8}
    (h : c.Extends s c') (h' : c'.Extends t c'') : c.Extends (s ++ t) c'' where
  inv := h'.inv
  sentlen_eq := h'.sentlen_eq.trans h.sentlen_eq
  stored_eq := by rw [h'.stored_eq, h.stored_eq, List.append_assoc]

theorem LatteClient.Extends.unsent_eq {c c' : LatteClient} {s : List UInt8} (h : c.Extends s c')
    (hc : c.Inv) : c'.unsent = c.unsent ++ s := by
  rw [unsent, unsent, h.sentlen_eq, h.stored_eq, List.drop_append_of_le_length hc.sentlen_le]

/-- The cursor stays inside of what comes first when that gets longer. -/
theorem LatteClient.Inv.sentlen_mono {c : LatteClient} (h : c.Inv) {n : ℕ} (hn : c.firstLen ≤ n) :
    c.sentlen = 0 ∨ c.sentlen < n :=
  h.sentlen.imp_right fun hlt ↦ lt_of_lt_of_le hlt hn

/-- The reply fits into the buffer and nothing waits behind it. -/
theorem addReplyToBuffer_spec {c : LatteClient} (h : c.Inv) {s : List UInt8} (hreply : c.reply = [])
    (hfit : s.length ≤ protoReplyChunkBytes - c.bufpos) :
    ∃ c', addReplyToBuffer c s = some (c', 0) ∧ c.Extends s c' := by
  have hle := h.bufpos_le
  have hbuf : c.bufpos + s.length ≤ c.buf.length := by
    rw [h.length_buf]
    omega
  obtain ⟨buf, hwrite, hlength, htake⟩ := write_of_le hbuf
  have hend : c.bufpos + s.length ≤ protoReplyChunkBytes := by omega
  have hfirst : c.firstLen ≤
      ({ c with buf := buf, bufpos := c.bufpos + s.length } : LatteClient).firstLen := by
    simp only [LatteClient.firstLen, hreply, List.head?_nil, Option.map_none, Option.getD_none]
    split_ifs <;> omega
  refine ⟨{ c with buf := buf, bufpos := c.bufpos + s.length }, ?_, ⟨h.closeAfterReply,
    hlength.trans h.length_buf, hend, h.blocks, h.sentlen_mono hfirst, h.replyBytes_eq⟩, rfl, ?_⟩
  · rw [addReplyToBuffer, if_neg (by rw [h.closeAfterReply]; decide), if_neg (by rw [hreply]; decide),
      if_neg (by omega), hwrite, Option.map_some]
  · rw [LatteClient.stored, LatteClient.stored, htake, hreply, List.flatMap_nil, List.append_nil,
      List.append_nil]

/-- Replacing the blocks leaves the cursor inside of what comes first, if the first block does not get
shorter. -/
theorem LatteClient.Inv.of_reply {c : LatteClient} (h : c.Inv) {reply : List ClientReplyBlock}
    {n : ℕ} (hblocks : ∀ b ∈ reply, b.Wf) (hn : n = (reply.map ClientReplyBlock.size).sum)
    (hfirst : (c.reply.head?.map ClientReplyBlock.used).getD 0 ≤
      (reply.head?.map ClientReplyBlock.used).getD 0) :
    ({ c with reply := reply, replyBytes := n } : LatteClient).Inv where
  closeAfterReply := h.closeAfterReply
  length_buf := h.length_buf
  bufpos_le := h.bufpos_le
  blocks := hblocks
  sentlen := by
    refine h.sentlen_mono ?_
    rw [firstLen, firstLen]
    split_ifs with hpos
    · exact le_rfl
    · exact hfirst
  replyBytes_eq := hn

theorem addReplyBlock_spec (M : Allocator UInt8) {c : LatteClient} (h : c.Inv) (s : List UInt8) :
    ∃ c', addReplyBlock M c s = some c' ∧ c.Extends s c' := by
  by_cases hs : s.length ≠ 0
  · obtain ⟨size, hsize⟩ : ∃ size, size =
        if s.length < protoReplyChunkBytes then protoReplyChunkBytes else s.length := ⟨_, rfl⟩
    have hle : s.length ≤ size := by
      rw [hsize]
      split_ifs <;> omega
    have hblock := M.le_length (size + sizeofClientReplyBlock)
    have hfit : 0 + s.length ≤
        ((M.block (size + sizeofClientReplyBlock)).drop sizeofClientReplyBlock).length := by
      rw [List.length_drop]
      omega
    obtain ⟨buf, hwrite, hlength, htake⟩ := write_of_le hfit
    rw [Nat.zero_add, List.take_zero, List.nil_append] at htake
    rw [Nat.zero_add, ← hlength] at hfit
    have hwf : (⟨buf.length, s.length, buf⟩ : ClientReplyBlock).Wf :=
      ⟨rfl, Nat.pos_of_ne_zero hs, hfit⟩
    refine ⟨{ c with reply := c.reply ++ [⟨buf.length, s.length, buf⟩]
                     replyBytes := c.replyBytes + buf.length }, ?_, h.of_reply ?_ ?_ ?_, rfl, ?_⟩
    · rw [addReplyBlock, if_pos hs, ← hsize]
      simp only [hwrite, Option.map_some]
    · intro b hb
      rcases List.mem_append.mp hb with hold | hnew
      · exact h.blocks b hold
      · rw [List.mem_singleton.mp hnew]
        exact hwf
    · rw [List.map_append, List.sum_append, ← h.replyBytes_eq, List.map_singleton,
        List.sum_singleton]
    · cases c.reply with
      | nil => exact Nat.zero_le _
      | cons b reply => exact le_rfl
    · rw [LatteClient.stored, LatteClient.stored, List.flatMap_append, List.flatMap_singleton,
        ClientReplyBlock.bytes, htake, List.append_assoc]
  · have hnil : s = [] := List.length_eq_zero_iff.mp (not_not.mp hs)
    exact ⟨c, by rw [addReplyBlock, if_neg hs], h, rfl, by rw [hnil, List.append_nil]⟩

/-- Topping up the last block. -/
theorem extends_tail {c : LatteClient} (h : c.Inv) {front : List ClientReplyBlock}
    {tail : ClientReplyBlock} (hreply : c.reply = front ++ [tail]) {s buf : List UInt8}
    (hfit : tail.used + s.length ≤ tail.size) (hlength : buf.length = tail.buf.length)
    (htake : buf.take (tail.used + s.length) = tail.buf.take tail.used ++ s) :
    c.Extends s
      { c with reply := front ++ [{ tail with used := tail.used + s.length, buf := buf }] } := by
  have htail : tail.Wf := h.blocks tail (by rw [hreply]; simp)
  have hpos := htail.used_pos
  have hsum := h.replyBytes_eq
  rw [hreply, List.map_append, List.sum_append, List.map_singleton, List.sum_singleton] at hsum
  refine ⟨h.of_reply ?_ ?_ ?_, rfl, ?_⟩
  · intro b hb
    rcases List.mem_append.mp hb with hold | hnew
    · exact h.blocks b (by rw [hreply]; exact List.mem_append_left _ hold)
    · rw [List.mem_singleton.mp hnew]
      exact ⟨hlength.trans htail.length_buf, Nat.lt_of_lt_of_le hpos (Nat.le_add_right _ _), hfit⟩
  · rw [hsum, List.map_append, List.sum_append, List.map_singleton, List.sum_singleton]
  · rw [hreply]
    cases front with
    | nil => exact Nat.le_add_right _ _
    | cons b front => exact le_rfl
  · rw [LatteClient.stored, LatteClient.stored, hreply, List.flatMap_append, List.flatMap_singleton,
      List.flatMap_append, List.flatMap_singleton, ClientReplyBlock.bytes, ClientReplyBlock.bytes,
      htake]
    simp only [List.append_assoc]

theorem addReplyProtoToList_spec (M : Allocator UInt8) {c : LatteClient} (h : c.Inv)
    (s : List UInt8) : ∃ c', addReplyProtoToList M c s = some c' ∧ c.Extends s c' := by
  rw [addReplyProtoToList, if_neg (by rw [h.closeAfterReply]; decide)]
  rcases List.eq_nil_or_concat c.reply with hnil | ⟨front, tail, hreply⟩
  · rw [hnil, List.getLast?_nil]
    exact addReplyBlock_spec M h s
  · have htail : tail.Wf := h.blocks tail (by rw [hreply]; simp)
    have hused := htail.used_le
    rw [List.concat_eq_append] at hreply
    rw [hreply, List.getLast?_concat, List.dropLast_concat]
    simp only
    obtain ⟨copy, hcopy⟩ : ∃ copy, copy =
        if s.length ≤ tail.size - tail.used then s.length else tail.size - tail.used := ⟨_, rfl⟩
    rw [← hcopy]
    have hlen : (s.take copy).length = copy := by
      rw [List.length_take, hcopy]
      split_ifs <;> omega
    have hfit : tail.used + (s.take copy).length ≤ tail.size := by
      rw [hlen, hcopy]
      split_ifs <;> omega
    obtain ⟨buf, hwrite, hlength, htake⟩ := write_of_le (hfit.trans_eq htail.length_buf.symm)
    have htop := extends_tail h hreply hfit hlength htake
    obtain ⟨c', hblock, hextends⟩ := addReplyBlock_spec M htop.inv (s.drop copy)
    have hboth := htop.trans hextends
    rw [hlen] at hblock
    rw [List.take_append_drop] at hboth
    exact ⟨c', by rw [hwrite, Option.bind_some, hblock], hboth⟩

theorem addReplyProto_of_refused (M : Allocator UInt8) {c : LatteClient} {s : List UInt8}
    (h : addReplyToBuffer c s = some (c, -1)) : addReplyProto M c s = addReplyProtoToList M c s := by
  rw [addReplyProto, h, Option.bind_some]
  exact if_pos (by decide)

theorem addReplyProto_of_accepted (M : Allocator UInt8) {c c' : LatteClient} {s : List UInt8}
    (h : addReplyToBuffer c s = some (c', 0)) : addReplyProto M c s = some c' := by
  rw [addReplyProto, h, Option.bind_some]
  exact if_neg (by decide)

/-- Adding a reply puts it behind everything else. -/
theorem addReplyProto_spec (M : Allocator UInt8) {c : LatteClient} (h : c.Inv) (s : List UInt8) :
    ∃ c', addReplyProto M c s = some c' ∧ c.Extends s c' := by
  have hclose : ¬ c.closeAfterReply = true := by rw [h.closeAfterReply]; decide
  -- the buffer refuses when blocks wait, or when the reply is too long for it
  by_cases hreply : 0 < c.reply.length
  · have hbuffer : addReplyToBuffer c s = some (c, -1) := by
      rw [addReplyToBuffer, if_neg hclose, if_pos hreply]
    rw [addReplyProto_of_refused M hbuffer]
    exact addReplyProtoToList_spec M h s
  · by_cases hlong : protoReplyChunkBytes - c.bufpos < s.length
    · have hbuffer : addReplyToBuffer c s = some (c, -1) := by
        rw [addReplyToBuffer, if_neg hclose, if_neg hreply, if_pos hlong]
      rw [addReplyProto_of_refused M hbuffer]
      exact addReplyProtoToList_spec M h s
    · have hnil : c.reply = [] := List.length_eq_zero_iff.mp (Nat.eq_zero_of_not_pos hreply)
      obtain ⟨c', hbuffer, hextends⟩ := addReplyToBuffer_spec h hnil (not_lt.mp hlong)
      exact ⟨c', addReplyProto_of_accepted M hbuffer, hextends⟩

/-! ## Writing takes a prefix off -/

/-- Either the connection stops, or there was an answer left and it takes some of the bytes. -/
theorem connWrite_headD (data : List UInt8) (results : List ConnWrite) :
    connWrite data (results.headD .again) ≤ 0 ∨ ∃ n : ℕ, connWrite data (results.headD .again) = n ∧
      0 < n ∧ n ≤ data.length ∧ results.tail.length + 1 = results.length := by
  by_cases hstop : connWrite data (results.headD .again) ≤ 0
  · exact Or.inl hstop
  · cases results with
    | nil => exact absurd neg_one_lt_zero.le hstop
    | cons result results =>
      rw [List.headD_cons] at hstop ⊢
      cases result with
      | accept n =>
        simp only [connWrite] at hstop ⊢
        exact Or.inr ⟨min n data.length, by omega, by omega, min_le_right _ _, rfl⟩
      | again => exact absurd neg_one_lt_zero.le hstop
      | fail => exact absurd neg_one_lt_zero.le hstop

namespace LatteClient

variable {c : LatteClient}

theorem Inv.sentlen_lt_bufpos (h : c.Inv) (hpos : 0 < c.bufpos) : c.sentlen < c.bufpos := by
  have hsentlen := h.sentlen
  rw [firstLen, if_pos hpos] at hsentlen
  omega

/-- What is left of the buffer. -/
theorem Inv.read_buf (h : c.Inv) (hpos : 0 < c.bufpos) :
    ∃ data, read c.buf c.sentlen (sizeSub c.bufpos c.sentlen) = some data ∧
      data.length = c.bufpos - c.sentlen ∧
      c.unsent = data ++ c.reply.flatMap ClientReplyBlock.bytes := by
  have hlt := h.sentlen_lt_bufpos hpos
  have hle := h.bufpos_le
  have hdata : (c.buf.drop c.sentlen).take (c.bufpos - c.sentlen) =
      (c.buf.take c.bufpos).drop c.sentlen := List.drop_take.symm
  refine ⟨(c.buf.take c.bufpos).drop c.sentlen, ?_, ?_, ?_⟩
  · rw [sizeSub_of_le hlt.le, Block.read, if_pos (by rw [h.length_buf]; omega), hdata]
  · rw [List.length_drop, h.length_take_buf]
  · rw [unsent, stored, List.drop_append_of_le_length (by rw [h.length_take_buf]; exact hlt.le)]

/-- `n` bytes of the buffer are sent. -/
theorem Inv.advance_buf (h : c.Inv) (hpos : 0 < c.bufpos) {n : ℕ} (hn : c.sentlen + n ≤ c.bufpos) :
    (if c.sentlen + n = c.bufpos then { c with bufpos := 0, sentlen := 0 }
      else { c with sentlen := c.sentlen + n } : LatteClient).Inv ∧
    (if c.sentlen + n = c.bufpos then { c with bufpos := 0, sentlen := 0 }
      else { c with sentlen := c.sentlen + n } : LatteClient).unsent = c.unsent.drop n := by
  have hlength := h.length_take_buf
  split_ifs with hend
  · refine ⟨⟨h.closeAfterReply, h.length_buf, Nat.zero_le _, h.blocks, Or.inl rfl,
      h.replyBytes_eq⟩, ?_⟩
    rw [unsent, unsent, stored, stored, List.drop_drop, hend, List.drop_zero, List.take_zero,
      List.nil_append, List.drop_append_of_le_length hlength.ge, List.drop_eq_nil_of_le hlength.le,
      List.nil_append]
  · have hlt : c.sentlen + n < c.bufpos := lt_of_le_of_ne hn hend
    refine ⟨⟨h.closeAfterReply, h.length_buf, h.bufpos_le, h.blocks, Or.inr ?_, h.replyBytes_eq⟩, ?_⟩
    · rw [firstLen, if_pos hpos]
      exact hlt
    · rw [unsent, unsent, List.drop_drop]
      rfl

variable {o : ClientReplyBlock} {reply : List ClientReplyBlock}

theorem Inv.sentlen_lt_used (h : c.Inv) (hbufpos : c.bufpos = 0) (hreply : c.reply = o :: reply) :
    c.sentlen < o.used := by
  have hsentlen := h.sentlen
  have hpos := (h.blocks o (by rw [hreply]; exact List.mem_cons_self)).used_pos
  rw [firstLen, if_neg (by omega), hreply, List.head?_cons, Option.map_some,
    Option.getD_some] at hsentlen
  omega

theorem stored_of_blocks (hbufpos : c.bufpos = 0) (hreply : c.reply = o :: reply) :
    c.stored = o.bytes ++ reply.flatMap ClientReplyBlock.bytes := by
  rw [stored, hbufpos, List.take_zero, List.nil_append, hreply, List.flatMap_cons]

/-- What is left of the first block. -/
theorem Inv.read_block (h : c.Inv) (hbufpos : c.bufpos = 0) (hreply : c.reply = o :: reply) :
    ∃ data, read o.buf c.sentlen (sizeSub o.used c.sentlen) = some data ∧
      data.length = o.used - c.sentlen ∧
      c.unsent = data ++ reply.flatMap ClientReplyBlock.bytes := by
  have hwf := h.blocks o (by rw [hreply]; exact List.mem_cons_self)
  have hused := hwf.used_le
  have hlt := h.sentlen_lt_used hbufpos hreply
  have hdata : (o.buf.drop c.sentlen).take (o.used - c.sentlen) = o.bytes.drop c.sentlen :=
    List.drop_take.symm
  refine ⟨o.bytes.drop c.sentlen, ?_, ?_, ?_⟩
  · rw [sizeSub_of_le hlt.le, Block.read, if_pos (by rw [hwf.length_buf]; omega), hdata]
  · rw [List.length_drop, hwf.length_bytes]
  · rw [unsent, stored_of_blocks hbufpos hreply,
      List.drop_append_of_le_length (by rw [hwf.length_bytes]; exact hlt.le)]

/-- Without the first block `reply_bytes` is the size of the others. -/
theorem Inv.sizeSub_replyBytes (h : c.Inv) (hreply : c.reply = o :: reply) :
    sizeSub c.replyBytes o.size = (reply.map ClientReplyBlock.size).sum := by
  have hsum := h.replyBytes_eq
  rw [hreply, List.map_cons, List.sum_cons] at hsum
  rw [sizeSub_of_le (by omega)]
  omega

/-- The first block is sent to its end. -/
theorem Inv.drop_block (h : c.Inv) (hbufpos : c.bufpos = 0) (hreply : c.reply = o :: reply) {n : ℕ}
    (hn : c.sentlen + n = o.used) :
    ({ c with reply := reply, replyBytes := sizeSub c.replyBytes o.size
              sentlen := 0 } : LatteClient).Inv ∧
    ({ c with reply := reply, replyBytes := sizeSub c.replyBytes o.size
              sentlen := 0 } : LatteClient).unsent = c.unsent.drop n := by
  have hlength := (h.blocks o (by rw [hreply]; exact List.mem_cons_self)).length_bytes
  refine ⟨⟨h.closeAfterReply, h.length_buf, h.bufpos_le, ?_, Or.inl rfl,
    h.sizeSub_replyBytes hreply⟩, ?_⟩
  · intro b hb
    exact h.blocks b (by rw [hreply]; exact List.mem_cons_of_mem _ hb)
  · rw [unsent, unsent, stored_of_blocks hbufpos hreply, List.drop_drop, hn, ← hlength,
      List.drop_left, stored, List.drop_zero, hbufpos, List.take_zero, List.nil_append]

/-- `n` bytes of the first block are sent, and some are left. -/
theorem Inv.advance_block (h : c.Inv) (hbufpos : c.bufpos = 0) (hreply : c.reply = o :: reply)
    {n : ℕ} (hn : c.sentlen + n < o.used) :
    ({ c with sentlen := c.sentlen + n } : LatteClient).Inv ∧
    ({ c with sentlen := c.sentlen + n } : LatteClient).unsent = c.unsent.drop n := by
  refine ⟨⟨h.closeAfterReply, h.length_buf, h.bufpos_le, h.blocks, Or.inr ?_, h.replyBytes_eq⟩, ?_⟩
  · rw [firstLen, if_neg (by rw [hbufpos]; decide), hreply]
    exact hn
  · rw [unsent, unsent, List.drop_drop]
    rfl

end LatteClient

/-- The loop ends, and what it has sent comes off the front. -/
theorem writeToClientLoop_spec {fuel : ℕ} {c : LatteClient} (h : c.Inv) {results : List ConnWrite}
    (hfuel : results.length < fuel) :
    ∃ c' sent last, writeToClientLoop fuel c results = some (c', sent, last) ∧ c'.Inv ∧
      sent ++ c'.unsent = c.unsent := by
  induction fuel generalizing c results with
  | zero => omega
  | succ fuel ih =>
    -- one answer of the connection takes `n` bytes of `data`, and the loop goes on from `c₁`
    have hnext : ∀ {c₁ : LatteClient} {data rest : List UInt8} {n : ℕ}, c₁.Inv →
        c.unsent = data ++ rest → n ≤ data.length → c₁.unsent = c.unsent.drop n →
        results.tail.length + 1 = results.length →
        ∃ c' sent last, (writeToClientLoop fuel c₁ results.tail).map
            (fun r ↦ (r.1, data.take n ++ r.2.1, r.2.2)) = some (c', sent, last) ∧ c'.Inv ∧
          sent ++ c'.unsent = c.unsent := by
      intro c₁ data rest n h₁ hdata hn hdrop htail
      have hfuel' : results.tail.length < fuel := by omega
      obtain ⟨c', sent, last, hloop, h', hsent⟩ := ih h₁ hfuel'
      refine ⟨c', data.take n ++ sent, last, by rw [hloop, Option.map_some], h', ?_⟩
      have htake : data.take n = c.unsent.take n := by
        rw [hdata, List.take_append_of_le_length hn]
      rw [List.append_assoc, hsent, hdrop, htake, List.take_append_drop]
    rw [writeToClientLoop]
    split_ifs with hpending hbufpos
    · obtain ⟨data, hread, hlength, hunsent⟩ := h.read_buf hbufpos
      have hlt := h.sentlen_lt_bufpos hbufpos
      simp only [hread, Option.bind_some]
      rcases connWrite_headD data results with hstop | ⟨n, hn, hpos, hle, htail⟩
      · rw [if_pos hstop]
        exact ⟨c, [], _, rfl, h, rfl⟩
      · rw [hn, if_neg (by omega), Int.toNat_natCast]
        obtain ⟨h₁, hdrop⟩ := h.advance_buf hbufpos (n := n) (by omega)
        exact hnext h₁ hunsent hle hdrop htail
    · have hzero : c.bufpos = 0 := Nat.eq_zero_of_not_pos hbufpos
      cases hreply : c.reply with
      | nil =>
        rw [clientHasPendingReplies, hzero, hreply] at hpending
        exact absurd hpending (by decide)
      | cons o reply =>
        obtain ⟨data, hread, hlength, hunsent⟩ := h.read_block hzero hreply
        have hlt := h.sentlen_lt_used hzero hreply
        simp only
        rw [if_neg (by omega), hread, Option.bind_some]
        rcases connWrite_headD data results with hstop | ⟨n, hn, hpos, hle, htail⟩
        · rw [if_pos hstop]
          exact ⟨c, [], _, rfl, h, rfl⟩
        · rw [hn, if_neg (by omega), Int.toNat_natCast]
          by_cases hend : c.sentlen + n = o.used
          · obtain ⟨h₁, hdrop⟩ := h.drop_block hzero hreply hend
            have hassert : ¬ (reply.length = 0 ∧ sizeSub c.replyBytes o.size ≠ 0) := by
              rintro ⟨hnil, hne⟩
              rw [h.sizeSub_replyBytes hreply, List.length_eq_zero_iff.mp hnil] at hne
              exact hne rfl
            rw [if_pos hend, if_neg hassert, Option.bind_some]
            exact hnext h₁ hunsent hle hdrop htail
          · obtain ⟨h₁, hdrop⟩ := h.advance_block hzero hreply (n := n) (by omega)
            rw [if_neg hend, Option.bind_some, ← hreply]
            exact hnext h₁ hunsent hle hdrop htail
    · exact ⟨c, [], _, rfl, h, rfl⟩

theorem unsent_eq_nil {c : LatteClient} (h : ¬ clientHasPendingReplies c = true) : c.unsent = [] := by
  simp only [clientHasPendingReplies, Bool.or_eq_true, decide_eq_true_eq, not_or, not_lt,
    Nat.le_zero, List.length_eq_zero_iff] at h
  rw [LatteClient.unsent, LatteClient.stored, h.1, h.2, List.take_zero, List.flatMap_nil,
    List.append_nil, List.drop_nil]

theorem writeToClient_spec {c : LatteClient} (h : c.Inv) (results : List ConnWrite) :
    ∃ c' sent, writeToClient c results = some (c', sent) ∧ c'.Inv ∧
      sent ++ c'.unsent = c.unsent := by
  have hfuel : results.length < results.length + c.reply.length + 1 := by omega
  obtain ⟨c', sent, last, hloop, h', hsent⟩ := writeToClientLoop_spec h hfuel
  rw [writeToClient, hloop, Option.map_some]
  simp only
  split_ifs with hfail hpending
  · exact ⟨_, sent, rfl, ⟨h'.closeAfterReply, h'.length_buf, h'.bufpos_le, h'.blocks, h'.sentlen,
      h'.replyBytes_eq⟩, hsent⟩
  · exact ⟨c', sent, rfl, h', hsent⟩
  · refine ⟨_, sent, rfl, ⟨h'.closeAfterReply, h'.length_buf, h'.bufpos_le, h'.blocks, Or.inl rfl,
      h'.replyBytes_eq⟩, ?_⟩
    have hempty : c'.unsent = [] := unsent_eq_nil hpending
    rw [← hsent, hempty]
    exact congrArg _ (unsent_eq_nil hpending)

/-! ## Every interleaving -/

theorem inv_protectedInitLatteClient (M : Allocator UInt8) : (protectedInitLatteClient M).Inv where
  closeAfterReply := rfl
  length_buf := by
    rw [protectedInitLatteClient, List.length_take, Nat.min_eq_left (M.le_length _)]
  bufpos_le := Nat.zero_le _
  blocks := fun b hb ↦ absurd hb List.not_mem_nil
  sentlen := Or.inl rfl
  replyBytes_eq := rfl

/-- One call: the bytes taken and the bytes left are what was left before, with the new reply
behind. -/
theorem clientStep_spec (M : Allocator UInt8) {c : LatteClient} (h : c.Inv) (call : ClientCall) :
    ∃ c' sent, clientStep M c call = some (c', sent) ∧ c'.Inv ∧
      sent ++ c'.unsent = c.unsent ++ call.added := by
  cases call with
  | addReplyProto s =>
    obtain ⟨c', hadd, hextends⟩ := addReplyProto_spec M h s
    exact ⟨c', [], by rw [clientStep, hadd, Option.map_some], hextends.inv, hextends.unsent_eq h⟩
  | writeToClient results =>
    obtain ⟨c', sent, hwrite, h', hsent⟩ := writeToClient_spec h results
    exact ⟨c', sent, hwrite, h', by rw [hsent, ClientCall.added, List.append_nil]⟩

theorem run_clientStep (M : Allocator UInt8) (calls : List ClientCall) {c : LatteClient} (h : c.Inv) :
    ∃ c' sent, CallMachine.run (clientStep M) c calls = some (c', sent) ∧ c'.Inv ∧
      sent.flatten ++ c'.unsent = c.unsent ++ (calls.map ClientCall.added).flatten := by
  induction calls generalizing c with
  | nil => exact ⟨c, [], rfl, h, (List.append_nil _).symm⟩
  | cons call calls ih =>
    obtain ⟨c₁, sent₁, hstep, h₁, hsent₁⟩ := clientStep_spec M h call
    obtain ⟨c', sent, hrun, h', hsent⟩ := ih h₁
    refine ⟨c', sent₁ :: sent, ?_, h', ?_⟩
    · rw [CallMachine.run_cons_of_step hstep, hrun, Option.map_some]
    · rw [List.flatten_cons, List.append_assoc, hsent, ← List.append_assoc, hsent₁, List.map_cons,
        List.flatten_cons, List.append_assoc]

/-- **The connection gets the replies in the order in which they were added.** However the replies and the
writes are interleaved and wherever the connection stops, no assertion fails and no copy leaves its
block. The bytes taken so far are the beginning of all replies one after the other; the bytes in the
buffer and in the blocks that were not taken are the rest, and `reply_bytes` is the size of the blocks. -/
theorem client_run (M : Allocator UInt8) (calls : List ClientCall) :
    ∃ c sent, CallMachine.run (clientStep M) (protectedInitLatteClient M) calls = some (c, sent) ∧
      sent.flatten <+: (calls.map ClientCall.added).flatten ∧
      sent.flatten ++ c.unsent = (calls.map ClientCall.added).flatten ∧
      c.replyBytes = (c.reply.map ClientReplyBlock.size).sum := by
  obtain ⟨c, sent, hrun, hinv, hsent⟩ :=
    run_clientStep M calls (inv_protectedInitLatteClient M)
  have hnil : (protectedInitLatteClient M).unsent = [] := by
    rw [LatteClient.unsent, LatteClient.stored]
    rfl
  rw [hnil, List.nil_append] at hsent
  exact ⟨c, sent, hrun, ⟨c.unsent, hsent⟩, hsent, hinv.replyBytes_eq⟩

end LatteC
