import LatteC.Server.Client

/-!
# Clients with something to write

`src/server/client.c` and `src/server/server.c`: a reply puts its client into a queue,
`clients_pending_write`, which `handleClientsWithPendingWrites` empties before the event loop sleeps.
With asynchronous I/O a client waits in `clients_async_pending_write` until the kernel is done.

## Modelling

Clients have the numbers in which they were created, and a client that was freed stays, marked, so that
what refers to it can be told. A function that is called with a freed client, an assertion that fails and
a null pointer that is read through are faults, `none`. The read handler is cut in two at `c->exec`, since
`c->exec` is the user's code: it may make any of the other calls. The callbacks `c->start` and `c->end`
are left out, as is the flag `CLIENT_PENDING_WRITE`, which is cleared but never set or read. How the
connections answer, which writes the kernel takes and in which order it is done with them are
parameters of the calls.

## What goes wrong

A reply puts its client into the queue even if it is there already, and freeing a client leaves it in the
queues. As long as neither happens to a client that waits, the queues are sound.
-/

namespace LatteC

open Block

/-- `CLIENT_ASYNC_IO_MAX_SIZE`. -/
def clientAsyncIoMaxSize : ℕ := 1024 * 16

/-- `latte_client_t`. -/
structure ServerClient where
  output : LatteClient
  /-- The flag `CLIENT_CLOSE_ASAP`. -/
  closeAsap : Bool
  /-- The flag `CLIENT_PROTECTED`. -/
  isProtected : Bool
  /-- The bytes in `async_io_request_cache`, or `none` if its length is `-1`. -/
  asyncIoRequestCache : Option (List UInt8)
  asyncIoClientNode : Option ℕ

/-- `latte_server_t`. -/
structure LatteServer where
  /-- Every client that was created. -/
  created : List ServerClient
  clients : List ℕ
  maxclients : ℕ
  clientsPendingWrite : List ℕ
  /-- The nodes of the list, each with its client. -/
  clientsAsyncPendingWrite : List (ℕ × ℕ)
  /-- The next node that is allocated. -/
  nextNode : ℕ
  /-- The requests that the kernel has. -/
  inFlight : List ℕ
  useAsyncIo : Bool

/-- `init_latte_server`, with the limit and the choice of asynchronous I/O that are set afterwards. -/
def initLatteServer (maxclients : ℕ) (useAsyncIo : Bool) : LatteServer where
  created := []
  clients := []
  maxclients := maxclients
  clientsPendingWrite := []
  clientsAsyncPendingWrite := []
  nextNode := 0
  inFlight := []
  useAsyncIo := useAsyncIo

namespace LatteServer

/-- The client, if it was not freed. -/
def client (s : LatteServer) (i : ℕ) : Option ServerClient :=
  s.created[i]?.filter fun c ↦ !c.output.freed

/-- Store a client. -/
def setClient (s : LatteServer) (i : ℕ) (c : ServerClient) : LatteServer :=
  { s with created := s.created.set i c }

/-- The client was created and not freed. -/
def Live (s : LatteServer) (i : ℕ) : Prop := ∃ c, s.client i = some c

end LatteServer

/-- `acceptCommonHandler`, on a connection that is being accepted. -/
def acceptCommonHandler (M : Allocator UInt8) (s : LatteServer)
    (closeAfterReply closeAsap isProtected : Bool) : LatteServer :=
  if s.maxclients ≤ s.clients.length then s
  else
    { s with
      created := s.created ++ [{
        output := { protectedInitLatteClient M with closeAfterReply := closeAfterReply }
        closeAsap := closeAsap
        isProtected := isProtected
        asyncIoRequestCache := none
        asyncIoClientNode := none }]
      clients := s.clients ++ [s.created.length] }

/-- `free_latte_client`, and `free_latte_client_async`. -/
def freeLatteClient (s : LatteServer) (i : ℕ) : LatteServer :=
  { s with
    created := s.created.modify i fun c ↦ { c with output := { c.output with freed := true } }
    clients := s.clients.erase i }

/-- `max(c->async_io_request_cache->len, 0)`. -/
def ServerClient.asyncLen (c : ServerClient) : ℕ := (c.asyncIoRequestCache.getD []).length

/-- The client is put into the queue, and the bytes to its output. -/
def queueReply (M : Allocator UInt8) (s : LatteServer) (i : ℕ) (c : ServerClient) (bytes : List UInt8) :
    Option LatteServer :=
  (addReplyProto M c.output bytes).map fun output ↦
    { s with clientsPendingWrite := s.clientsPendingWrite ++ [i] }.setClient i { c with output := output }

/-- `add_reply_proto`, with the queues. -/
def serverAddReplyProto (M : Allocator UInt8) (s : LatteServer) (i : ℕ) (bytes : List UInt8) :
    Option LatteServer :=
  (s.client i).bind fun c ↦
    if s.useAsyncIo ∨ 0 < c.asyncLen then
      if c.asyncLen + bytes.length < clientAsyncIoMaxSize then
        -- the assertion that the length is `-1`
        if c.asyncIoRequestCache = none then
          some (s.setClient i { c with asyncIoRequestCache := some bytes })
        else none
      else none
    else queueReply M s i c bytes

/-- `async_io_try_write`. The kernel takes the request or not. -/
def asyncIoTryWrite (M : Allocator UInt8) (s : LatteServer) (i : ℕ) (taken : Bool) :
    Option (LatteServer × ℤ) :=
  (s.client i).bind fun c ↦
    if 0 < c.asyncLen then
      if taken then
        some ({ s with
          clientsAsyncPendingWrite := s.clientsAsyncPendingWrite ++ [(s.nextNode, i)]
          nextNode := s.nextNode + 1
          inFlight := s.inFlight ++ [i] }.setClient i { c with asyncIoClientNode := some s.nextNode }, 1)
      else
        (queueReply M s i { c with asyncIoRequestCache := none } (c.asyncIoRequestCache.getD [])).map (·, 0)
    else some (s, 0)

/-- `client_async_io_write_finished`. -/
def clientAsyncIoWriteFinished (s : LatteServer) (i : ℕ) : Option LatteServer :=
  (s.client i).bind fun c ↦
    c.asyncIoClientNode.map fun node ↦
      { s with
        clientsAsyncPendingWrite := s.clientsAsyncPendingWrite.eraseP (·.1 = node)
        inFlight := s.inFlight.erase i }.setClient i
          { c with asyncIoClientNode := none, asyncIoRequestCache := none }

/-- What `conn_read` tells the read handler. -/
inductive ConnRead where
  /-- There is nothing to read, the connection stands. -/
  | again
  /-- The connection has failed. -/
  | error
  /-- The connection was closed. -/
  | eof
  /-- There is something, and `c->exec` is called. -/
  | data
deriving DecidableEq

/-- `read_query_from_client`, up to `c->exec`. -/
def readQueryFromClient (s : LatteServer) (i : ℕ) (r : ConnRead) : Option LatteServer :=
  (s.client i).map fun _ ↦
    match r with
    | .again => s
    | .error => freeLatteClient s i
    | .eof => freeLatteClient s i
    | .data => s

/-- `write_to_client`, with the server. -/
def serverWriteToClient (s : LatteServer) (i : ℕ) (c : ServerClient) (results : List ConnWrite) :
    Option (LatteServer × ℤ) :=
  (writeToClient c.output results).map fun (output, _) ↦
    if output.freed then (freeLatteClient s i, -1) else (s.setClient i { c with output := output }, 0)

/-- The first loop of `handleClientsWithPendingWrites`: the requests that the kernel is done with, in
this order. If there are too few of them the loop goes on forever. -/
def asyncIoEachFinished (s : LatteServer) : (completions : List ℕ) → Option LatteServer
  | [] => if s.clientsAsyncPendingWrite = [] then some s else none
  | i :: completions =>
    if s.clientsAsyncPendingWrite = [] then some s
    else if i ∈ s.inFlight then
      (clientAsyncIoWriteFinished s i).bind fun s ↦ asyncIoEachFinished s completions
    else none

/-- The second loop of `handleClientsWithPendingWrites`. The connections answer, and the write handler is
installed or not, for one client after the other. -/
def handlePendingLoop : (entries : List ℕ) → (answers : List (List ConnWrite × Bool)) → LatteServer →
    Option LatteServer
  | [], _, s => some s
  | i :: entries, answers, s =>
    let s := { s with clientsPendingWrite := entries }
    (s.client i).bind fun c ↦
      if c.isProtected ∨ c.closeAsap then handlePendingLoop entries answers s
      else
        let answer := answers.headD ([], true)
        (serverWriteToClient s i c answer.1).bind fun (s, r) ↦
          if r = -1 then handlePendingLoop entries answers.tail s
          else
            (s.client i).bind fun c ↦
              if clientHasPendingReplies c.output ∧ answer.2 = false then
                handlePendingLoop entries answers.tail (freeLatteClient s i)
              else handlePendingLoop entries answers.tail s

/-- `handleClientsWithPendingWrites`. -/
def handleClientsWithPendingWrites (s : LatteServer) (completions : List ℕ)
    (answers : List (List ConnWrite × Bool)) : Option (LatteServer × ℤ) :=
  (asyncIoEachFinished s completions).bind fun s ↦
    (handlePendingLoop s.clientsPendingWrite answers s).map (·, s.clientsPendingWrite.length)

/-- What happens to a server. -/
inductive ServerCall where
  | accept (closeAfterReply closeAsap isProtected : Bool)
  /-- The user's code sets the flags of a client. -/
  | setFlags (i : ℕ) (closeAfterReply closeAsap isProtected : Bool)
  | addReplyProto (i : ℕ) (bytes : List UInt8)
  | readQuery (i : ℕ) (r : ConnRead)
  /-- The rest of the read handler, after `c->exec`. -/
  | asyncIoTryWrite (i : ℕ) (taken : Bool)
  /-- The write handler, `sendReplyToClient`. -/
  | sendReply (i : ℕ) (results : List ConnWrite)
  | handlePending (completions : List ℕ) (answers : List (List ConnWrite × Bool))
deriving DecidableEq

/-- One call, with what it returns, or `0` if it returns nothing. -/
def serverStep (M : Allocator UInt8) (s : LatteServer) : ServerCall → Option (LatteServer × ℤ)
  | .accept closeAfterReply closeAsap isProtected =>
    some (acceptCommonHandler M s closeAfterReply closeAsap isProtected, 0)
  | .setFlags i closeAfterReply closeAsap isProtected =>
    (s.client i).map fun c ↦
      (s.setClient i { c with
        output := { c.output with closeAfterReply := closeAfterReply }
        closeAsap := closeAsap
        isProtected := isProtected }, 0)
  | .addReplyProto i bytes => (serverAddReplyProto M s i bytes).map (·, 0)
  | .readQuery i r => (readQueryFromClient s i r).map (·, 0)
  | .asyncIoTryWrite i taken => asyncIoTryWrite M s i taken
  | .sendReply i results =>
    (s.client i).bind fun c ↦ (serverWriteToClient s i c results).map fun r ↦ (r.1, 0)
  | .handlePending completions answers => handleClientsWithPendingWrites s completions answers

/-! ## Sound queues -/

/-- The clients in the queues were not freed, and none is in the first queue twice. -/
structure LatteServer.Ok (s : LatteServer) : Prop where
  pending_live : ∀ i ∈ s.clientsPendingWrite, s.Live i
  async_live : ∀ e ∈ s.clientsAsyncPendingWrite, s.Live e.2
  nodup : s.clientsPendingWrite.Nodup

/-- The client is in one of the queues. -/
def LatteServer.Waiting (s : LatteServer) (i : ℕ) : Prop :=
  i ∈ s.clientsPendingWrite ∨ i ∈ s.clientsAsyncPendingWrite.map Prod.snd

instance (s : LatteServer) (i : ℕ) : Decidable (s.Waiting i) := inferInstanceAs (Decidable (_ ∨ _))

section Queues

variable {s s' : LatteServer} {i j : ℕ} {c : ServerClient}

theorem LatteServer.client_eq_some (h : s.client i = some c) :
    s.created[i]? = some c ∧ c.output.freed = false := by
  obtain ⟨hget, hfreed⟩ := Option.filter_eq_some_iff.mp h
  exact ⟨hget, by simpa using hfreed⟩

/-- A client is replaced by one that is not freed. -/
theorem LatteServer.client_setClient (h : s.client i = some c) {c' : ServerClient}
    (hfreed : c'.output.freed = false) (j : ℕ) :
    (s.setClient i c').client j = if i = j then some c' else s.client j := by
  obtain ⟨hget, -⟩ := client_eq_some h
  obtain ⟨hlt, -⟩ := List.getElem?_eq_some_iff.mp hget
  rw [client, setClient, client, List.getElem?_set]
  split_ifs
  · simp [hfreed]
  · rfl

theorem LatteServer.live_setClient (h : s.client i = some c) {c' : ServerClient}
    (hfreed : c'.output.freed = false) (hj : s.Live j) : (s.setClient i c').Live j := by
  rw [Live, client_setClient h hfreed]
  split_ifs
  · exact ⟨c', rfl⟩
  · exact hj

/-- The others are not freed. -/
theorem live_freeLatteClient (hne : j ≠ i) (hj : s.Live j) : (freeLatteClient s i).Live j := by
  have hget : (s.created.modify i fun c ↦ { c with output := { c.output with freed := true } })[j]? =
      s.created[j]? := by
    rw [List.getElem?_modify]
    simp only [if_neg (Ne.symm hne), Option.map_eq_map, Option.map_id']
  rw [LatteServer.Live, LatteServer.client, freeLatteClient]
  simp only [hget]
  exact hj

theorem live_acceptCommonHandler (M : Allocator UInt8) (closeAfterReply closeAsap isProtected : Bool)
    (hj : s.Live j) : (acceptCommonHandler M s closeAfterReply closeAsap isProtected).Live j := by
  rw [acceptCommonHandler]
  split_ifs
  · exact hj
  · obtain ⟨c, hc⟩ := hj
    obtain ⟨hget, hfreed⟩ := LatteServer.client_eq_some hc
    obtain ⟨hlt, -⟩ := List.getElem?_eq_some_iff.mp hget
    refine ⟨c, ?_⟩
    rw [LatteServer.client] at hc ⊢
    simp only [List.getElem?_append_left hlt]
    exact hc

namespace LatteServer.Ok

/-- The queues stay, and no client is freed. -/
theorem mono (h : s.Ok) (hpending : s'.clientsPendingWrite = s.clientsPendingWrite)
    (hasync : s'.clientsAsyncPendingWrite ⊆ s.clientsAsyncPendingWrite)
    (hlive : ∀ j, s.Live j → s'.Live j) : s'.Ok where
  pending_live j hj := hlive j (h.pending_live j (hpending ▸ hj))
  async_live e he := hlive e.2 (h.async_live e (hasync he))
  nodup := hpending ▸ h.nodup

/-- A client is stored. -/
theorem setClient (h : s.Ok) (hc : s.client i = some c) {c' : ServerClient}
    (hfreed : c'.output.freed = false) : (s.setClient i c').Ok :=
  h.mono rfl (List.Subset.refl _) fun _ ↦ live_setClient hc hfreed

/-- A client that does not wait is put into the first queue. -/
theorem queue (h : s.Ok) (hi : s.Live i) (hnew : i ∉ s.clientsPendingWrite) :
    { s with clientsPendingWrite := s.clientsPendingWrite ++ [i] }.Ok where
  pending_live j hj := by
    rcases List.mem_append.mp hj with hj | hj
    · exact h.pending_live j hj
    · rw [List.mem_singleton.mp hj]
      exact hi
  async_live := h.async_live
  nodup := List.nodup_append.mpr ⟨h.nodup, List.pairwise_singleton _ i, fun a ha b hb hab ↦
    hnew (List.mem_singleton.mp hb ▸ hab ▸ ha)⟩

/-- A client that does not wait is freed. -/
theorem free (h : s.Ok) (hi : ¬ s.Waiting i) : (freeLatteClient s i).Ok where
  pending_live j hj :=
    live_freeLatteClient (fun hji ↦ hi (Or.inl (hji ▸ hj))) (h.pending_live j hj)
  async_live e he :=
    live_freeLatteClient (fun hei ↦ hi (Or.inr (List.mem_map.mpr ⟨e, he, hei⟩))) (h.async_live e he)
  nodup := h.nodup

end LatteServer.Ok

/-! ## The output of a client -/

theorem freed_addReplyBlock {M : Allocator UInt8} {c c' : LatteClient} {bytes : List UInt8}
    (h : addReplyBlock M c bytes = some c') : c'.freed = c.freed := by
  rw [addReplyBlock] at h
  by_cases hlength : bytes.length ≠ 0
  · rw [if_pos hlength] at h
    obtain ⟨buf, -, rfl⟩ := Option.map_eq_some_iff.mp h
    rfl
  · rw [if_neg hlength] at h
    rw [Option.some.inj h]

/-- Adding a reply does not free the client. -/
theorem freed_addReplyProto {M : Allocator UInt8} {c c' : LatteClient} {bytes : List UInt8}
    (h : addReplyProto M c bytes = some c') : c'.freed = c.freed := by
  obtain ⟨⟨c₁, r⟩, hbuffer, h⟩ := Option.bind_eq_some_iff.mp h
  have hfirst : c₁.freed = c.freed := by
    simp only [addReplyToBuffer] at hbuffer
    split_ifs at hbuffer
    · rw [(Prod.mk.inj (Option.some.inj hbuffer)).1]
    · rw [(Prod.mk.inj (Option.some.inj hbuffer)).1]
    · rw [(Prod.mk.inj (Option.some.inj hbuffer)).1]
    · obtain ⟨buf, -, heq⟩ := Option.map_eq_some_iff.mp hbuffer
      rw [← (Prod.mk.inj heq).1]
  rw [← hfirst]
  simp only at h
  split_ifs at h
  · rw [addReplyProtoToList] at h
    split_ifs at h
    · rw [← Option.some.inj h]
    · split at h
      · exact freed_addReplyBlock h
      · obtain ⟨buf, -, h⟩ := Option.bind_eq_some_iff.mp h
        exact (freed_addReplyBlock h :)
  · rw [Option.some.inj h]

/-- The loop neither frees the client nor sets its flag, and its last answer is a failure only if the
connection has given one. -/
theorem writeToClientLoop_flags {fuel : ℕ} {c c' : LatteClient} {results : List ConnWrite}
    {sent : List UInt8} {last : ConnWrite} (h : writeToClientLoop fuel c results = some (c', sent, last)) :
    c'.freed = c.freed ∧ c'.closeAfterReply = c.closeAfterReply ∧
      (last = .fail → ConnWrite.fail ∈ results) := by
  induction fuel generalizing c results sent with
  | zero => cases h
  | succ fuel ih =>
    -- an answer that stops the loop is the first of those that are left
    have hhead : results.headD .again = .fail → ConnWrite.fail ∈ results := by
      cases results with
      | nil => exact fun h ↦ by cases h
      | cons result results => exact fun h ↦ h ▸ List.mem_cons_self
    have htail : ∀ {c₁ : LatteClient} {data : List UInt8} {n : ℕ},
        c₁.freed = c.freed → c₁.closeAfterReply = c.closeAfterReply →
        (writeToClientLoop fuel c₁ results.tail).map
          (fun r ↦ (r.1, data.take n ++ r.2.1, r.2.2)) = some (c', sent, last) →
        c'.freed = c.freed ∧ c'.closeAfterReply = c.closeAfterReply ∧
          (last = .fail → ConnWrite.fail ∈ results) := by
      intro c₁ data n hfreed hflag h
      obtain ⟨⟨c₂, sent₂, last₂⟩, hloop, heq⟩ := Option.map_eq_some_iff.mp h
      obtain ⟨rfl, -, rfl⟩ : c₂ = c' ∧ _ ∧ last₂ = last := by simpa using heq
      obtain ⟨hfreed', hflag', hlast⟩ := ih hloop
      exact ⟨hfreed'.trans hfreed, hflag'.trans hflag, fun h ↦ List.mem_of_mem_tail (hlast h)⟩
    have hstop : some (c, ([] : List UInt8), results.headD .again) = some (c', sent, last) →
        c'.freed = c.freed ∧ c'.closeAfterReply = c.closeAfterReply ∧
          (last = .fail → ConnWrite.fail ∈ results) := by
      intro h
      obtain ⟨rfl, -, rfl⟩ : c = c' ∧ _ ∧ results.headD .again = last := by simpa using h
      exact ⟨rfl, rfl, hhead⟩
    rw [writeToClientLoop] at h
    by_cases hpending : clientHasPendingReplies c = true
    · rw [if_pos hpending] at h
      by_cases hbufpos : 0 < c.bufpos
      · rw [if_pos hbufpos] at h
        obtain ⟨data, -, h⟩ := Option.bind_eq_some_iff.mp h
        by_cases hzero : connWrite data (results.headD .again) ≤ 0
        · rw [if_pos hzero] at h
          exact hstop h
        · rw [if_neg hzero] at h
          refine htail ?_ ?_ h
          · split_ifs <;> rfl
          · split_ifs <;> rfl
      · rw [if_neg hbufpos] at h
        cases hreply : c.reply with
        | nil =>
          rw [hreply] at h
          cases h
        | cons o reply =>
          rw [hreply] at h
          simp only at h
          by_cases hused : o.used = 0
          · rw [if_pos hused] at h
            exact (ih h :)
          · rw [if_neg hused] at h
            obtain ⟨data, -, h⟩ := Option.bind_eq_some_iff.mp h
            by_cases hzero : connWrite data (results.headD .again) ≤ 0
            · rw [if_pos hzero] at h
              exact hstop h
            · rw [if_neg hzero] at h
              obtain ⟨c₁, hc₁, h⟩ := Option.bind_eq_some_iff.mp h
              have hkept : c₁.freed = c.freed ∧ c₁.closeAfterReply = c.closeAfterReply := by
                split_ifs at hc₁
                · rw [← Option.some.inj hc₁]
                  exact ⟨rfl, rfl⟩
                · rw [← Option.some.inj hc₁]
                  exact ⟨rfl, rfl⟩
              exact htail hkept.1 hkept.2 h
    · rw [if_neg hpending] at h
      obtain ⟨rfl, -, rfl⟩ : c = c' ∧ _ ∧ ConnWrite.accept 0 = last := by simpa using h
      exact ⟨rfl, rfl, by simp⟩

/-- A write that meets no failure does not free a client that is to be kept. -/
theorem freed_writeToClient {c c' : LatteClient} {results : List ConnWrite} {sent : List UInt8}
    (h : writeToClient c results = some (c', sent)) (hfail : ConnWrite.fail ∉ results)
    (hclose : c.closeAfterReply = false) : c'.freed = c.freed := by
  obtain ⟨⟨c₁, sent₁, last⟩, hloop, heq⟩ := Option.map_eq_some_iff.mp h
  obtain ⟨hfreed, hflag, hlast⟩ := writeToClientLoop_flags hloop
  simp only at heq
  rw [if_neg fun h ↦ hfail (hlast h)] at heq
  split_ifs at heq
  · rw [← (Prod.mk.inj heq).1, hfreed]
  · rw [← (Prod.mk.inj heq).1]
    simp only [hfreed, hflag, hclose, Bool.or_false]

/-! ## One call -/

theorem ok_queueReply {M : Allocator UInt8} (h : s.Ok) (hc : s.client i = some c) {c₁ : ServerClient}
    (houtput : c₁.output = c.output) {bytes : List UInt8} (hnew : i ∉ s.clientsPendingWrite)
    (hqueue : queueReply M s i c₁ bytes = some s') : s'.Ok := by
  obtain ⟨output, hadd, rfl⟩ := Option.map_eq_some_iff.mp hqueue
  have hfreed : output.freed = false := by
    rw [freed_addReplyProto hadd, houtput]
    exact (LatteServer.client_eq_some hc).2
  have hlive : { s with clientsPendingWrite := s.clientsPendingWrite ++ [i] }.client i = some c := hc
  exact (h.queue ⟨c, hc⟩ hnew).setClient hlive hfreed

/-- A write, of a client that does not wait or meets no failure. -/
theorem ok_serverWriteToClient (h : s.Ok) (hc : s.client i = some c) {results : List ConnWrite} {r : ℤ}
    (hsafe : s.Waiting i → ConnWrite.fail ∉ results ∧ c.output.closeAfterReply = false)
    (hwrite : serverWriteToClient s i c results = some (s', r)) : s'.Ok := by
  obtain ⟨⟨output, sent⟩, hwrite, heq⟩ := Option.map_eq_some_iff.mp hwrite
  simp only at heq
  split_ifs at heq with hfreed
  · rw [← (Prod.mk.inj heq).1]
    refine h.free fun hwaiting ↦ ?_
    obtain ⟨hfail, hclose⟩ := hsafe hwaiting
    rw [freed_writeToClient hwrite hfail hclose, (LatteServer.client_eq_some hc).2] at hfreed
    cases hfreed
  · rw [← (Prod.mk.inj heq).1]
    exact h.setClient hc (Bool.eq_false_iff.mpr hfreed)

/-- The queues do not change in a write. -/
theorem queues_serverWriteToClient {results : List ConnWrite} {r : ℤ}
    (hwrite : serverWriteToClient s i c results = some (s', r)) :
    s'.clientsPendingWrite = s.clientsPendingWrite ∧
      s'.clientsAsyncPendingWrite = s.clientsAsyncPendingWrite := by
  obtain ⟨⟨output, sent⟩, -, heq⟩ := Option.map_eq_some_iff.mp hwrite
  simp only at heq
  split_ifs at heq <;> rw [← (Prod.mk.inj heq).1] <;> exact ⟨rfl, rfl⟩

/-- The kernel is done with the requests of all clients that wait for it. -/
theorem ok_asyncIoEachFinished {completions : List ℕ} (h : s.Ok)
    (hdone : asyncIoEachFinished s completions = some s') :
    s'.Ok ∧ s'.clientsAsyncPendingWrite = [] := by
  induction completions generalizing s with
  | nil =>
    rw [asyncIoEachFinished] at hdone
    split_ifs at hdone with hempty
    exact Option.some.inj hdone ▸ ⟨h, hempty⟩
  | cons j completions ih =>
    rw [asyncIoEachFinished] at hdone
    split_ifs at hdone with hempty
    · exact Option.some.inj hdone ▸ ⟨h, hempty⟩
    · obtain ⟨s₁, hfinished, hdone⟩ := Option.bind_eq_some_iff.mp hdone
      obtain ⟨c, hc, hfinished⟩ := Option.bind_eq_some_iff.mp hfinished
      obtain ⟨node, -, rfl⟩ := Option.map_eq_some_iff.mp hfinished
      refine ih ?_ hdone
      have hkept : { s with
          clientsAsyncPendingWrite := s.clientsAsyncPendingWrite.eraseP (·.1 = node)
          inFlight := s.inFlight.erase j }.Ok :=
        h.mono rfl List.eraseP_subset fun _ ↦ id
      exact hkept.setClient (c := c) hc (LatteServer.client_eq_some hc).2

/-- The loop takes every client off the queue before it writes to it. -/
theorem ok_handlePendingLoop {entries : List ℕ} {answers : List (List ConnWrite × Bool)} (h : s.Ok)
    (hpending : s.clientsPendingWrite = entries) (hasync : s.clientsAsyncPendingWrite = [])
    (hloop : handlePendingLoop entries answers s = some s') : s'.Ok := by
  induction entries generalizing s answers with
  | nil => exact Option.some.inj hloop ▸ h
  | cons i entries ih =>
    simp only [handlePendingLoop] at hloop
    obtain ⟨s₁, hs₁⟩ : ∃ s₁, { s with clientsPendingWrite := entries } = s₁ := ⟨_, rfl⟩
    have hpending₁ : s₁.clientsPendingWrite = entries := hs₁ ▸ rfl
    have hasync₁ : s₁.clientsAsyncPendingWrite = [] := hs₁ ▸ hasync
    have hnodup := h.nodup
    rw [hpending, List.nodup_cons] at hnodup
    have hok₁ : s₁.Ok := by
      rw [← hs₁]
      exact ⟨fun j hj ↦ h.pending_live j (hpending ▸ List.mem_cons_of_mem i hj), h.async_live, hnodup.2⟩
    -- the client is not in a queue any more
    have hfree : ∀ {s₂ : LatteServer}, s₂.clientsPendingWrite = s₁.clientsPendingWrite →
        s₂.clientsAsyncPendingWrite = s₁.clientsAsyncPendingWrite → ¬ s₂.Waiting i := by
      rintro s₂ hp ha (hmem | hmem)
      · rw [hp, hpending₁] at hmem
        exact hnodup.1 hmem
      · rw [ha, hasync₁] at hmem
        cases hmem
    rw [hs₁] at hloop
    obtain ⟨c, hc, hloop⟩ := Option.bind_eq_some_iff.mp hloop
    split_ifs at hloop
    · exact ih hok₁ hpending₁ hasync₁ hloop
    · obtain ⟨⟨s₂, r⟩, hwrite, hloop⟩ := Option.bind_eq_some_iff.mp hloop
      obtain ⟨hp, ha⟩ := queues_serverWriteToClient hwrite
      have hok₂ : s₂.Ok := ok_serverWriteToClient hok₁ hc (fun hw ↦ absurd hw (hfree rfl rfl)) hwrite
      simp only at hloop
      split_ifs at hloop
      · exact ih hok₂ (hp.trans hpending₁) (ha.trans hasync₁) hloop
      · obtain ⟨c₂, -, hloop⟩ := Option.bind_eq_some_iff.mp hloop
        split_ifs at hloop
        · exact ih (hok₂.free (hfree hp ha)) (hp.trans hpending₁) (ha.trans hasync₁) hloop
        · exact ih hok₂ (hp.trans hpending₁) (ha.trans hasync₁) hloop

end Queues

/-- The call neither queues a client that is in the first queue, nor frees one that waits: it is no reply
that is queued for such a client, no end of a connection, no failing write and no write that could close
after the reply. -/
def ServerCall.Safe (s : LatteServer) : ServerCall → Prop
  | .accept _ _ _ => True
  | .setFlags _ _ _ _ => True
  | .addReplyProto i _ => ∀ c ∈ s.client i, s.useAsyncIo = false → c.asyncLen = 0 →
      i ∉ s.clientsPendingWrite
  | .readQuery i r => r = .error ∨ r = .eof → ¬ s.Waiting i
  | .asyncIoTryWrite i taken => ∀ c ∈ s.client i, 0 < c.asyncLen → taken = false →
      i ∉ s.clientsPendingWrite
  | .sendReply i results => ∀ c ∈ s.client i, s.Waiting i →
      ConnWrite.fail ∉ results ∧ c.output.closeAfterReply = false
  | .handlePending _ _ => True

instance (s : LatteServer) : (call : ServerCall) → Decidable (call.Safe s)
  | .accept _ _ _ => isTrue trivial
  | .setFlags _ _ _ _ => isTrue trivial
  | .addReplyProto i _ => inferInstanceAs (Decidable (∀ c ∈ s.client i, _))
  | .readQuery _ _ => inferInstanceAs (Decidable (_ → _))
  | .asyncIoTryWrite i _ => inferInstanceAs (Decidable (∀ c ∈ s.client i, _))
  | .sendReply i _ => inferInstanceAs (Decidable (∀ c ∈ s.client i, _))
  | .handlePending _ _ => isTrue trivial

/-- One call keeps the queues sound. -/
theorem ok_serverStep (M : Allocator UInt8) {s s' : LatteServer} {call : ServerCall} {r : ℤ} (h : s.Ok)
    (hsafe : call.Safe s) (hstep : serverStep M s call = some (s', r)) : s'.Ok := by
  cases call with
  | accept closeAfterReply closeAsap isProtected =>
    obtain ⟨rfl, -⟩ := Prod.mk.inj (Option.some.inj hstep)
    have hqueues : (acceptCommonHandler M s closeAfterReply closeAsap isProtected).clientsPendingWrite =
        s.clientsPendingWrite ∧ (acceptCommonHandler M s closeAfterReply closeAsap
          isProtected).clientsAsyncPendingWrite = s.clientsAsyncPendingWrite := by
      rw [acceptCommonHandler]
      split_ifs <;> exact ⟨rfl, rfl⟩
    exact h.mono hqueues.1 (hqueues.2 ▸ List.Subset.refl _) fun j ↦
      live_acceptCommonHandler M closeAfterReply closeAsap isProtected
  | setFlags i closeAfterReply closeAsap isProtected =>
    obtain ⟨c, hc, heq⟩ := Option.map_eq_some_iff.mp hstep
    rw [← (Prod.mk.inj heq).1]
    exact h.setClient hc (LatteServer.client_eq_some hc).2
  | addReplyProto i bytes =>
    obtain ⟨s₁, hadd, heq⟩ := Option.map_eq_some_iff.mp hstep
    obtain ⟨rfl, -⟩ := Prod.mk.inj heq
    obtain ⟨c, hc, hadd⟩ := Option.bind_eq_some_iff.mp hadd
    split_ifs at hadd with hasync
    · rw [← Option.some.inj hadd]
      exact h.setClient hc (LatteServer.client_eq_some hc).2
    · rw [not_or, Bool.not_eq_true, not_lt, Nat.le_zero] at hasync
      exact ok_queueReply h hc rfl (hsafe c hc hasync.1 hasync.2) hadd
  | readQuery i r =>
    obtain ⟨s₁, hread, heq⟩ := Option.map_eq_some_iff.mp hstep
    obtain ⟨rfl, -⟩ := Prod.mk.inj heq
    obtain ⟨c, hc, rfl⟩ := Option.map_eq_some_iff.mp hread
    cases r with
    | again => exact h
    | error => exact h.free (hsafe (Or.inl rfl))
    | eof => exact h.free (hsafe (Or.inr rfl))
    | data => exact h
  | asyncIoTryWrite i taken =>
    obtain ⟨c, hc, htry⟩ := Option.bind_eq_some_iff.mp hstep
    split_ifs at htry with hlen htaken
    · obtain ⟨rfl, -⟩ := Prod.mk.inj (Option.some.inj htry)
      have hqueued : { s with
          clientsAsyncPendingWrite := s.clientsAsyncPendingWrite ++ [(s.nextNode, i)]
          nextNode := s.nextNode + 1
          inFlight := s.inFlight ++ [i] }.Ok := by
        refine ⟨h.pending_live, fun e he ↦ ?_, h.nodup⟩
        rcases List.mem_append.mp he with he | he
        · exact h.async_live e he
        · rw [List.mem_singleton.mp he]
          exact ⟨c, hc⟩
      exact hqueued.setClient (c := c) hc (LatteServer.client_eq_some hc).2
    · obtain ⟨s₁, hqueue, heq⟩ := Option.map_eq_some_iff.mp htry
      obtain ⟨rfl, -⟩ := Prod.mk.inj heq
      refine ok_queueReply h hc ?_ (hsafe c hc hlen (Bool.eq_false_iff.mpr htaken)) hqueue
      rfl
    · exact (Prod.mk.inj (Option.some.inj htry)).1 ▸ h
  | sendReply i results =>
    obtain ⟨c, hc, hsend⟩ := Option.bind_eq_some_iff.mp hstep
    obtain ⟨⟨s₁, r₁⟩, hwrite, heq⟩ := Option.map_eq_some_iff.mp hsend
    obtain ⟨rfl, -⟩ := Prod.mk.inj heq
    exact ok_serverWriteToClient h hc (hsafe c hc) hwrite
  | handlePending completions answers =>
    obtain ⟨s₁, hdone, hstep⟩ := Option.bind_eq_some_iff.mp hstep
    obtain ⟨s₂, hloop, heq⟩ := Option.map_eq_some_iff.mp hstep
    obtain ⟨rfl, -⟩ := Prod.mk.inj heq
    obtain ⟨hok, hasync⟩ := ok_asyncIoEachFinished h hdone
    exact ok_handlePendingLoop hok rfl hasync hloop

theorem ok_initLatteServer (maxclients : ℕ) (useAsyncIo : Bool) :
    (initLatteServer maxclients useAsyncIo).Ok :=
  ⟨fun _ h ↦ absurd h List.not_mem_nil, fun _ h ↦ absurd h List.not_mem_nil, List.nodup_nil⟩

/-- **The queues stay sound.** In every run of safe calls, the clients in the queues were not freed and
none is in `clients_pending_write` twice. -/
theorem pending_write_run (M : Allocator UInt8) (maxclients : ℕ) (useAsyncIo : Bool)
    (calls : List ServerCall) (s : LatteServer) (rs : List ℤ)
    (hsafe : CallMachine.Guarded (fun s call ↦ call.Safe s) (serverStep M)
      (initLatteServer maxclients useAsyncIo) calls)
    (hrun : CallMachine.run (serverStep M) (initLatteServer maxclients useAsyncIo) calls = some (s, rs)) :
    s.Ok :=
  CallMachine.run_invariant_of_guarded (fun _ _ _ _ ↦ ok_serverStep M) (ok_initLatteServer _ _) hsafe hrun

/-- Memory that is always zero. -/
def clearedMemory : Allocator UInt8 := ⟨fun n ↦ List.replicate n 0, le_length_zeros⟩

/-- A client that is closed after its reply, and one that goes away. -/
theorem pending_write_run_close : ∃ s rs,
    CallMachine.run (serverStep clearedMemory) (initLatteServer 2 false)
      [.accept true false false, .addReplyProto 0 [120], .accept false false false,
        .handlePending [] [], .readQuery 1 .eof] = some (s, rs) ∧ s.Ok := by
  obtain ⟨⟨s, rs⟩, hrun⟩ : ∃ p, CallMachine.run (serverStep clearedMemory) (initLatteServer 2 false)
      [.accept true false false, .addReplyProto 0 [120], .accept false false false,
        .handlePending [] [], .readQuery 1 .eof] = some p := ⟨_, rfl⟩
  exact ⟨s, rs, hrun, pending_write_run clearedMemory 2 false _ s rs (by decide) hrun⟩

/-- A client of which nothing is asked yet. -/
def newClient (M : Allocator UInt8) : ServerClient where
  output := protectedInitLatteClient M
  closeAsap := false
  isProtected := false
  asyncIoRequestCache := none
  asyncIoClientNode := none

/-- A server with one client, which waits. -/
private def oneWaiting (c : ServerClient) : LatteServer :=
  { initLatteServer 1 false with created := [c], clients := [0], clientsPendingWrite := [0] }

/-- The first reply to the only client. -/
private theorem run_first_reply (M : Allocator UInt8) (bytes : List UInt8) (calls : List ServerCall) :
    ∃ output, output.Inv ∧ output.freed = false ∧
      CallMachine.run (serverStep M) (initLatteServer 1 false)
        (.accept false false false :: .addReplyProto 0 bytes :: calls) =
          (CallMachine.run (serverStep M) (oneWaiting { newClient M with output := output }) calls).map
            fun r ↦ (r.1, 0 :: 0 :: r.2) := by
  obtain ⟨output, hadd, hextends⟩ := addReplyProto_spec M (inv_protectedInitLatteClient M) bytes
  refine ⟨output, hextends.inv, freed_addReplyProto hadd, ?_⟩
  have hclient : (acceptCommonHandler M (initLatteServer 1 false) false false false).client 0 =
      some (newClient M) := rfl
  have hstep : serverStep M (acceptCommonHandler M (initLatteServer 1 false) false false false)
      (.addReplyProto 0 bytes) = some (oneWaiting { newClient M with output := output }, 0) := by
    have hsync : ¬ ((acceptCommonHandler M (initLatteServer 1 false) false false false).useAsyncIo = true ∨
        0 < (newClient M).asyncLen) := not_or.mpr ⟨Bool.false_ne_true, Nat.lt_irrefl 0⟩
    rw [serverStep, serverAddReplyProto, hclient, Option.bind_some, if_neg hsync, queueReply]
    change ((addReplyProto M (protectedInitLatteClient M) bytes).map _).map _ = _
    rw [hadd]
    rfl
  rw [CallMachine.run_cons_of_step rfl, CallMachine.run_cons_of_step hstep, Option.map_map]
  rfl

/-- Two replies to one client, and a client that goes away after a reply. -/
theorem pending_write_unsound :
    (∃ s rs, CallMachine.run (serverStep clearedMemory) (initLatteServer 1 false)
      [.accept false false false, .addReplyProto 0 [120], .addReplyProto 0 [120]] = some (s, rs) ∧
        ¬ s.clientsPendingWrite.Nodup) ∧
    ∃ s rs, CallMachine.run (serverStep clearedMemory) (initLatteServer 1 false)
      [.accept false false false, .addReplyProto 0 [120], .readQuery 0 .eof] = some (s, rs) ∧
        ∃ i ∈ s.clientsPendingWrite, ¬ s.Live i := by
  have hclient : ∀ {output : LatteClient}, output.freed = false →
      (oneWaiting { newClient clearedMemory with output := output }).client 0 =
        some { newClient clearedMemory with output := output } := by
    intro output hfreed
    simp [LatteServer.client, oneWaiting, hfreed]
  constructor
  · obtain ⟨output, hinv, hfreed, hrun⟩ := run_first_reply clearedMemory [120] [.addReplyProto 0 [120]]
    obtain ⟨output', hadd, -⟩ := addReplyProto_spec clearedMemory hinv [120]
    obtain ⟨s, hstep, hpending⟩ : ∃ s, serverStep clearedMemory
        (oneWaiting { newClient clearedMemory with output := output }) (.addReplyProto 0 [120]) = some (s, 0) ∧
          s.clientsPendingWrite = [0, 0] := by
      have hsync : ¬ ((oneWaiting { newClient clearedMemory with output := output }).useAsyncIo = true ∨
          0 < ({ newClient clearedMemory with output := output } : ServerClient).asyncLen) :=
        not_or.mpr ⟨Bool.false_ne_true, Nat.lt_irrefl 0⟩
      rw [serverStep, serverAddReplyProto, hclient hfreed, Option.bind_some, if_neg hsync, queueReply, hadd]
      exact ⟨_, rfl, rfl⟩
    refine ⟨s, [0, 0, 0], hrun.trans ?_, by rw [hpending]; decide⟩
    rw [CallMachine.run_cons_of_step hstep]
    rfl
  · obtain ⟨output, -, hfreed, hrun⟩ := run_first_reply clearedMemory [120] [.readQuery 0 .eof]
    have hstep : serverStep clearedMemory (oneWaiting { newClient clearedMemory with output := output })
        (.readQuery 0 .eof) =
          some (freeLatteClient (oneWaiting { newClient clearedMemory with output := output }) 0, 0) := by
      rw [serverStep, readQueryFromClient, hclient hfreed]
      rfl
    refine ⟨_, [0, 0, 0], hrun.trans (by rw [CallMachine.run_cons_of_step hstep]; rfl), 0,
      List.mem_singleton_self 0, ?_⟩
    rintro ⟨c, hc⟩
    cases hc

end LatteC
