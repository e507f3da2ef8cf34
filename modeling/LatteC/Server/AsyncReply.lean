import LatteC.Server.PendingWrite

/-!
# Replies with asynchronous I/O

`add_reply_proto` and `async_io_try_write` of `src/server/client.c`, with `use_async_io` on: replies are
collected in the request cache of the client, and at the end of the read handler the cache goes to the
kernel. If the kernel refuses, its bytes go where they would have gone without asynchronous I/O.

## What goes wrong

The code measures `max(len, 0) + len` against the size of the cache, stores behind the bytes that are there, and
adds to the length: it collects. The assertion between these lets only the first reply pass.
-/

namespace LatteC

open Block

section Replies

variable {M : Allocator UInt8} {s : LatteServer} {i : ℕ} {c : ServerClient}

end Replies

end LatteC
