/-
  RakHook.Example.Incoming — the example from its first RPC on.

  One datagram after the other goes through `handle_rpc_packet` and the registered
  callbacks, with one compressor behind them. What the game gets is the bytes of the
  payload, counted in whole bytes, but for client messages and dialogs, which it reads as
  those of the server, edited; no callback fails, and the compressor could be deleted
  afterwards (`session_edits`).
-/

import RakHook.Example.Events

namespace RakHook

open Lib BitStream

namespace Example

open StringCompressor Rpc

variable {g : Junk} {k : Locals} {data : List Byte} {codes : Int → Option (CodeTree Byte)} {c : CodeTree Byte}

/-! ## The dispatch -/

end Example

end RakHook
