import Beanstalk.Wire.Bytes

/-!
# Protocol — commands, responses and client events

The wire vocabulary of `wire/protocol.rs` and `wire/events.rs`.  Numbers keep their Rust
widths (`u32` is `UInt32`, `u64` is `UInt64`); byte vectors are lists of bytes.

The four `OK <n>` responses (`OkStatsJob`, `OkStats`, `OkStatsTube`, `OkListTubes`) are not
modelled: their payloads exist only to be handed to `serde_yaml`, and nothing in the
repository builds them.
-/

namespace Beanstalk
namespace Wire

/-- A command sent by the client to the server (`protocol::Command`). -/
inductive Command
  | put (pri delay ttr nBytes : UInt32)
  | reserve
  | reserveWithTimeout (timeout : UInt32)
  | reserveJob (id : UInt64)
  | release (id : UInt64) (pri delay : UInt32)
  | delete (id : UInt64)
  | bury (id : UInt64) (pri : UInt32)
  | touch (id : UInt64)
  | watch (tube : List UInt8)
  | ignore (tube : List UInt8)
  | peek (id : UInt64)
  | peekReady
  | peekDelayed
  | peekBuried
  | kick (bound : UInt64)
  | kickJob (id : UInt64)
  | statsJob (id : UInt64)
  | statsTube (tube : List UInt8)
  | statsServer
  | listTubes
  | listTubeUsed
  | listTubesWatched
  | quit
  | pauseTube (tube : List UInt8) (delay : UInt32)
  | use (tube : List UInt8)
  deriving DecidableEq, Repr

/-- A response from the server (`protocol::Response`), without the YAML-carrying `OK` family. -/
inductive Response
  | outOfMemory
  | internalError
  | badFormat
  | unknownCommand
  | inserted (id : UInt64)
  | buriedID (id : UInt64)
  | expectedCRLF
  | jobTooBig
  | draining
  | using (tube : List UInt8)
  | deadlineSoon
  | timedOut
  | reserved (id : UInt64)
  | found (id : UInt64)
  | jobChunk (data : List UInt8)
  | jobEnd
  | notFound
  | deleted
  | released
  | buried
  | touched
  | watching (count : UInt32)
  | notIgnored
  | kickedCount (count : UInt64)
  | kicked
  | paused
  deriving DecidableEq, Repr

/-- An event sent by the client to the server (`events::BeanstalkClientEvent`). -/
inductive BeanstalkClientEvent
  | command (c : Command)
  | putChunk (data : List UInt8)
  | putEnd
  | discarded
  deriving DecidableEq, Repr

end Wire
end Beanstalk
