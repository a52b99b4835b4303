import Beanstalk.Wire.Protocol

/-!
# Encoder — responses on the wire

`wire/encoder.rs`: `Encoder::encode` appends the bytes of one `Response` to the output buffer
`dst`.  Every modelled arm only appends and never fails (`encode_eq_append`).  The `OK <n>`
arms are not modelled as responses (see `Protocol`), but the helper they all call,
`put_ok_and_data`, is: `putOkAndData` takes what `serde_yaml::to_string` returned as a
parameter, and `ResponseFormat` reads its frame back.

A job is delivered as `Reserved { id }` or `Found { id }`, then its body in `JobChunk`s, then
`JobEnd`.  That sequence puts on the wire the header line `RESERVED <id>` (or `FOUND <id>`),
the body, and a CR LF (`encodeAll_body` for the body).  The header carries no byte count, so
the bytes never match the protocol's `RESERVED <id> <n_bytes>` framing
(`encodeAll_job_reply_omits_length`).
-/

namespace Beanstalk
namespace Wire

/-- Writes `"{str} {num}\r\n"` to `dst`: the shared body of `put_str_and_u32` and
`put_str_and_u64`. -/
def putStrAndNum (dst str : List UInt8) (num : Nat) : List UInt8 :=
  dst ++ str ++ ascii " " ++ decimal num ++ crlf

/-- `put_str_and_u32`. -/
def putStrAndU32 (dst str : List UInt8) (num : UInt32) : List UInt8 :=
  putStrAndNum dst str num.toNat

/-- `put_str_and_u64`. -/
def putStrAndU64 (dst str : List UInt8) (num : UInt64) : List UInt8 :=
  putStrAndNum dst str num.toNat

/-- `put_ok_and_data`, given what `serde_yaml::to_string` returned for the data: on success
`OK <len>`, CR LF, the YAML text, CR LF; on failure `INTERNAL_ERROR` CR LF, and the error is
passed on. -/
def putOkAndData {ε : Type} (dst : List UInt8) (yaml : Except ε (List UInt8)) :
    List UInt8 × Except ε Unit :=
  match yaml with
  | .ok data =>
    (dst ++ ascii "OK " ++ decimal data.length ++ ascii "\r\n" ++ data ++ ascii "\r\n", .ok ())
  | .error err => (dst ++ ascii "INTERNAL_ERROR\r\n", .error err)

/-- `Encoder::encode`: `dst` with the bytes of `item` appended. -/
def encode (item : Response) (dst : List UInt8) : List UInt8 :=
  match item with
  | .badFormat => dst ++ ascii "BAD_FORMAT\r\n"
  | .buried => dst ++ ascii "BURIED\r\n"
  | .deadlineSoon => dst ++ ascii "DEADLINE_SOON\r\n"
  | .deleted => dst ++ ascii "DELETED\r\n"
  | .draining => dst ++ ascii "DRAINING\r\n"
  | .expectedCRLF => dst ++ ascii "EXPECTED_CRLF\r\n"
  | .internalError => dst ++ ascii "INTERNAL_ERROR\r\n"
  | .jobTooBig => dst ++ ascii "JOB_TOO_BIG\r\n"
  | .kicked => dst ++ ascii "KICKED\r\n"
  | .notFound => dst ++ ascii "NOT_FOUND\r\n"
  | .notIgnored => dst ++ ascii "NOT_IGNORED\r\n"
  | .outOfMemory => dst ++ ascii "OUT_OF_MEMORY\r\n"
  | .paused => dst ++ ascii "PAUSED\r\n"
  | .released => dst ++ ascii "RELEASED\r\n"
  | .timedOut => dst ++ ascii "TIMED_OUT\r\n"
  | .touched => dst ++ ascii "TOUCHED\r\n"
  | .unknownCommand => dst ++ ascii "UNKNOWN_COMMAND\r\n"
  | .buriedID id => putStrAndU64 dst (ascii "BURIED") id
  | .inserted id => putStrAndU64 dst (ascii "INSERTED") id
  | .kickedCount count => putStrAndU64 dst (ascii "KICKED") count
  | .watching count => putStrAndU32 dst (ascii "WATCHING") count
  | .using tube => dst ++ ascii "USING " ++ tube ++ ascii "\r\n"
  | .reserved id => putStrAndU64 dst (ascii "RESERVED") id
  | .found id => putStrAndU64 dst (ascii "FOUND") id
  | .jobChunk data => dst ++ data
  | .jobEnd => dst ++ ascii "\r\n"

/-- The encoder run over a sequence of responses, as `FramedWrite` calls it, one item after
another on the same buffer. -/
def encodeAll (dst : List UInt8) (items : List Response) : List UInt8 :=
  items.foldl (fun dst item => encode item dst) dst

variable {dst : List UInt8} {item : Response} {items : List Response}

@[simp] theorem ascii_crlf : ascii "\r\n" = crlf := rfl

@[simp] theorem ascii_space : ascii " " = [32] := rfl

/-- The encoder only appends: what it writes does not depend on what the buffer holds. -/
theorem encode_eq_append : encode item dst = dst ++ encode item [] := by
  cases item <;>
    simp only [encode, putStrAndU64, putStrAndU32, putStrAndNum, List.append_assoc, List.nil_append]

theorem encodeAll_eq_append : encodeAll dst items = dst ++ encodeAll [] items := by
  induction items generalizing dst with
  | nil => simp [encodeAll]
  | cons item items ih =>
    simp only [encodeAll, List.foldl_cons] at ih ⊢
    rw [ih, @ih (encode item []), encode_eq_append, List.append_assoc]

theorem encodeAll_cons : encodeAll dst (item :: items) = encodeAll (encode item dst) items := rfl

/-- A body in job chunks, then `JobEnd`: the body's bytes as they are, then a CR LF. -/
theorem encodeAll_body (chunks : List (List UInt8)) :
    encodeAll dst (chunks.map .jobChunk ++ [.jobEnd]) = dst ++ chunks.flatten ++ crlf := by
  induction chunks generalizing dst with
  | nil => simp [encodeAll, encode]
  | cons c chunks ih => simp [encodeAll_cons, ih, encode]

/-! ## Job replies -/

/-- A job reply framed as the protocol asks: `<str> <id> <n_bytes>`, CR LF, the body, CR LF. -/
def protocolJobReply (str : List UInt8) (id : Nat) (body : List UInt8) : List UInt8 :=
  str ++ ascii " " ++ decimal id ++ ascii " " ++ decimal body.length ++ crlf ++ body ++ crlf

/-- A header written by `put_str_and_u64`, followed by a body and `JobEnd`, never has the
protocol's framing: the header line ends right after the id, where the byte count should
start. -/
theorem putStrAndU64_body_ne_protocolJobReply (str : List UInt8) (id : UInt64)
    (body : List UInt8) :
    putStrAndU64 dst str id ++ body ++ crlf ≠ dst ++ protocolJobReply str id.toNat body := by
  simp only [putStrAndU64, putStrAndNum, protocolJobReply, ne_eq, List.append_assoc,
    List.append_cancel_left_eq, ascii_space, crlf, List.cons_append, List.nil_append,
    List.cons.injEq, true_and]
  exact fun h => absurd h.1 (by decide)

/-- Job replies carry no byte count.  Encoding `Reserved { id }` (or `Found { id }`), the body
in any chunks, and `JobEnd` appends `RESERVED <id>` (or `FOUND <id>`), CR LF, the body and
CR LF; for every id, body and chunking these bytes differ from the protocol's
`RESERVED <id> <n_bytes>` framing. -/
theorem encodeAll_job_reply_omits_length (id : UInt64) (chunks : List (List UInt8)) :
    encodeAll dst (.reserved id :: chunks.map .jobChunk ++ [.jobEnd]) =
        dst ++ ascii "RESERVED" ++ ascii " " ++ decimal id.toNat ++ crlf ++ chunks.flatten ++ crlf ∧
      encodeAll dst (.found id :: chunks.map .jobChunk ++ [.jobEnd]) =
        dst ++ ascii "FOUND" ++ ascii " " ++ decimal id.toNat ++ crlf ++ chunks.flatten ++ crlf ∧
      encodeAll dst (.reserved id :: chunks.map .jobChunk ++ [.jobEnd]) ≠
        dst ++ protocolJobReply (ascii "RESERVED") id.toNat chunks.flatten ∧
      encodeAll dst (.found id :: chunks.map .jobChunk ++ [.jobEnd]) ≠
        dst ++ protocolJobReply (ascii "FOUND") id.toNat chunks.flatten := by
  simp only [List.cons_append, encodeAll_cons, encodeAll_body]
  exact ⟨rfl, rfl, putStrAndU64_body_ne_protocolJobReply _ _ _,
    putStrAndU64_body_ne_protocolJobReply _ _ _⟩

example : encodeAll [] [.reserved 1, .jobChunk (ascii "abc"), .jobEnd] =
    ascii "RESERVED 1\r\nabc\r\n" := by decide

end Wire
end Beanstalk
