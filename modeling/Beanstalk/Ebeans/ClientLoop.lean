import Beanstalk.Wire.Framing
import Beanstalk.Wire.Encoder

/-!
# ClientLoop — what the `ebeans` server answers on one connection

`bin/ebeans/main.rs`, `do_client_loop`: the server reads the items `framed.next()` yields (the
decoder's events and errors) and answers them.  A `Discarded` event is skipped; a command is
answered `INTERNAL_ERROR` (every command, as the server has no handlers yet); any other event
(a put's chunks and its end) is answered `BAD_FORMAT`; a client error from the decoder is sent
to the client and closes the connection, and an I/O error closes it without an answer.

With the framing theorem of `Framing`, `doClientLoop_events` gives the whole exchange for a
well-formed stream: a put is answered once for its command and once more for each of its
chunks and its end, so the number of answers depends on how the payload was split across
reads.
-/

namespace Beanstalk
namespace Ebeans

open Wire

/-- How the loop of a connection ends. -/
inductive Outcome
  /-- `framed.next()` returned `None`: the loop breaks with `Ok(())`. -/
  | closed
  /-- A client error was answered: "client sent bad request and was disconnected". -/
  | disconnected
  /-- An I/O error from the decoder. -/
  | failed (message : String)
  deriving DecidableEq, Repr

/-- `do_client_loop` over the items of the stream, until it ends: the responses sent, in order,
and how the loop ends.  The cancellation token is never triggered and every send succeeds. -/
def doClientLoop : List (Except Error BeanstalkClientEvent) → List Response × Outcome
  | [] => ([], .closed)
  | .ok .discarded :: items => doClientLoop items
  | .ok (.command _) :: items => (.internalError :: (doClientLoop items).1, (doClientLoop items).2)
  | .ok _ :: items => (.badFormat :: (doClientLoop items).1, (doClientLoop items).2)
  | .error (.io e) :: _ => ([], .failed e)
  | .error (.client resp) :: _ => ([resp], .disconnected)

/-- The answers to one message delivered as `m.events parts`. -/
def answers (m : Message) (parts : List (List UInt8)) : List Response :=
  .internalError ::
    match m.command with
    | .put _ _ _ _ => List.replicate (parts.length + 1) .badFormat
    | _ => []

variable {items : List (Except Error BeanstalkClientEvent)}

/-- A put's chunks are each answered `BAD_FORMAT`. -/
theorem doClientLoop_chunks (parts : List (List UInt8)) :
    doClientLoop ((parts.map BeanstalkClientEvent.putChunk).map .ok ++ items) =
      (List.replicate parts.length .badFormat ++ (doClientLoop items).1, (doClientLoop items).2) := by
  induction parts with
  | nil => rfl
  | cons q parts ih =>
    simp only [List.map_cons, List.cons_append, doClientLoop, List.append_eq, ih,
      List.length_cons, List.replicate_succ]

/-- The step lemma: the answers to one message, whatever follows it. -/
theorem doClientLoop_message (m : Message) (parts : List (List UInt8)) :
    doClientLoop ((m.events parts).map .ok ++ items) =
      (answers m parts ++ (doClientLoop items).1, (doClientLoop items).2) := by
  rcases m.put_or_alone with ⟨pri, delay, ttr, n, hc⟩ | ⟨hput, -, hev, -⟩
  · simp only [Message.events, answers, hc, List.append_eq, List.map_cons, List.map_append,
      List.cons_append, List.append_assoc, doClientLoop, doClientLoop_chunks, List.map_nil,
      List.singleton_append, List.replicate_succ', List.nil_append]
  · rw [hev]
    unfold answers
    split
    next _ _ _ _ hc => exact absurd hc (hput _ _ _ _)
    next => rfl

/-- The run lemma: a stream of well-framed messages, then its end, is answered message by
message, and the loop ends normally. -/
theorem doClientLoop_events (msgs : List Message) (partss : List (List (List UInt8))) :
    doClientLoop ((List.zipWith Message.events msgs partss).flatten.map .ok) =
      ((List.zipWith answers msgs partss).flatten, .closed) := by
  induction msgs generalizing partss with
  | nil => rfl
  | cons m msgs ih =>
    cases partss with
    | nil => rfl
    | cons parts partss =>
      simp only [List.zipWith_cons_cons, List.flatten_cons, List.map_append, doClientLoop_message,
        ih]

/- The same put, `put` with a two-byte payload `ab`, read whole and read in two pieces cut
inside the payload: three answers, then four. -/
example :
    (doClientLoop ((feedAll (fun _ => .ok (.put 0 0 0 2)) ⟨.parseCommand, []⟩
        [[112, 13, 10, 97, 98, 13, 10]]).1.map .ok)).1 = [.internalError, .badFormat, .badFormat] ∧
    (doClientLoop ((feedAll (fun _ => .ok (.put 0 0 0 2)) ⟨.parseCommand, []⟩
        [[112, 13, 10, 97], [98, 13, 10]]).1.map .ok)).1 =
      [.internalError, .badFormat, .badFormat, .badFormat] := by
  decide

/-- A client error is answered and ends the connection, whatever follows it. -/
theorem doClientLoop_client_error (es : List BeanstalkClientEvent) (resp : Response) :
    doClientLoop (es.map .ok ++ .error (.client resp) :: items) =
      ((doClientLoop (es.map .ok)).1 ++ [resp], .disconnected) := by
  induction es with
  | nil => rfl
  | cons e es ih =>
    cases e <;> simp only [List.map_cons, List.cons_append, doClientLoop, List.append_eq, ih]

/-- An I/O error ends the connection without an answer, whatever follows it. -/
theorem doClientLoop_io_error (es : List BeanstalkClientEvent) (message : String) :
    doClientLoop (es.map .ok ++ .error (.io message) :: items) =
      ((doClientLoop (es.map .ok)).1, .failed message) := by
  induction es with
  | nil => rfl
  | cons e es ih =>
    cases e <;> simp only [List.map_cons, List.cons_append, doClientLoop, List.append_eq, ih]

/-- The loop answers events only with INTERNAL_ERROR and BAD_FORMAT. -/
theorem mem_doClientLoop_events {es : List BeanstalkClientEvent} {r : Response}
    (h : r ∈ (doClientLoop (es.map .ok)).1) : r = .internalError ∨ r = .badFormat := by
  induction es with
  | nil => cases h
  | cons e es ih =>
    cases e with
    | discarded => exact ih h
    | command =>
      rcases List.mem_cons.mp h with rfl | h
      exacts [.inl rfl, ih h]
    | _ =>
      rcases List.mem_cons.mp h with rfl | h
      exacts [.inr rfl, ih h]

/-- Events alone never end the loop early: it ends when the stream does. -/
theorem doClientLoop_events_closed (es : List BeanstalkClientEvent) :
    (doClientLoop (es.map .ok)).2 = .closed := by
  induction es with
  | nil => rfl
  | cons e es ih => cases e <;> simp only [List.map_cons, doClientLoop, ih]

end Ebeans
end Beanstalk
