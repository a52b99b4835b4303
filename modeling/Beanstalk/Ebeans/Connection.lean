import Beanstalk.Ebeans.ClientLoop
import Beanstalk.Wire.EndOfStream
import Beanstalk.Wire.ByteLevel
import Beanstalk.Wire.ResponseFormat

/-!
# Connection — one connection of `ebeans`, from the bytes a client sends to those it reads

`do_client_loop` answers the items `framed.next()` yields, and those are `FramedRead`'s: the
events of each read (`ReadLoop`), then, once the client has closed its end, what
`decode_eof` makes of the buffer (`EndOfStream`).  `serve` runs a whole connection: the
responses the server writes and how its loop ends, or `none` where the loop would never end or
the task would panic.

* Liveness: whatever a client sends, in reads of any sizes, once it closes its end the
  server's loop ends (`serve_ends`).  The read loop never spins from a fresh connection, and on
  the reader it leaves `decode_eof` ends the stream at its first call.
* A well-formed stream: each message is answered `INTERNAL_ERROR` and, for a put, `BAD_FORMAT`
  once for each piece its payload arrived in and once for its end; the loop ends normally, and
  the bytes written read back as exactly those answers (`serve_well_formed_stream`).
* A rejected first line is answered once and ends the connection, and no read after the one
  that completes it is taken (`serve_rejects_first_line`).
* How a connection ends is decided by the byte machine of `ByteLevel` on the bytes sent
  (`serve_outcome`): a client error's response is the last answer before the disconnect, a
  parser's I/O error fails the loop, and otherwise the loop ends normally unless the machine
  holds part of a line or of a payload's CR LF.
* What the server writes: only INTERNAL_ERROR, BAD_FORMAT, EXPECTED_CRLF and the parser's
  rejections, in bytes that read back as those responses (`serve_output_reads_back`).
-/

namespace Beanstalk
namespace Ebeans

open Wire

/-- One connection: the client sends the reads `chunks`, then closes its end.  The server's
responses, in order, and how its loop ends; `none` where the stream would yield events for
ever or the task would panic.  The cancellation token is never triggered and every send
succeeds. -/
def serve (parse : List UInt8 → Except Error Command) (chunks : List (List UInt8)) :
    Option (List Response × Outcome) :=
  match feedAll parse ⟨.parseCommand, []⟩ chunks with
  | (es, .idle, r) =>
    match drainEof parse (r.buffer.length + 1) r with
    | (es', .idle, _) => some (doClientLoop ((es ++ es').map .ok))
    | (es', .failed e, _) => some (doClientLoop ((es ++ es').map .ok ++ [.error e]))
    | _ => none
  | (es, .failed e, _) => some (doClientLoop (es.map .ok ++ [.error e]))
  | _ => none

variable {parse : List UInt8 → Except Error Command}

/-- Every connection ends: whatever the client sends, however its bytes are split into reads,
once it closes its end the server's loop ends, with no panic and no endless stream of events. -/
theorem serve_ends (chunks : List (List UInt8)) : ∃ rs out, serve parse chunks = some (rs, out) := by
  rcases hfeed : feedAll parse ⟨.parseCommand, []⟩ chunks with ⟨es, h, r⟩
  obtain ⟨hend, -⟩ := feedAll_live chunks ⟨.parseCommand, []⟩ (by simp)
  rw [hfeed] at hend
  rcases hend with ⟨rfl, -⟩ | ⟨e, rfl⟩
  · have hw := feedAll_waits chunks ⟨.parseCommand, []⟩ ⟨by decide, rfl⟩ (congrArg (·.2.1) hfeed)
    rw [hfeed] at hw
    by_cases hb : r.buffer = [] <;> simp only [serve, hfeed, drainEof_of_waits hw, hb, if_true,
      if_false] <;> exact ⟨_, _, rfl⟩
  · simp only [serve, hfeed]
    exact ⟨_, _, rfl⟩

/-- How a connection ends after the answers `rs`, read off where the byte machine stops: a
client error's response and a disconnect, an I/O error's failure, or the end of the stream,
clean unless bytes are pending. -/
def byteOutcome (rs : List Response) : Except Error ByteState → List Response × Outcome
  | .error (.client resp) => (rs ++ [resp], .disconnected)
  | .error (.io message) => (rs, .failed message)
  | .ok s => (rs, if s.pending = [] then .closed else .failed "bytes remaining on stream")

theorem mem_byteOutcome {rs : List Response} {res : Except Error ByteState} {r : Response}
    (h : r ∈ (byteOutcome rs res).1) : r ∈ rs ∨ res = .error (.client r) := by
  rcases res with (resp | message) | s
  · rcases List.mem_append.mp h with h | h
    exacts [.inl h, .inr (by rw [List.mem_singleton.mp h])]
  all_goals exact .inl h

/-- A connection's course through the byte machine: the answers to the events read, then the
end the machine's run decides. -/
theorem serve_eq_byteOutcome (chunks : List (List UInt8)) :
    serve parse chunks = some (byteOutcome
      (doClientLoop ((feedAll parse ⟨.parseCommand, []⟩ chunks).1.map .ok)).1
      (byteRun parse (.line []) chunks.flatten).2) := by
  rcases hfeed : feedAll parse ⟨.parseCommand, []⟩ chunks with ⟨es, h, r⟩
  have hagree := @feedAll_loopAgrees parse chunks ⟨.parseCommand, []⟩ _ ⟨by decide, rfl⟩ rfl
  rw [hfeed] at hagree
  rcases hagree.2 with ⟨rfl, s, hrun, hs⟩ | ⟨e, rfl, hrun⟩
  · -- the reads end idle: the end of the stream decides
    have hw := feedAll_waits chunks ⟨.parseCommand, []⟩ ⟨by decide, rfl⟩ (congrArg (·.2.1) hfeed)
    rw [hfeed] at hw
    rw [hrun, byteOutcome, ← Reader.buffer_eq_pending hs]
    by_cases hb : r.buffer = []
    · simp only [serve, hfeed, drainEof_of_waits hw, hb, if_true, List.append_nil]
      exact congrArg some (Prod.ext rfl (doClientLoop_events_closed es))
    · simp only [serve, hfeed, drainEof_of_waits hw, hb, if_false, List.append_nil]
      exact congrArg some (doClientLoop_io_error es _)
  · -- a read fails: its error ends the loop
    rw [hrun]
    cases e <;> simp only [serve, hfeed, byteOutcome, doClientLoop_client_error,
      doClientLoop_io_error]

/-- How a connection ends, for every stream and every way of splitting it into reads, is
decided by the byte machine run over the bytes sent: where it stops on a client error, the
server answers that error's response last and disconnects; on an I/O error from the parser, the
loop fails with it; and where the machine runs to the end, the loop ends normally if it holds no
pending byte, and otherwise fails with "bytes remaining on stream". -/
theorem serve_outcome (chunks : List (List UInt8)) :
    ∃ rs, (∀ resp, (byteRun parse (.line []) chunks.flatten).2 = .error (.client resp) →
        serve parse chunks = some (rs ++ [resp], .disconnected)) ∧
      (∀ message, (byteRun parse (.line []) chunks.flatten).2 = .error (.io message) →
        serve parse chunks = some (rs, .failed message)) ∧
      (∀ s, (byteRun parse (.line []) chunks.flatten).2 = .ok s →
        serve parse chunks =
          some (rs, if s.pending = [] then .closed else .failed "bytes remaining on stream")) :=
  ⟨_, fun _ h => by rw [serve_eq_byteOutcome, h, byteOutcome],
    fun _ h => by rw [serve_eq_byteOutcome, h, byteOutcome],
    fun _ h => by rw [serve_eq_byteOutcome, h, byteOutcome]⟩

/-! ## A well-formed stream -/

theorem answers_mem {m : Message} {parts : List (List UInt8)} {r : Response}
    (h : r ∈ answers m parts) : r = .internalError ∨ r = .badFormat := by
  unfold answers at h
  split at h <;> simp_all [List.mem_replicate]

theorem answers_isLine (msgs : List Message) (partss : List (List (List UInt8))) :
    ∀ r ∈ (List.zipWith answers msgs partss).flatten, r.IsLine := by
  induction msgs generalizing partss with
  | nil => simp
  | cons m msgs ih =>
    cases partss with
    | nil => simp
    | cons parts partss =>
      simp only [List.zipWith_cons_cons, List.flatten_cons, List.mem_append]
      rintro r (hr | hr)
      · rcases answers_mem hr with rfl | rfl <;> trivial
      · exact ih partss r hr

/-- With no reads at all, a stream of messages is empty. -/
theorem lineStart_of_chunks_nil {msgs : List Message} {chunks : List (List UInt8)}
    (hsplit : chunks.flatten = (msgs.map Message.bytes).flatten) :
    chunks = [] → Pos.lineStart msgs = .lineStart [] := fun hnil => by
  rw [hnil, List.flatten_nil, eq_comm, List.flatten_eq_nil_iff] at hsplit
  cases msgs with
  | nil => rfl
  | cons m _ =>
    exact absurd (hsplit m.bytes (List.mem_map_of_mem _ (List.mem_cons_self _ _))) m.bytes_ne_nil

/-- A connection on a well-formed stream, split into reads of any sizes: each message is
answered, in order, `INTERNAL_ERROR` and, for a put, `BAD_FORMAT` once for each non-empty piece
its payload arrived in and once for its end; the loop then ends normally when the client closes
its end.  A client reading the bytes the server writes, a line at a time, gets back exactly
those answers. -/
theorem serve_well_formed_stream (msgs : List Message) (chunks : List (List UInt8))
    (hwf : ∀ m ∈ msgs, m.WellFormed parse)
    (hsplit : chunks.flatten = (msgs.map Message.bytes).flatten) :
    ∃ partss : List (List (List UInt8)), List.Forall₂ Message.Cut msgs partss ∧
      serve parse chunks = some ((List.zipWith answers msgs partss).flatten, .closed) ∧
      readAllResponses (encodeAll [] (List.zipWith answers msgs partss).flatten) =
        some (List.zipWith answers msgs partss).flatten := by
  obtain ⟨es, hfeed, hne, htok⟩ :=
    @feedAll_at_pos parse (.lineStart msgs) [] chunks hwf hsplit (lineStart_of_chunks_nil hsplit)
  obtain ⟨partss, hcut, rfl⟩ := events_of_tokens msgs hne htok
  have heof : drainEof parse 1 ⟨.parseCommand, []⟩ = ([], .idle, ⟨.parseCommand, []⟩) :=
    @drainEof_of_waits parse ⟨.parseCommand, []⟩ ⟨by decide, rfl⟩ 0
  have hrs := answers_isLine msgs partss
  refine ⟨partss, hcut, ?_, readResponses_encodeAll hrs (length_le_encodeAll _ hrs)⟩
  have hfeed' : feedAll parse ⟨.parseCommand, []⟩ chunks = _ := hfeed
  simp only [serve, hfeed', List.length_nil, Nat.zero_add, heof, List.append_nil,
    doClientLoop_events]

/-- The messages of a client that puts two bytes and then quits. -/
def putThenQuit : List Message := [⟨[112], .put 0 0 0 2, [97, 98]⟩, ⟨[113], .quit, []⟩]

/-- The parser for `putThenQuit`'s lines. -/
def parsePutThenQuit (line : List UInt8) : Except Error Command :=
  if line = [112] then .ok (.put 0 0 0 2) else .ok .quit

/-- The put's payload cut in two by the reads: four answers to the put, one to the quit. -/
theorem serve_well_formed_stream_put_quit :
    (∀ m ∈ putThenQuit, m.WellFormed parsePutThenQuit) ∧
    [[112, 13, 10, 97], [98, 13, 10, 113, 13, 10]].flatten =
      (putThenQuit.map Message.bytes).flatten ∧
    ∃ partss : List (List (List UInt8)), List.Forall₂ Message.Cut putThenQuit partss ∧
      serve parsePutThenQuit [[112, 13, 10, 97], [98, 13, 10, 113, 13, 10]] =
        some ((List.zipWith answers putThenQuit partss).flatten, .closed) ∧
      readAllResponses (encodeAll [] (List.zipWith answers putThenQuit partss).flatten) =
        some (List.zipWith answers putThenQuit partss).flatten :=
  have hwf : ∀ m ∈ putThenQuit, m.WellFormed parsePutThenQuit := by
    simp only [putThenQuit, List.mem_cons, List.mem_singleton, List.not_mem_nil, or_false,
      forall_eq_or_imp, forall_eq]
    exact ⟨⟨by decide, rfl, rfl, rfl⟩, ⟨by decide, rfl, rfl, rfl⟩⟩
  ⟨hwf, rfl, serve_well_formed_stream _ _ hwf rfl⟩

/-! ## A rejected first line -/

/-- Reads at a line start on a stream `s` where the decoder waits on every prefix shorter than
`n` bytes and fails with `e` on every longer one: the loop reports no event and fails with `e`
at the read that brings the `n`-th byte. -/
theorem feedAll_first_line_fails {s : List UInt8} {n : Nat} {e : Error}
    (hwait : ∀ b, b <+: s → b.length < n →
      decode parse .parseCommand b = some ⟨.ok none, .parseCommand, b⟩)
    (hfail : ∀ b, b <+: s → n ≤ b.length →
      ∃ o, decode parse .parseCommand b = some o ∧ o.result = .error e)
    (hn : n ≤ s.length) (chunks : List (List UInt8)) (buf : List UInt8)
    (hs : buf ++ chunks.flatten = s) (hbuf : buf.length < n) :
    (feedAll parse ⟨.parseCommand, buf⟩ chunks).1 = [] ∧
      (feedAll parse ⟨.parseCommand, buf⟩ chunks).2.1 = .failed e := by
  induction chunks generalizing buf with
  | nil =>
    rw [List.flatten_nil, List.append_nil] at hs
    subst hs
    omega
  | cons c rest ih =>
    have hs' : buf ++ c ++ rest.flatten = s := by rw [← hs, List.flatten_cons, List.append_assoc]
    by_cases hlen : (buf ++ c).length < n
    · have hfeed : feed parse ⟨.parseCommand, buf⟩ c = ([], .idle, ⟨.parseCommand, buf ++ c⟩) :=
        @drain_succ_of_idle parse ⟨.parseCommand, buf ++ c⟩ _ _ _ (hwait _ ⟨_, hs'⟩ hlen)
      rw [feedAll_cons_of_idle hfeed]
      exact ih (buf ++ c) hs' hlen
    · obtain ⟨⟨res, d', src'⟩, ho, hres⟩ := hfail _ ⟨_, hs'⟩ (not_lt.mp hlen)
      obtain rfl : res = .error e := hres
      have hfeed : feed parse ⟨.parseCommand, buf⟩ c = ([], .failed e, ⟨d', src'⟩) :=
        @drain_succ_of_error parse ⟨.parseCommand, buf ++ c⟩ _ _ _ _ ho
      rw [feedAll_cons_of_not_idle hfeed (by simp)]
      exact ⟨rfl, rfl⟩

/-- A client whose first line is rejected — no CR LF pair within the 224-byte window, or a line
the parser refuses with a client error — gets exactly one response, `BAD_FORMAT` or the
parser's, and is disconnected, however the reads `chunks` that carry that line are split, and
whatever the reads `more` after them hold: no read after the one that completes the line is
taken.  Bytes that share that read with the line are buffered, and never decoded. -/
theorem serve_rejects_first_line (chunks more : List (List UInt8)) (resp : Response)
    (hfirst : (224 ≤ chunks.flatten.length ∧ (∀ i, CrlfAt chunks.flatten i → 222 < i) ∧
        resp = .badFormat) ∨
      ∃ k, FirstCrlf chunks.flatten k ∧ k ≤ 222 ∧
        parse (chunks.flatten.take k) = .error (.client resp)) :
    serve parse (chunks ++ more) = some ([resp], .disconnected) := by
  obtain ⟨hnil, hfail⟩ : (feedAll parse ⟨.parseCommand, []⟩ chunks).1 = [] ∧
      (feedAll parse ⟨.parseCommand, []⟩ chunks).2.1 = .failed (.client resp) := by
    rcases hfirst with ⟨hlen, hnone, rfl⟩ | ⟨k, hk, hk222, hparse⟩
    · refine @feedAll_first_line_fails parse chunks.flatten 224 _ (fun b hb hb' => ?_)
        (fun b hb hb' => ?_) hlen chunks [] rfl (by simp)
      · rw [decode_parseCommand_prefix_of_noCrlf hb hnone, if_neg (not_le.mpr hb')]
      · exact ⟨_, decode_parseCommand_prefix_of_noCrlf hb hnone, by rw [if_pos hb']⟩
    · have hlen := hk.1.lt_length
      refine @feedAll_first_line_fails parse chunks.flatten (k + 2) _ (fun b hb hb' => ?_)
        (fun b hb hb' => ?_) (by omega) chunks [] rfl (by simp)
      · rw [decode_parseCommand_prefix_of_firstCrlf hb hk hk222, if_pos hb']
      · refine ⟨_, (decode_parseCommand_prefix_of_firstCrlf hb hk hk222).trans
          (if_neg (not_lt.mpr hb')), ?_⟩
        rw [acceptCommand, hparse]
  rcases hfeed : feedAll parse ⟨.parseCommand, []⟩ chunks with ⟨es, h, r⟩
  rw [hfeed] at hnil hfail
  subst hnil hfail
  have hmore := feedAll_append_of_not_idle ⟨.parseCommand, []⟩ chunks more
    (by rw [hfeed]; exact Halt.noConfusion)
  rw [hfeed] at hmore
  simp only [serve, hmore]
  rfl

/-- A client that sends the line `a` in one read. -/
def unknownLine : List (List UInt8) := [[97, 13, 10]]

/-- A client that sends the line `a`, then a byte of the next line. -/
def unknownThenMore : List (List UInt8) := unknownLine ++ [[98]]

/-- A parser that knows no command. -/
def parseNothing (_ : List UInt8) : Except Error Command := .error (.client .unknownCommand)

/-- The first line refused as an unknown command: one answer, and the read after it not taken. -/
theorem serve_rejects_first_line_unknown :
    ((224 ≤ unknownLine.flatten.length ∧ (∀ i, CrlfAt unknownLine.flatten i → 222 < i) ∧
        Response.unknownCommand = .badFormat) ∨
      ∃ k, FirstCrlf unknownLine.flatten k ∧ k ≤ 222 ∧
        parseNothing (unknownLine.flatten.take k) = .error (.client .unknownCommand)) ∧
    serve parseNothing (unknownLine ++ [[98]]) = some ([.unknownCommand], .disconnected) :=
  have hfirst : (224 ≤ unknownLine.flatten.length ∧
        (∀ i, CrlfAt unknownLine.flatten i → 222 < i) ∧ Response.unknownCommand = .badFormat) ∨
      ∃ k, FirstCrlf unknownLine.flatten k ∧ k ≤ 222 ∧
        parseNothing (unknownLine.flatten.take k) = .error (.client .unknownCommand) :=
    .inr ⟨1, findCrlf_eq_some_iff.mp rfl, by decide, rfl⟩
  ⟨hfirst, serve_rejects_first_line _ _ _ hfirst⟩

/-! ## What the server writes -/

/-- The server writes nothing but INTERNAL_ERROR, BAD_FORMAT, EXPECTED_CRLF and the responses
the parser rejects lines with, whatever a client sends and however it is split into reads; and
where the parser rejects lines only with one-line responses, a client reading the bytes written
back a line at a time gets exactly the responses sent. -/
theorem serve_output_reads_back (chunks : List (List UInt8)) :
    ∃ rs out, serve parse chunks = some (rs, out) ∧
      (∀ r ∈ rs, r = .internalError ∨ r = .badFormat ∨ r = .expectedCRLF ∨
        ∃ line, parse line = .error (.client r)) ∧
      ((∀ line resp, parse line = .error (.client resp) → resp.IsLine) →
        readAllResponses (encodeAll [] rs) = some rs) := by
  have hsent : ∀ r ∈ (byteOutcome (doClientLoop ((feedAll parse ⟨.parseCommand, []⟩
      chunks).1.map .ok)).1 (byteRun parse (.line []) chunks.flatten).2).1,
      r = .internalError ∨ r = .badFormat ∨ r = .expectedCRLF ∨
        ∃ line, parse line = .error (.client r) := fun r hr => by
    rcases mem_byteOutcome hr with hr | hr
    · rcases mem_doClientLoop_events hr with h | h
      exacts [.inl h, .inr (.inl h)]
    · rcases byteRun_error hr with h | h | h
      exacts [.inr (.inl (Error.client.inj h)), .inr (.inr (.inl (Error.client.inj h))),
        .inr (.inr (.inr h))]
  refine ⟨_, _, serve_eq_byteOutcome chunks, hsent, fun hparse => ?_⟩
  have hrs : ∀ r ∈ _, Response.IsLine r := fun r hr => by
    rcases hsent r hr with rfl | rfl | rfl | ⟨line, h⟩
    exacts [trivial, trivial, trivial, hparse _ _ h]
  exact readResponses_encodeAll hrs (length_le_encodeAll _ hrs)

/-- A parser refusing every line as an unknown command refuses with a one-line response, so
what the server writes reads back. -/
theorem serve_output_reads_back_unknown :
    (∀ line resp, parseNothing line = .error (.client resp) → resp.IsLine) ∧
      ∃ rs out, serve parseNothing unknownThenMore = some (rs, out) ∧
        readAllResponses (encodeAll [] rs) = some rs :=
  have hparse : ∀ line resp, parseNothing line = .error (.client resp) → resp.IsLine :=
    fun _ _ h => by cases h; trivial
  have ⟨rs, out, hs, _, hread⟩ := @serve_output_reads_back parseNothing unknownThenMore
  ⟨hparse, rs, out, hs, hread hparse⟩

end Ebeans
end Beanstalk
