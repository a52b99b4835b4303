import Beanstalk.Wire.Reader

/-!
# Framing — well-formed client streams decode to their messages under any chunking

A well-formed client stream is a list of `Message`s: a command line of at most 222 bytes with
no CR LF pair, its CR LF, and for a put of `n` bytes a payload of exactly `n` bytes and a
CR LF.  The payload is arbitrary and may itself contain CR LF pairs.

`feedAll_frames_well_formed_stream` proves that `FramedRead`'s loop, fed the stream in reads of
any sizes, never fails and emits each message's command, then for a put its payload in
non-empty chunks and one `PutEnd`, and ends in ParseCommand with an empty buffer.

The proof tracks a position `Pos` in the stream, proves what one call does there
(`decode_at_pos`, one lemma per kind of position), lifts it to the decode loop
(`drain_at_pos`) and then to a sequence of reads (`feedAll_at_pos`).  Along the way events are
compared through `tokens`, which spells a payload out byte by byte and so does not depend on
where reads cut it; `events_of_tokens` turns equal tokens back into the events, message by
message.
-/

namespace Beanstalk
namespace Wire

/-- One message of a client stream. -/
structure Message where
  line : List UInt8
  command : Command
  payload : List UInt8

/-- The bytes a client sends for a message. -/
def Message.bytes (m : Message) : List UInt8 :=
  m.line ++ crlf ++
    match m.command with
    | .put _ _ _ _ => m.payload ++ crlf
    | _ => []

/-- A message is well formed for the parser when its line fits the window, holds no CR LF
pair and parses to its command, and its payload has the length a put announces (and is empty
for every other command). -/
structure Message.WellFormed (parse : List UInt8 → Except Error Command) (m : Message) : Prop where
  short : m.line.length ≤ 222
  noCrlf : findCrlf m.line = none
  parses : parse m.line = .ok m.command
  sized : match m.command with
    | .put _ _ _ n => m.payload.length = n.toNat
    | _ => m.payload = []

/-- What the server learns from the stream, with payloads spelled out byte by byte. -/
inductive Token
  | command (c : Command)
  | byte (b : UInt8)
  | putEnd
  | discarded
  deriving DecidableEq, Repr

/-- The tokens an event stands for. -/
def BeanstalkClientEvent.tokens : BeanstalkClientEvent → List Token
  | .command c => [.command c]
  | .putChunk data => data.map .byte
  | .putEnd => [.putEnd]
  | .discarded => [.discarded]

/-- The tokens a message must produce: its command, then for a put its payload and the end
of the put. -/
def Message.tokens (m : Message) : List Token :=
  .command m.command ::
    match m.command with
    | .put _ _ _ _ => m.payload.map .byte ++ [.putEnd]
    | _ => []

/-! ## Positions in a well-formed stream -/

/-- Where the reader stands: at the start of a line, or inside a payload with `rest` still
owed, followed by its CR LF. -/
inductive Pos
  | lineStart (ms : List Message)
  | payload (rest : List UInt8) (ms : List Message)

namespace Pos

/-- The messages not yet begun. -/
def msgs : Pos → List Message
  | lineStart ms => ms
  | payload _ ms => ms

/-- The decoder state that belongs to a position. -/
def decoder : Pos → Decoder
  | lineStart _ => .parseCommand
  | payload rest _ => .parseJob rest.length

/-- The bytes of the stream from the position on. -/
def bytes : Pos → List UInt8
  | lineStart ms => (ms.map Message.bytes).flatten
  | payload rest ms => rest ++ crlf ++ (ms.map Message.bytes).flatten

/-- The tokens still to be produced from the position on. -/
def tokens : Pos → List Token
  | lineStart ms => (ms.map Message.tokens).flatten
  | payload rest ms => rest.map .byte ++ .putEnd :: (ms.map Message.tokens).flatten

/-- The position after a message's command. -/
def afterLine (m : Message) (ms : List Message) : Pos :=
  match m.command with
  | .put _ _ _ _ => payload m.payload ms
  | _ => lineStart ms

end Pos

section framing

variable {parse : List UInt8 → Except Error Command}

/-- The messages not yet begun are well formed. -/
def Pos.WellFormed (parse : List UInt8 → Except Error Command) (p : Pos) : Prop :=
  ∀ m ∈ p.msgs, m.WellFormed parse

variable {m : Message} {ms : List Message}

theorem Pos.bytes_lineStart_cons :
    (Pos.lineStart (m :: ms)).bytes = m.line ++ crlf ++ (Pos.afterLine m ms).bytes := by
  simp only [Pos.bytes, Pos.afterLine, Message.bytes, List.map_cons, List.flatten_cons]
  split <;> simp

theorem Pos.tokens_lineStart_cons :
    (Pos.lineStart (m :: ms)).tokens = .command m.command :: (Pos.afterLine m ms).tokens := by
  simp only [Pos.tokens, Pos.afterLine, Message.tokens, List.map_cons, List.flatten_cons]
  split <;> simp

theorem Pos.decoder_afterLine (hm : m.WellFormed parse) :
    (Pos.afterLine m ms).decoder = afterCommand m.command := by
  have hsized := hm.sized
  unfold Pos.afterLine afterCommand
  split <;> simp_all [Pos.decoder]

theorem Pos.msgs_afterLine : (Pos.afterLine m ms).msgs = ms := by
  unfold Pos.afterLine; split <;> rfl

/-- What one call at a position may do, with the buffer `buf` followed by the bytes `F` still
to come: wait (and, with nothing to come, only at the end of the stream), or emit the next
event, never an empty chunk, and move to the next position, consuming at least one byte. -/
def StepAt (parse : List UInt8 → Except Error Command) (p : Pos) (buf F : List UInt8) : Prop :=
  (decode parse p.decoder buf = some ⟨.ok none, p.decoder, buf⟩ ∧ (F = [] → p = .lineStart [])) ∨
    ∃ (e : BeanstalkClientEvent) (p' : Pos) (buf' : List UInt8),
      decode parse p.decoder buf = some ⟨.ok (some e), p'.decoder, buf'⟩ ∧
      buf' ++ F = p'.bytes ∧ e.tokens ++ p'.tokens = p.tokens ∧ (∀ q, e = .putChunk q → q ≠ []) ∧
      p'.WellFormed parse ∧ buf'.length < buf.length

variable {buf F : List UInt8}

/-- At a command line: the line is parsed once its CR LF has arrived. -/
theorem stepAt_lineStart (hwf : (Pos.lineStart (m :: ms)).WellFormed parse)
    (hbuf : buf ++ F = (Pos.lineStart (m :: ms)).bytes) :
    StepAt parse (.lineStart (m :: ms)) buf F := by
  have hm := hwf m (List.mem_cons_self m ms)
  rw [Pos.bytes_lineStart_cons] at hbuf
  have hb : buf <+: m.line ++ crlf ++ (Pos.afterLine m ms).bytes := ⟨F, hbuf⟩
  rw [StepAt, show (Pos.lineStart (m :: ms)).decoder = .parseCommand from rfl,
    decode_parseCommand_prefix_of_firstCrlf hb (firstCrlf_line hm.noCrlf) hm.short]
  split
  · refine .inl ⟨rfl, fun hF => ?_⟩
    subst hF
    have := congrArg List.length hbuf
    simp [crlf] at this
    omega
  · have hlen : m.line.length + 2 ≤ buf.length := by omega
    refine .inr ⟨.command m.command, Pos.afterLine m ms, buf.drop (m.line.length + 2), ?_, ?_,
      by rw [Pos.tokens_lineStart_cons]; rfl, by simp, ?_, by simp; omega⟩
    · rw [show (m.line ++ crlf ++ (Pos.afterLine m ms).bytes).take m.line.length = m.line by
        simp [List.append_assoc], acceptCommand, hm.parses, Pos.decoder_afterLine hm]
    · have := congrArg (List.drop (m.line ++ crlf).length) hbuf
      rw [List.drop_append_of_le_length (by simpa [crlf] using hlen), List.drop_left] at this
      simpa [crlf] using this
    · intro m' hm'
      rw [Pos.msgs_afterLine] at hm'
      exact hwf m' (List.mem_cons_of_mem m hm')

/-- At the CR LF that ends a payload: `PutEnd` once both bytes have arrived. -/
theorem stepAt_payloadEnd (hwf : (Pos.payload [] ms).WellFormed parse)
    (hbuf : buf ++ F = (Pos.payload [] ms).bytes) : StepAt parse (.payload [] ms) buf F := by
  rcases buf with _ | ⟨a, _ | ⟨b, buf⟩⟩
  · exact .inl ⟨decode_nil, fun hF => by simp [hF, Pos.bytes, crlf] at hbuf⟩
  · exact .inl ⟨decode_parseJob_zero_short (by simp), fun hF => by simp [hF, Pos.bytes, crlf] at hbuf⟩
  · simp only [Pos.bytes, List.nil_append, crlf, List.cons_append, List.cons.injEq] at hbuf
    obtain ⟨rfl, rfl, hbuf⟩ := hbuf
    exact .inr ⟨.putEnd, .lineStart ms, buf, decode_parseJob_zero_crlf, hbuf, rfl,
      by simp, hwf, by simp only [List.length_cons]; omega⟩

/-- Inside a payload: a chunk of what is buffered, up to the bytes still owed. -/
theorem stepAt_payload {x : UInt8} {rest : List UInt8}
    (hwf : (Pos.payload (x :: rest) ms).WellFormed parse)
    (hbuf : buf ++ F = (Pos.payload (x :: rest) ms).bytes) :
    StepAt parse (.payload (x :: rest) ms) buf F := by
  rcases buf with _ | ⟨a, buf⟩
  · exact .inl ⟨decode_nil, fun hF => by simp [hF, Pos.bytes] at hbuf⟩
  set k := min (x :: rest).length (a :: buf).length with hk
  have hk1 : 1 ≤ k := le_min (by simp) (by simp)
  have hkbuf : k ≤ (a :: buf).length := min_le_right _ _
  have hkrest : k ≤ (x :: rest).length := min_le_left _ _
  have htake : (a :: buf).take k = (x :: rest).take k := by
    have := congrArg (List.take k) hbuf
    rwa [List.take_append_of_le_length hkbuf, Pos.bytes, List.append_assoc,
      List.take_append_of_le_length hkrest] at this
  refine .inr ⟨.putChunk ((a :: buf).take k), .payload ((x :: rest).drop k) ms,
    (a :: buf).drop k, ?_, ?_, ?_, ?_, hwf, by simp; omega⟩
  · simp only [Pos.decoder]
    rw [decode_parseJob_chunk (by simp) (List.cons_ne_nil a buf), List.length_drop]
  · have := congrArg (List.drop k) hbuf
    rw [List.drop_append_of_le_length hkbuf, Pos.bytes, List.append_assoc,
      List.drop_append_of_le_length hkrest] at this
    simpa [Pos.bytes] using this
  · simp only [BeanstalkClientEvent.tokens, Pos.tokens, htake, ← List.append_assoc,
      ← List.map_append, List.take_append_drop]
  · rintro q ⟨⟩
    simp [hk]

/-- One call at any position of a well-formed stream. -/
theorem decode_at_pos {p : Pos} (hwf : p.WellFormed parse) (hbuf : buf ++ F = p.bytes) :
    StepAt parse p buf F := by
  rcases p with (_ | ⟨m, ms⟩) | ⟨_ | ⟨x, rest⟩, ms⟩
  · -- the end of the stream
    obtain ⟨rfl, -⟩ := List.append_eq_nil.mp hbuf
    exact .inl ⟨decode_nil, fun _ => rfl⟩
  exacts [stepAt_lineStart hwf hbuf, stepAt_payloadEnd hwf hbuf, stepAt_payload hwf hbuf]

/-- The decode loop at a position, with enough fuel for its buffer, ends idle at a later
position: the events it emits account for the tokens between the two. -/
theorem drain_at_pos {p : Pos} {fuel : Nat} (hwf : p.WellFormed parse)
    (hbuf : buf ++ F = p.bytes) (hfuel : buf.length < fuel) :
    ∃ (es : List BeanstalkClientEvent) (p' : Pos) (buf' : List UInt8),
      drain parse fuel ⟨p.decoder, buf⟩ = (es, .idle, ⟨p'.decoder, buf'⟩) ∧ buf' ++ F = p'.bytes ∧
      (es.map BeanstalkClientEvent.tokens).flatten ++ p'.tokens = p.tokens ∧
      (∀ q, .putChunk q ∈ es → q ≠ []) ∧ p'.WellFormed parse ∧ (F = [] → p' = .lineStart []) := by
  induction fuel generalizing p buf with
  | zero => exact absurd hfuel (Nat.not_lt_zero _)
  | succ fuel ih =>
    rcases decode_at_pos hwf hbuf with ⟨hdec, hend⟩ | ⟨e, p', buf', hdec, hbuf', htok, hne, hwf', hlt⟩
    · exact ⟨[], p, buf, drain_succ_of_idle hdec, hbuf, rfl, by simp, hwf, hend⟩
    · obtain ⟨es, p'', buf'', hdrain, hbuf'', htok', hne', hwf'', hend⟩ :=
        ih hwf' hbuf' (by omega)
      have hstep : drain parse (fuel + 1) ⟨p.decoder, buf⟩ = _ := drain_succ_of_event hdec
      refine ⟨e :: es, p'', buf'', by rw [hstep, hdrain], hbuf'', ?_, ?_, hwf'', hend⟩
      · rw [← htok, ← htok']
        simp
      · rintro q (⟨⟩ | ⟨_, hq⟩)
        exacts [hne q rfl, hne' q hq]

/-- Reads at a position, after a decode loop that ended idle (so that with nothing left to read
the stream is over), end idle at the end of the stream, having emitted the position's tokens. -/
theorem feedAll_at_pos {p : Pos} {buf : List UInt8} (chunks : List (List UInt8))
    (hwf : p.WellFormed parse) (hbuf : buf ++ chunks.flatten = p.bytes)
    (hidle : chunks = [] → p = .lineStart []) :
    ∃ es : List BeanstalkClientEvent,
      feedAll parse ⟨p.decoder, buf⟩ chunks = (es, .idle, ⟨.parseCommand, []⟩) ∧
      (∀ q, .putChunk q ∈ es → q ≠ []) ∧ (es.map BeanstalkClientEvent.tokens).flatten = p.tokens := by
  induction chunks generalizing p buf with
  | nil =>
    obtain rfl := hidle rfl
    obtain rfl : buf = [] := by simpa [Pos.bytes] using hbuf
    exact ⟨[], rfl, by simp, rfl⟩
  | cons c rest ih =>
    obtain ⟨es, p', buf', hdrain, hbuf', htok, hne, hwf', hend⟩ :=
      @drain_at_pos parse (buf ++ c) rest.flatten p _ hwf
        (by rwa [List.flatten_cons, ← List.append_assoc] at hbuf) (Nat.lt_succ_self _)
    obtain ⟨es', hfeed, hne', htok'⟩ :=
      ih hwf' hbuf' fun hrest => hend (by simp [hrest])
    have hstep : feedAll parse ⟨p.decoder, buf⟩ (c :: rest) = _ := feedAll_cons_of_idle hdrain
    refine ⟨es ++ es', by rw [hstep, hfeed], ?_, by rw [← htok, ← htok']; simp⟩
    intro q hq
    rcases List.mem_append.mp hq with hq | hq
    exacts [hne q hq, hne' q hq]

/-! ## From tokens back to events -/

/-- The events a message is delivered as, its payload arriving in the pieces `parts`. -/
def Message.events (m : Message) (parts : List (List UInt8)) : List BeanstalkClientEvent :=
  .command m.command ::
    match m.command with
    | .put _ _ _ _ => parts.map .putChunk ++ [.putEnd]
    | _ => []

/-- `parts` cuts the message's payload into non-empty pieces (there are none for a command
other than a put). -/
def Message.Cut (m : Message) (parts : List (List UInt8)) : Prop :=
  (∀ q ∈ parts, q ≠ []) ∧
    match m.command with
    | .put _ _ _ _ => parts.flatten = m.payload
    | _ => parts = []

/-- A message's command is a put, or it stands alone: one token, one event, and no pieces. -/
theorem Message.put_or_alone (m : Message) :
    (∃ pri delay ttr n, m.command = .put pri delay ttr n) ∨
      (∀ pri delay ttr n, m.command ≠ .put pri delay ttr n) ∧ m.tokens = [.command m.command] ∧
        (∀ parts, m.events parts = [.command m.command]) ∧ m.Cut [] := by
  by_cases hput : ∃ pri delay ttr n, m.command = .put pri delay ttr n
  · exact .inl hput
  · push_neg at hput
    refine .inr ⟨hput, ?_, fun parts => ?_, fun q hq => absurd hq (List.not_mem_nil q), ?_⟩
    · unfold Message.tokens
      split
      next _ _ _ _ hc => exact absurd hc (hput _ _ _ _)
      next => rfl
    · unfold Message.events
      split
      next _ _ _ _ hc => exact absurd hc (hput _ _ _ _)
      next => rfl
    · split
      next _ _ _ _ hc => exact absurd hc (hput _ _ _ _)
      next => rfl

/-- Payload bytes are followed by `PutEnd`: bytes read before it are a prefix of them. -/
theorem map_byte_append_eq {l₁ l₂ : List UInt8} {X R : List Token}
    (h : l₁.map .byte ++ X = l₂.map .byte ++ .putEnd :: R) :
    ∃ l', l₂ = l₁ ++ l' ∧ X = l'.map .byte ++ .putEnd :: R := by
  induction l₁ generalizing l₂ with
  | nil => exact ⟨l₂, rfl, h⟩
  | cons a l₁ ih =>
    rcases l₂ with _ | ⟨b, l₂⟩
    · simp at h
    · simp only [List.map_cons, List.cons_append, List.cons.injEq, Token.byte.injEq] at h
      obtain ⟨l', rfl, hX⟩ := ih h.2
      exact ⟨l', by rw [h.1, List.cons_append], hX⟩

/-- Events whose tokens start with a payload and `PutEnd` start with non-empty chunks of that
payload and one `PutEnd`. -/
theorem chunk_run {es : List BeanstalkClientEvent} {bytes : List UInt8} {R : List Token}
    (hne : ∀ q, .putChunk q ∈ es → q ≠ [])
    (h : (es.map BeanstalkClientEvent.tokens).flatten = bytes.map .byte ++ .putEnd :: R) :
    ∃ (parts : List (List UInt8)) (es' : List BeanstalkClientEvent),
      es = parts.map .putChunk ++ .putEnd :: es' ∧ parts.flatten = bytes ∧
      (∀ q ∈ parts, q ≠ []) ∧ (es'.map BeanstalkClientEvent.tokens).flatten = R := by
  induction es generalizing bytes with
  | nil => simp at h
  | cons e es ih =>
    have hne' : ∀ q, .putChunk q ∈ es → q ≠ [] := fun q hq => hne q (List.mem_cons_of_mem e hq)
    rw [List.map_cons, List.flatten_cons] at h
    cases e with
    | putChunk q =>
      obtain ⟨l', rfl, hX⟩ := map_byte_append_eq h
      obtain ⟨parts, es', rfl, hflat, hparts, hR⟩ := ih hne' hX
      refine ⟨q :: parts, es', rfl, by rw [List.flatten_cons, hflat], ?_, hR⟩
      rintro q' (_ | ⟨_, hq'⟩)
      exacts [hne q (List.mem_cons_self _ _), hparts q' hq']
    | putEnd =>
      rcases bytes with _ | ⟨b, bytes⟩
      · exact ⟨[], es, rfl, rfl, by simp, by simpa [BeanstalkClientEvent.tokens] using h⟩
      · simp [BeanstalkClientEvent.tokens] at h
    | command c => cases bytes <;> simp [BeanstalkClientEvent.tokens] at h
    | discarded => cases bytes <;> simp [BeanstalkClientEvent.tokens] at h

/-- Events with no empty chunk whose tokens are those of a list of messages are, message by
message, the command and, for a put, non-empty chunks of its payload and one `PutEnd`. -/
theorem events_of_tokens {es : List BeanstalkClientEvent} (msgs : List Message)
    (hne : ∀ q, .putChunk q ∈ es → q ≠ [])
    (h : (es.map BeanstalkClientEvent.tokens).flatten = (msgs.map Message.tokens).flatten) :
    ∃ partss, List.Forall₂ Message.Cut msgs partss ∧
      es = (List.zipWith Message.events msgs partss).flatten := by
  induction msgs generalizing es with
  | nil =>
    refine ⟨[], .nil, ?_⟩
    rcases es with _ | ⟨e, es⟩
    · rfl
    · cases e <;> simp_all [BeanstalkClientEvent.tokens]
  | cons m msgs ih =>
    rcases es with _ | ⟨e, es⟩
    · simp [Message.tokens] at h
    have hne' : ∀ q, .putChunk q ∈ es → q ≠ [] := fun q hq => hne q (List.mem_cons_of_mem e hq)
    cases e with
    | command c =>
      simp only [List.map_cons, List.flatten_cons, BeanstalkClientEvent.tokens,
        List.singleton_append] at h
      rcases m.put_or_alone with ⟨pri, delay, ttr, n, hc⟩ | ⟨-, htok, hev, hcut⟩
      · simp only [Message.tokens, hc, List.cons_append, List.cons.injEq, Token.command.injEq,
          List.append_assoc, List.singleton_append] at h
        obtain ⟨rfl, h⟩ := h
        obtain ⟨parts, es', rfl, hflat, hparts, hR⟩ := chunk_run hne' h
        obtain ⟨partss, hcut, rfl⟩ := ih (fun q hq => hne' q (by simp [hq])) hR
        refine ⟨parts :: partss, .cons ?_ hcut, by simp [Message.events, hc]⟩
        simp only [Message.Cut, hc]
        exact ⟨hparts, hflat⟩
      · simp only [htok, List.singleton_append, List.cons.injEq, Token.command.injEq] at h
        obtain ⟨rfl, h⟩ := h
        obtain ⟨partss, hcuts, rfl⟩ := ih hne' h
        exact ⟨[] :: partss, .cons hcut hcuts, by simp [hev []]⟩
    | putChunk q =>
      obtain ⟨b, q, rfl⟩ := List.exists_cons_of_ne_nil (hne _ (List.mem_cons_self _ _))
      simp [BeanstalkClientEvent.tokens, Message.tokens] at h
    | putEnd | discarded => simp [BeanstalkClientEvent.tokens, Message.tokens] at h

theorem Message.bytes_ne_nil (m : Message) : m.bytes ≠ [] := by
  simp [Message.bytes, crlf]

/-- Framing of well-formed client streams under any chunking: a reader that starts in
ParseCommand with an empty buffer and is fed the stream in reads of any sizes never fails,
emits for each message, in order, its command and, for a put, its payload in non-empty chunks
and one `PutEnd`, and ends in ParseCommand with an empty buffer. -/
theorem feedAll_frames_well_formed_stream (msgs : List Message) (chunks : List (List UInt8))
    (hwf : ∀ m ∈ msgs, m.WellFormed parse)
    (hsplit : chunks.flatten = (msgs.map Message.bytes).flatten) :
    ∃ partss : List (List (List UInt8)), List.Forall₂ Message.Cut msgs partss ∧
      feedAll parse ⟨.parseCommand, []⟩ chunks =
        ((List.zipWith Message.events msgs partss).flatten, .idle, ⟨.parseCommand, []⟩) := by
  have hidle : chunks = [] → Pos.lineStart msgs = .lineStart [] := fun hnil => by
    rw [hnil, List.flatten_nil, eq_comm, List.flatten_eq_nil_iff] at hsplit
    cases msgs with
    | nil => rfl
    | cons m _ =>
      exact absurd (hsplit m.bytes (List.mem_map_of_mem _ (List.mem_cons_self _ _))) m.bytes_ne_nil
  obtain ⟨events, hfeed, hne, htok⟩ :=
    @feedAll_at_pos parse (.lineStart msgs) [] chunks hwf hsplit hidle
  obtain ⟨partss, hcut, rfl⟩ := events_of_tokens msgs hne htok
  exact ⟨partss, hcut, hfeed⟩

/-- A put whose payload is a CR LF, then a quit, read in four pieces cut inside CR LF pairs. -/
theorem feedAll_frames_payload_with_crlf :
    (∀ m ∈ [(⟨[112], .put 0 0 0 2, [13, 10]⟩ : Message), ⟨[113], .quit, []⟩],
      m.WellFormed fun line => if line = [112] then .ok (.put 0 0 0 2) else .ok .quit) ∧
    [[112, 13], [10, 13], [10, 13, 10, 113, 13], [10]].flatten =
      ([(⟨[112], .put 0 0 0 2, [13, 10]⟩ : Message), ⟨[113], .quit, []⟩].map Message.bytes).flatten ∧
    ∃ partss : List (List (List UInt8)),
      List.Forall₂ Message.Cut [(⟨[112], .put 0 0 0 2, [13, 10]⟩ : Message), ⟨[113], .quit, []⟩]
        partss ∧
      feedAll (fun line => if line = [112] then .ok (.put 0 0 0 2) else .ok .quit)
          ⟨.parseCommand, []⟩ [[112, 13], [10, 13], [10, 13, 10, 113, 13], [10]] =
        ((List.zipWith Message.events
            [(⟨[112], .put 0 0 0 2, [13, 10]⟩ : Message), ⟨[113], .quit, []⟩] partss).flatten,
          .idle, ⟨.parseCommand, []⟩) := by
  have hwf : ∀ m ∈ [(⟨[112], .put 0 0 0 2, [13, 10]⟩ : Message), ⟨[113], .quit, []⟩],
      m.WellFormed fun line => if line = [112] then .ok (.put 0 0 0 2) else .ok .quit := by
    simp only [List.mem_cons, List.mem_singleton, List.not_mem_nil, or_false]
    rintro m (rfl | rfl) <;> exact ⟨by decide, rfl, rfl, rfl⟩
  exact ⟨hwf, rfl, feedAll_frames_well_formed_stream _ _ hwf rfl⟩

end framing

end Wire
end Beanstalk
