import Beanstalk.Wire.ReadLoop

/-!
# EndOfStream — what the client closing its end does

When a read returns no bytes, `FramedRead` stops calling `decode` and calls `decode_eof`
instead, for as long as that yields events; when it returns `Ok(None)` the stream ends.
`Decoder` does not override `decode_eof`, so the trait's default applies: decode once more, and
if that waits, end the stream on an empty buffer and fail with the I/O error
"bytes remaining on stream" on any other.

* Waiting: `decode` returns `Ok(None)` only at a line start with fewer than 224 bytes and no
  CR LF pair, after a payload with fewer than the two bytes of its CR LF, and otherwise only
  on an empty buffer (`Waits`, `decode_waits`).  It then leaves state and buffer as they
  were, so a read loop that ended idle leaves a waiting reader behind (`feedAll_waits`).
* The end: on a waiting reader `decode_eof` is called once and the stream ends, cleanly
  exactly when the buffer is empty (`drainEof_of_waits`).  So a client that closes inside a
  put's payload is never reported, although the comment in the ParseJob arm says the empty
  buffer "causes the codec to return an error" there (`feedAll_end_of_stream`).
-/

namespace Beanstalk
namespace Wire

section eof

variable (parse : List UInt8 → Except Error Command)

/-- `Decoder::decode_eof`, the trait's default: `self.decode(buf)?`, and when that is `None`,
`Ok(None)` on an empty buffer and otherwise
`Err(io::Error::new(io::ErrorKind::Other, "bytes remaining on stream").into())`. -/
def decodeEof (d : Decoder) (src : List UInt8) : Option Decoded :=
  (decode parse d src).map fun o =>
    match o.result with
    | .ok none =>
      if o.src = [] then o else ⟨.error (.io "bytes remaining on stream"), o.next, o.src⟩
    | _ => o

/-- `FramedRead` once a read has returned no bytes: call `decode_eof` while it yields events.
`idle` here is its `Ok(None)`, on which the stream ends. -/
def drainEof : Nat → Reader → List BeanstalkClientEvent × Halt × Reader
  | 0, r => ([], .outOfFuel, r)
  | fuel + 1, r =>
    match decodeEof parse r.decoder r.buffer with
    | none => ([], .panicked, r)
    | some ⟨.ok none, next, src⟩ => ([], .idle, ⟨next, src⟩)
    | some ⟨.ok (some e), next, src⟩ =>
      let (es, h, r') := drainEof fuel ⟨next, src⟩
      (e :: es, h, r')
    | some ⟨.error err, next, src⟩ => ([], .failed err, ⟨next, src⟩)

end eof

/-- The buffers on which `decode` returns `Ok(None)`: at a line start, fewer than 224 bytes
with no CR LF pair; after a payload, fewer than the two bytes of its CR LF; in the middle of a
payload or while discarding, only an empty one. -/
def Waits : Decoder → List UInt8 → Prop
  | .parseCommand, src => src.length < 224 ∧ findCrlf src = none
  | .parseJob 0, src => src.length < 2
  | .parseJob (_ + 1), src => src = []
  | .discardToNewline, src => src = []

instance : (d : Decoder) → (src : List UInt8) → Decidable (Waits d src)
  | .parseCommand, _ => inferInstanceAs (Decidable (_ ∧ _))
  | .parseJob 0, _ => inferInstanceAs (Decidable (_ < _))
  | .parseJob (_ + 1), _ => inferInstanceAs (Decidable (_ = _))
  | .discardToNewline, _ => inferInstanceAs (Decidable (_ = _))

variable {parse : List UInt8 → Except Error Command} {d : Decoder} {src : List UInt8}
  {o : Decoded} {r : Reader}

/-! ## Waiting -/

theorem acceptCommand_result_ne_wait {cmd rest : List UInt8} :
    (acceptCommand parse cmd rest).result ≠ .ok none := by
  unfold acceptCommand
  split <;> simp

/-- What a waiting buffer can hold: nothing, or part of a command line, or one byte after a
payload. -/
theorem Waits.buffer (hw : Waits d src) :
    src = [] ∨ d = .parseCommand ∧ src.length < 224 ∧ findCrlf src = none ∨
      d = .parseJob 0 ∧ src.length = 1 := by
  cases d with
  | parseCommand => exact .inr (.inl ⟨rfl, hw⟩)
  | parseJob remaining =>
    rcases remaining with _ | k
    · rcases src with _ | ⟨a, _ | ⟨b, rest⟩⟩
      · exact .inl rfl
      · exact .inr (.inr ⟨rfl, rfl⟩)
      · exact absurd hw (by simp [Waits])
    · exact .inl hw
  | discardToNewline => exact .inl hw

theorem decode_of_waits (hw : Waits d src) : decode parse d src = some ⟨.ok none, d, src⟩ := by
  cases d with
  | parseCommand =>
    rw [decode_parseCommand_of_noCrlf fun i hat => absurd hat (findCrlf_eq_none_iff.mp hw.2 i),
      if_neg (not_le.mpr hw.1)]
  | parseJob remaining =>
    rcases remaining with _ | k
    · exact decode_parseJob_zero_short hw
    · rw [show src = [] from hw, decode_nil]
  | discardToNewline => rw [show src = [] from hw, decode_nil]

/-- `decode` waits exactly on a waiting buffer, and then leaves state and buffer as they were. -/
theorem decode_waits (h : decode parse d src = some o) (hok : o.result = .ok none) :
    o.next = d ∧ o.src = src ∧ Waits d src := by
  cases d with
  | parseCommand =>
    rcases decode_parseCommand_cases h with ⟨i, -, -, rfl⟩ | ⟨hnone, ⟨-, rfl⟩ | ⟨hlen, rfl⟩⟩
    · exact absurd hok acceptCommand_result_ne_wait
    · simp at hok
    · refine ⟨rfl, rfl, hlen, findCrlf_eq_none_iff.mpr fun i hat => ?_⟩
      have := hnone i hat
      have := hat.lt_length
      omega
  | parseJob remaining =>
    rcases remaining with _ | k
    · by_cases hlen : src.length < 2
      · rw [decode_parseJob_zero_short hlen] at h
        obtain rfl := Option.some.inj h
        exact ⟨rfl, rfl, hlen⟩
      obtain ⟨a, b, rest, rfl⟩ : ∃ a b rest, src = a :: b :: rest := by
        rcases src with _ | ⟨a, _ | ⟨b, rest⟩⟩ <;> simp_all
      by_cases hpair : a = cr ∧ b = lf
      · obtain ⟨rfl, rfl⟩ := hpair
        rw [decode_parseJob_zero_crlf] at h
        simp [← Option.some.inj h] at hok
      · rw [decode_parseJob_zero_other hpair] at h
        simp [← Option.some.inj h] at hok
    · rcases src with _ | ⟨a, src⟩
      · rw [decode_nil] at h
        obtain rfl := Option.some.inj h
        exact ⟨rfl, rfl, rfl⟩
      · rw [decode_parseJob_chunk k.succ_ne_zero (List.cons_ne_nil a src)] at h
        simp [← Option.some.inj h] at hok
  | discardToNewline =>
    rcases decode_discard_cases h with ⟨rfl, rfl⟩ | ⟨i, -, rfl⟩ | ⟨-, -, rfl⟩
    · exact ⟨rfl, rfl, rfl⟩
    all_goals simp at hok

/-- The step lemma: a decode loop that ends idle leaves a waiting reader. -/
theorem drain_waits (fuel : Nat) (r : Reader) (h : (drain parse fuel r).2.1 = .idle) :
    Waits (drain parse fuel r).2.2.decoder (drain parse fuel r).2.2.buffer := by
  induction fuel generalizing r with
  | zero => simp [drain] at h
  | succ fuel ih =>
    obtain ⟨⟨res, d', src'⟩, ho⟩ : ∃ o, decode parse r.decoder r.buffer = some o := decode_isSome
    rcases res with err | _ | e
    · simp [drain_succ_of_error ho] at h
    · obtain ⟨rfl, rfl, hw⟩ := decode_waits ho rfl
      simpa [drain_succ_of_idle ho] using hw
    · rw [drain_succ_of_event ho] at h ⊢
      exact ih _ h

/-- A read whose loop ends idle leaves a waiting reader. -/
theorem feed_waits {c : List UInt8} {es : List BeanstalkClientEvent} {r' : Reader}
    (h : feed parse r c = (es, .idle, r')) : Waits r'.decoder r'.buffer := by
  have := drain_waits _ _ (congrArg (·.2.1) h)
  rwa [show (drain parse _ _).2.2 = r' from congrArg (·.2.2) h] at this

/-- The run lemma: reads from a waiting reader that the loop took without error leave a
waiting reader. -/
theorem feedAll_waits (chunks : List (List UInt8)) (r : Reader) (hr : Waits r.decoder r.buffer)
    (h : (feedAll parse r chunks).2.1 = .idle) :
    Waits (feedAll parse r chunks).2.2.decoder (feedAll parse r chunks).2.2.buffer := by
  induction chunks generalizing r with
  | nil => exact hr
  | cons c rest ih =>
    rcases hfeed : feed parse r c with ⟨es, hh, r'⟩
    by_cases hidle : hh = .idle
    · subst hidle
      rw [feedAll_cons_of_idle hfeed] at h ⊢
      exact ih r' (feed_waits hfeed) h
    · rw [feedAll_cons_of_not_idle hfeed hidle] at h
      exact absurd h hidle

/-! ## The end of the stream -/

theorem decodeEof_of_waits (hw : Waits d src) :
    decodeEof parse d src = some (if src = [] then ⟨.ok none, d, src⟩
      else ⟨.error (.io "bytes remaining on stream"), d, src⟩) := by
  simp only [decodeEof, decode_of_waits hw, Option.map_some']

/-- On a waiting reader the stream ends at the first call of `decode_eof`, cleanly exactly when
nothing is buffered. -/
theorem drainEof_of_waits (hw : Waits r.decoder r.buffer) (fuel : Nat) :
    drainEof parse (fuel + 1) r =
      ([], if r.buffer = [] then .idle else .failed (.io "bytes remaining on stream"), r) := by
  rw [drainEof, decodeEof_of_waits hw]
  by_cases hb : r.buffer = []
  · rw [if_pos hb, if_pos hb]
  · rw [if_neg hb, if_neg hb]

/-- How a connection's stream ends.  After any reads that `FramedRead`'s loop took without
error, the client closing its end makes `decode_eof` end the stream at once: cleanly when
nothing is buffered, and with the I/O error "bytes remaining on stream" otherwise, which can
only be part of a command line (under 224 bytes, with no CR LF pair) or a single byte after a
put's payload.  In particular a client that closes in the middle of a payload, or while the
decoder is discarding, ends the stream with no error. -/
theorem feedAll_end_of_stream (chunks : List (List UInt8)) (es : List BeanstalkClientEvent)
    (r : Reader) (hfeed : feedAll parse ⟨.parseCommand, []⟩ chunks = (es, .idle, r))
    (fuel : Nat) :
    drainEof parse (fuel + 1) r =
        ([], if r.buffer = [] then .idle else .failed (.io "bytes remaining on stream"), r) ∧
      (r.buffer = [] ∨ r.decoder = .parseCommand ∧ r.buffer.length < 224 ∧
        findCrlf r.buffer = none ∨ r.decoder = .parseJob 0 ∧ r.buffer.length = 1) := by
  have hw := feedAll_waits chunks ⟨.parseCommand, []⟩ ⟨by decide, rfl⟩ (congrArg (·.2.1) hfeed)
  rw [hfeed] at hw
  exact ⟨drainEof_of_waits hw fuel, hw.buffer⟩

/-- A put of five bytes of which only the first arrives before the client closes: the command
and that byte are delivered, and the stream then ends with no error. -/
theorem feedAll_end_of_stream_inside_payload :
    feedAll (fun _ => .ok (.put 0 0 0 5)) ⟨.parseCommand, []⟩ [[112, 13, 10, 97]] =
        ([.command (.put 0 0 0 5), .putChunk [97]], .idle, ⟨.parseJob 4, []⟩) ∧
      drainEof (fun _ => .ok (.put 0 0 0 5)) 1 ⟨.parseJob 4, []⟩ =
        ([], .idle, ⟨.parseJob 4, []⟩) :=
  have hfeed : feedAll (fun _ => .ok (.put 0 0 0 5)) ⟨.parseCommand, []⟩ [[112, 13, 10, 97]] =
      ([.command (.put 0 0 0 5), .putChunk [97]], .idle, ⟨.parseJob 4, []⟩) := rfl
  ⟨hfeed, (feedAll_end_of_stream _ _ _ hfeed 0).1⟩

end Wire
end Beanstalk
