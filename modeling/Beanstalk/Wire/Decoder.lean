import Beanstalk.Wire.Protocol

/-!
# Decoder — the client-stream framer of `wire/decoder.rs`

`decode` is `<Decoder as codec::Decoder>::decode`: one call looks at the buffered bytes,
may remove some from the front, may change the framing state, and returns an event,
`Ok(None)` ("need more bytes") or an error.  The command parser of `wire/parser.rs` is not in
the repository; it enters as the parameter `parse` (`Command::try_from` on the line bytes).

A call that would panic (`split_to` or `advance` past the end, indexing past the end,
`usize` underflow) returns `none`; `decode_never_panics` shows that no call does, and that
each arm's operations stay within the bounds the source's "Panic safety" comments give.

The section after the definition gives one spec lemma per arm of the `match`; everything
later is proved from those and never unfolds `decode`.  The progress law with its one
exception (`decode_progress`) and the window law for ParseCommand
(`decode_parseCommand_window`) close the module.
-/

namespace Beanstalk
namespace Wire

/-- `decoder::Error`: a client error carries the response owed to the client. -/
inductive Error
  | client (response : Response)
  | io (message : String)
  deriving DecidableEq, Repr

/-- `decoder::Decoder`: the framing state. -/
inductive Decoder
  | parseCommand
  | parseJob (remaining : Nat)
  | discardToNewline
  deriving DecidableEq, Repr

/-- What a call of `decode` leaves behind: the value it returns, the state `*self` is left in,
and what remains of the buffer `src`. -/
structure Decoded where
  result : Except Error (Option BeanstalkClientEvent)
  next : Decoder
  src : List UInt8

/-- `if let Command::Put { n_bytes, .. } = cmd { *self = Self::ParseJob { remaining: n_bytes } }`. -/
def afterCommand : Command → Decoder
  | .put _ _ _ nBytes => .parseJob nBytes.toNat
  | _ => .parseCommand

section decode

variable (parse : List UInt8 → Except Error Command)

/-- The end of the ParseCommand arm, once the line `cmd` is cut out and its CR LF dropped:
`cmd.as_ref().try_into()?`, then `Ok(Some(Command(cmd)))`. -/
def acceptCommand (cmd rest : List UInt8) : Decoded :=
  match parse cmd with
  | .error e => ⟨.error e, .parseCommand, rest⟩
  | .ok cmd => ⟨.ok (some (.command cmd)), afterCommand cmd, rest⟩

/-- `Decoder::decode`. -/
def decode : Decoder → List UInt8 → Option Decoded
  | .parseCommand, src =>
    match findCrlf (src.take 224) with
    | some idx => do
      let (cmd, src) ← splitTo src idx
      let src ← advance src 2
      pure (acceptCommand parse cmd src)
    | none =>
      if 224 ≤ src.length then pure ⟨.error (.client .badFormat), .discardToNewline, src⟩
      else pure ⟨.ok none, .parseCommand, src⟩
  | .parseJob 0, src =>
    if src.length < 2 then pure ⟨.ok none, .parseJob 0, src⟩
    else do
      let first ← src[0]?
      let second ← src[1]?
      if first = cr ∧ second = lf then do
        let src ← advance src 2
        pure ⟨.ok (some .putEnd), .parseCommand, src⟩
      else pure ⟨.error (.client .expectedCRLF), .discardToNewline, src⟩
  | .parseJob remaining, src =>
    if src.length = 0 then pure ⟨.ok none, .parseJob remaining, src⟩
    else do
      let takeLen := min remaining src.length
      let remaining ← usizeSub remaining takeLen
      let (chunk, src) ← splitTo src takeLen
      pure ⟨.ok (some (.putChunk chunk)), .parseJob remaining, src⟩
  | .discardToNewline, src =>
    if src.length = 0 then pure ⟨.ok none, .discardToNewline, src⟩
    else
      match findCrlf src with
      | some idx => do
        let src ← advance src (idx + 2)
        pure ⟨.ok (some .discarded), .parseCommand, src⟩
      | none => do
        let src ← advance src (← usizeSub src.length 1)
        pure ⟨.ok (some .discarded), .discardToNewline, src⟩

end decode

/-! ## One spec lemma per arm -/

section spec

variable {parse : List UInt8 → Except Error Command} {d : Decoder} {src rest : List UInt8}
  {i remaining : Nat}

@[simp] theorem decode_nil : decode parse d [] = some ⟨.ok none, d, []⟩ := by
  cases d with
  | parseCommand => rfl
  | parseJob remaining => cases remaining <;> rfl
  | discardToNewline => rfl

/-- ParseCommand with a CR LF pair inside the 224-byte window: the line before it is parsed,
and the line with its CR LF is removed. -/
theorem decode_parseCommand_of_firstCrlf (hfirst : FirstCrlf src i) (hi : i ≤ 222) :
    decode parse .parseCommand src = some (acceptCommand parse (src.take i) (src.drop (i + 2))) := by
  have hwin : findCrlf (src.take 224) = some i := findCrlf_take_eq_some_iff.mpr ⟨hfirst, by omega⟩
  have hlen := hfirst.1.lt_length
  simp [decode, hwin, splitTo_of_le (by omega : i ≤ src.length),
    advance_of_le (by simp; omega : 2 ≤ (src.drop i).length), List.drop_drop, Nat.add_comm]

/-- ParseCommand with no CR LF pair inside the window. -/
theorem decode_parseCommand_of_noCrlf (hnone : ∀ i, CrlfAt src i → 222 < i) :
    decode parse .parseCommand src =
      some (if 224 ≤ src.length then ⟨.error (.client .badFormat), .discardToNewline, src⟩
        else ⟨.ok none, .parseCommand, src⟩) := by
  have hwin : findCrlf (src.take 224) = none :=
    findCrlf_take_eq_none_iff.mpr fun i h => by have := hnone i h; omega
  by_cases hlen : 224 ≤ src.length <;> simp [decode, hwin, hlen]

theorem decode_parseJob_zero_short (h : src.length < 2) :
    decode parse (.parseJob 0) src = some ⟨.ok none, .parseJob 0, src⟩ := by
  simp [decode, h]

theorem decode_parseJob_zero_crlf :
    decode parse (.parseJob 0) (cr :: lf :: rest) = some ⟨.ok (some .putEnd), .parseCommand, rest⟩ := by
  simp [decode]

theorem decode_parseJob_zero_other {a b : UInt8} (h : ¬(a = cr ∧ b = lf)) :
    decode parse (.parseJob 0) (a :: b :: rest) =
      some ⟨.error (.client .expectedCRLF), .discardToNewline, a :: b :: rest⟩ := by
  simp [decode, h]

/-- ParseJob with bytes still owed: as many buffered bytes as are owed become one chunk. -/
theorem decode_parseJob_chunk (hr : remaining ≠ 0) (hsrc : src ≠ []) :
    decode parse (.parseJob remaining) src =
      some ⟨.ok (some (.putChunk (src.take (min remaining src.length)))),
        .parseJob (remaining - min remaining src.length), src.drop (min remaining src.length)⟩ := by
  simp [decode, hr, hsrc, usizeSub_of_le (min_le_left remaining src.length),
    splitTo_of_le (min_le_right remaining src.length)]

theorem decode_discard_found (h : findCrlf src = some i) :
    decode parse .discardToNewline src =
      some ⟨.ok (some .discarded), .parseCommand, src.drop (i + 2)⟩ := by
  have hlen := findCrlf_add_two_le h
  simp [decode, h, show src.length ≠ 0 by omega, advance_of_le hlen]

theorem decode_discard_notFound (hsrc : src ≠ []) (h : findCrlf src = none) :
    decode parse .discardToNewline src =
      some ⟨.ok (some .discarded), .discardToNewline, src.drop (src.length - 1)⟩ := by
  have hlen : 0 < src.length := List.length_pos.mpr hsrc
  simp [decode, h, show src.length ≠ 0 by omega, usizeSub_of_le (show 1 ≤ src.length by omega)]

/-! ## Inversion: what one call can do in each state -/

theorem decode_parseCommand_cases {o : Decoded} (h : decode parse .parseCommand src = some o) :
    (∃ i, FirstCrlf src i ∧ i ≤ 222 ∧ o = acceptCommand parse (src.take i) (src.drop (i + 2))) ∨
      (∀ i, CrlfAt src i → 222 < i) ∧
        (224 ≤ src.length ∧ o = ⟨.error (.client .badFormat), .discardToNewline, src⟩ ∨
          src.length < 224 ∧ o = ⟨.ok none, .parseCommand, src⟩) := by
  cases hwin : findCrlf (src.take 224) with
  | some i =>
    obtain ⟨hfirst, hi⟩ := findCrlf_take_eq_some_iff.mp hwin
    rw [decode_parseCommand_of_firstCrlf hfirst (by omega)] at h
    exact .inl ⟨i, hfirst, by omega, (Option.some.inj h).symm⟩
  | none =>
    have hnone : ∀ i, CrlfAt src i → 222 < i := fun i hat => by
      have := findCrlf_take_eq_none_iff.mp hwin i hat; omega
    rw [decode_parseCommand_of_noCrlf hnone] at h
    refine .inr ⟨hnone, ?_⟩
    by_cases hlen : 224 ≤ src.length
    · exact .inl ⟨hlen, by simpa [hlen, eq_comm] using h⟩
    · exact .inr ⟨by omega, by simpa [hlen, eq_comm] using h⟩

theorem decode_parseJob_cases {o : Decoded} (h : decode parse (.parseJob remaining) src = some o) :
    o = ⟨.ok none, .parseJob remaining, src⟩ ∨
      (∃ p rest, src = p ++ rest ∧ p ≠ [] ∧ p.length ≤ remaining ∧
        o = ⟨.ok (some (.putChunk p)), .parseJob (remaining - p.length), rest⟩) ∨
      (∃ rest, remaining = 0 ∧ src = crlf ++ rest ∧ o = ⟨.ok (some .putEnd), .parseCommand, rest⟩) ∨
      remaining = 0 ∧ o = ⟨.error (.client .expectedCRLF), .discardToNewline, src⟩ := by
  rcases src with _ | ⟨a, src⟩
  · simp only [decode_nil, Option.some.injEq] at h
    exact .inl h.symm
  by_cases hr : remaining = 0
  · subst hr
    rcases src with _ | ⟨b, rest⟩
    · rw [decode_parseJob_zero_short (by simp)] at h
      exact .inl (Option.some.inj h).symm
    by_cases hpair : a = cr ∧ b = lf
    · obtain ⟨rfl, rfl⟩ := hpair
      rw [decode_parseJob_zero_crlf] at h
      exact .inr (.inr (.inl ⟨rest, rfl, rfl, (Option.some.inj h).symm⟩))
    · rw [decode_parseJob_zero_other hpair] at h
      exact .inr (.inr (.inr ⟨rfl, (Option.some.inj h).symm⟩))
  · rw [decode_parseJob_chunk hr (List.cons_ne_nil a src)] at h
    refine .inr (.inl ⟨_, _, (List.take_append_drop (min remaining (a :: src).length) _).symm,
      ?_, ?_, ?_⟩)
    · simp [hr]
    · simp [min_le_left]
    · rw [← Option.some.inj h]
      simp

theorem decode_discard_cases {o : Decoded} (h : decode parse .discardToNewline src = some o) :
    src = [] ∧ o = ⟨.ok none, .discardToNewline, []⟩ ∨
      (∃ i, findCrlf src = some i ∧ o = ⟨.ok (some .discarded), .parseCommand, src.drop (i + 2)⟩) ∨
      src ≠ [] ∧ findCrlf src = none ∧
        o = ⟨.ok (some .discarded), .discardToNewline, src.drop (src.length - 1)⟩ := by
  by_cases hsrc : src = []
  · subst hsrc
    simp only [decode_nil, Option.some.injEq] at h
    exact .inl ⟨rfl, h.symm⟩
  cases hfind : findCrlf src with
  | some i =>
    rw [decode_discard_found hfind] at h
    exact .inr (.inl ⟨i, rfl, (Option.some.inj h).symm⟩)
  | none =>
    rw [decode_discard_notFound hsrc hfind] at h
    exact .inr (.inr ⟨hsrc, rfl, (Option.some.inj h).symm⟩)

@[simp] theorem acceptCommand_src {cmd : List UInt8} : (acceptCommand parse cmd rest).src = rest := by
  unfold acceptCommand; split <;> rfl

/-- No call of `decode` panics. -/
theorem decode_isSome : ∃ o, decode parse d src = some o := by
  cases d with
  | parseCommand =>
    cases hwin : findCrlf (src.take 224) with
    | some i =>
      obtain ⟨hfirst, hi⟩ := findCrlf_take_eq_some_iff.mp hwin
      exact ⟨_, decode_parseCommand_of_firstCrlf hfirst (by omega)⟩
    | none =>
      exact ⟨_, decode_parseCommand_of_noCrlf fun i hat => by
        have := findCrlf_take_eq_none_iff.mp hwin i hat; omega⟩
  | parseJob remaining =>
    rcases src with _ | ⟨a, src⟩
    · exact ⟨_, decode_nil⟩
    by_cases hr : remaining = 0
    · subst hr
      rcases src with _ | ⟨b, rest⟩
      · exact ⟨_, decode_parseJob_zero_short (by simp)⟩
      by_cases hpair : a = cr ∧ b = lf
      · obtain ⟨rfl, rfl⟩ := hpair
        exact ⟨_, decode_parseJob_zero_crlf⟩
      · exact ⟨_, decode_parseJob_zero_other hpair⟩
    · exact ⟨_, decode_parseJob_chunk hr (List.cons_ne_nil a src)⟩
  | discardToNewline =>
    by_cases hsrc : src = []
    · subst hsrc; exact ⟨_, decode_nil⟩
    cases hfind : findCrlf src with
    | some i => exact ⟨_, decode_discard_found hfind⟩
    | none => exact ⟨_, decode_discard_notFound hsrc hfind⟩

/-- `decode` never panics, in any state and on any buffer, and each buffer operation of each arm
is in bounds where it is made: the CR LF pair ParseCommand finds among the first 224 bytes ends
inside the buffer; ParseJob{0} returns before it reads `src[0]` and `src[1]` unless both are
there, and with both it checks them for CR LF; ParseJob's `take_len = min(remaining, len)` is at
most both, and its arm cuts that many bytes into a chunk; DiscardToNewline advances by `idx + 2`
or by `len - 1`, both at most `len`. -/
theorem decode_never_panics :
    (∀ d src, ∃ o, decode parse d src = some o) ∧
    (∀ src i, findCrlf (src.take 224) = some i → i + 2 ≤ src.length ∧
      splitTo src i = some (src.take i, src.drop i) ∧ advance (src.drop i) 2 = some (src.drop (i + 2))) ∧
    (∀ src, src.length < 2 → decode parse (.parseJob 0) src = some ⟨.ok none, .parseJob 0, src⟩) ∧
    (∀ src : List UInt8, 2 ≤ src.length → src[0]?.isSome ∧ src[1]?.isSome ∧
      decode parse (.parseJob 0) src =
        some (if src.take 2 = crlf then ⟨.ok (some .putEnd), .parseCommand, src.drop 2⟩
          else ⟨.error (.client .expectedCRLF), .discardToNewline, src⟩)) ∧
    (∀ remaining (src : List UInt8), min remaining src.length ≤ remaining ∧
      min remaining src.length ≤ src.length ∧
      usizeSub remaining (min remaining src.length) = some (remaining - min remaining src.length) ∧
      splitTo src (min remaining src.length) =
        some (src.take (min remaining src.length), src.drop (min remaining src.length)) ∧
      (remaining ≠ 0 → src ≠ [] → decode parse (.parseJob remaining) src =
        some ⟨.ok (some (.putChunk (src.take (min remaining src.length)))),
          .parseJob (remaining - min remaining src.length), src.drop (min remaining src.length)⟩)) ∧
    (∀ src i, findCrlf src = some i →
      i + 2 ≤ src.length ∧ advance src (i + 2) = some (src.drop (i + 2))) ∧
    (∀ src : List UInt8, src ≠ [] → src.length - 1 ≤ src.length ∧
      usizeSub src.length 1 = some (src.length - 1) ∧
      advance src (src.length - 1) = some (src.drop (src.length - 1))) := by
  refine ⟨fun _ _ => decode_isSome, fun src i h => ?_, fun _ h => decode_parseJob_zero_short h,
    fun src h => ?_, fun remaining src => ?_, fun src i h => ?_, fun src h => ?_⟩
  · have hi : i + 2 ≤ src.length := (findCrlf_add_two_le h).trans (List.length_take_le' _ _)
    exact ⟨hi, splitTo_of_le (by omega), by rw [advance_of_le (by simp; omega), List.drop_drop]⟩
  · rcases src with _ | ⟨a, _ | ⟨b, rest⟩⟩
    · simp at h
    · simp at h
    refine ⟨by simp, by simp, ?_⟩
    by_cases hpair : a = cr ∧ b = lf
    · obtain ⟨rfl, rfl⟩ := hpair
      rw [decode_parseJob_zero_crlf]
      exact congrArg some (if_pos rfl).symm
    · rw [decode_parseJob_zero_other hpair, if_neg (by simpa [crlf] using hpair)]
  · exact ⟨min_le_left _ _, min_le_right _ _, usizeSub_of_le (min_le_left _ _),
      splitTo_of_le (min_le_right _ _), decode_parseJob_chunk⟩
  · exact ⟨findCrlf_add_two_le h, advance_of_le (findCrlf_add_two_le h)⟩
  · exact ⟨Nat.sub_le _ _, usizeSub_of_le (List.length_pos.mpr h), advance_of_le (Nat.sub_le _ _)⟩

theorem take_length_sub_append_drop {k : Nat} (h : k ≤ src.length) :
    src.take (src.length - (src.drop k).length) ++ src.drop k = src := by
  rw [List.length_drop, show src.length - (src.length - k) = k by omega, List.take_append_drop]

/-- `decode` only removes bytes from the front of the buffer. -/
theorem decode_removes_prefix {o : Decoded} (h : decode parse d src = some o) :
    src.take (src.length - o.src.length) ++ o.src = src := by
  have hkeep : src.take (src.length - src.length) ++ src = src := by simp
  cases d with
  | parseCommand =>
    rcases decode_parseCommand_cases h with ⟨i, hfirst, -, rfl⟩ | ⟨-, ⟨-, rfl⟩ | ⟨-, rfl⟩⟩
    · simpa using @take_length_sub_append_drop src (i + 2) hfirst.1.lt_length
    all_goals exact hkeep
  | parseJob remaining =>
    rcases decode_parseJob_cases h with rfl | ⟨p, rest, rfl, -, -, rfl⟩ | ⟨rest, -, rfl, rfl⟩ | ⟨-, rfl⟩
    · exact hkeep
    · simp
    · simpa [crlf] using @take_length_sub_append_drop (crlf ++ rest) 2 (by simp [crlf])
    · exact hkeep
  | discardToNewline =>
    rcases decode_discard_cases h with ⟨rfl, rfl⟩ | ⟨i, hfind, rfl⟩ | ⟨-, -, rfl⟩
    · rfl
    · exact take_length_sub_append_drop (findCrlf_add_two_le hfind)
    · exact take_length_sub_append_drop (by omega)

/-- Only ParseCommand emits commands, each parsed from the line before the buffer's first CR LF
pair, which the call removes together with the pair. -/
theorem decode_command_event {c : Command} (h : decode parse d src = some o)
    (hc : o.result = .ok (some (.command c))) :
    d = .parseCommand ∧ ∃ i, FirstCrlf src i ∧ parse (src.take i) = .ok c ∧
      o = ⟨.ok (some (.command c)), afterCommand c, src.drop (i + 2)⟩ := by
  cases d with
  | parseCommand =>
    refine ⟨rfl, ?_⟩
    rcases decode_parseCommand_cases h with ⟨i, hfirst, -, rfl⟩ | ⟨-, ⟨-, rfl⟩ | ⟨-, rfl⟩⟩
    · unfold acceptCommand at hc ⊢
      cases hp : parse (src.take i) with
      | error e => simp [hp] at hc
      | ok c' =>
        simp only [hp, Except.ok.injEq, Option.some.injEq, BeanstalkClientEvent.command.injEq] at hc
        subst hc
        exact ⟨i, hfirst, hp, by simp [hp]⟩
    all_goals simp at hc
  | parseJob remaining =>
    rcases decode_parseJob_cases h with rfl | ⟨p, rest, -, -, -, rfl⟩ | ⟨rest, -, -, rfl⟩ | ⟨-, rfl⟩
    all_goals simp at hc
  | discardToNewline =>
    rcases decode_discard_cases h with ⟨-, rfl⟩ | ⟨i, -, rfl⟩ | ⟨-, -, rfl⟩
    all_goals simp at hc

/-- Every event removes at least one byte from the buffer, with one exception: DiscardToNewline
holding a single byte and no CR LF keeps that byte, stays put, and still reports `Discarded`. -/
theorem decode_progress {o : Decoded} {e : BeanstalkClientEvent} (h : decode parse d src = some o)
    (he : o.result = .ok (some e)) :
    o.src.length < src.length ∨
      d = .discardToNewline ∧ src.length = 1 ∧ o = ⟨.ok (some .discarded), .discardToNewline, src⟩ := by
  cases d with
  | parseCommand =>
    rcases decode_parseCommand_cases h with ⟨i, hfirst, -, rfl⟩ | ⟨-, ⟨-, rfl⟩ | ⟨-, rfl⟩⟩
    · have := hfirst.1.lt_length
      left; simp; omega
    all_goals simp at he
  | parseJob remaining =>
    rcases decode_parseJob_cases h with rfl | ⟨p, rest, rfl, hp, -, rfl⟩ | ⟨rest, -, rfl, rfl⟩ | ⟨-, rfl⟩
    · simp at he
    · left; simpa using List.length_pos.mpr hp
    · left; simp [crlf]; omega
    · simp at he
  | discardToNewline =>
    rcases decode_discard_cases h with ⟨-, rfl⟩ | ⟨i, hfind, rfl⟩ | ⟨hsrc, -, rfl⟩
    · simp at he
    · have := findCrlf_add_two_le hfind
      left; simp; omega
    · have := List.length_pos.mpr hsrc
      by_cases hone : src.length = 1
      · right; simp [hone]
      · left; simp; omega

end spec

/-! ## The 224-byte window -/

section window

variable {parse : List UInt8 → Except Error Command} {b s : List UInt8} {k : Nat}

/-- At the start of a line, on the bytes `b` of the stream `s` received so far, when the line
ends at the first CR LF pair of `s`, at index `k ≤ 222`: the decoder waits until both bytes of
the pair have arrived, and then parses the line. -/
theorem decode_parseCommand_prefix_of_firstCrlf (hb : b <+: s) (hfirst : FirstCrlf s k)
    (hk : k ≤ 222) :
    decode parse .parseCommand b =
      if b.length < k + 2 then some ⟨.ok none, .parseCommand, b⟩
      else some (acceptCommand parse (s.take k) (b.drop (k + 2))) := by
  by_cases hlen : b.length < k + 2
  · rw [if_pos hlen, decode_parseCommand_of_noCrlf, if_neg (by omega)]
    intro i hat
    exact absurd (hat.of_prefix hb) (hfirst.2 i (by have := hat.lt_length; omega))
  · rw [if_neg hlen, decode_parseCommand_of_firstCrlf (hfirst.of_prefix hb (by omega)) hk]
    obtain ⟨t, rfl⟩ := hb
    rw [List.take_append_of_le_length (by omega)]

/-- At the start of a line whose first CR LF pair lies outside the window, the decoder waits
for 224 bytes and then fails with `BAD_FORMAT`. -/
theorem decode_parseCommand_prefix_of_noCrlf (hb : b <+: s) (hnone : ∀ i, CrlfAt s i → 222 < i) :
    decode parse .parseCommand b =
      some (if 224 ≤ b.length then ⟨.error (.client .badFormat), .discardToNewline, b⟩
        else ⟨.ok none, .parseCommand, b⟩) :=
  decode_parseCommand_of_noCrlf fun i hat => hnone i (hat.of_prefix hb)

/-- ParseCommand on any buffer: a CR LF pair starting at index `i ≤ 222` cuts the line `b[0..i]`
and removes `i + 2` bytes, and a put parsed from it moves to ParseJob with its byte count while
any other command stays in ParseCommand; without one, 224 buffered bytes are `BAD_FORMAT` and
fewer are `Ok(None)`. However the stream is split across reads, a line of at most 224 bytes with its
CR LF is parsed, and a longer one is rejected. -/
theorem decode_parseCommand_window :
    (∀ src i, FirstCrlf src i → i ≤ 222 →
      decode parse .parseCommand src =
        match parse (src.take i) with
        | .ok (.put pri delay ttr nBytes) =>
          some ⟨.ok (some (.command (.put pri delay ttr nBytes))), .parseJob nBytes.toNat,
            src.drop (i + 2)⟩
        | .ok c => some ⟨.ok (some (.command c)), .parseCommand, src.drop (i + 2)⟩
        | .error e => some ⟨.error e, .parseCommand, src.drop (i + 2)⟩) ∧
    (∀ src, (∀ i, CrlfAt src i → 222 < i) → 224 ≤ src.length →
      decode parse .parseCommand src =
        some ⟨.error (.client .badFormat), .discardToNewline, src⟩) ∧
    (∀ src, (∀ i, CrlfAt src i → 222 < i) → src.length < 224 →
      decode parse .parseCommand src = some ⟨.ok none, .parseCommand, src⟩) ∧
    (∀ line rest b, findCrlf line = none → line.length ≤ 222 → b <+: line ++ crlf ++ rest →
      decode parse .parseCommand b =
        if b.length < line.length + 2 then some ⟨.ok none, .parseCommand, b⟩
        else match parse line with
          | .ok (.put pri delay ttr nBytes) =>
            some ⟨.ok (some (.command (.put pri delay ttr nBytes))), .parseJob nBytes.toNat,
              b.drop (line.length + 2)⟩
          | .ok c => some ⟨.ok (some (.command c)), .parseCommand, b.drop (line.length + 2)⟩
          | .error e => some ⟨.error e, .parseCommand, b.drop (line.length + 2)⟩) ∧
    (∀ line rest b, findCrlf line = none → 223 ≤ line.length → b <+: line ++ crlf ++ rest →
      decode parse .parseCommand b =
        if b.length < 224 then some ⟨.ok none, .parseCommand, b⟩
        else some ⟨.error (.client .badFormat), .discardToNewline, b⟩) := by
  refine ⟨fun src i hfirst hi => ?_, fun src hnone hlen => ?_, fun src hnone hlen => ?_,
    fun line rest b hline hlen hb => ?_, fun line rest b hline hlen hb => ?_⟩
  · rw [decode_parseCommand_of_firstCrlf hfirst hi, acceptCommand]
    rcases parse (src.take i) with e | c
    · rfl
    · cases c <;> rfl
  · simp [decode_parseCommand_of_noCrlf hnone, hlen]
  · simp [decode_parseCommand_of_noCrlf hnone, Nat.not_le.mpr hlen]
  · have hfirst : FirstCrlf (line ++ crlf ++ rest) line.length := firstCrlf_line hline
    rw [decode_parseCommand_prefix_of_firstCrlf hb hfirst hlen, acceptCommand,
      show (line ++ crlf ++ rest).take line.length = line by simp [List.append_assoc]]
    split
    · rfl
    · rcases parse line with e | c
      · rfl
      · cases c <;> rfl
  · have hfirst : FirstCrlf (line ++ crlf ++ rest) line.length := firstCrlf_line hline
    rw [decode_parseCommand_prefix_of_noCrlf hb fun i hat => ?_]
    · by_cases hshort : b.length < 224
      · simp [hshort]
      · simp [hshort, Nat.le_of_not_lt hshort]
    · by_contra hi
      exact hfirst.2 i (by omega) hat

end window

end Wire
end Beanstalk
