import Beanstalk.Wire.Framing
import Beanstalk.Wire.EndOfStream

/-!
# ByteLevel — the client stream read one byte at a time

What the decoder is for, said without buffers or reads.  `byteStep` takes the client stream a
byte at a time: a command line ends at its first CR LF pair, which must come within 224 bytes;
a put's payload is as many bytes as its command announces, each a token of its own, and then a
CR LF; the first error ends the stream, and is BAD_FORMAT, EXPECTED_CRLF or the parser's
(`byteRun_error`).  `byteRun` runs it over a list of bytes.  It is written from the protocol's
framing, not from `decode`.

`FramedRead`'s loop around `decode` refines this machine on every input.  From a fresh
connection, however the stream is split into reads, the events it yields spell out the tokens
`byteRun` yields on the bytes read; it stops at an error exactly when `byteRun` does, with the
same error; and otherwise it waits in the state `byteRun` ends in (`feedAll_refines_byteRun`).
So tokens, error and final state depend on the bytes alone, never on where the reads cut them
(`feedAll_chunking_invariant`).

The proof takes one `decode` call at a time, one lemma per arm (`CallAgrees`,
`decode_callAgrees`), then a decode loop (`drain_loopAgrees`) and a sequence of reads
(`feedAll_loopAgrees`); `byteRun_append_of_ok` cuts the machine's run where a call cuts the
buffer.
-/

namespace Beanstalk
namespace Wire

/-- Where a reader of the client stream stands between two bytes: inside a command line, with
its bytes so far, or inside a put's body, with `remaining` payload bytes still owed and the
bytes of its closing CR LF so far. -/
inductive ByteState
  | line (acc : List UInt8)
  | body (remaining : Nat) (acc : List UInt8)
  deriving DecidableEq, Repr

/-- The bytes the machine holds that complete no token yet: part of a line, or part of a
payload's closing CR LF. -/
def ByteState.pending : ByteState → List UInt8
  | .line acc => acc
  | .body _ acc => acc

/-- The state a command line leaves the reader in: the body of a put of `n_bytes`, or the next
line. -/
def ByteState.afterLine : Command → ByteState
  | .put _ _ _ nBytes => .body nBytes.toNat []
  | _ => .line []

section machine

variable (parse : List UInt8 → Except Error Command)

/-- One byte: the tokens it completes, and the next state or the error that ends the stream. -/
def byteStep : ByteState → UInt8 → List Token × Except Error ByteState
  | .line acc, x =>
    if x = lf ∧ acc.getLast? = some cr then
      match parse acc.dropLast with
      | .ok c => ([.command c], .ok (ByteState.afterLine c))
      | .error e => ([], .error e)
    else if 224 ≤ acc.length + 1 then ([], .error (.client .badFormat))
    else ([], .ok (.line (acc ++ [x])))
  | .body (remaining + 1) acc, x => ([.byte x], .ok (.body remaining acc))
  | .body 0 [], x => ([], .ok (.body 0 [x]))
  | .body 0 (a :: _), x =>
    if a = cr ∧ x = lf then ([.putEnd], .ok (.line [])) else ([], .error (.client .expectedCRLF))

/-- The machine over a list of bytes, up to the first error. -/
def byteRun : ByteState → List UInt8 → List Token × Except Error ByteState
  | s, [] => ([], .ok s)
  | s, x :: xs =>
    match byteStep parse s x with
    | (ts, .ok s') => (ts ++ (byteRun s' xs).1, (byteRun s' xs).2)
    | (ts, .error e) => (ts, .error e)

end machine

/-- The machine's state that a reader stands for.  DiscardToNewline stands for none: the
machine stops at the error that leads there. -/
def Reader.byteState? : Reader → Option ByteState
  | ⟨.parseCommand, buf⟩ => some (.line buf)
  | ⟨.parseJob remaining, buf⟩ => some (.body remaining buf)
  | ⟨.discardToNewline, _⟩ => none

theorem Reader.eq_of_byteState? {r r' : Reader} {s : ByteState} (h : r.byteState? = some s)
    (h' : r'.byteState? = some s) : r = r' := by
  rcases r with ⟨_ | _ | _, buf⟩ <;> rcases r' with ⟨_ | _ | _, buf'⟩ <;>
    simp only [Reader.byteState?, Option.some.injEq, reduceCtorEq] at h h' <;> subst h <;>
    cases h' <;> rfl

/-- A reader's buffer is what the state it stands for holds pending. -/
theorem Reader.buffer_eq_pending {r : Reader} {s : ByteState} (h : r.byteState? = some s) :
    r.buffer = s.pending := by
  rcases r with ⟨_ | _ | _, buf⟩ <;>
    simp only [Reader.byteState?, Option.some.injEq, reduceCtorEq] at h <;> subst h <;> rfl

variable {parse : List UInt8 → Except Error Command} {s s' : ByteState} {l₁ l₂ : List UInt8}
  {ts : List Token}

/-! ## Runs of the byte machine -/

theorem byteRun_append_of_ok (h : byteRun parse s l₁ = (ts, .ok s')) :
    byteRun parse s (l₁ ++ l₂) = (ts ++ (byteRun parse s' l₂).1, (byteRun parse s' l₂).2) := by
  induction l₁ generalizing s ts with
  | nil =>
    obtain ⟨rfl, rfl⟩ : [] = ts ∧ s = s' := by simpa [byteRun] using h
    rfl
  | cons x l₁ ih =>
    rcases hx : byteStep parse s x with ⟨ts₁, e | s₁⟩
    · simp [byteRun, hx] at h
    · rcases hr : byteRun parse s₁ l₁ with ⟨ts₂, r⟩
      simp only [byteRun, hx, hr, Prod.mk.injEq] at h
      obtain ⟨rfl, rfl⟩ := h
      rw [List.cons_append]
      simp only [byteRun, hx]
      rw [ih hr, List.append_assoc]

theorem byteRun_append_of_error {e : Error} (h : byteRun parse s l₁ = (ts, .error e)) :
    byteRun parse s (l₁ ++ l₂) = (ts, .error e) := by
  induction l₁ generalizing s ts with
  | nil => simp [byteRun] at h
  | cons x l₁ ih =>
    rcases hx : byteStep parse s x with ⟨ts₁, e' | s₁⟩
    · simp only [byteRun, hx] at h
      simpa [byteRun, hx] using h
    · rcases hr : byteRun parse s₁ l₁ with ⟨ts₂, r⟩
      simp only [byteRun, hx, hr, Prod.mk.injEq] at h
      obtain ⟨rfl, rfl⟩ := h
      rw [List.cons_append]
      simp only [byteRun, hx]
      rw [ih hr]

/-- Bytes that complete no line: no CR LF pair among the line's bytes and fewer than 224. -/
theorem byteRun_line (acc l : List UInt8) (hfind : findCrlf (acc ++ l) = none)
    (hlen : (acc ++ l).length < 224) : byteRun parse (.line acc) l = ([], .ok (.line (acc ++ l))) := by
  induction l generalizing acc with
  | nil => simp [byteRun]
  | cons x l ih =>
    have hnot : ¬(x = lf ∧ acc.getLast? = some cr) := by
      rintro ⟨rfl, hlast⟩
      obtain ⟨ys, rfl⟩ := List.getLast?_eq_some_iff.mp hlast
      refine findCrlf_eq_none_iff.mp hfind ys.length ⟨?_, ?_⟩
      · rw [List.append_assoc, List.singleton_append, List.getElem?_append_right le_rfl, Nat.sub_self]
        rfl
      · rw [List.append_assoc, List.singleton_append, List.getElem?_append_right (Nat.le_succ _)]
        simp
    have hstep : byteStep parse (.line acc) x = ([], .ok (.line (acc ++ [x]))) := by
      rw [byteStep, if_neg hnot, if_neg (by simp at hlen; omega)]
    simp only [byteRun, hstep, ih (acc ++ [x]) (by simpa using hfind) (by simpa using hlen),
      List.append_assoc, List.singleton_append, List.nil_append]

/-- A line, then the CR LF pair that ends it: the parser's verdict on the line. -/
theorem byteRun_line_crlf (line : List UInt8) (hfind : findCrlf (line ++ [cr]) = none)
    (hlen : line.length ≤ 222) :
    byteRun parse (.line []) (line ++ crlf) =
      match parse line with
      | .ok c => ([.command c], .ok (ByteState.afterLine c))
      | .error e => ([], .error e) := by
  have hline := @byteRun_line parse [] (line ++ [cr]) hfind (by simp; omega)
  rw [show line ++ crlf = line ++ [cr] ++ [lf] from by simp [crlf]]
  rw [List.nil_append] at hline
  rw [byteRun_append_of_ok hline]
  have hstep : byteRun parse (.line (line ++ [cr])) [lf] =
      match parse line with
      | .ok c => ([.command c], .ok (ByteState.afterLine c))
      | .error e => ([], .error e) := by
    simp only [byteRun, byteStep, List.getLast?_concat, List.dropLast_concat, and_self, if_true]
    split <;> simp_all
  rw [hstep]
  split <;> rfl

/-- At a line start, the bytes up to the stream's first CR LF pair, when it lies within the
window: the parser's verdict on the line. -/
theorem byteRun_take_firstCrlf {B : List UInt8} {i : Nat} (hfirst : FirstCrlf B i) (hi : i ≤ 222) :
    byteRun parse (.line []) (B.take (i + 2)) =
      match parse (B.take i) with
      | .ok c => ([.command c], .ok (ByteState.afterLine c))
      | .error e => ([], .error e) := by
  have htake := hfirst.1.take_add_two
  have hpre : B.take i ++ [cr] <+: B := ⟨lf :: B.drop (i + 2), by
    simpa [crlf] using (congrArg (· ++ B.drop (i + 2)) htake).symm.trans (List.take_append_drop _ _)⟩
  have hfind : findCrlf (B.take i ++ [cr]) = none := findCrlf_eq_none_iff.mpr fun j hj => by
    have hj' := hj.lt_length
    simp only [List.length_append, List.length_take, List.length_singleton] at hj'
    exact hfirst.2 j (by omega) (hj.of_prefix hpre)
  rw [htake]
  exact byteRun_line_crlf (B.take i) hfind (by simp; omega)

/-- At a line start, 224 bytes with no CR LF pair ending within them: the machine stops at the
224th with `BAD_FORMAT`. -/
theorem byteRun_line_overlong {B : List UInt8} (hnone : ∀ j, CrlfAt B j → 222 < j)
    (hlen : 224 ≤ B.length) : byteRun parse (.line []) B = ([], .error (.client .badFormat)) := by
  have hfind : findCrlf (B.take 223) = none := findCrlf_eq_none_iff.mpr fun j hj => by
    have := hnone j (crlfAt_take.mp hj).1
    have := (crlfAt_take.mp hj).2
    omega
  obtain ⟨x, rest, hx⟩ := List.exists_cons_of_ne_nil (by simp; omega : B.drop 223 ≠ [])
  have hline := @byteRun_line parse [] (B.take 223) hfind (by simp)
  have hnot : ¬(x = lf ∧ (B.take 223).getLast? = some cr) := by
    rintro ⟨rfl, hlast⟩
    have hcr : B[222]? = some cr := by
      rw [List.getLast?_take, if_neg (by decide), List.getElem?_eq_getElem (by omega)] at hlast
      rw [List.getElem?_eq_getElem (by omega)]
      simpa using hlast
    have hlf : B[223]? = some lf := by
      have h0 : (B.drop 223)[0]? = some lf := by simp [hx]
      rwa [List.getElem?_drop] at h0
    exact absurd (hnone 222 ⟨hcr, hlf⟩) (lt_irrefl _)
  have hstep : byteRun parse (.line (B.take 223)) (x :: rest) = ([], .error (.client .badFormat)) := by
    simp only [byteRun, byteStep, if_neg hnot, List.length_take, List.nil_append]
    rw [if_pos (by simp; omega)]
  rw [← List.take_append_drop 223 B, hx, byteRun_append_of_ok (by simpa using hline), hstep]
  rfl

/-- One byte stops the machine only on BAD_FORMAT, EXPECTED_CRLF, or an error the parser
returned for a line. -/
theorem byteStep_error {x : UInt8} {e : Error} (h : (byteStep parse s x).2 = .error e) :
    e = .client .badFormat ∨ e = .client .expectedCRLF ∨ ∃ line, parse line = .error e := by
  rcases s with acc | ⟨_ | remaining, _ | ⟨a, acc⟩⟩
  · simp only [byteStep] at h
    split_ifs at h
    · rcases hp : parse acc.dropLast with e' | c <;>
        simp only [hp, Except.error.injEq, reduceCtorEq] at h
      exact .inr (.inr ⟨_, h ▸ hp⟩)
    · exact .inl (Except.error.inj h).symm
  · cases h
  · simp only [byteStep] at h
    split_ifs at h
    exact .inr (.inl (Except.error.inj h).symm)
  · cases h
  · cases h

/-- So does a run: the errors it stops on are those of one step. -/
theorem byteRun_error {e : Error} (h : (byteRun parse s l₁).2 = .error e) :
    e = .client .badFormat ∨ e = .client .expectedCRLF ∨ ∃ line, parse line = .error e := by
  induction l₁ generalizing s with
  | nil => cases h
  | cons x l ih =>
    rcases hx : byteStep parse s x with ⟨ts, e' | s'⟩
    · simp only [byteRun, hx, Except.error.injEq] at h
      exact h ▸ byteStep_error (by rw [hx])
    · simp only [byteRun, hx] at h
      exact ih h

/-- A put's payload, as far as it is owed: a byte token for each byte. -/
theorem byteRun_body (p : List UInt8) (n : Nat) (hp : p.length ≤ n) :
    byteRun parse (.body n []) p = (p.map .byte, .ok (.body (n - p.length) [])) := by
  induction p generalizing n with
  | nil => simp [byteRun]
  | cons x p ih =>
    obtain ⟨m, rfl⟩ := Nat.exists_eq_succ_of_ne_zero (by simp at hp; omega : n ≠ 0)
    simp only [byteRun, byteStep, ih m (by simp at hp; omega), List.map_cons, List.singleton_append,
      List.length_cons, Nat.succ_sub_succ]

/-! ## One call -/

/-- What one call's result `o` on the buffer `B` says of the byte machine started in `s₀`, the
state of the decoder with nothing buffered: a wait has read every buffered byte and completed
no token; an event is a prefix of the buffer that the machine turns into the event's tokens;
an error is where the machine stops, with the same error and no token. -/
def CallAgrees (parse : List UInt8 → Except Error Command) (s₀ : ByteState) (B : List UInt8)
    (o : Decoded) : Prop :=
  match o.result with
  | .ok none => ∃ s, Reader.byteState? ⟨o.next, o.src⟩ = some s ∧ byteRun parse s₀ B = ([], .ok s)
  | .ok (some e) => ∃ p s₁, B = p ++ o.src ∧ Reader.byteState? ⟨o.next, []⟩ = some s₁ ∧
      byteRun parse s₀ p = (e.tokens, .ok s₁)
  | .error e => byteRun parse s₀ B = ([], .error e)

theorem byteState?_afterCommand (c : Command) :
    Reader.byteState? ⟨afterCommand c, []⟩ = some (ByteState.afterLine c) := by
  cases c <;> rfl

variable {B : List UInt8} {o : Decoded}

theorem callAgrees_parseCommand (h : decode parse .parseCommand B = some o) :
    CallAgrees parse (.line []) B o := by
  rcases decode_parseCommand_cases h with ⟨i, hfirst, hi, rfl⟩ | ⟨hnone, ⟨hlen, rfl⟩ | ⟨hlen, rfl⟩⟩
  · have hrun := @byteRun_take_firstCrlf parse B i hfirst hi
    unfold acceptCommand
    cases hp : parse (B.take i) with
    | ok c =>
      rw [hp] at hrun
      exact ⟨B.take (i + 2), _, (List.take_append_drop _ _).symm, byteState?_afterCommand c, hrun⟩
    | error e =>
      rw [hp] at hrun
      show byteRun parse (.line []) B = ([], .error e)
      rw [← List.take_append_drop (i + 2) B]
      exact byteRun_append_of_error hrun
  · exact byteRun_line_overlong hnone hlen
  · have hfind : findCrlf B = none := findCrlf_eq_none_iff.mpr fun j hj => by
      have := hnone j hj
      have := hj.lt_length
      omega
    exact ⟨_, rfl, by simpa using @byteRun_line parse [] B (by simpa using hfind) (by simpa using hlen)⟩

theorem callAgrees_parseJob_zero (h : decode parse (.parseJob 0) B = some o) :
    CallAgrees parse (.body 0 []) B o := by
  rcases B with _ | ⟨a, _ | ⟨b, rest⟩⟩
  · rw [decode_nil] at h
    obtain rfl := Option.some.inj h
    exact ⟨_, rfl, rfl⟩
  · rw [decode_parseJob_zero_short (by simp)] at h
    obtain rfl := Option.some.inj h
    exact ⟨_, rfl, rfl⟩
  · by_cases hpair : a = cr ∧ b = lf
    · obtain ⟨rfl, rfl⟩ := hpair
      rw [decode_parseJob_zero_crlf] at h
      obtain rfl := Option.some.inj h
      exact ⟨crlf, .line [], rfl, rfl, by simp [byteRun, byteStep, crlf, BeanstalkClientEvent.tokens]⟩
    · rw [decode_parseJob_zero_other hpair] at h
      obtain rfl := Option.some.inj h
      show byteRun parse (.body 0 []) (a :: b :: rest) = ([], .error (.client .expectedCRLF))
      simp [byteRun, byteStep, hpair]

theorem callAgrees_parseJob_succ {k : Nat} (h : decode parse (.parseJob (k + 1)) B = some o) :
    CallAgrees parse (.body (k + 1) []) B o := by
  rcases B with _ | ⟨a, B⟩
  · rw [decode_nil] at h
    obtain rfl := Option.some.inj h
    exact ⟨_, rfl, rfl⟩
  · rw [decode_parseJob_chunk k.succ_ne_zero (List.cons_ne_nil a B)] at h
    obtain rfl := Option.some.inj h
    have hlen : ((a :: B).take (min (k + 1) (a :: B).length)).length = min (k + 1) (a :: B).length :=
      List.length_take_of_le (min_le_right _ _)
    refine ⟨_, _, (List.take_append_drop _ _).symm, rfl, ?_⟩
    rw [byteRun_body _ _ (by rw [hlen]; exact min_le_left _ _), hlen]
    rfl

/-- The step lemma: every call of `decode` outside DiscardToNewline agrees with the byte
machine. -/
theorem decode_callAgrees {d : Decoder} {s₀ : ByteState}
    (hs : Reader.byteState? ⟨d, []⟩ = some s₀) (h : decode parse d B = some o) :
    CallAgrees parse s₀ B o := by
  rcases d with _ | ⟨_ | k⟩ | _ <;> simp only [Reader.byteState?, Option.some.injEq,
    reduceCtorEq] at hs <;> subst hs
  exacts [callAgrees_parseCommand h, callAgrees_parseJob_zero h, callAgrees_parseJob_succ h]

/-! ## The decode loop and the reads -/

/-- A loop's outcome against a run of the byte machine: the events spell out the machine's
tokens, and the loop is idle in the state the machine ends in, or failed with the error the
machine stops at. -/
def LoopAgrees (res : List BeanstalkClientEvent × Halt × Reader)
    (run : List Token × Except Error ByteState) : Prop :=
  (res.1.map BeanstalkClientEvent.tokens).flatten = run.1 ∧
    (res.2.1 = .idle ∧ (∃ s, run.2 = .ok s ∧ res.2.2.byteState? = some s) ∨
      ∃ e, res.2.1 = .failed e ∧ run.2 = .error e)

theorem LoopAgrees.prepend {es : List BeanstalkClientEvent} {res : List BeanstalkClientEvent × Halt × Reader}
    {run : List Token × Except Error ByteState} (htok : (es.map BeanstalkClientEvent.tokens).flatten = ts)
    (h : LoopAgrees res run) : LoopAgrees (es ++ res.1, res.2) (ts ++ run.1, run.2) :=
  ⟨by simp [← htok, h.1], h.2⟩

/-- The decode loop, with more calls than buffered bytes, agrees with the byte machine run over
the buffer from the decoder's state. -/
theorem drain_loopAgrees (fuel : Nat) (r : Reader) {s₀ : ByteState}
    (hs : Reader.byteState? ⟨r.decoder, []⟩ = some s₀) (hfuel : r.buffer.length < fuel) :
    LoopAgrees (drain parse fuel r) (byteRun parse s₀ r.buffer) := by
  induction fuel generalizing r s₀ with
  | zero => exact absurd hfuel (Nat.not_lt_zero _)
  | succ fuel ih =>
    obtain ⟨⟨res, d', src'⟩, ho⟩ : ∃ o, decode parse r.decoder r.buffer = some o := decode_isSome
    have hagree := decode_callAgrees hs ho
    rcases res with e | _ | ev
    · have herr : byteRun parse s₀ r.buffer = ([], .error e) := hagree
      rw [drain_succ_of_error ho, herr]
      exact ⟨rfl, .inr ⟨e, rfl, rfl⟩⟩
    · obtain ⟨s, hs', hrun⟩ := hagree
      rw [drain_succ_of_idle ho, hrun]
      exact ⟨rfl, .inl ⟨rfl, s, rfl, hs'⟩⟩
    · obtain ⟨p, s₁, hbuf, hs₁, hrun⟩ := hagree
      have hd : r.decoder ≠ .discardToNewline := fun hd => by simp [hd, Reader.byteState?] at hs
      have hlt : src'.length < r.buffer.length := by
        rcases decode_progress ho rfl with hlt | ⟨hdisc, -⟩
        exacts [hlt, absurd hdisc hd]
      rw [drain_succ_of_event ho, hbuf, byteRun_append_of_ok hrun]
      exact LoopAgrees.prepend (show ([ev].map BeanstalkClientEvent.tokens).flatten = ev.tokens by simp)
        (ih ⟨d', src'⟩ hs₁ (by dsimp only; omega))

theorem byteState?_nil_of_byteState? {r : Reader} {s : ByteState} (hs : r.byteState? = some s) :
    ∃ s₀, Reader.byteState? ⟨r.decoder, []⟩ = some s₀ := by
  rcases r with ⟨_ | _ | _, buf⟩
  exacts [⟨_, rfl⟩, ⟨_, rfl⟩, by simp [Reader.byteState?] at hs]

/-- One read on a waiting reader agrees with the byte machine run over the bytes read, from the
state the reader stands for. -/
theorem feed_loopAgrees (r : Reader) {s : ByteState} (hw : Waits r.decoder r.buffer)
    (hs : r.byteState? = some s) (c : List UInt8) :
    LoopAgrees (feed parse r c) (byteRun parse s c) := by
  obtain ⟨s₀, hs₀⟩ := byteState?_nil_of_byteState? hs
  obtain ⟨s', hs', hbuf⟩ : ∃ s', Reader.byteState? ⟨r.decoder, r.buffer⟩ = some s' ∧
      byteRun parse s₀ r.buffer = ([], .ok s') := decode_callAgrees hs₀ (decode_of_waits hw)
  obtain rfl : s' = s := Option.some.inj (hs'.symm.trans hs)
  have h := @drain_loopAgrees parse _ ⟨r.decoder, r.buffer ++ c⟩ s₀ hs₀ (Nat.lt_succ_self _)
  rwa [byteRun_append_of_ok hbuf, List.nil_append] at h

/-- The run lemma: reads on a waiting reader agree with the byte machine run over all the bytes
read. -/
theorem feedAll_loopAgrees (chunks : List (List UInt8)) (r : Reader) {s : ByteState}
    (hw : Waits r.decoder r.buffer) (hs : r.byteState? = some s) :
    LoopAgrees (feedAll parse r chunks) (byteRun parse s chunks.flatten) := by
  induction chunks generalizing r s with
  | nil => exact ⟨rfl, .inl ⟨rfl, s, rfl, hs⟩⟩
  | cons c rest ih =>
    have hfeed := @feed_loopAgrees parse r s hw hs c
    rcases hf : feed parse r c with ⟨es, h, r'⟩
    rw [hf] at hfeed
    obtain ⟨htok, ⟨rfl, s', hrun, hs'⟩ | ⟨e, rfl, hrun⟩⟩ := hfeed
    · rw [feedAll_cons_of_idle hf, List.flatten_cons,
        byteRun_append_of_ok (show byteRun parse s c = (_, .ok s') from Prod.ext rfl hrun)]
      exact LoopAgrees.prepend htok (ih r' (feed_waits hf) hs')
    · rw [feedAll_cons_of_not_idle hf (by simp), List.flatten_cons,
        byteRun_append_of_error (show byteRun parse s c = (_, .error e) from Prod.ext rfl hrun)]
      exact ⟨htok, .inr ⟨e, rfl, rfl⟩⟩

/-! ## The connection's read side -/

/-- `FramedRead`'s loop around `decode` refines the byte-level reader of the client stream.
From a fresh connection, whatever the client sends and however it is split into reads, the
events spell out exactly the tokens the byte machine produces on the bytes read — commands,
payload bytes, ends of puts — and the loop either waits in the state the machine ends in or
has stopped with the error the machine stops at. -/
theorem feedAll_refines_byteRun (chunks : List (List UInt8)) :
    ((feedAll parse ⟨.parseCommand, []⟩ chunks).1.map BeanstalkClientEvent.tokens).flatten =
        (byteRun parse (.line []) chunks.flatten).1 ∧
      ((feedAll parse ⟨.parseCommand, []⟩ chunks).2.1 = .idle ∧
          (∃ s, (byteRun parse (.line []) chunks.flatten).2 = .ok s ∧
            (feedAll parse ⟨.parseCommand, []⟩ chunks).2.2.byteState? = some s) ∨
        ∃ e, (feedAll parse ⟨.parseCommand, []⟩ chunks).2.1 = .failed e ∧
          (byteRun parse (.line []) chunks.flatten).2 = .error e) :=
  feedAll_loopAgrees chunks ⟨.parseCommand, []⟩ ⟨by decide, rfl⟩ rfl

/-- The read side of a connection depends on the bytes alone.  Two splittings of the same bytes
into reads give events that spell out the same tokens, stop in the same way (with the same
error, if any), and, when no error occurred, leave the decoder in the same state with the same
buffer: only the cutting of payloads into chunks can differ. -/
theorem feedAll_chunking_invariant (chunks chunks' : List (List UInt8))
    (hbytes : chunks.flatten = chunks'.flatten) :
    ((feedAll parse ⟨.parseCommand, []⟩ chunks).1.map BeanstalkClientEvent.tokens).flatten =
        ((feedAll parse ⟨.parseCommand, []⟩ chunks').1.map BeanstalkClientEvent.tokens).flatten ∧
      (feedAll parse ⟨.parseCommand, []⟩ chunks).2.1 =
        (feedAll parse ⟨.parseCommand, []⟩ chunks').2.1 ∧
      ((feedAll parse ⟨.parseCommand, []⟩ chunks).2.1 = .idle →
        (feedAll parse ⟨.parseCommand, []⟩ chunks).2.2 =
          (feedAll parse ⟨.parseCommand, []⟩ chunks').2.2) := by
  obtain ⟨htok, hend⟩ := @feedAll_loopAgrees parse chunks ⟨.parseCommand, []⟩ _ ⟨by decide, rfl⟩ rfl
  obtain ⟨htok', hend'⟩ :=
    @feedAll_loopAgrees parse chunks' ⟨.parseCommand, []⟩ _ ⟨by decide, rfl⟩ rfl
  rw [← hbytes] at htok' hend'
  refine ⟨htok.trans htok'.symm, ?_⟩
  rcases hend with ⟨hidle, s, hrun, hs⟩ | ⟨e, hfail, hrun⟩ <;>
    rcases hend' with ⟨hidle', s', hrun', hs'⟩ | ⟨e', hfail', hrun'⟩ <;>
    rw [hrun] at hrun' <;> cases hrun'
  · exact ⟨hidle.trans hidle'.symm, fun _ => Reader.eq_of_byteState? hs hs'⟩
  · exact ⟨hfail.trans hfail'.symm, fun h => by simp [hfail] at h⟩

/-- A parser that reads every line as a put of two bytes. -/
def parsePutTwo (_ : List UInt8) : Except Error Command := .ok (.put 0 0 0 2)

/-- A put split inside its line's CR LF, and the same put split inside its payload. -/
theorem feedAll_chunking_invariant_put :
    [[112, 13], [10, 97, 98, 13, 10]].flatten = [[112, 13, 10, 97], [98, 13, 10]].flatten ∧
    ((feedAll parsePutTwo ⟨.parseCommand, []⟩ [[112, 13], [10, 97, 98, 13, 10]]).1.map
          BeanstalkClientEvent.tokens).flatten =
        ((feedAll parsePutTwo ⟨.parseCommand, []⟩ [[112, 13, 10, 97], [98, 13, 10]]).1.map
          BeanstalkClientEvent.tokens).flatten ∧
      (feedAll parsePutTwo ⟨.parseCommand, []⟩ [[112, 13], [10, 97, 98, 13, 10]]).2.1 =
        (feedAll parsePutTwo ⟨.parseCommand, []⟩ [[112, 13, 10, 97], [98, 13, 10]]).2.1 ∧
      ((feedAll parsePutTwo ⟨.parseCommand, []⟩ [[112, 13], [10, 97, 98, 13, 10]]).2.1 = .idle →
        (feedAll parsePutTwo ⟨.parseCommand, []⟩ [[112, 13], [10, 97, 98, 13, 10]]).2.2 =
          (feedAll parsePutTwo ⟨.parseCommand, []⟩ [[112, 13, 10, 97], [98, 13, 10]]).2.2) :=
  ⟨rfl, feedAll_chunking_invariant _ _ rfl⟩

end Wire
end Beanstalk
