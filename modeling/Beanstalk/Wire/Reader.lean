import Beanstalk.Wire.Decoder

/-!
# Reader — the read side of a connection

`FramedRead` owns a `Decoder` and its buffer.  Bytes arrive in reads of any size; `decode` is
called on the buffer.  Two drivers are modelled:

* `run` takes any interleaving of reads and `decode` calls and records what the caller sees:
  each read, and for each call its result, the bytes it removed and the state it left.
  Results proved over `run` hold for every caller, however it schedules its calls.
* `drain`, `feed` and `feedAll` are `FramedRead`'s own loop: after each read, call `decode`
  while it yields events, and stop at `Ok(None)` or an error.  The loop has no bound in Rust;
  here it is given one call per buffered byte and one more, which is enough wherever every
  event removes a byte (`decode_progress`).  Where an event removes nothing the Rust loop
  never ends, and `framedRead_spins_on_lone_byte` shows it.

The section on puts proves the payload accounting of ParseJob over every run
(`run_put_accounting`); the section on recovery proves that DiscardToNewline
re-synchronises at the first CR LF (`run_discard_resyncs`).
-/

namespace Beanstalk
namespace Wire

/-- The decoder together with the bytes buffered for it. -/
structure Reader where
  decoder : Decoder
  buffer : List UInt8

/-- What the caller of the codec does next. -/
inductive Action
  | read (bytes : List UInt8)
  | decode

/-- What the caller observes: a read, or a call of `decode` with its result, the bytes it
removed from the buffer and the state it left the decoder in, or a panic. -/
inductive Entry
  | read (bytes : List UInt8)
  | call (result : Except Error (Option BeanstalkClientEvent)) (taken : List UInt8) (next : Decoder)
  | panic

/-- The bytes an action reads. -/
def Action.bytes : Action → List UInt8
  | .read bytes => bytes
  | .decode => []

/-- The bytes a call removed from the buffer. -/
def Entry.taken : Entry → List UInt8
  | .call _ taken _ => taken
  | _ => []

section run

variable (parse : List UInt8 → Except Error Command)

/-- Runs a caller's actions; a panic ends the run. -/
def run : Reader → List Action → List Entry × Reader
  | r, [] => ([], r)
  | r, .read bytes :: acts =>
    let (es, r') := run ⟨r.decoder, r.buffer ++ bytes⟩ acts
    (.read bytes :: es, r')
  | r, .decode :: acts =>
    match decode parse r.decoder r.buffer with
    | none => ([.panic], r)
    | some o =>
      let (es, r') := run ⟨o.next, o.src⟩ acts
      (.call o.result (r.buffer.take (r.buffer.length - o.src.length)) o.next :: es, r')

/-- How `FramedRead`'s decode loop stopped. -/
inductive Halt
  | idle
  | failed (e : Error)
  | panicked
  | outOfFuel
  deriving DecidableEq, Repr

/-- `FramedRead`'s loop: call `decode` while it yields events. -/
def drain : Nat → Reader → List BeanstalkClientEvent × Halt × Reader
  | 0, r => ([], .outOfFuel, r)
  | fuel + 1, r =>
    match decode parse r.decoder r.buffer with
    | none => ([], .panicked, r)
    | some ⟨.ok none, next, src⟩ => ([], .idle, ⟨next, src⟩)
    | some ⟨.ok (some e), next, src⟩ =>
      let (es, h, r') := drain fuel ⟨next, src⟩
      (e :: es, h, r')
    | some ⟨.error err, next, src⟩ => ([], .failed err, ⟨next, src⟩)

/-- One read: append the bytes to the buffer, then run the decode loop. -/
def feed (r : Reader) (bytes : List UInt8) : List BeanstalkClientEvent × Halt × Reader :=
  drain parse ((r.buffer ++ bytes).length + 1) ⟨r.decoder, r.buffer ++ bytes⟩

/-- Reads one after another, as long as the decode loop ends idle. -/
def feedAll : Reader → List (List UInt8) → List BeanstalkClientEvent × Halt × Reader
  | r, [] => ([], .idle, r)
  | r, bytes :: rest =>
    match feed parse r bytes with
    | (es, .idle, r') =>
      let (es', h, r'') := feedAll r' rest
      (es ++ es', h, r'')
    | stopped => stopped

end run

variable {parse : List UInt8 → Except Error Command} {r : Reader} {acts : List Action}
  {bytes : List UInt8} {o : Decoded}

@[simp] theorem run_nil : run parse r [] = ([], r) := rfl

@[simp] theorem run_read :
    run parse r (.read bytes :: acts) =
      ((.read bytes :: (run parse ⟨r.decoder, r.buffer ++ bytes⟩ acts).1),
        (run parse ⟨r.decoder, r.buffer ++ bytes⟩ acts).2) := rfl

theorem run_decode (h : decode parse r.decoder r.buffer = some o) :
    run parse r (.decode :: acts) =
      (.call o.result (r.buffer.take (r.buffer.length - o.src.length)) o.next ::
        (run parse ⟨o.next, o.src⟩ acts).1, (run parse ⟨o.next, o.src⟩ acts).2) := by
  simp [run, h]

theorem drain_succ_of_idle {d : Decoder} {src : List UInt8} {fuel : Nat}
    (h : decode parse r.decoder r.buffer = some ⟨.ok none, d, src⟩) :
    drain parse (fuel + 1) r = ([], .idle, ⟨d, src⟩) := by
  simp [drain, h]

theorem drain_succ_of_event {d : Decoder} {src : List UInt8} {e : BeanstalkClientEvent} {fuel : Nat}
    (h : decode parse r.decoder r.buffer = some ⟨.ok (some e), d, src⟩) :
    drain parse (fuel + 1) r =
      (e :: (drain parse fuel ⟨d, src⟩).1, (drain parse fuel ⟨d, src⟩).2) := by
  simp [drain, h]

theorem feedAll_cons_of_idle {es : List BeanstalkClientEvent} {r' : Reader}
    {rest : List (List UInt8)} (h : feed parse r bytes = (es, .idle, r')) :
    feedAll parse r (bytes :: rest) =
      (es ++ (feedAll parse r' rest).1, (feedAll parse r' rest).2) := by
  simp [feedAll, h]

/-- Whatever the schedule, the bytes removed, in order, followed by those still buffered, are
the bytes that were buffered and read. -/
theorem run_removes_in_order :
    ((run parse r acts).1.map Entry.taken).flatten ++ (run parse r acts).2.buffer =
      r.buffer ++ (acts.map Action.bytes).flatten := by
  induction acts generalizing r with
  | nil => simp
  | cons a acts ih =>
    cases a with
    | read bytes =>
      simpa [Entry.taken, Action.bytes] using @ih ⟨r.decoder, r.buffer ++ bytes⟩
    | decode =>
      obtain ⟨o, ho⟩ : ∃ o, decode parse r.decoder r.buffer = some o := decode_isSome
      rw [run_decode ho]
      simp only [List.map_cons, Entry.taken, List.flatten_cons, List.append_assoc, ih,
        Action.bytes, List.nil_append]
      rw [← List.append_assoc, decode_removes_prefix ho]

/-! ## Put payload accounting -/

/-- What may follow the command of a put that is owed `n` more payload bytes: reads; calls that
wait and remove nothing; non-empty chunks of at most the owed bytes, each exactly the bytes its
call removes; and last either `PutEnd`, only when nothing is owed and removing a CR LF, or
`EXPECTED_CRLF`, only when nothing is owed and removing nothing. -/
def PutBody : Nat → List Entry → Prop
  | _, [] => True
  | n, .read _ :: es => PutBody n es
  | n, .call (.ok none) taken next :: es => taken = [] ∧ next = .parseJob n ∧ PutBody n es
  | n, .call (.ok (some (.putChunk p))) taken next :: es =>
    p ≠ [] ∧ p.length ≤ n ∧ taken = p ∧ next = .parseJob (n - p.length) ∧ PutBody (n - p.length) es
  | n, .call (.ok (some .putEnd)) taken next :: _ => n = 0 ∧ taken = crlf ∧ next = .parseCommand
  | n, .call (.error e) taken next :: _ =>
    n = 0 ∧ e = .client .expectedCRLF ∧ taken = [] ∧ next = .discardToNewline
  | _, _ => False

/-- From ParseJob, every run keeps the payload accounting. -/
theorem putBody_run {n : Nat} {buf : List UInt8} : PutBody n (run parse ⟨.parseJob n, buf⟩ acts).1 := by
  induction acts generalizing n buf with
  | nil => trivial
  | cons a acts ih =>
    cases a with
    | read bytes => exact ih
    | decode =>
      obtain ⟨o, ho⟩ : ∃ o, decode parse (.parseJob n) buf = some o := decode_isSome
      rw [run_decode ho]
      rcases decode_parseJob_cases ho with rfl | ⟨p, rest, rfl, hp, hle, rfl⟩ |
        ⟨rest, rfl, rfl, rfl⟩ | ⟨rfl, rfl⟩
      · exact ⟨by simp, rfl, ih⟩
      · exact ⟨hp, hle, by simp, rfl, ih⟩
      · exact ⟨rfl, by simp [crlf, show rest.length + 1 + 1 - rest.length = 2 by omega], rfl⟩
      · exact ⟨rfl, rfl, by simp, rfl⟩

/-- Every command a run reports was parsed from a line that its call removed with the CR LF
after it, and the run goes on from the state the command selects. -/
theorem run_command_entry {pre post : List Entry} {c : Command} {taken : List UInt8}
    {next : Decoder}
    (h : (run parse r acts).1 = pre ++ .call (.ok (some (.command c))) taken next :: post) :
    ∃ line buf rest, taken = line ++ crlf ∧ parse line = .ok c ∧ next = afterCommand c ∧
      post = (run parse ⟨afterCommand c, buf⟩ rest).1 := by
  induction acts generalizing r pre with
  | nil => simp at h
  | cons a acts ih =>
    cases a with
    | read bytes =>
      rcases pre with _ | ⟨e, pre⟩
      · simp at h
      · exact ih (List.cons.inj h).2
    | decode =>
      obtain ⟨o, ho⟩ : ∃ o, decode parse r.decoder r.buffer = some o := decode_isSome
      rw [run_decode ho] at h
      rcases pre with _ | ⟨e, pre⟩
      · simp only [List.nil_append, List.cons.injEq, Entry.call.injEq] at h
        obtain ⟨⟨hres, rfl, rfl⟩, rfl⟩ := h
        obtain ⟨-, i, hfirst, hparse, rfl⟩ := decode_command_event ho hres
        have hlen := hfirst.1.lt_length
        refine ⟨_, _, acts, ?_, hparse, rfl, rfl⟩
        rw [List.length_drop, show r.buffer.length - (r.buffer.length - (i + 2)) = i + 2 by omega,
          hfirst.1.take_add_two]
      · exact ih (List.cons.inj h).2

/-- Put accounting, for every input, every split of it into reads and every schedule of calls:
bytes are removed in order, and after the command of a put of `n` bytes, parsed from the line
its call removed with its CR LF, the run keeps `PutBody n`. -/
theorem run_put_accounting (acts : List Action) :
    ((run parse ⟨.parseCommand, []⟩ acts).1.map Entry.taken).flatten ++
        (run parse ⟨.parseCommand, []⟩ acts).2.buffer = (acts.map Action.bytes).flatten ∧
      ∀ pre post pri delay ttr n taken next,
        (run parse ⟨.parseCommand, []⟩ acts).1 =
            pre ++ .call (.ok (some (.command (.put pri delay ttr n)))) taken next :: post →
          (∃ line, taken = line ++ crlf ∧ parse line = .ok (.put pri delay ttr n)) ∧
            next = .parseJob n.toNat ∧ PutBody n.toNat post := by
  refine ⟨run_removes_in_order, fun pre post pri delay ttr n taken next h => ?_⟩
  obtain ⟨line, buf, rest, htaken, hparse, hnext, rfl⟩ := run_command_entry h
  exact ⟨⟨line, htaken, hparse⟩, hnext, putBody_run⟩

/-- A parser that reads every line as a put of two bytes. -/
def parsePutTwoBytes (_ : List UInt8) : Except Error Command := .ok (.put 0 0 0 2)

/-- The line `p`, its payload `ab` and the payload's CR LF cut across three reads, each decoded
once. -/
def putAcrossThreeReads : List Action :=
  [.read [112, 13, 10, 97], .decode, .read [98, 13], .decode, .read [10], .decode]

/-- The put's command, then a chunk of both payload bytes and its end. -/
theorem run_put_accounting_three_reads :
    (run parsePutTwoBytes ⟨.parseCommand, []⟩ putAcrossThreeReads).1 =
        [.read [112, 13, 10, 97]] ++
          .call (.ok (some (.command (.put 0 0 0 2)))) [112, 13, 10] (.parseJob 2) ::
            [.read [98, 13], .call (.ok (some (.putChunk [97, 98]))) [97, 98] (.parseJob 0),
              .read [10], .call (.ok (some .putEnd)) [13, 10] .parseCommand] ∧
      (∃ line, [112, 13, 10] = line ++ crlf ∧ parsePutTwoBytes line = .ok (.put 0 0 0 2)) ∧
        Decoder.parseJob 2 = .parseJob (2 : UInt32).toNat ∧
        PutBody (2 : UInt32).toNat
          [.read [98, 13], .call (.ok (some (.putChunk [97, 98]))) [97, 98] (.parseJob 0),
            .read [10], .call (.ok (some .putEnd)) [13, 10] .parseCommand] :=
  have hrun : (run parsePutTwoBytes ⟨.parseCommand, []⟩ putAcrossThreeReads).1 =
      [.read [112, 13, 10, 97]] ++
        .call (.ok (some (.command (.put 0 0 0 2)))) [112, 13, 10] (.parseJob 2) ::
          [.read [98, 13], .call (.ok (some (.putChunk [97, 98]))) [97, 98] (.parseJob 0),
            .read [10], .call (.ok (some .putEnd)) [13, 10] .parseCommand] := rfl
  ⟨hrun, (run_put_accounting putAcrossThreeReads).2 _ _ _ _ _ _ _ _ hrun⟩

/-! ## Recovery after a framing error -/

/-- Every read is followed at once by a call of `decode`. -/
def ReadsDecoded : List Action → Prop
  | [] => True
  | .read _ :: acts => acts.head? = some .decode ∧ ReadsDecoded acts
  | .decode :: acts => ReadsDecoded acts

/-- A schedule where every read is decoded and that makes no call has nothing left to do. -/
theorem ReadsDecoded.eq_nil (h : ReadsDecoded acts) (hcall : Action.decode ∉ acts) : acts = [] := by
  rcases acts with _ | ⟨_ | _, _ | ⟨_ | _, _⟩⟩
  all_goals simp_all [ReadsDecoded]

/-- The discard phase.  `R` is what has been removed since the decoder entered
DiscardToNewline, `B` the buffer, and `S` everything buffered or still to be read; no CR LF
pair of `S` starts inside `R`, and `R` is empty while `B` is. -/
theorem discard_phase {R B S : List UInt8} {i : Nat}
    (hS : R ++ B ++ (acts.map Action.bytes).flatten = S) (hclean : ∀ j < R.length, ¬CrlfAt S j)
    (hB : B = [] → R = []) (hfirst : FirstCrlf S i) (hreads : ReadsDecoded acts)
    (hcall : Action.decode ∈ acts) :
    ∃ pre post, acts = pre ++ post ∧
      (∀ m < pre.length,
        (run parse ⟨.discardToNewline, B⟩ (pre.take m)).2.decoder = .discardToNewline) ∧
      (run parse ⟨.discardToNewline, B⟩ pre).2.decoder = .parseCommand ∧
      (run parse ⟨.discardToNewline, B⟩ pre).2.buffer ++ (post.map Action.bytes).flatten =
        S.drop (i + 2) := by
  induction acts generalizing R B with
  | nil => simp at hcall
  | cons a acts ih =>
    cases a with
    | read bytes =>
      have hnext : Action.decode ∈ acts := by simpa using hcall
      obtain ⟨pre, post, rfl, hdisc, hcmd, hbuf⟩ := @ih R (B ++ bytes)
        (by simpa [Action.bytes] using hS) hclean (fun h => hB (List.append_eq_nil.mp h).1)
        hreads.2 hnext
      refine ⟨.read bytes :: pre, post, rfl, fun m hm => ?_, hcmd, hbuf⟩
      cases m with
      | zero => rfl
      | succ m => exact hdisc m (by simpa using hm)
    | decode =>
      have hreads' : ReadsDecoded acts := hreads
      have hS' : R ++ B ++ (acts.map Action.bytes).flatten = S := by simpa [Action.bytes] using hS
      -- while no CR LF lies in the buffer, a later call is still to come
      have hmore (hnone : ∀ j, R.length ≤ j → j + 1 < R.length + B.length → ¬CrlfAt S j) :
          Action.decode ∈ acts := by
        by_contra hno
        have hat := hfirst.1
        have hlt := hat.lt_length
        rw [hreads'.eq_nil hno] at hS'
        simp only [List.map_nil, List.flatten_nil, List.append_nil] at hS'
        subst hS'
        exact hnone i (Nat.le_of_not_lt fun h => hclean i h hat) (by simpa using hlt) hat
      obtain ⟨o, ho⟩ : ∃ o, decode parse .discardToNewline B = some o := decode_isSome
      have hafter (pre : List Action) :
          (run parse ⟨.discardToNewline, B⟩ (.decode :: pre)).2 = (run parse ⟨o.next, o.src⟩ pre).2 := by
        rw [run_decode ho]
      have hprefix (pre : List Action)
          (hdisc : ∀ m < pre.length, (run parse ⟨o.next, o.src⟩ (pre.take m)).2.decoder =
            .discardToNewline) (m : Nat) (hm : m < (Action.decode :: pre).length) :
          (run parse ⟨.discardToNewline, B⟩ ((Action.decode :: pre).take m)).2.decoder =
            .discardToNewline := by
        cases m with
        | zero => rfl
        | succ m => rw [List.take_succ_cons, hafter]; exact hdisc m (by simpa using hm)
      rcases decode_discard_cases ho with ⟨rfl, rfl⟩ | ⟨k, hfind, rfl⟩ | ⟨hne, hfind, rfl⟩
      · -- an empty buffer: wait
        obtain rfl := hB rfl
        obtain ⟨pre, post, rfl, hdisc, hcmd, hbuf⟩ :=
          @ih [] [] hS' (by simp) (fun _ => rfl) hreads' (hmore (by simp))
        exact ⟨.decode :: pre, post, rfl, hprefix pre hdisc, by rw [hafter]; exact hcmd,
          by rw [hafter]; exact hbuf⟩
      · -- the first CR LF is buffered: drop through it and return to ParseCommand
        have hlen := findCrlf_add_two_le hfind
        subst hS'
        obtain rfl := hfirst.unique ((findCrlf_eq_some_iff.mp hfind).shift hclean)
        refine ⟨[.decode], acts, rfl, fun m hm => ?_, by rw [hafter]; rfl, ?_⟩
        · obtain rfl : m = 0 := by simpa using hm
          rfl
        · rw [hafter, List.append_assoc, show R.length + k + 2 = R.length + (k + 2) by omega,
            List.drop_append, List.drop_append_of_le_length (by omega)]
          rfl
      · -- no CR LF buffered: drop all but the last byte, which may be a CR
        have hpos := List.length_pos.mpr hne
        have hnone : ∀ j, R.length ≤ j → j + 1 < R.length + B.length → ¬CrlfAt S j :=
          fun j hlo hhi hat => findCrlf_eq_none_iff.mp hfind (j - R.length)
            ((crlfAt_middle hlo hhi).mp (hS' ▸ hat))
        obtain ⟨pre, post, rfl, hdisc, hcmd, hbuf⟩ :=
          @ih (R ++ B.take (B.length - 1)) (B.drop (B.length - 1))
            (by rw [List.append_assoc R, List.take_append_drop]; exact hS')
            (fun j hj hat => by
              by_cases hjR : j < R.length
              · exact hclean j hjR hat
              · exact hnone j (by omega) (by simp at hj; omega) hat)
            (fun h => absurd h (by simp; omega)) hreads' (hmore hnone)
        exact ⟨.decode :: pre, post, rfl, hprefix pre hdisc, by rw [hafter]; exact hcmd,
          by rw [hafter]; exact hbuf⟩

/-- Recovery after `BAD_FORMAT` or `EXPECTED_CRLF`: from DiscardToNewline with buffer `b`, for
every continuation split into reads of any size, each read followed by at least one call, the
decoder stays in DiscardToNewline until it first enters ParseCommand, and by then it has removed
exactly the bytes of `b ++ c` up to and including their first CR LF pair, and nothing after it. -/
theorem run_discard_resyncs (b : List UInt8) (acts : List Action) (i : Nat)
    (hfirst : FirstCrlf (b ++ (acts.map Action.bytes).flatten) i)
    (hreads : ReadsDecoded acts) (hcall : Action.decode ∈ acts) :
    ∃ pre post, acts = pre ++ post ∧
      (∀ m < pre.length,
        (run parse ⟨.discardToNewline, b⟩ (pre.take m)).2.decoder = .discardToNewline) ∧
      (run parse ⟨.discardToNewline, b⟩ pre).2.decoder = .parseCommand ∧
      ((run parse ⟨.discardToNewline, b⟩ pre).1.map Entry.taken).flatten =
        (b ++ (acts.map Action.bytes).flatten).take (i + 2) ∧
      (run parse ⟨.discardToNewline, b⟩ pre).2.buffer ++ (post.map Action.bytes).flatten =
        (b ++ (acts.map Action.bytes).flatten).drop (i + 2) := by
  obtain ⟨pre, post, rfl, hdisc, hcmd, hbuf⟩ :=
    discard_phase (show [] ++ b ++ _ = b ++ _ by simp) (by simp) (fun _ => rfl) hfirst hreads hcall
  refine ⟨pre, post, rfl, hdisc, hcmd, ?_, hbuf⟩
  have hremoved := @run_removes_in_order parse ⟨.discardToNewline, b⟩ pre
  rw [← List.append_left_inj ((b ++ ((pre ++ post).map Action.bytes).flatten).drop (i + 2)),
    List.take_append_drop, ← hbuf, ← List.append_assoc, hremoved]
  simp

/-- The CR of the first CR LF closes one read and its LF opens the next. -/
theorem run_discard_resyncs_split_crlf :
    FirstCrlf ([120] ++ ([Action.read [13], .decode, .read [10, 65], .decode].map Action.bytes).flatten) 1 ∧
      ReadsDecoded [.read [13], .decode, .read [10, 65], .decode] ∧
      Action.decode ∈ [Action.read [13], .decode, .read [10, 65], .decode] ∧
      ∃ pre post, [Action.read [13], .decode, .read [10, 65], .decode] = pre ++ post ∧
        (∀ m < pre.length, (run (fun _ => .ok .quit) ⟨.discardToNewline, [120]⟩ (pre.take m)).2.decoder =
          .discardToNewline) ∧
        (run (fun _ => .ok .quit) ⟨.discardToNewline, [120]⟩ pre).2.decoder = .parseCommand ∧
        ((run (fun _ => .ok .quit) ⟨.discardToNewline, [120]⟩ pre).1.map Entry.taken).flatten =
          ([120] ++ ([Action.read [13], .decode, .read [10, 65], .decode].map Action.bytes).flatten).take 3 ∧
        (run (fun _ => .ok .quit) ⟨.discardToNewline, [120]⟩ pre).2.buffer ++
            (post.map Action.bytes).flatten =
          ([120] ++ ([Action.read [13], .decode, .read [10, 65], .decode].map Action.bytes).flatten).drop 3 :=
  have hfirst : FirstCrlf ([120] ++
      ([Action.read [13], .decode, .read [10, 65], .decode].map Action.bytes).flatten) 1 := by decide
  have hreads : ReadsDecoded [.read [13], .decode, .read [10, 65], .decode] := by
    simp [ReadsDecoded]
  ⟨hfirst, hreads, by simp, run_discard_resyncs [120] _ 1 hfirst hreads (by simp)⟩

/-! ## FramedRead's loop can spin -/

/-- In DiscardToNewline with a single byte buffered and no CR LF, `decode` keeps the byte (it may
be a CR) but still returns `Discarded`, so the state and the buffer never change and
`FramedRead`'s loop calls `decode` forever. -/
theorem framedRead_spins_on_lone_byte :
    decode parse .discardToNewline [120] = some ⟨.ok (some .discarded), .discardToNewline, [120]⟩ ∧
      ∀ fuel, drain parse fuel ⟨.discardToNewline, [120]⟩ =
        (List.replicate fuel .discarded, .outOfFuel, ⟨.discardToNewline, [120]⟩) := by
  have hstep : decode parse .discardToNewline [120] =
      some ⟨.ok (some .discarded), .discardToNewline, [120]⟩ := rfl
  refine ⟨hstep, fun fuel => ?_⟩
  induction fuel with
  | zero => rfl
  | succ fuel ih => simp [drain, hstep, ih, List.replicate_succ]

end Wire
end Beanstalk
