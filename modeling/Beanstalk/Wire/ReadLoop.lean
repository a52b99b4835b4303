import Beanstalk.Wire.Reader

/-!
# ReadLoop — `FramedRead`'s decode loop over whole connections

`Reader` gives two drivers of `decode`: `run`, any interleaving of reads and calls, and
`drain`/`feed`/`feedAll`, `FramedRead`'s own loop, which after each read calls `decode` until
`Ok(None)` or an error, with one call per buffered byte and one more.  This module says how
the loop ends.

* Fuel: every event removes a byte except in one state, DiscardToNewline holding a single byte
  (`Reader.Spinning`), so a read's loop ends idle or at an error, or it is left spinning there
  (`feed_ends_or_spins`).
* Liveness: that state is entered only through an error, which ends the stream, so from a fresh
  connection the loop never spins and never yields `Discarded`, whatever the client sends and
  however it is split into reads (`feedAll_fresh_never_spins`).
-/

namespace Beanstalk
namespace Wire

/-- DiscardToNewline holding one byte: the state in which `decode` reports `Discarded` and
removes nothing. -/
def Reader.Spinning (r : Reader) : Prop :=
  r.decoder = .discardToNewline ∧ r.buffer.length = 1

instance (r : Reader) : Decidable r.Spinning := inferInstanceAs (Decidable (_ ∧ _))

variable {parse : List UInt8 → Except Error Command} {r : Reader} {d : Decoder}
  {src bytes : List UInt8} {o : Decoded}

/-! ## One call of the loop -/

theorem drain_succ_of_error {e : Error} {fuel : Nat}
    (h : decode parse r.decoder r.buffer = some ⟨.error e, d, src⟩) :
    drain parse (fuel + 1) r = ([], .failed e, ⟨d, src⟩) := by
  simp [drain, h]

theorem feedAll_cons_of_not_idle {es : List BeanstalkClientEvent} {h : Halt} {r' : Reader}
    {rest : List (List UInt8)} (hfeed : feed parse r bytes = (es, h, r')) (hh : h ≠ .idle) :
    feedAll parse r (bytes :: rest) = (es, h, r') := by
  cases h <;> simp_all [feedAll]

/-- Once the loop has stopped short of idle, no later read is taken. -/
theorem feedAll_append_of_not_idle (r : Reader) (chunks more : List (List UInt8))
    (hh : (feedAll parse r chunks).2.1 ≠ .idle) :
    feedAll parse r (chunks ++ more) = feedAll parse r chunks := by
  induction chunks generalizing r with
  | nil => exact absurd rfl hh
  | cons c rest ih =>
    rcases hfeed : feed parse r c with ⟨es, h, r'⟩
    by_cases hidle : h = .idle
    · subst hidle
      rw [feedAll_cons_of_idle hfeed] at hh
      rw [List.cons_append, feedAll_cons_of_idle hfeed, feedAll_cons_of_idle hfeed, ih r' hh]
    · rw [List.cons_append, feedAll_cons_of_not_idle hfeed hidle,
        feedAll_cons_of_not_idle hfeed hidle]

/-- A spinning reader stays as it is for as long as the loop runs. -/
theorem drain_of_spinning (hr : r.Spinning) (fuel : Nat) :
    drain parse fuel r = (List.replicate fuel .discarded, .outOfFuel, r) := by
  obtain ⟨hd, hlen⟩ := hr
  obtain ⟨b, hb⟩ := List.length_eq_one.mp hlen
  have hstep : decode parse r.decoder r.buffer = some ⟨.ok (some .discarded), r.decoder, r.buffer⟩ := by
    rw [hd, hb, decode_discard_notFound (List.cons_ne_nil b []) rfl]
    rfl
  induction fuel with
  | zero => rfl
  | succ fuel ih => rw [drain_succ_of_event hstep, ih, List.replicate_succ]

/-- Outside ParseCommand and ParseJob there is only DiscardToNewline, reached by errors alone:
a call from ParseCommand or ParseJob that returns `Ok` leaves the decoder in one of them, and
never reports `Discarded`. -/
theorem decode_next_of_ok {x : Option BeanstalkClientEvent} (hd : d ≠ .discardToNewline)
    (h : decode parse d src = some o) (hok : o.result = .ok x) :
    o.next ≠ .discardToNewline ∧ x ≠ some .discarded := by
  have hafter (c : Command) : afterCommand c ≠ .discardToNewline := by
    cases c <;> simp [afterCommand]
  cases d with
  | parseCommand =>
    rcases decode_parseCommand_cases h with ⟨i, -, -, rfl⟩ | ⟨-, ⟨-, rfl⟩ | ⟨-, rfl⟩⟩
    · unfold acceptCommand at hok ⊢
      split at hok
      · simp at hok
      · simp only [Except.ok.injEq] at hok
        exact ⟨hafter _, by simp [← hok]⟩
    · simp at hok
    · simp only [Except.ok.injEq] at hok
      exact ⟨by simp, by simp [← hok]⟩
  | parseJob remaining =>
    rcases decode_parseJob_cases h with rfl | ⟨p, rest, -, -, -, rfl⟩ | ⟨rest, -, -, rfl⟩ | ⟨-, rfl⟩
    all_goals simp only [Except.ok.injEq, reduceCtorEq] at hok
    all_goals exact ⟨by simp, by simp [← hok]⟩
  | discardToNewline => exact absurd rfl hd

/-! ## Enough fuel -/

/-- The loop with more calls than buffered bytes: it ends idle or at an error, or it is left
spinning; it never panics. -/
theorem drain_ends_or_spins (fuel : Nat) (r : Reader) (hfuel : r.buffer.length < fuel) :
    (drain parse fuel r).2.1 = .idle ∨ (∃ e, (drain parse fuel r).2.1 = .failed e) ∨
      (drain parse fuel r).2.1 = .outOfFuel ∧ (drain parse fuel r).2.2.Spinning := by
  induction fuel generalizing r with
  | zero => exact absurd hfuel (Nat.not_lt_zero _)
  | succ fuel ih =>
    obtain ⟨⟨res, d', src'⟩, ho⟩ : ∃ o, decode parse r.decoder r.buffer = some o := decode_isSome
    rcases res with err | _ | e
    · simp [drain_succ_of_error ho]
    · simp [drain_succ_of_idle ho]
    · rw [drain_succ_of_event ho]
      rcases decode_progress ho rfl with hlt | ⟨hd, hone, ho'⟩
      · exact ih ⟨d', src'⟩ (by dsimp only at hlt ⊢; omega)
      · simp only [Decoded.mk.injEq] at ho'
        obtain ⟨-, rfl, rfl⟩ := ho'
        have hspin : Reader.Spinning ⟨.discardToNewline, r.buffer⟩ := ⟨rfl, hone⟩
        simp [drain_of_spinning hspin, hspin]

/-- Every read ends `FramedRead`'s loop: from any state and any buffer, the calls it makes after
a read stop at `Ok(None)` or at an error, or the loop is spinning on a lone byte in
DiscardToNewline, the one state where an event removes nothing; it never panics. -/
theorem feed_ends_or_spins (r : Reader) (bytes : List UInt8) :
    (feed parse r bytes).2.1 = .idle ∨ (∃ e, (feed parse r bytes).2.1 = .failed e) ∨
      (feed parse r bytes).2.1 = .outOfFuel ∧ (feed parse r bytes).2.2.Spinning :=
  drain_ends_or_spins _ _ (Nat.lt_succ_self _)

/-! ## From a fresh connection -/

/-- From ParseCommand or ParseJob, with more calls than buffered bytes, the loop ends idle in
ParseCommand or ParseJob, or at an error, and reports no `Discarded`. -/
theorem drain_live (fuel : Nat) (r : Reader) (hr : r.decoder ≠ .discardToNewline)
    (hfuel : r.buffer.length < fuel) :
    ((drain parse fuel r).2.1 = .idle ∧ (drain parse fuel r).2.2.decoder ≠ .discardToNewline ∨
      ∃ e, (drain parse fuel r).2.1 = .failed e) ∧ .discarded ∉ (drain parse fuel r).1 := by
  induction fuel generalizing r with
  | zero => exact absurd hfuel (Nat.not_lt_zero _)
  | succ fuel ih =>
    obtain ⟨⟨res, d', src'⟩, ho⟩ : ∃ o, decode parse r.decoder r.buffer = some o := decode_isSome
    rcases res with err | _ | e
    · simp [drain_succ_of_error ho]
    · rw [drain_succ_of_idle ho]
      exact ⟨.inl ⟨rfl, (decode_next_of_ok hr ho rfl).1⟩, List.not_mem_nil _⟩
    · rw [drain_succ_of_event ho]
      obtain ⟨hnext, hdisc⟩ := decode_next_of_ok hr ho rfl
      have hlt : src'.length < r.buffer.length := by
        rcases decode_progress ho rfl with hlt | ⟨hd, -⟩
        · exact hlt
        · exact absurd hd hr
      obtain ⟨hend, hnot⟩ := ih ⟨d', src'⟩ hnext (by dsimp only; omega)
      refine ⟨hend, List.not_mem_cons_of_ne_of_not_mem (fun h => hdisc (by rw [h])) hnot⟩

theorem feedAll_live (chunks : List (List UInt8)) (r : Reader) (hr : r.decoder ≠ .discardToNewline) :
    ((feedAll parse r chunks).2.1 = .idle ∧ (feedAll parse r chunks).2.2.decoder ≠ .discardToNewline ∨
      ∃ e, (feedAll parse r chunks).2.1 = .failed e) ∧ .discarded ∉ (feedAll parse r chunks).1 := by
  induction chunks generalizing r with
  | nil => exact ⟨.inl ⟨rfl, hr⟩, List.not_mem_nil _⟩
  | cons c rest ih =>
    obtain ⟨hend, hnot⟩ := @drain_live parse ((r.buffer ++ c).length + 1) ⟨r.decoder, r.buffer ++ c⟩
      hr (Nat.lt_succ_self _)
    rcases hfeed : feed parse r c with ⟨es, h, r'⟩
    have hdrain : drain parse ((r.buffer ++ c).length + 1) ⟨r.decoder, r.buffer ++ c⟩ = (es, h, r') :=
      hfeed
    rw [hdrain] at hend hnot
    by_cases hidle : h = .idle
    · subst hidle
      rw [feedAll_cons_of_idle hfeed]
      obtain ⟨hend', hnot'⟩ := ih r' (hend.resolve_right (by simp)).2
      exact ⟨hend', by simpa [not_or] using ⟨hnot, hnot'⟩⟩
    · rw [feedAll_cons_of_not_idle hfeed hidle]
      exact ⟨hend, hnot⟩

/-- From a fresh connection, whatever the client sends and however it is split into reads,
`FramedRead`'s loop never panics and never spins: it ends idle in ParseCommand or ParseJob, or at
the first error.  DiscardToNewline is entered only by an error, and an error ends the stream, so
no `Discarded` event is ever yielded: the spin of DiscardToNewline on a lone byte is
unreachable from a fresh connection. -/
theorem feedAll_fresh_never_spins (chunks : List (List UInt8)) :
    ((feedAll parse ⟨.parseCommand, []⟩ chunks).2.1 = .idle ∧
        (feedAll parse ⟨.parseCommand, []⟩ chunks).2.2.decoder ≠ .discardToNewline ∨
      ∃ e, (feedAll parse ⟨.parseCommand, []⟩ chunks).2.1 = .failed e) ∧
    .discarded ∉ (feedAll parse ⟨.parseCommand, []⟩ chunks).1 :=
  feedAll_live chunks _ (by simp)

end Wire
end Beanstalk
