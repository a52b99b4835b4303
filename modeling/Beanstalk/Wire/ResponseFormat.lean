import Beanstalk.Wire.Encoder

/-!
# ResponseFormat — reading the server's output back

`protocol.rs` documents the form of each response on the wire: a word (`NOT_FOUND`), a word and
a number (`INSERTED <id>`, `WATCHING <count>`), `USING <tube>`, and `OK <n_bytes>` followed by
that many bytes of YAML.  A client reads the stream a line at a time.

`readResponseLine` reads one line by those forms, and `readAllResponses` reads a whole stream.
For every sequence of one-line responses the encoder's bytes read back as exactly that sequence
(`readAllResponses_encodeAll`), so two different sequences are never written as the same bytes.
The job replies are left out, as their header carries no byte count (`Encoder`).
`put_ok_and_data`, by contrast, frames its YAML by length, and `readOkFrame` recovers exactly the
data, whatever bytes it holds, and leaves what follows (`readOkFrame_putOkAndData`).
-/

namespace Beanstalk
namespace Wire

/-- The responses that are one line on the wire: all but a job's header, chunks and end, and
`USING` only of a tube name with no CR LF pair in it. -/
def Response.IsLine : Response → Prop
  | .reserved _ | .found _ | .jobChunk _ | .jobEnd => False
  | .using tube => findCrlf tube = none
  | _ => True

/-- The responses written as a word alone, with their words. -/
def plainResponses : List (List UInt8 × Response) :=
  [(ascii "OUT_OF_MEMORY", .outOfMemory), (ascii "INTERNAL_ERROR", .internalError),
    (ascii "BAD_FORMAT", .badFormat), (ascii "UNKNOWN_COMMAND", .unknownCommand),
    (ascii "EXPECTED_CRLF", .expectedCRLF), (ascii "JOB_TOO_BIG", .jobTooBig),
    (ascii "DRAINING", .draining), (ascii "DEADLINE_SOON", .deadlineSoon),
    (ascii "TIMED_OUT", .timedOut), (ascii "NOT_FOUND", .notFound), (ascii "DELETED", .deleted),
    (ascii "RELEASED", .released), (ascii "BURIED", .buried), (ascii "TOUCHED", .touched),
    (ascii "NOT_IGNORED", .notIgnored), (ascii "KICKED", .kicked), (ascii "PAUSED", .paused)]

/-- The response a word and a number name, the number in its type's range. -/
def readNumbered (word : List UInt8) (n : Nat) : Option Response :=
  if word = ascii "INSERTED" ∧ n < UInt64.size then some (.inserted (UInt64.ofNat n))
  else if word = ascii "BURIED" ∧ n < UInt64.size then some (.buriedID (UInt64.ofNat n))
  else if word = ascii "KICKED" ∧ n < UInt64.size then some (.kickedCount (UInt64.ofNat n))
  else if word = ascii "WATCHING" ∧ n < UInt32.size then some (.watching (UInt32.ofNat n))
  else none

/-- The response a line names, read by the forms `protocol.rs` documents: the word before the
first space, then a number or, for `USING`, the tube name. -/
def readResponseLine (line : List UInt8) : Option Response :=
  match line.dropWhile (· != 32) with
  | [] => List.lookup line plainResponses
  | _ :: arg =>
    if line.takeWhile (· != 32) = ascii "USING" then some (.using arg)
    else (readDecimal arg).bind (readNumbered (line.takeWhile (· != 32)))

/-- Reads one-line responses up to the first CR LF pair at a time; `fuel` bounds the lines. -/
def readResponses : Nat → List UInt8 → Option (List Response)
  | _, [] => some []
  | 0, _ :: _ => none
  | fuel + 1, b :: bytes =>
    match findCrlf (b :: bytes) with
    | none => none
    | some i => do
      let r ← readResponseLine ((b :: bytes).take i)
      let rs ← readResponses fuel ((b :: bytes).drop (i + 2))
      pure (r :: rs)

/-- A client reading all the server wrote, a line at a time. -/
def readAllResponses (bytes : List UInt8) : Option (List Response) :=
  readResponses bytes.length bytes

/-- Reads `OK <n_bytes>`, CR LF, `n_bytes` bytes of data and CR LF, as `protocol.rs` documents
the `OK` responses: the data, and what follows it. -/
def readOkFrame (bytes : List UInt8) : Option (List UInt8 × List UInt8) := do
  let i ← findCrlf bytes
  if (bytes.take i).take 3 = ascii "OK " then
    let n ← readDecimal ((bytes.take i).drop 3)
    if n + 2 ≤ (bytes.drop (i + 2)).length ∧ ((bytes.drop (i + 2)).drop n).take 2 = crlf then
      some ((bytes.drop (i + 2)).take n, (bytes.drop (i + 2)).drop (n + 2))
    else none
  else none

/-! ## One response -/

section line

variable {word : List UInt8} {n : Nat}

/-- A word, a space and a number: the word is what comes before the first space. -/
theorem numbered_split (hsp : (32 : UInt8) ∉ word) :
    (word ++ 32 :: decimal n).takeWhile (· != 32) = word ∧
      (word ++ 32 :: decimal n).dropWhile (· != 32) = 32 :: decimal n := by
  have hword : ∀ b ∈ word, (b != 32) = true := fun b hb => by
    simp only [bne_iff_ne, ne_eq]
    rintro rfl
    exact hsp hb
  exact ⟨by simp [List.takeWhile_append_of_pos hword], by simp [List.dropWhile_append_of_pos hword]⟩

theorem findCrlf_numbered (hcr : cr ∉ word) : findCrlf (word ++ 32 :: decimal n) = none :=
  findCrlf_append_of_cr_not_mem hcr
    (@findCrlf_append_of_cr_not_mem [32] _ (by decide) (findCrlf_decimal n))

/-- A numbered response's line reads back through `readNumbered`. -/
theorem readResponseLine_numbered (hsp : (32 : UInt8) ∉ word) (husing : word ≠ ascii "USING") :
    readResponseLine (word ++ 32 :: decimal n) = readNumbered word n := by
  obtain ⟨htake, hdrop⟩ := @numbered_split word n hsp
  simp only [readResponseLine, hdrop, htake, husing, ite_false, readDecimal_decimal, Option.some_bind]

theorem putStrAndNum_line : putStrAndNum [] word n = (word ++ 32 :: decimal n) ++ crlf := by
  simp [putStrAndNum]

/-- The responses written as a word alone are written as their word and CR LF, and read back. -/
theorem plain_line : ∀ p ∈ plainResponses,
    encode p.2 [] = p.1 ++ crlf ∧ findCrlf p.1 = none ∧ readResponseLine p.1 = some p.2 := by
  decide

theorem plain_line_of_mem {r : Response} (h : ∃ p ∈ plainResponses, p.2 = r) :
    ∃ line, encode r [] = line ++ crlf ∧ findCrlf line = none ∧ readResponseLine line = some r := by
  obtain ⟨p, hp, rfl⟩ := h
  exact ⟨p.1, plain_line p hp⟩

/-- Every one-line response is written as a line with no CR LF pair in it, then CR LF, and the
line reads back as the response. -/
theorem encode_line (r : Response) (hr : r.IsLine) :
    ∃ line, encode r [] = line ++ crlf ∧ findCrlf line = none ∧ readResponseLine line = some r := by
  have hnum (word : List UInt8) (m : Nat) (hcr : cr ∉ word) (hsp : (32 : UInt8) ∉ word)
      (husing : word ≠ ascii "USING") (hread : readNumbered word m = some r)
      (henc : encode r [] = putStrAndNum [] word m) :
      ∃ line, encode r [] = line ++ crlf ∧ findCrlf line = none ∧ readResponseLine line = some r :=
    ⟨_, henc.trans putStrAndNum_line, findCrlf_numbered hcr,
      (readResponseLine_numbered hsp husing).trans hread⟩
  have h64 (x : UInt64) : UInt64.ofNat x.toNat = x :=
    UInt64.toNat.inj (UInt64.toNat_ofNat_of_lt x.toNat_lt_size)
  have hne {w w' : List UInt8} {P : Prop} (h : w ≠ w') : ¬(w = w' ∧ P) := fun h' => h h'.1
  cases r with
  | inserted id =>
    refine hnum (ascii "INSERTED") id.toNat (by decide) (by decide) (by decide) ?_ rfl
    rw [readNumbered, if_pos ⟨rfl, id.toNat_lt_size⟩, h64]
  | buriedID id =>
    refine hnum (ascii "BURIED") id.toNat (by decide) (by decide) (by decide) ?_ rfl
    rw [readNumbered, if_neg (hne (by decide)), if_pos ⟨rfl, id.toNat_lt_size⟩, h64]
  | kickedCount count =>
    refine hnum (ascii "KICKED") count.toNat (by decide) (by decide) (by decide) ?_ rfl
    rw [readNumbered, if_neg (hne (by decide)), if_neg (hne (by decide)),
      if_pos ⟨rfl, count.toNat_lt_size⟩, h64]
  | watching count =>
    refine hnum (ascii "WATCHING") count.toNat (by decide) (by decide) (by decide) ?_ rfl
    rw [readNumbered, if_neg (hne (by decide)), if_neg (hne (by decide)), if_neg (hne (by decide)),
      if_pos ⟨rfl, count.toNat_lt_size⟩, UInt32.toNat.inj (UInt32.toNat_ofNat_of_lt count.toNat_lt_size)]
  | «using» tube =>
    refine ⟨ascii "USING " ++ tube, by simp [encode], findCrlf_append_of_cr_not_mem (by decide) hr, ?_⟩
    have hword : ∀ b ∈ ascii "USING", (b != 32) = true := by decide
    simp [readResponseLine, show ascii "USING " = ascii "USING" ++ [32] from rfl,
      List.dropWhile_append_of_pos hword, List.takeWhile_append_of_pos hword]
  | reserved _ | found _ | jobChunk _ | jobEnd => exact hr.elim
  | outOfMemory | internalError | badFormat | unknownCommand | expectedCRLF | jobTooBig
  | draining | deadlineSoon | timedOut | notFound | deleted | released | buried | touched
  | notIgnored | kicked | paused => exact plain_line_of_mem (by decide)

end line

/-! ## The stream -/

theorem readResponses_line_cons {line rest : List UInt8} {r : Response} {fuel : Nat}
    (hline : findCrlf line = none) (hread : readResponseLine line = some r) :
    readResponses (fuel + 1) (line ++ crlf ++ rest) = (readResponses fuel rest).map (r :: ·) := by
  have hfind : findCrlf (line ++ crlf ++ rest) = some line.length :=
    findCrlf_eq_some_iff.mpr (firstCrlf_line hline)
  have htake : (line ++ crlf ++ rest).take line.length = line := by
    rw [List.append_assoc]
    exact List.take_left' rfl
  have hdrop : (line ++ crlf ++ rest).drop (line.length + 2) = rest := List.drop_left' (by simp [crlf])
  obtain ⟨b, bytes, hb⟩ : ∃ b bytes, line ++ crlf ++ rest = b :: bytes :=
    List.exists_cons_of_ne_nil (by simp [crlf])
  rw [hb] at hfind htake hdrop ⊢
  simp only [readResponses, hfind, htake, hdrop, hread]
  cases readResponses fuel rest <;> rfl

theorem readResponses_encodeAll {rs : List Response} (hrs : ∀ r ∈ rs, r.IsLine) {fuel : Nat}
    (hfuel : rs.length ≤ fuel) : readResponses fuel (encodeAll [] rs) = some rs := by
  induction rs generalizing fuel with
  | nil => cases fuel <;> rfl
  | cons r rs ih =>
    obtain ⟨fuel, rfl⟩ := Nat.exists_eq_succ_of_ne_zero (by simp at hfuel; omega : fuel ≠ 0)
    obtain ⟨line, henc, hline, hread⟩ := encode_line r (hrs r (List.mem_cons_self r rs))
    rw [encodeAll_cons, encodeAll_eq_append, henc, readResponses_line_cons hline hread,
      ih (fun r' hr' => hrs r' (List.mem_cons_of_mem r hr')) (by simp at hfuel; omega)]
    rfl

theorem length_le_encodeAll (rs : List Response) (hrs : ∀ r ∈ rs, r.IsLine) :
    rs.length ≤ (encodeAll [] rs).length := by
  induction rs with
  | nil => simp
  | cons r rs ih =>
    obtain ⟨line, henc, -, -⟩ := encode_line r (hrs r (List.mem_cons_self r rs))
    rw [encodeAll_cons, encodeAll_eq_append, henc]
    have := ih fun r' hr' => hrs r' (List.mem_cons_of_mem r hr')
    simp [crlf]
    omega

/-- The server's output is never ambiguous.  For every sequence of one-line responses — every
response but the job replies, with tube names free of CR LF — a client reading the encoder's
bytes a line at a time, by the forms `protocol.rs` documents, gets back exactly that sequence;
so no two different sequences are written as the same bytes. -/
theorem readAllResponses_encodeAll (rs : List Response) (hrs : ∀ r ∈ rs, r.IsLine) :
    readAllResponses (encodeAll [] rs) = some rs :=
  readResponses_encodeAll hrs (length_le_encodeAll rs hrs)

theorem readAllResponses_encodeAll_inserted_using :
    (∀ r ∈ [Response.inserted 7, .using (ascii "default"), .watching 2, .notFound], r.IsLine) ∧
    readAllResponses (encodeAll [] [.inserted 7, .using (ascii "default"), .watching 2, .notFound]) =
      some [.inserted 7, .using (ascii "default"), .watching 2, .notFound] :=
  have hrs : ∀ r ∈ [Response.inserted 7, .using (ascii "default"), .watching 2, .notFound],
      r.IsLine := by
    simp only [List.mem_cons, List.mem_singleton, List.not_mem_nil, or_false, forall_eq_or_imp,
      forall_eq]
    exact ⟨trivial, rfl, trivial, trivial⟩
  ⟨hrs, readAllResponses_encodeAll _ hrs⟩

/-! ## `OK` frames -/

/-- `put_ok_and_data` frames its data by length.  Whatever bytes the YAML text holds, CR LF
pairs included, a reader following the documented `OK <n_bytes>` form reads back exactly that
text from the encoder's output, and leaves whatever the stream holds after it. -/
theorem readOkFrame_putOkAndData {ε : Type} (data rest : List UInt8) :
    readOkFrame ((@putOkAndData ε [] (.ok data)).1 ++ rest) = some (data, rest) := by
  set head := ascii "OK " ++ decimal data.length with hhead_def
  set body := data ++ crlf ++ rest with hbody_def
  have hbytes : (@putOkAndData ε [] (.ok data)).1 ++ rest = head ++ crlf ++ body := by
    simp [putOkAndData, head, body]
  have hfind : findCrlf (head ++ crlf ++ body) = some head.length :=
    findCrlf_eq_some_iff.mpr
      (firstCrlf_line (findCrlf_append_of_cr_not_mem (by decide) (findCrlf_decimal _)))
  have htake : (head ++ crlf ++ body).take head.length = head := by
    rw [List.append_assoc]
    exact List.take_left' rfl
  have hdrop : (head ++ crlf ++ body).drop (head.length + 2) = body := List.drop_left' (by simp [crlf])
  have hword : head.take 3 = ascii "OK " := List.take_left' rfl
  have hnum : head.drop 3 = decimal data.length := List.drop_left' rfl
  have hend : body.drop data.length = crlf ++ rest := by
    rw [hbody_def, List.append_assoc]
    exact List.drop_left' rfl
  have hframe : data.length + 2 ≤ body.length ∧ (body.drop data.length).take 2 = crlf :=
    ⟨by simp [body, crlf], by rw [hend]; exact List.take_left' rfl⟩
  rw [hbytes]
  simp only [readOkFrame, hfind, htake, hdrop, hword, hnum, readDecimal_decimal, if_pos hframe,
    Option.bind_eq_bind, Option.some_bind, if_true]
  rw [← List.drop_drop, hend, @List.drop_left' _ crlf rest 2 rfl, hbody_def, List.append_assoc,
    List.take_left' rfl]

end Wire
end Beanstalk
