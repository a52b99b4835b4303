import Mathlib.Data.List.Basic
import Mathlib.Data.Nat.Digits

/-!
# Bytes — byte strings, CR LF search, and the `bytes` buffer operations

Buffers (`BytesMut`, `Bytes`, `Vec<u8>`) are lists of bytes; removing bytes from a buffer
always removes them from its front.

* `findCrlf` is the decoder's search
  `src.iter().tuple_windows().find_position(|&(&a, &b)| a == b'\r' && b == b'\n')`:
  the index of the first CR LF pair.  `findCrlf_eq_some_iff` and `findCrlf_eq_none_iff`
  describe it by the position predicate `CrlfAt`, so that later proofs never unfold it.
* `splitTo`, `advance` and `usizeSub` are `BytesMut::split_to`, `Buf::advance` and `usize`
  subtraction. Each returns `none` where the Rust operation panics.
* `decimal` is `to_string().into_bytes()` on an integer.  `readDecimal` reads the digits back
  (`readDecimal_decimal`), and the digits hold neither CR nor space, so a number never ends a
  line or a word early (`findCrlf_decimal`).
-/

namespace Beanstalk
namespace Wire

/-! ## Bytes and byte strings -/

/-- `b'\r'`. -/
def cr : UInt8 := 13

/-- `b'\n'`. -/
def lf : UInt8 := 10

/-- The line terminator `b"\r\n"`. -/
def crlf : List UInt8 := [cr, lf]

/-- The bytes of an ASCII string literal such as `b"RESERVED"`. -/
def ascii (s : String) : List UInt8 :=
  s.toList.map fun c => c.toNat.toUInt8

/-- `num.to_string().into_bytes()`: the decimal digits of a number. -/
def decimal (n : Nat) : List UInt8 :=
  ascii (Nat.repr n)

@[simp] theorem cr_ne_lf : cr ≠ lf := by decide

@[simp] theorem lf_ne_cr : lf ≠ cr := by decide

/-! ## CR LF pairs -/

/-- A CR LF pair starts at index `i` of `b`. -/
def CrlfAt (b : List UInt8) (i : Nat) : Prop :=
  b[i]? = some cr ∧ b[i + 1]? = some lf

instance (b : List UInt8) (i : Nat) : Decidable (CrlfAt b i) :=
  inferInstanceAs (Decidable (_ ∧ _))

/-- The first CR LF pair of `b` starts at index `i`. -/
def FirstCrlf (b : List UInt8) (i : Nat) : Prop :=
  CrlfAt b i ∧ ∀ j < i, ¬CrlfAt b j

instance (b : List UInt8) (i : Nat) : Decidable (FirstCrlf b i) :=
  inferInstanceAs (Decidable (_ ∧ _))

/-- `find_position` over `tuple_windows`: the index of the first CR LF pair of a buffer. -/
def findCrlf : List UInt8 → Option Nat
  | [] => none
  | a :: tl =>
    match tl with
    | [] => none
    | b :: _ => if a = cr ∧ b = lf then some 0 else (findCrlf tl).map (· + 1)

variable {a : UInt8} {b l l₁ l₂ : List UInt8} {i j n : Nat}

@[simp] theorem crlfAt_nil : ¬CrlfAt [] i := by
  simp [CrlfAt]

@[simp] theorem crlfAt_singleton : ¬CrlfAt [a] i := by
  cases i <;> simp [CrlfAt]

@[simp] theorem crlfAt_cons_succ : CrlfAt (a :: l) (i + 1) ↔ CrlfAt l i := by
  simp [CrlfAt]

theorem crlfAt_cons_cons_zero {a' : UInt8} : CrlfAt (a :: a' :: l) 0 ↔ a = cr ∧ a' = lf := by
  simp [CrlfAt]

theorem CrlfAt.lt_length (h : CrlfAt b i) : i + 1 < b.length := by
  by_contra hlt
  simp [CrlfAt, List.getElem?_eq_none (Nat.le_of_not_lt hlt)] at h

theorem firstCrlf_cons_succ :
    FirstCrlf (a :: l) (i + 1) ↔ ¬CrlfAt (a :: l) 0 ∧ FirstCrlf l i := by
  constructor
  · rintro ⟨hat, hbefore⟩
    exact ⟨hbefore 0 (Nat.succ_pos i), crlfAt_cons_succ.mp hat,
      fun j hj => by simpa using hbefore (j + 1) (by omega)⟩
  · rintro ⟨hzero, hat, hbefore⟩
    refine ⟨crlfAt_cons_succ.mpr hat, fun j hj => ?_⟩
    cases j with
    | zero => exact hzero
    | succ j => simpa using hbefore j (by omega)

theorem findCrlf_cons_cons {a' : UInt8} :
    findCrlf (a :: a' :: l) =
      if a = cr ∧ a' = lf then some 0 else (findCrlf (a' :: l)).map (· + 1) := rfl

theorem findCrlf_eq_some_iff : findCrlf b = some i ↔ FirstCrlf b i := by
  induction b generalizing i with
  | nil => simp [findCrlf, FirstCrlf]
  | cons a tl ih =>
    cases tl with
    | nil => simp [findCrlf, FirstCrlf]
    | cons a' rest =>
      rw [findCrlf_cons_cons]
      by_cases hpair : a = cr ∧ a' = lf
      · have hzero : CrlfAt (a :: a' :: rest) 0 := crlfAt_cons_cons_zero.mpr hpair
        rw [if_pos hpair]
        cases i with
        | zero => simp [FirstCrlf, hzero]
        | succ i => simp [firstCrlf_cons_succ, hzero]
      · have hzero : ¬CrlfAt (a :: a' :: rest) 0 := mt crlfAt_cons_cons_zero.mp hpair
        rw [if_neg hpair]
        cases i with
        | zero => simp [FirstCrlf, hzero]
        | succ i => simp [firstCrlf_cons_succ, hzero, ih]

theorem findCrlf_eq_none_iff : findCrlf b = none ↔ ∀ i, ¬CrlfAt b i := by
  induction b with
  | nil => simp [findCrlf]
  | cons a tl ih =>
    cases tl with
    | nil => simp [findCrlf]
    | cons a' rest =>
      rw [findCrlf_cons_cons]
      by_cases hpair : a = cr ∧ a' = lf
      · rw [if_pos hpair]
        simpa using ⟨0, crlfAt_cons_cons_zero.mpr hpair⟩
      · rw [if_neg hpair, Option.map_eq_none', ih]
        constructor
        · intro htl i
          cases i with
          | zero => exact mt crlfAt_cons_cons_zero.mp hpair
          | succ i => simpa using htl i
        · intro hall i
          simpa using hall (i + 1)

/-- The pair `findCrlf` reports lies wholly inside the buffer. -/
theorem findCrlf_add_two_le (h : findCrlf b = some i) : i + 2 ≤ b.length :=
  (findCrlf_eq_some_iff.mp h).1.lt_length

theorem crlfAt_append_left (h : i + 1 < l₁.length) : CrlfAt (l₁ ++ l₂) i ↔ CrlfAt l₁ i := by
  simp [CrlfAt, List.getElem?_append_left h, List.getElem?_append_left (Nat.lt_of_succ_lt h)]

theorem crlfAt_append_right (h : l₁.length ≤ i) :
    CrlfAt (l₁ ++ l₂) i ↔ CrlfAt l₂ (i - l₁.length) := by
  have hsucc : i + 1 - l₁.length = i - l₁.length + 1 := by omega
  simp only [CrlfAt, List.getElem?_append_right h, List.getElem?_append_right (Nat.le_succ_of_le h),
    hsucc]

theorem crlfAt_take : CrlfAt (l.take n) i ↔ CrlfAt l i ∧ i + 2 ≤ n := by
  by_cases hn : i + 2 ≤ n
  · simp [CrlfAt, List.getElem?_take, show i < n by omega, show i + 1 < n by omega, hn]
  · simp [CrlfAt, List.getElem?_take, show ¬i + 1 < n by omega, hn]

/-- The first CR LF pair within the first `n` bytes is the first of the whole buffer. -/
theorem findCrlf_take_eq_some_iff : findCrlf (l.take n) = some i ↔ FirstCrlf l i ∧ i + 2 ≤ n := by
  simp only [findCrlf_eq_some_iff, FirstCrlf, crlfAt_take]
  constructor
  · rintro ⟨⟨hat, hn⟩, hbefore⟩
    exact ⟨⟨hat, fun j hj hatj => hbefore j hj ⟨hatj, by omega⟩⟩, hn⟩
  · rintro ⟨⟨hat, hbefore⟩, hn⟩
    exact ⟨⟨hat, hn⟩, fun j hj hatj => hbefore j hj hatj.1⟩

theorem findCrlf_take_eq_none_iff : findCrlf (l.take n) = none ↔ ∀ i, CrlfAt l i → n < i + 2 := by
  simp only [findCrlf_eq_none_iff, crlfAt_take, not_and, not_le]

/-- A line with no CR LF pair, followed by CR LF: its terminator is the first pair. -/
theorem firstCrlf_line (hline : findCrlf l = none) : FirstCrlf (l ++ crlf ++ l₂) l.length := by
  have hnone := findCrlf_eq_none_iff.mp hline
  rw [List.append_assoc]
  refine ⟨?_, fun j hj hat => ?_⟩
  · rw [crlfAt_append_right (le_refl _), Nat.sub_self]
    simp [CrlfAt, crlf]
  by_cases hlast : j + 1 < l.length
  · exact hnone j ((crlfAt_append_left hlast).mp hat)
  · have hnext := hat.2
    rw [show j + 1 = l.length by omega, List.getElem?_append_right (le_refl _), Nat.sub_self] at hnext
    simp [crlf] at hnext

/-- A CR LF pair of the bytes received so far is one of the whole stream. -/
theorem CrlfAt.of_prefix (hb : b <+: l) (h : CrlfAt b i) : CrlfAt l i := by
  obtain ⟨t, rfl⟩ := hb
  exact (crlfAt_append_left h.lt_length).mpr h

/-- Once both bytes of the stream's first CR LF pair have arrived, it is the buffer's first. -/
theorem FirstCrlf.of_prefix (hb : b <+: l) (h : FirstCrlf l i) (hlen : i + 2 ≤ b.length) :
    FirstCrlf b i := by
  obtain ⟨t, rfl⟩ := hb
  exact ⟨(crlfAt_append_left (by omega)).mp h.1, fun j hj hat => h.2 j hj (hat.of_prefix ⟨t, rfl⟩)⟩

/-- Cutting a buffer just after the CR LF pair at `i`. -/
theorem CrlfAt.take_add_two (h : CrlfAt l i) : l.take (i + 2) = l.take i ++ crlf := by
  rw [List.take_add]
  congr 1
  obtain ⟨hcr, hlf⟩ := h
  rcases hdrop : l.drop i with _ | ⟨x, _ | ⟨y, t⟩⟩
  all_goals
    have h0 := List.getElem?_drop l i 0
    have h1 := List.getElem?_drop l i 1
    simp_all [crlf, List.getElem?_eq_none]

theorem FirstCrlf.unique (h : FirstCrlf l i) (h' : FirstCrlf l j) : i = j := by
  by_contra hne
  rcases Nat.lt_or_gt_of_ne hne with hlt | hlt
  · exact h'.2 i hlt h.1
  · exact h.2 j hlt h'.1

/-- A pair lying inside the middle part `b` of `l₁ ++ b ++ l₂`. -/
theorem crlfAt_middle (hlo : l₁.length ≤ i) (hhi : i + 1 < l₁.length + b.length) :
    CrlfAt (l₁ ++ b ++ l₂) i ↔ CrlfAt b (i - l₁.length) := by
  rw [crlfAt_append_left (by simpa using hhi), crlfAt_append_right hlo]

/-- The first pair of `b`, after a prefix `l₁` at which no pair starts, is the first pair of
`l₁ ++ b ++ l₂`. -/
theorem FirstCrlf.shift (hb : FirstCrlf b i) (hclean : ∀ j < l₁.length, ¬CrlfAt (l₁ ++ b ++ l₂) j) :
    FirstCrlf (l₁ ++ b ++ l₂) (l₁.length + i) := by
  have hlen := hb.1.lt_length
  refine ⟨(crlfAt_middle (by omega) (by omega)).mpr (by simpa using hb.1), fun j hj hat => ?_⟩
  by_cases hjl : j < l₁.length
  · exact hclean j hjl hat
  · exact hb.2 (j - l₁.length) (by omega) ((crlfAt_middle (by omega) (by omega)).mp hat)

/-! ## Buffer operations of the `bytes` crate -/

/-- `BytesMut::split_to(at)`: the first `at` bytes, and the rest left in the buffer.
Panics unless `at ≤ len`. -/
def splitTo (src : List UInt8) (n : Nat) : Option (List UInt8 × List UInt8) :=
  if n ≤ src.length then some (src.take n, src.drop n) else none

/-- `Buf::advance(cnt)`: drop `cnt` bytes from the front. Panics unless `cnt ≤ len`. -/
def advance (src : List UInt8) (cnt : Nat) : Option (List UInt8) :=
  if cnt ≤ src.length then some (src.drop cnt) else none

/-- `a - b` on `usize`, which panics on underflow. -/
def usizeSub (a b : Nat) : Option Nat :=
  if b ≤ a then some (a - b) else none

@[simp] theorem splitTo_of_le (h : n ≤ l.length) : splitTo l n = some (l.take n, l.drop n) :=
  if_pos h

@[simp] theorem advance_of_le (h : n ≤ l.length) : advance l n = some (l.drop n) :=
  if_pos h

@[simp] theorem usizeSub_of_le {a : Nat} (h : n ≤ a) : usizeSub a n = some (a - n) :=
  if_pos h


/-! ## Decimal numbers

`decimal` is `to_string` on an unsigned number: `Nat.toDigits 10`.  Its digits are described
here by `decimal_eq` (the last digit, after the digits of `n / 10`), and then by what a reader
of the wire needs: they are ASCII digits, at least one, and their value is the number. -/

theorem toDigitsCore_ten {n fuel : Nat} (ds : List Char) (h : n < fuel) :
    Nat.toDigitsCore 10 fuel n ds = Nat.toDigits 10 n ++ ds := by
  induction n using Nat.strong_induction_on generalizing fuel ds with
  | _ n ih =>
    obtain ⟨f, rfl⟩ := Nat.exists_eq_succ_of_ne_zero (by omega : fuel ≠ 0)
    unfold Nat.toDigits
    simp only [Nat.toDigitsCore]
    split
    · rfl
    · have hlt : n / 10 < n := Nat.div_lt_self (by omega) (by decide)
      rw [ih _ hlt _ (by omega), ih _ hlt _ (by omega), List.append_assoc]
      rfl

theorem toDigits_ten (n : Nat) :
    Nat.toDigits 10 n =
      (if n < 10 then [] else Nat.toDigits 10 (n / 10)) ++ [Nat.digitChar (n % 10)] := by
  conv_lhs => unfold Nat.toDigits
  simp only [Nat.toDigitsCore]
  split
  · have : n < 10 := by omega
    simp [this]
  · rw [toDigitsCore_ten _ (by omega)]
    simp [show ¬n < 10 by omega]

theorem digitChar_byte : ∀ d : Nat, d < 10 → (Nat.digitChar d).toNat.toUInt8 = (48 + d).toUInt8
  | 0, _ | 1, _ | 2, _ | 3, _ | 4, _ | 5, _ | 6, _ | 7, _ | 8, _ | 9, _ => rfl
  | _ + 10, h => absurd h (by omega)

/-- The decimal digits of `n`: those of `n / 10` when `n ≥ 10`, then the last digit. -/
theorem decimal_eq (n : Nat) :
    decimal n = (if n < 10 then [] else decimal (n / 10)) ++ [(48 + n % 10).toUInt8] := by
  have h (m : Nat) : decimal m = (Nat.toDigits 10 m).map fun c => c.toNat.toUInt8 := rfl
  rw [h, h, toDigits_ten]
  split <;> simp [digitChar_byte _ (Nat.mod_lt n (by decide))]

/-- An ASCII decimal digit, `b'0'..=b'9'`. -/
def IsDigit (b : UInt8) : Prop := 48 ≤ b.toNat ∧ b.toNat ≤ 57

instance (b : UInt8) : Decidable (IsDigit b) := inferInstanceAs (Decidable (_ ∧ _))

/-- The value of a string of decimal digits, most significant first. -/
def digitsValue (l : List UInt8) : Nat := l.foldl (fun acc b => 10 * acc + (b.toNat - 48)) 0

/-- Reads a number written in decimal: at least one digit, and nothing else. -/
def readDecimal (l : List UInt8) : Option Nat :=
  if l ≠ [] ∧ ∀ b ∈ l, IsDigit b then some (digitsValue l) else none

theorem digitsValue_append_singleton (l : List UInt8) (d : UInt8) :
    digitsValue (l ++ [d]) = 10 * digitsValue l + (d.toNat - 48) := by
  simp [digitsValue]

theorem digitByte_toNat {d : Nat} (h : d < 10) : (48 + d).toUInt8.toNat = 48 + d := by
  simp [Nat.toUInt8, UInt8.toNat, UInt8.ofNat, Fin.ofNat, Nat.mod_eq_of_lt (show 48 + d < 256 by omega)]

/-- `to_string` writes at least one digit, digits only, and their value is the number. -/
theorem decimal_spec (n : Nat) :
    decimal n ≠ [] ∧ (∀ d ∈ decimal n, IsDigit d) ∧ digitsValue (decimal n) = n := by
  induction n using Nat.strong_induction_on with
  | _ n ih =>
    have hd := digitByte_toNat (Nat.mod_lt n (by decide : 10 > 0))
    rw [decimal_eq]
    split
    · refine ⟨by simp, ?_, ?_⟩
      · simp only [List.nil_append, List.mem_singleton, forall_eq, IsDigit, hd]; omega
      · simp only [List.nil_append, digitsValue, List.foldl_cons, List.foldl_nil, hd]; omega
    · obtain ⟨-, hdig, hval⟩ := ih (n / 10) (Nat.div_lt_self (by omega) (by decide))
      refine ⟨by simp, fun d hd' => ?_, ?_⟩
      · rcases List.mem_append.mp hd' with hd' | hd'
        · exact hdig d hd'
        · rw [List.mem_singleton.mp hd']; simp only [IsDigit, hd]; omega
      · rw [digitsValue_append_singleton, hval, hd]; omega

@[simp] theorem readDecimal_decimal (n : Nat) : readDecimal (decimal n) = some n := by
  obtain ⟨hne, hdig, hval⟩ := decimal_spec n
  rw [readDecimal, if_pos ⟨hne, hdig⟩, hval]

theorem cr_not_mem_decimal (n : Nat) : cr ∉ decimal n := fun h =>
  absurd ((decimal_spec n).2.1 cr h) (by decide)

theorem findCrlf_decimal (n : Nat) : findCrlf (decimal n) = none :=
  findCrlf_eq_none_iff.mpr fun _ hat => cr_not_mem_decimal n (List.getElem?_mem hat.1)

/-- Bytes with no CR before a part with no CR LF pair hold no CR LF pair. -/
theorem findCrlf_append_of_cr_not_mem (h₁ : cr ∉ l₁) (h₂ : findCrlf l₂ = none) :
    findCrlf (l₁ ++ l₂) = none := by
  refine findCrlf_eq_none_iff.mpr fun i hat => ?_
  by_cases hi : l₁.length ≤ i
  · exact findCrlf_eq_none_iff.mp h₂ _ ((crlfAt_append_right hi).mp hat)
  · have hget : (l₁ ++ l₂)[i]? = l₁[i]? := List.getElem?_append_left (by omega)
    exact h₁ (List.getElem?_mem (hget ▸ hat.1))

end Wire
end Beanstalk
