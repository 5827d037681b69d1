import Formula.Proofs.Tracking
import Formula.Proofs.Visible

/-! Reading a number: it succeeds when a digit run after an optional `-` has a signed value that
fits in 64 bits, and a failed reading keeps its state (`Cursor.number_spec`). -/

namespace Formula

namespace Cursor

/-- The length of the sign that the bytes begin with: `1` for a `-`, else `0`. -/
def signLength (bs : List UInt8) : Nat := if bs.head? = some 45 then 1 else 0

/-- The run of digits after the sign. -/
def digitRun (bs : List UInt8) : List UInt8 := (bs.drop (signLength bs)).takeWhile Ascii.isDigit

/-- The value of the digits after the sign, negated after a `-`. -/
def signedValue (bs : List UInt8) : Int :=
  if signLength bs = 1 then -(Ascii.digitsOf (digitRun bs) : Int) else Ascii.digitsOf (digitRun bs)

/-- The values a 64-bit integer holds. -/
def Fits64 (v : Int) : Prop := -2 ^ 63 ≤ v ∧ v ≤ 2 ^ 63 - 1

instance (v : Int) : Decidable (Fits64 v) := inferInstanceAs (Decidable (_ ∧ _))

/-- The values that fit are those between the least and the greatest 64-bit integer. -/
theorem fits64_iff (v : Int) : Fits64 v ↔ Int64.minValue.toInt ≤ v ∧ v ≤ Int64.maxValue.toInt := by
  simp only [Int64.toInt_minValue, Int64.toInt_maxValue]
  rfl

theorem forward_add (c : Cursor) (m n : Nat) : c.forward (m + n) = (c.forward m).forward n := by
  induction m generalizing c with
  | zero => simp [forward]
  | succ m ih => rw [Nat.succ_add, forward, forward, ih]

/-- Skipping while `p` holds advances over the bytes that satisfy it. -/
theorem skipWhile_eq_forward (p : UInt8 → Bool) (c : Cursor) :
    c.skipWhile p = c.forward (c.ahead.takeWhile p).length := by
  -- the fuel `unread` is the length of the unread list, so it never runs out first
  suffices ∀ n (c : Cursor), c.ahead.length ≤ n →
      skipWhile.go p n c = c.forward (c.ahead.takeWhile p).length from
    this _ c (Nat.le_of_eq (length_ahead c))
  intro n
  induction n with
  | zero =>
    intro c h
    have : c.ahead = [] := List.eq_nil_of_length_eq_zero (by omega)
    simp [skipWhile.go, this, forward]
  | succ n ih =>
    intro c h
    simp only [skipWhile.go, peek?_eq]
    rcases hc : c.ahead with _ | ⟨b, bs⟩
    · simp [forward]
    · by_cases hp : p b
      · have hlen : c.advance.ahead.length ≤ n := by
          rw [advance_ahead, hc]
          simp only [hc, List.length_cons] at h
          simpa using h
        simp only [List.head?_cons, hp, if_true, List.takeWhile_cons_of_pos hp, List.length_cons,
          forward]
        rw [ih _ hlen, advance_ahead, hc]
        rfl
      · simp [hp, List.takeWhile_cons_of_neg hp, forward]

theorem offset_forward {c : Cursor} {n : Nat} (h : n ≤ c.ahead.length) :
    (c.forward n).offset = c.offset + n := by
  have hs : c.ahead = c.ahead.take n ++ (c.forward n).ahead := by
    rw [forward_ahead, List.take_append_drop]
  rw [offset_of_ahead (forward_text n c) hs, List.length_take, Nat.min_eq_left h]

/-- The sign and the digits after it are bytes of the text. -/
theorem signLength_add_length_le (bs : List UInt8) :
    signLength bs + (digitRun bs).length ≤ bs.length := by
  have hd : (digitRun bs).length ≤ (bs.drop (signLength bs)).length :=
    List.IsPrefix.length_le (List.takeWhile_prefix _)
  have hs : signLength bs ≤ bs.length := by
    unfold signLength
    split
    · rename_i h
      cases bs with
      | nil => simp at h
      | cons b bs => simp
    · exact Nat.zero_le _
  rw [List.length_drop] at hd
  omega

/-- Consuming a sign moves over it when there is one. -/
theorem consume?_sign (c : Cursor) : (c.consume? 45).getD c = c.forward (signLength c.ahead) ∧
    (c.consume? 45).isSome = decide (signLength c.ahead = 1) := by
  unfold consume? signLength
  rw [peek?_eq]
  by_cases h : c.ahead.head? = some 45
  · simp [h, forward]
  · simp [h, forward]

/-- The digits after the sign, and the cursor past them. -/
theorem takeWhile_digits (c : Cursor) :
    ((c.forward (signLength c.ahead)).takeWhile Ascii.isDigit).1.data.toList = digitRun c.ahead ∧
      ((c.forward (signLength c.ahead)).takeWhile Ascii.isDigit).2 =
        c.forward (signLength c.ahead + (digitRun c.ahead).length) := by
  obtain ⟨h₁, h₂⟩ := takeWhile_eq Ascii.isDigit (c.forward (signLength c.ahead))
  rw [forward_ahead] at h₁
  refine ⟨h₁, ?_⟩
  rw [h₂, skipWhile_eq_forward, forward_ahead, ← forward_add]
  rfl

theorem size_digits_eq_zero (c : Cursor) :
    ((c.forward (signLength c.ahead)).takeWhile Ascii.isDigit).1.size = 0 ↔ digitRun c.ahead = [] := by
  rw [← (takeWhile_digits c).1, ← List.length_eq_zero_iff, Array.length_toList, ByteArray.size_data]

/-- The value the scanner computes is the signed value of the digits after the sign. -/
theorem value_digits (c : Cursor) :
    (if (c.consume? 45).isSome then
        -(Ascii.digitsValue ((c.forward (signLength c.ahead)).takeWhile Ascii.isDigit).1 : Int)
      else Ascii.digitsValue ((c.forward (signLength c.ahead)).takeWhile Ascii.isDigit).1) =
      signedValue c.ahead := by
  have hv : Ascii.digitsValue ((c.forward (signLength c.ahead)).takeWhile Ascii.isDigit).1 =
      Ascii.digitsOf (digitRun c.ahead) := by
    rw [Ascii.digitsValue_eq, (takeWhile_digits c).1]
    rfl
  rw [(consume?_sign c).2, hv, signedValue]
  by_cases h : signLength c.ahead = 1 <;> simp [h]

/-- Without a digit after the sign, reading fails where the digit should be. -/
theorem number_of_digitRun_nil {c : Cursor} (h : digitRun c.ahead = []) :
    ∃ msg, c.number = .error (.error (c.forward (signLength c.ahead)).location msg
      .unexpectedCharacter) := by
  have hz := (size_digits_eq_zero c).mpr h
  simp only [number, (consume?_sign c).1, hz, if_true]
  exact ⟨_, rfl⟩

/-- A value that fits is read, over the sign and the digits, with the cursor past them. -/
theorem number_of_fits {c : Cursor} (h : digitRun c.ahead ≠ []) (hv : Fits64 (signedValue c.ahead)) :
    ∃ x : Int64, x.toInt = signedValue c.ahead ∧
      c.number = .ok (⟨x, ⟨c.offset, c.offset + signLength c.ahead + (digitRun c.ahead).length⟩⟩,
        c.forward (signLength c.ahead + (digitRun c.ahead).length)) := by
  have hz : ¬ ((c.forward (signLength c.ahead)).takeWhile Ascii.isDigit).1.size = 0 :=
    fun hz => h ((size_digits_eq_zero c).mp hz)
  have hoff := offset_forward (signLength_add_length_le c.ahead)
  unfold number
  simp only [(consume?_sign c).1, hz, if_false, value_digits, dif_pos ((fits64_iff _).mp hv),
    (takeWhile_digits c).2]
  simp only [spanFrom, hoff, Nat.add_assoc, Except.ok.injEq, Prod.mk.injEq, Spanned.mk.injEq,
    and_true]
  exact ⟨_, by simp, rfl⟩

/-- A value that does not fit is refused at the start of the number. -/
theorem number_of_not_fits {c : Cursor} (h : digitRun c.ahead ≠ [])
    (hv : ¬ Fits64 (signedValue c.ahead)) :
    ∃ msg, c.number = .error (.error c.location msg .invalidNumber) := by
  have hz : ¬ ((c.forward (signLength c.ahead)).takeWhile Ascii.isDigit).1.size = 0 :=
    fun hz => h ((size_digits_eq_zero c).mp hz)
  unfold number
  simp only [(consume?_sign c).1, hz, if_false, value_digits, dif_neg (mt (fits64_iff _).mpr hv)]
  exact ⟨_, rfl⟩

/-- When reading a number succeeds, what it read; when it fails, why and where; and a reading
that runs it keeps its state when it fails. -/
theorem number_spec (c : Cursor) :
    ((∃ n d, c.number = .ok (n, d)) ↔ digitRun c.ahead ≠ [] ∧ Fits64 (signedValue c.ahead)) ∧
    (∀ n d, c.number = .ok (n, d) → n.val.toInt = signedValue c.ahead ∧
      n.span = ⟨c.offset, c.offset + signLength c.ahead + (digitRun c.ahead).length⟩ ∧
      d = c.forward (signLength c.ahead + (digitRun c.ahead).length)) ∧
    (∀ e, c.number = .error e →
      ((digitRun c.ahead = [] ∧ e.fault = some .unexpectedCharacter ∧
          e.location = (c.forward (signLength c.ahead)).location) ∨
        (digitRun c.ahead ≠ [] ∧ ¬ Fits64 (signedValue c.ahead) ∧ e.fault = some .invalidNumber ∧
          e.location = c.location)) ∧
      ∀ r : Reading, r.cursor = c → Reader.scan Cursor.number r = .error e r) := by
  refine ⟨⟨?_, ?_⟩, ?_, ?_⟩
  · rintro ⟨n, d, hn⟩
    -- the two ways to fail are errors
    by_cases hd : digitRun c.ahead = []
    · obtain ⟨msg, he⟩ := number_of_digitRun_nil hd
      rw [he] at hn
      cases hn
    · refine ⟨hd, ?_⟩
      by_contra hv
      obtain ⟨msg, he⟩ := number_of_not_fits hd hv
      rw [he] at hn
      cases hn
  · rintro ⟨hd, hv⟩
    obtain ⟨x, -, he⟩ := number_of_fits hd hv
    exact ⟨_, _, he⟩
  · intro n d hn
    by_cases hd : digitRun c.ahead = []
    · obtain ⟨msg, he⟩ := number_of_digitRun_nil hd
      rw [he] at hn
      cases hn
    by_cases hv : Fits64 (signedValue c.ahead)
    · obtain ⟨x, hx, he⟩ := number_of_fits hd hv
      rw [he] at hn
      cases hn
      exact ⟨hx, rfl, rfl⟩
    · obtain ⟨msg, he⟩ := number_of_not_fits hd hv
      rw [he] at hn
      cases hn
  · intro e hn
    refine ⟨?_, fun r hr => by simp [Reader.scan, hr, hn]⟩
    by_cases hd : digitRun c.ahead = []
    · obtain ⟨msg, he⟩ := number_of_digitRun_nil hd
      rw [he] at hn
      cases hn
      exact .inl ⟨hd, rfl, rfl⟩
    by_cases hv : Fits64 (signedValue c.ahead)
    · obtain ⟨x, -, he⟩ := number_of_fits hd hv
      rw [he] at hn
      cases hn
    · obtain ⟨msg, he⟩ := number_of_not_fits hd hv
      rw [he] at hn
      cases hn
      exact .inr ⟨hd, hv, rfl, rfl⟩

/-- The least 64-bit value is read with its sign, over all twenty bytes; without the sign it is
one past the greatest and is refused at the start. -/
theorem number_spec_least :
    (start "-9223372036854775808".toUTF8).number =
        .ok (⟨Int64.minValue, ⟨0, 20⟩⟩, (start "-9223372036854775808".toUTF8).forward 20) ∧
      Int64.minValue.toInt = signedValue (start "-9223372036854775808".toUTF8).ahead ∧
      (start "9223372036854775808".toUTF8).number = .error (.error ⟨0, 1, 0⟩
        "invalid number '9223372036854775808': out of range for a 64-bit integer" .invalidNumber) ∧
      ¬ Fits64 (signedValue (start "9223372036854775808".toUTF8).ahead) := by
  have hleast : (start "-9223372036854775808".toUTF8).number =
      .ok (⟨Int64.minValue, ⟨0, 20⟩⟩, (start "-9223372036854775808".toUTF8).forward 20) := rfl
  have hover : (start "9223372036854775808".toUTF8).number = .error (.error ⟨0, 1, 0⟩
      "invalid number '9223372036854775808': out of range for a 64-bit integer" .invalidNumber) :=
    rfl
  have hrefused := ((number_spec _).2.2 _ hover).1
  refine ⟨hleast, ((number_spec _).2.1 _ _ hleast).1, hover, ?_⟩
  rcases hrefused with ⟨-, hf, -⟩ | ⟨-, hv, -⟩
  · cases hf
  · exact hv

end Cursor

end Formula
