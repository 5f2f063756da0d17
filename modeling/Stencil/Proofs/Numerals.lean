import Mathlib.Data.List.TakeDrop
import Stencil.Decimal

namespace Stencil

namespace Text

theorem digitValue?_of_isDigit {c : Char} (h : c.isDigit = true) :
    digitValue? 10 c = some (c.toNat - '0'.toNat) := by
  have hc : '0' ≤ c ∧ c ≤ '9' := by simpa [Char.isDigit, Char.le_def] using h
  have hlt : c.toNat - '0'.toNat < 10 := by
    have hle : c.toNat ≤ '9'.toNat := hc.2
    have hnine : '9'.toNat = 57 := rfl
    have hzero : '0'.toNat = 48 := rfl
    omega
  simp only [digitValue?, if_pos hc, if_pos hlt]

theorem numeral?_of_isDigit {s : Text} (hne : s ≠ []) (h : ∀ c ∈ s, c.isDigit = true) :
    numeral? 10 s = some (Nat.ofDigitChars 10 s 0) := by
  have hfold : ∀ n, s.foldlM (fun n c => (digitValue? 10 c).map (n * 10 + ·)) n =
      some (Nat.ofDigitChars 10 s n) := by
    clear hne
    induction s with
    | nil =>
      intro n
      rfl
    | cons c s ih =>
      intro n
      rw [List.forall_mem_cons] at h
      rw [List.foldlM_cons, digitValue?_of_isDigit h.1, Nat.ofDigitChars_cons, Nat.mul_comm 10 n]
      exact ih h.2 _
  rw [numeral?]
  · exact hfold 0
  · exact hne

theorem isDigit_of_mem_decimal {n : Nat} : ∀ c ∈ decimal n, c.isDigit = true := fun _ hc =>
  Nat.isDigit_of_mem_toDigits (by decide) (by decide) hc

theorem decimal_ne_nil (n : Nat) : decimal n ≠ [] := Nat.toDigits_ne_nil

theorem ofDigitChars_decimal (n : Nat) : Nat.ofDigitChars 10 (decimal n) 0 = n :=
  Nat.ofDigitChars_ten_toDigits

theorem numeral?_decimal (n : Nat) : numeral? 10 (decimal n) = some n := by
  rw [numeral?_of_isDigit (decimal_ne_nil n) isDigit_of_mem_decimal, ofDigitChars_decimal]

end Text

namespace Decimal

open Text

theorem ratio_pos (d : Decimal) : 0 < d.ratio.2 := by
  unfold ratio
  split
  · exact Nat.one_pos
  · exact Nat.pow_pos (by decide)

/-- The digits before the point and after it are those of the number, with zeros where it has
none. -/
theorem parts_spec (d : Decimal) :
    d.parts.1 ≠ [] ∧ (∀ c ∈ d.parts.1 ++ d.parts.2, c.isDigit = true) ∧
      Nat.ofDigitChars 10 (d.parts.1 ++ d.parts.2) 0 * d.ratio.2 =
        d.ratio.1 * 10 ^ d.parts.2.length := by
  obtain ⟨digits, scale⟩ := d
  cases scale with
  | ofNat n =>
    simp only [parts, ratio, List.append_nil]
    refine ⟨by simp [decimal_ne_nil], fun c hc => ?_, ?_⟩
    · obtain hc | hc := List.mem_append.1 hc
      · exact isDigit_of_mem_decimal c hc
      · rw [List.eq_of_mem_replicate hc]
        rfl
    · rw [Nat.ofDigitChars_append, ofDigitChars_decimal, Nat.ofDigitChars_replicate_zero]
      simp [Nat.mul_comm]
  | negSucc n =>
    simp only [parts, ratio, List.splitAt_eq, List.take_append_drop]
    have hlen : n + 2 ≤ ((decimal digits).leftpad (n + 2) '0').length := by
      rw [List.length_leftpad]
      exact Nat.le_max_left _ _
    refine ⟨?_, fun c hc => ?_, ?_⟩
    · rw [ne_eq, List.take_eq_nil_iff, not_or]
      refine ⟨by omega, fun h => ?_⟩
      rw [h] at hlen
      simp at hlen
    · obtain hc | hc := List.mem_append.1 hc
      · rw [List.eq_of_mem_replicate hc]
        rfl
      · exact isDigit_of_mem_decimal c hc
    · rw [List.leftpad, Nat.ofDigitChars_append, Nat.ofDigitChars_replicate_zero, Nat.mul_zero,
        ofDigitChars_decimal]
      rw [List.length_drop]
      congr 2
      rw [← List.leftpad]
      omega

theorem positional_eq (d : Decimal) : ∃ fraction : Text, d.positional = d.parts.1 ++ '.' :: fraction ∧
    fraction ≠ [] ∧ (∀ c ∈ d.parts.1 ++ fraction, c.isDigit = true) ∧
      Nat.ofDigitChars 10 (d.parts.1 ++ fraction) 0 * d.ratio.2 =
        d.ratio.1 * 10 ^ fraction.length := by
  obtain ⟨-, hdigits, hvalue⟩ := d.parts_spec
  rw [positional]
  generalize d.parts = p at hdigits hvalue ⊢
  obtain ⟨whole, fraction⟩ := p
  simp only at hdigits hvalue ⊢
  cases fraction with
  | nil =>
    refine ⟨['0'], rfl, by simp, fun c hc => ?_, ?_⟩
    · obtain hc | hc := List.mem_append.1 hc
      · exact hdigits c (by simpa using hc)
      · rw [List.mem_singleton.1 hc]
        rfl
    · rw [List.append_nil, List.length_nil, Nat.pow_zero, Nat.mul_one] at hvalue
      rw [Nat.ofDigitChars_append, Nat.ofDigitChars_cons, Nat.ofDigitChars_nil]
      simp only [Nat.sub_self, Nat.add_zero, List.length_singleton, Nat.pow_one]
      rw [Nat.mul_assoc, hvalue, Nat.mul_comm]
  | cons c fraction => exact ⟨c :: fraction, rfl, by simp, hdigits, hvalue⟩

theorem ofPositional?_of_isDigit {whole fraction : Text} (hwhole : whole ≠ [])
    (hfraction : fraction ≠ []) (h : ∀ c ∈ whole ++ fraction, c.isDigit = true) :
    ofPositional? (whole ++ '.' :: fraction) =
      some ⟨Nat.ofDigitChars 10 (whole ++ fraction) 0, -fraction.length⟩ := by
  rw [List.forall_mem_append] at h
  have hpoint : ∀ c ∈ whole, (c != '.') = true := by
    intro c hc
    have := h.1 c hc
    rw [bne_iff_ne]
    rintro rfl
    exact absurd this (by decide)
  have hspan : (whole ++ '.' :: fraction).span (· != '.') = (whole, '.' :: fraction) := by
    rw [List.span_eq_takeWhile_dropWhile, List.takeWhile_append_of_pos hpoint,
      List.dropWhile_append_of_pos hpoint]
    simp
  have hvalue : Nat.ofDigitChars 10 (whole ++ fraction) 0 =
      Nat.ofDigitChars 10 whole 0 * 10 ^ fraction.length + Nat.ofDigitChars 10 fraction 0 := by
    obtain ⟨c, t, rfl⟩ := List.exists_cons_of_ne_nil hfraction
    rw [Nat.ofDigitChars_append, Nat.ofDigitChars_eq_ofDigitChars_zero,
      Nat.mul_comm (10 ^ (c :: t).length)]
  simp only [ofPositional?, hspan, List.tail?_cons, numeral?_of_isDigit hwhole h.1,
    numeral?_of_isDigit hfraction h.2, Option.bind_eq_bind, Option.bind_some, Option.pure_def, hvalue]

/-- The positional notation of a number is read as the same number. -/
theorem ofPositional?_positional (d : Decimal) : ∃ d', ofPositional? d.positional = some d' ∧
    d'.ratio.1 * d.ratio.2 = d.ratio.1 * d'.ratio.2 := by
  obtain ⟨fraction, hpos, hne, hdigits, hvalue⟩ := d.positional_eq
  obtain ⟨hwhole, -⟩ := d.parts_spec
  rw [hpos]
  refine ⟨_, ofPositional?_of_isDigit hwhole hne hdigits, ?_⟩
  obtain ⟨c, t, rfl⟩ := List.exists_cons_of_ne_nil hne
  exact hvalue

end Decimal

end Stencil
