import Mathlib.Data.List.Forall2
import Mathlib.Data.Nat.Digits.Defs
import Stencil.Text.Numeral

namespace Stencil.Text

/-- The character is the digit `d` in a base up to 16, where letters may be of either case. -/
def IsDigit (base : Nat) (c : Char) (d : Nat) : Prop :=
  d < base ∧ ("0123456789abcdef".toList[d]? = some c ∨ "0123456789ABCDEF".toList[d]? = some c)

instance (base : Nat) (c : Char) (d : Nat) : Decidable (IsDigit base c d) :=
  inferInstanceAs (Decidable (_ ∧ _))

/-- The text is digits that have the value `n`, the highest one first. -/
def IsNumeral (base : Nat) (ds : Text) (n : Nat) : Prop :=
  ∃ digits, List.Forall₂ (IsDigit base) ds digits ∧ Nat.ofDigits base digits.reverse = n

def bases : List Nat := [8, 16]

variable {base count d n v : Nat} {c : Char} {s ds rest : Text}

theorem lt_of_digitValue? (h : digitValue? base c = some d) : d < base := by
  simp only [digitValue?, Option.ite_none_right_eq_some, Option.some.injEq] at h
  obtain ⟨hlt, rfl⟩ := h
  exact hlt

theorem digitValue?_eq_none (h : 128 ≤ c.toNat) : digitValue? base c = none := by
  have hlt : ∀ e : Char, e.toNat < 128 → ¬ c ≤ e := by
    intro e he hle
    exact absurd (Char.le_def.1 hle) (Nat.not_le.2 (Nat.lt_of_lt_of_le he h))
  simp [digitValue?, hlt '9' (by decide), hlt 'f' (by decide), hlt 'F' (by decide)]

theorem digitValue?_eq_some_iff (hb : base ∈ bases) :
    digitValue? base c = some d ↔ IsDigit base c d := by
  have hascii : ∀ base ∈ bases, ∀ k < 128, ∀ d < 16,
      digitValue? base (Char.ofNat k) = some d ↔ IsDigit base (Char.ofNat k) d := by decide +kernel
  have hall : ("0123456789abcdef".toList ++ "0123456789ABCDEF".toList).all (·.toNat < 128) := by
    decide
  have hdigits : ∀ e ∈ "0123456789abcdef".toList ++ "0123456789ABCDEF".toList, e.toNat < 128 :=
    fun e he => of_decide_eq_true (List.all_eq_true.1 hall e he)
  have hbase : ∀ base ∈ bases, base ≤ 16 := by decide
  by_cases hc : c.toNat < 128
  · by_cases hd : d < 16
    · have h := hascii base hb c.toNat hc d hd
      rwa [Char.ofNat_toNat] at h
    · constructor
      · intro h
        exact (hd (Nat.lt_of_lt_of_le (lt_of_digitValue? h) (hbase base hb))).elim
      · intro h
        exact (hd (Nat.lt_of_lt_of_le h.1 (hbase base hb))).elim
  · rw [digitValue?_eq_none (Nat.le_of_not_lt hc)]
    constructor
    · intro h
      cases h
    · rintro ⟨-, h | h⟩
      · exact (hc (hdigits c (List.mem_append_left _ (List.mem_of_getElem? h)))).elim
      · exact (hc (hdigits c (List.mem_append_right _ (List.mem_of_getElem? h)))).elim

theorem isNumeral_nil_iff : IsNumeral base [] n ↔ n = 0 := by
  constructor
  · rintro ⟨digits, h, rfl⟩
    cases h
    rfl
  · rintro rfl
    exact ⟨[], .nil, rfl⟩

theorem isNumeral_cons_iff : IsNumeral base (c :: ds) n ↔
    ∃ d m, IsDigit base c d ∧ IsNumeral base ds m ∧ n = d * base ^ ds.length + m := by
  have hvalue : ∀ (d : Nat) (digits : List Nat), Nat.ofDigits base (d :: digits).reverse =
      d * base ^ digits.length + Nat.ofDigits base digits.reverse := by
    intro d digits
    rw [List.reverse_cons, Nat.ofDigits_append, Nat.ofDigits_singleton, List.length_reverse,
      Nat.mul_comm, Nat.add_comm]
  constructor
  · rintro ⟨digits, h, rfl⟩
    cases h with
    | @cons _ d _ digits hd hds =>
      refine ⟨d, _, hd, ⟨digits, hds, rfl⟩, ?_⟩
      rw [hvalue, hds.length_eq]
  · rintro ⟨d, m, hd, ⟨digits, hds, rfl⟩, rfl⟩
    refine ⟨d :: digits, .cons hd hds, ?_⟩
    rw [hvalue, hds.length_eq]

theorem readDigits_eq_some_iff (hb : base ∈ bases) : readDigits base count s = some (n, rest) ↔
    ∃ ds, s = ds ++ rest ∧ ds.length = count ∧ IsNumeral base ds n := by
  induction count generalizing s n rest with
  | zero =>
    simp only [readDigits, Option.some.injEq, Prod.mk.injEq, List.length_eq_zero_iff]
    constructor
    · rintro ⟨rfl, rfl⟩
      exact ⟨[], rfl, rfl, isNumeral_nil_iff.2 rfl⟩
    · rintro ⟨ds, rfl, rfl, hn⟩
      exact ⟨(isNumeral_nil_iff.1 hn).symm, rfl⟩
  | succ count ih =>
    cases s with
    | nil =>
      constructor
      · intro h
        cases h
      · rintro ⟨ds, hs, hlength, -⟩
        obtain ⟨rfl, -⟩ := List.append_eq_nil_iff.1 hs.symm
        cases hlength
    | cons c s =>
      simp only [readDigits, Option.bind_eq_bind, Option.bind_eq_some_iff, Option.pure_def,
        Option.some.injEq, Prod.mk.injEq, Prod.exists, digitValue?_eq_some_iff hb, ih]
      constructor
      · rintro ⟨d, hd, m, _, ⟨ds, rfl, rfl, hm⟩, rfl, rfl⟩
        exact ⟨c :: ds, rfl, rfl, isNumeral_cons_iff.2 ⟨d, m, hd, hm, rfl⟩⟩
      · rintro ⟨ds, hs, hlength, hn⟩
        cases ds with
        | nil => cases hlength
        | cons e ds =>
          obtain ⟨rfl, rfl⟩ := List.cons.inj hs
          obtain ⟨d, m, hd, hm, rfl⟩ := isNumeral_cons_iff.1 hn
          cases hlength
          exact ⟨d, hd, m, rest, ⟨ds, rfl, rfl, hm⟩, rfl, rfl⟩

theorem lt_of_readDigits (h : readDigits base count s = some (n, rest)) : n < base ^ count := by
  induction count generalizing s n with
  | zero =>
    cases h
    exact Nat.one_pos
  | succ count ih =>
    cases s with
    | nil => cases h
    | cons c s =>
      simp only [readDigits, Option.bind_eq_bind, Option.bind_eq_some_iff] at h
      obtain ⟨d, hd, ⟨m, rest'⟩, hm, heq⟩ := h
      cases heq
      have hlow := ih hm
      have hhigh : (d + 1) * base ^ count ≤ base * base ^ count :=
        Nat.mul_le_mul_right _ (lt_of_digitValue? hd)
      rw [Nat.add_mul, Nat.one_mul] at hhigh
      rw [Nat.pow_succ']
      omega

end Stencil.Text
