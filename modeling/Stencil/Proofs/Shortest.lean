import Stencil.Proofs.Numerals
import Stencil.Proofs.Rounding
import Stencil.Tree.Reader

namespace Stencil.Double

namespace Interval

theorem contains_of_pick {i : Interval} {tie : Tie} {scale : Int} {n : Nat}
    (h : i.pick tie scale = some n) : i.contains n scale = true := by
  unfold pick at h
  generalize i.contains = holds at h ⊢
  generalize i.scaled scale = p at h
  obtain ⟨a, b⟩ := p
  simp only at h
  generalize a / b = k at h
  cases hk : holds k scale <;> cases hk' : holds (k + 1) scale <;> simp only [hk, hk'] at h
  · cases h
  · cases h
    exact hk'
  · cases h
    exact hk
  · have heven : k + k % 2 = k ∨ k + k % 2 = k + 1 := by omega
    split at h
    · cases h
      exact hk
    · cases h
      exact hk'
    · cases h
      exact hk'
    · cases h
      obtain heven | heven := heven
      · rw [heven]
        exact hk
      · rw [heven]
        exact hk'

theorem pow_mul_mul_pow_div (v k : Nat) : 2 ^ k * (v * 10 ^ k / 2 ^ k) = v * 10 ^ k := by
  have hten : 10 ^ k = 5 ^ k * 2 ^ k := Nat.mul_pow 5 2 k
  rw [hten, ← Nat.mul_assoc, Nat.mul_div_cancel _ (Nat.two_pow_pos k), Nat.mul_comm]

theorem encloses_of_mul_eq_value {i : Interval} (hlow : i.low < i.value) (hhigh : i.value < i.high)
    {a b : Nat} (hb : 0 < b) (heq : 2 ^ 1076 * a = i.value * b) : i.Encloses a b := by
  have hlow' := Nat.mul_lt_mul_of_pos_right hlow hb
  have hhigh' := Nat.mul_lt_mul_of_pos_right hhigh hb
  rw [← heq] at hlow' hhigh'
  refine ⟨Nat.le_of_lt hlow', Nat.le_of_lt hhigh', ?_⟩
  rintro (hends | hends)
  · exact (Nat.ne_of_lt hlow' hends).elim
  · exact (Nat.ne_of_lt hhigh' hends).elim

/-- What is looked for is found, at the finest scale if not before. -/
theorem encloses_search {i : Interval} (hlow : i.low < i.value) (hhigh : i.value < i.high)
    (tie : Tie) {tries : Nat} {scale : Int} (hscale : scale - tries = .negSucc 1075) :
    i.Encloses (i.search tie tries scale).ratio.1 (i.search tie tries scale).ratio.2 := by
  induction tries generalizing scale with
  | zero =>
    obtain rfl : scale = .negSucc 1075 := by simpa using hscale
    refine encloses_of_mul_eq_value hlow hhigh (Decimal.ratio_pos _) ?_
    simp only [search, scaled, Decimal.ratio, Nat.reduceAdd]
    exact pow_mul_mul_pow_div i.value 1076
  | succ tries ih =>
    rw [search]
    split
    next n hpick => exact encloses_of_contains (contains_of_pick hpick)
    next => exact ih (by omega)

/-- A fraction of a number below `2 ^ k` has no more than `k` digits. -/
theorem length_decimal_div_le (v k : Nat) (hk : 0 < k) :
    (Text.decimal ((2 ^ k - 1) / v)).length ≤ k := by
  have hpow : 2 ^ k - 1 < 10 ^ k :=
    Nat.lt_of_lt_of_le (Nat.sub_one_lt_of_lt (Nat.two_pow_pos k))
      (Nat.pow_le_pow_left (by decide) k)
  have hlt : (2 ^ k - 1) / v < 10 ^ k := Nat.lt_of_le_of_lt (Nat.div_le_self _ _) hpow
  exact (Nat.length_toDigits_le_iff (by decide) hk).2 hlt

theorem le_exponent (i : Interval) : -1076 ≤ i.exponent := by
  have hlen := length_decimal_div_le i.value 1076 (by decide)
  unfold exponent
  generalize 2 ^ 1076 = one at hlen ⊢
  simp only
  split <;> omega

theorem ofMagnitude_bounds {m : Nat} (hpos : 0 < m) :
    (ofMagnitude m).low < (ofMagnitude m).value ∧ (ofMagnitude m).value < (ofMagnitude m).high := by
  have hgap : 0 < 2 ^ shift m := Nat.two_pow_pos _
  have hunits : 0 < units m := by
    refine Nat.mul_pos (Nat.pos_of_ne_zero fun hzero => ?_) hgap
    have hsum := shift_mul_add_significand m
    have hle := le_significand (m := m)
    obtain hshift | hshift := Nat.eq_zero_or_pos (shift m)
    · rw [hshift, hzero] at hsum
      omega
    · have := hle hshift
      rw [hzero] at this
      exact absurd this (by decide)
  simp only [ofMagnitude]
  generalize 2 ^ shift m = gap at hgap ⊢
  generalize units m = u at hunits ⊢
  split <;> omega

end Interval

theorem encloses_shortest (tie : Tie) {m : Nat} (hpos : 0 < m) :
    (Interval.ofMagnitude m).Encloses (shortest tie m).ratio.1 (shortest tie m).ratio.2 := by
  obtain ⟨hlow, hhigh⟩ := Interval.ofMagnitude_bounds hpos
  have hexponent := (Interval.ofMagnitude m).le_exponent
  rw [shortest, if_neg (Nat.ne_of_gt hpos)]
  refine Interval.encloses_search hlow hhigh tie ?_
  have htries := Int.toNat_of_nonneg (a := (Interval.ofMagnitude m).exponent + 1 + 1076) (by omega)
  rw [htries]
  omega

theorem nearest_zero (b : Nat) : nearest 0 b = 0 := by
  simp only [nearest, Nat.zero_mul, Nat.zero_div, Nat.log2_zero]
  simp [roundQuotient]

theorem nearest_of_shortest {tie : Tie} {m a b : Nat} (hm : m < infinite) (hb : 0 < b)
    (heq : a * (shortest tie m).ratio.2 = (shortest tie m).ratio.1 * b) : nearest a b = m := by
  obtain rfl | hpos := Nat.eq_zero_or_pos m
  · have hzero : (shortest tie 0).ratio = (0, 1) := rfl
    rw [hzero, Nat.mul_one, Nat.zero_mul] at heq
    rw [heq, nearest_zero]
  · exact nearest_of_encloses hb hpos hm
      ((encloses_shortest tie hpos).of_mul_eq (Decimal.ratio_pos _) hb heq)

theorem ofMagnitude_magnitude {x : Double} (h : x.isNegative = false) :
    ofMagnitude false x.magnitude = x := by
  obtain ⟨bits⟩ := x
  have hlt : bits.toNat < 2 ^ 63 := Nat.lt_of_not_le (of_decide_eq_false h)
  simp only [ofMagnitude, magnitude, Bool.false_eq_true, if_false, Nat.mod_eq_of_lt hlt,
    UInt64.ofNat_toNat]

theorem ofDecimal_eq (negative : Bool) (d : Decimal) :
    ofDecimal negative d = ofMagnitude negative (nearest d.ratio.1 d.ratio.2) := rfl

theorem nearest_le (a b : Nat) : nearest a b ≤ infinite := by
  rw [nearest_eq_min]
  exact Nat.min_le_right _ _

theorem isNegative_ofMagnitude {m : Nat} (h : m ≤ infinite) :
    (ofMagnitude false m).isNegative = false := by
  have hinf : infinite < 2 ^ 63 := by decide
  have hbits : (ofMagnitude false m).bits.toNat = m :=
    UInt64.toNat_ofNat_of_lt' (Nat.lt_of_le_of_lt h (by decide))
  exact decide_eq_false (by omega)

theorem isNegative_ofDecimal (d : Decimal) : (ofDecimal false d).isNegative = false := by
  rw [ofDecimal_eq]
  exact isNegative_ofMagnitude (nearest_le _ _)

section Render

variable {x : Double} (hfinite : x.isFinite = true) (hsign : x.isNegative = false)

include hfinite hsign

theorem render_eq_positional : x.render = (shortest .up x.magnitude).positional := by
  have hm : x.magnitude < infinite := of_decide_eq_true hfinite
  have hnumber : x.isNaN = false := decide_eq_false (Nat.lt_asymm hm)
  simp only [render, hnumber, hfinite, hsign, Bool.false_eq_true, if_false, if_true]

/-- The spelling of a finite number without a sign is read as the number. -/
theorem ofPositional?_render :
    ∃ d, Decimal.ofPositional? x.render = some d ∧ ofDecimal false d = x := by
  obtain ⟨d, hd, heq⟩ := (shortest .up x.magnitude).ofPositional?_positional
  refine ⟨d, render_eq_positional hfinite hsign ▸ hd, ?_⟩
  rw [ofDecimal_eq, nearest_of_shortest (of_decide_eq_true hfinite) d.ratio_pos heq,
    ofMagnitude_magnitude hsign]

end Render

end Stencil.Double
