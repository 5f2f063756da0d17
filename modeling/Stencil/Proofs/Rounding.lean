import Stencil.Double.Shortest

namespace Stencil.Double

theorem roundQuotient_eq {n d k : Nat} (hd : 0 < d) (hlow : 2 * (k * d) ≤ 2 * n + d)
    (hhigh : 2 * n ≤ 2 * (k * d) + d)
    (heven : 2 * (k * d) = 2 * n + d ∨ 2 * n = 2 * (k * d) + d → k % 2 = 0) :
    roundQuotient n d = k := by
  unfold roundQuotient
  obtain hlt | hle := Nat.lt_or_ge n (k * d)
  · obtain ⟨j, rfl⟩ : ∃ j, k = j + 1 := by
      cases k with
      | zero => simp at hlt
      | succ j => exact ⟨j, rfl⟩
    have hsucc : (j + 1) * d = j * d + d := Nat.succ_mul j d
    rw [hsucc] at hlow hhigh heven hlt
    have hq : n / d = j := Nat.div_eq_of_lt_le (by omega) (by omega)
    have hr : n % d = n - j * d := by rw [Nat.mod_eq_sub_div_mul, hq]
    simp only [hq, hr]
    generalize j * d = p at *
    split <;> omega
  · have hsucc : (k + 1) * d = k * d + d := Nat.succ_mul k d
    have hq : n / d = k := Nat.div_eq_of_lt_le hle (by omega)
    have hr : n % d = n - k * d := by rw [Nat.mod_eq_sub_div_mul, hq]
    simp only [hq, hr]
    generalize k * d = p at *
    split <;> omega

theorem shift_mul_add_significand (m : Nat) : shift m * 2 ^ 52 + significand m = m := by
  unfold significand shift
  omega

theorem significand_lt (m : Nat) : significand m < 2 ^ 53 := by
  unfold significand shift
  omega

theorem le_significand {m : Nat} (h : 0 < shift m) : 2 ^ 52 ≤ significand m := by
  unfold significand shift at *
  omega

theorem significand_of_mod {m : Nat} (hmod : m % 2 ^ 52 = 0) (h : 0 < shift m) :
    significand m = 2 ^ 52 := by
  unfold significand shift at *
  omega

namespace Interval

/-- Whether the interval holds the quotient of two natural numbers. -/
structure Encloses (i : Interval) (a b : Nat) : Prop where
  low : i.low * b ≤ 2 ^ 1076 * a
  high : 2 ^ 1076 * a ≤ i.high * b
  ends : i.low * b = 2 ^ 1076 * a ∨ 2 ^ 1076 * a = i.high * b → i.closed = true

theorem encloses_of_contains {i : Interval} {n : Nat} {scale : Int} (h : i.contains n scale = true) :
    i.Encloses (Decimal.ratio ⟨n, scale⟩).1 (Decimal.ratio ⟨n, scale⟩).2 := by
  simp only [contains, compare, Bool.and_eq_true, Bool.or_eq_true, beq_iff_eq, Nat.compare_eq_gt,
    Nat.compare_eq_lt, Nat.compare_eq_eq] at h
  obtain ⟨hlow, hhigh⟩ := h
  refine ⟨?_, ?_, ?_⟩
  · obtain hlow | ⟨-, hlow⟩ := hlow
    · exact Nat.le_of_lt hlow
    · exact Nat.le_of_eq hlow.symm
  · obtain hhigh | ⟨-, hhigh⟩ := hhigh
    · exact Nat.le_of_lt hhigh
    · exact Nat.le_of_eq hhigh
  · rintro (heq | heq)
    · obtain hlow | ⟨hclosed, -⟩ := hlow
      · exact (Nat.ne_of_lt hlow heq).elim
      · exact hclosed
    · obtain hhigh | ⟨hclosed, -⟩ := hhigh
      · exact (Nat.ne_of_lt hhigh heq).elim
      · exact hclosed

theorem Encloses.of_mul_eq {i : Interval} {a b a' b' : Nat} (h : i.Encloses a b) (hb : 0 < b)
    (hb' : 0 < b') (heq : a' * b = a * b') : i.Encloses a' b' := by
  have hscale : 2 ^ 1076 * a' * b = 2 ^ 1076 * a * b' := by
    rw [Nat.mul_assoc, heq, ← Nat.mul_assoc]
  have hlow : i.low * b' * b = i.low * b * b' := Nat.mul_right_comm _ _ _
  have hhigh : i.high * b' * b = i.high * b * b' := Nat.mul_right_comm _ _ _
  refine ⟨?_, ?_, ?_⟩
  · refine Nat.le_of_mul_le_mul_right ?_ hb
    rw [hscale, hlow]
    exact Nat.mul_le_mul_right b' h.low
  · refine Nat.le_of_mul_le_mul_right ?_ hb
    rw [hscale, hhigh]
    exact Nat.mul_le_mul_right b' h.high
  · intro hends
    refine h.ends (hends.imp (fun heq => ?_) fun heq => ?_)
    · refine Nat.eq_of_mul_eq_mul_right hb' ?_
      rw [← hlow, ← hscale, heq]
    · refine Nat.eq_of_mul_eq_mul_right hb' ?_
      rw [← hhigh, ← hscale, heq]

end Interval

/-- The magnitude of the quotient `n / b`, counted in the least positive number, if there were no
greatest one. -/
def rounded (n b : Nat) : Nat :=
  let s := Nat.log2 (n / b) - 52
  s * 2 ^ 52 + roundQuotient n (b * 2 ^ s)

theorem nearest_eq_min (a b : Nat) : nearest a b = min (rounded (a * 2 ^ 1074) b) infinite := rfl

theorem rounded_eq {m n b s k : Nat} (hs : Nat.log2 (n / b) - 52 = s)
    (hk : roundQuotient n (b * 2 ^ s) = k) (heq : s * 2 ^ 52 + k = m) : rounded n b = m := by
  simp only [rounded, hs, hk, heq]

theorem log2_div_eq {n b k : Nat} (hb : 0 < b) (hlow : 2 ^ k * b ≤ n) (hhigh : n < 2 ^ (k + 1) * b) :
    Nat.log2 (n / b) = k := by
  have hle : 2 ^ k ≤ n / b := (Nat.le_div_iff_mul_le hb).2 hlow
  have hlt : n / b < 2 ^ (k + 1) := (Nat.div_lt_iff_lt_mul hb).2 hhigh
  have hne : n / b ≠ 0 := by
    have := Nat.two_pow_pos k
    omega
  exact (Nat.log2_eq_iff hne).2 ⟨hle, hlt⟩

theorem log2_div_le {n b k : Nat} (hb : 0 < b) (hhigh : n < 2 ^ (k + 1) * b) :
    Nat.log2 (n / b) ≤ k := by
  by_cases hne : n / b = 0
  · rw [hne]
    exact Nat.zero_le k
  · exact Nat.lt_succ_iff.1 ((Nat.log2_lt hne).2 ((Nat.div_lt_iff_lt_mul hb).2 hhigh))

section Rounded

variable {m n b : Nat} (hb : 0 < b)

include hb

theorem rounded_of_regular {x : Nat} (hx : 2 ^ shift m * b = x)
    (hlow : 2 * (significand m * x) ≤ 2 * n + x) (hhigh : 2 * n ≤ 2 * (significand m * x) + x)
    (heven : 2 * (significand m * x) = 2 * n + x ∨ 2 * n = 2 * (significand m * x) + x → m % 2 = 0)
    (hnormal : 0 < shift m → 2 ^ 52 * x ≤ n) : rounded n b = m := by
  have hsum := shift_mul_add_significand m
  have hxpos : 0 < x := hx ▸ Nat.mul_pos (Nat.two_pow_pos _) hb
  have hbelow : n < 2 ^ 53 * x := by
    have hsig : significand m * x ≤ (2 ^ 53 - 1) * x :=
      Nat.mul_le_mul_right x (Nat.le_sub_one_of_lt (significand_lt m))
    omega
  have hupper : n < 2 ^ (shift m + 52 + 1) * b := by
    rw [Nat.add_assoc, Nat.add_comm, Nat.pow_add, Nat.mul_assoc, hx]
    exact hbelow
  have hround : roundQuotient n (b * 2 ^ shift m) = significand m := by
    rw [Nat.mul_comm b, hx]
    refine roundQuotient_eq hxpos hlow hhigh fun htie => ?_
    have := heven htie
    omega
  refine rounded_eq ?_ hround hsum
  obtain hzero | hpos := Nat.eq_zero_or_pos (shift m)
  · have hlog := log2_div_le hb hupper
    omega
  · have hlower : 2 ^ (shift m + 52) * b ≤ n := by
      rw [Nat.add_comm, Nat.pow_add, Nat.mul_assoc, hx]
      exact hnormal hpos
    rw [log2_div_eq hb hlower hupper, Nat.add_sub_cancel]

/-- Where a number is rounded up to a power of two, below which the numbers lie twice as dense. -/
theorem rounded_of_boundary {x : Nat} (hpos : 0 < shift m) (hx : 2 ^ (shift m - 1) * b = x)
    (hsig : significand m = 2 ^ 52) (hlow : 2 ^ 54 * x ≤ 2 * n + x) (hlt : n < 2 ^ 53 * x) :
    rounded n b = m := by
  have heq : (shift m - 1) * 2 ^ 52 + 2 ^ 53 = m := by
    have hsum := shift_mul_add_significand m
    obtain ⟨k, hk⟩ : ∃ k, shift m = k + 1 := ⟨shift m - 1, (Nat.sub_add_cancel hpos).symm⟩
    rw [hsig, hk, Nat.succ_mul] at hsum
    have hdouble : 2 ^ 52 + 2 ^ 52 = 2 ^ 53 := by decide
    rw [hk, Nat.add_sub_cancel, ← hsum, Nat.add_assoc, hdouble]
  have hxpos : 0 < x := hx ▸ Nat.mul_pos (Nat.two_pow_pos _) hb
  have hupper : n < 2 ^ (shift m - 1 + 52 + 1) * b := by
    rw [Nat.add_assoc, Nat.add_comm, Nat.pow_add, Nat.mul_assoc, hx]
    exact hlt
  have hlower : 2 ^ (shift m - 1 + 52) * b ≤ n := by
    rw [Nat.add_comm, Nat.pow_add, Nat.mul_assoc, hx]
    omega
  have hround : roundQuotient n (b * 2 ^ (shift m - 1)) = 2 ^ 53 := by
    rw [Nat.mul_comm b, hx]
    exact roundQuotient_eq hxpos (by omega) (by omega) fun _ => by decide
  refine rounded_eq ?_ hround heq
  rw [log2_div_eq hb hlower hupper, Nat.add_sub_cancel]

end Rounded

section Ends

variable {m n b x : Nat} (hb : 0 < b) (hx : 2 ^ shift m * b = x)

include hb hx

theorem rounded_of_ends_regular (hpos : 0 < m)
    (hlow : 4 * (significand m * x) - 2 * x ≤ 4 * n)
    (hhigh : 4 * n ≤ 4 * (significand m * x) + 2 * x)
    (hends : 4 * (significand m * x) - 2 * x = 4 * n ∨
      4 * n = 4 * (significand m * x) + 2 * x → m % 2 = 0)
    (hnormal : 0 < shift m → 2 ^ 52 < significand m) : rounded n b = m := by
  have hsig : x ≤ significand m * x := by
    refine Nat.le_mul_of_pos_left x (Nat.pos_of_ne_zero fun hzero => ?_)
    have hsum := shift_mul_add_significand m
    have hshift := mt hnormal (by omega)
    rw [hzero, Nat.eq_zero_of_not_pos hshift] at hsum
    omega
  refine rounded_of_regular hb hx (by omega) (by omega) (fun htie => hends (by omega)) ?_
  intro hshift
  have hgreater : (2 ^ 52 + 1) * x ≤ significand m * x := Nat.mul_le_mul_right x (hnormal hshift)
  omega

theorem rounded_of_ends_boundary (hpos : 0 < shift m) (hsig : significand m = 2 ^ 52)
    (hlow : 4 * (2 ^ 52 * x) - x ≤ 4 * n) (hhigh : 4 * n ≤ 4 * (2 ^ 52 * x) + 2 * x)
    (hends : 4 * (2 ^ 52 * x) - x = 4 * n ∨ 4 * n = 4 * (2 ^ 52 * x) + 2 * x → m % 2 = 0) :
    rounded n b = m := by
  obtain hlt | hle := Nat.lt_or_ge n (2 ^ 52 * x)
  · have hhalf : x = 2 * (2 ^ (shift m - 1) * b) := by
      rw [← hx, ← Nat.two_pow_pred_mul_two hpos, Nat.mul_comm _ 2, Nat.mul_assoc]
    clear hx hhigh hends
    generalize hy : 2 ^ (shift m - 1) * b = y at hhalf
    subst hhalf
    exact rounded_of_boundary hb hpos hy hsig (by omega) (by omega)
  · have hvalue : significand m * x = 2 ^ 52 * x := by rw [hsig]
    refine rounded_of_regular hb hx ?_ ?_ ?_ fun _ => hle
    all_goals
      rw [hvalue]
      generalize 2 ^ 52 * x = y at *
    · omega
    · omega
    · exact fun htie => hends (by omega)

end Ends

theorem rounded_of_ends {m n b : Nat} (hb : 0 < b) (hpos : 0 < m)
    (hlow : (Interval.ofMagnitude m).low * b ≤ 4 * n)
    (hhigh : 4 * n ≤ (Interval.ofMagnitude m).high * b)
    (hends : (Interval.ofMagnitude m).low * b = 4 * n ∨ 4 * n = (Interval.ofMagnitude m).high * b →
      (Interval.ofMagnitude m).closed = true) : rounded n b = m := by
  have hhigh' : (Interval.ofMagnitude m).high * b =
      4 * (significand m * (2 ^ shift m * b)) + 2 * (2 ^ shift m * b) := by
    simp only [Interval.ofMagnitude, units, Nat.add_mul, Nat.mul_assoc]
  have hclosed : (Interval.ofMagnitude m).closed = true ↔ m % 2 = 0 := decide_eq_true_iff
  rw [hclosed] at hends
  by_cases hboundary : m % 2 ^ 52 = 0 ∧ 0 < shift m
  · have hlow' : (Interval.ofMagnitude m).low * b =
        4 * (significand m * (2 ^ shift m * b)) - 2 ^ shift m * b := by
      simp only [Interval.ofMagnitude, units, if_pos hboundary, Nat.sub_mul, Nat.mul_assoc]
    have hsig := significand_of_mod hboundary.1 hboundary.2
    rw [hlow', hsig] at hlow hends
    rw [hhigh', hsig] at hhigh hends
    exact rounded_of_ends_boundary hb rfl hboundary.2 hsig hlow hhigh hends
  · have hlow' : (Interval.ofMagnitude m).low * b =
        4 * (significand m * (2 ^ shift m * b)) - 2 * (2 ^ shift m * b) := by
      simp only [Interval.ofMagnitude, units, if_neg hboundary, Nat.sub_mul, Nat.mul_assoc]
    rw [hlow'] at hlow hends
    rw [hhigh'] at hhigh hends
    refine rounded_of_ends_regular hb rfl hpos hlow hhigh hends fun hshift => ?_
    refine Nat.lt_of_le_of_ne (le_significand hshift) fun hsig => hboundary ⟨?_, hshift⟩
    rw [← shift_mul_add_significand m, ← hsig]
    exact Nat.mod_eq_zero_of_dvd (Nat.dvd_add (Nat.dvd_mul_left _ _) (Nat.dvd_refl _))

/-- A number of the interval of a magnitude is rounded to the magnitude. -/
theorem nearest_of_encloses {m a b : Nat} (hb : 0 < b) (hpos : 0 < m) (hm : m < infinite)
    (h : (Interval.ofMagnitude m).Encloses a b) : nearest a b = m := by
  have hpow : ∀ k, 2 ^ (k + 2) * a = 4 * (a * 2 ^ k) := by
    intro k
    rw [Nat.pow_add, Nat.mul_comm, ← Nat.mul_assoc, Nat.mul_comm]
  have hexponent : 1076 = 1074 + 2 := rfl
  obtain ⟨hlow, hhigh, hends⟩ := h
  rw [hexponent, hpow 1074] at hlow hhigh hends
  rw [nearest_eq_min, rounded_of_ends hb hpos hlow hhigh hends]
  exact Nat.min_eq_left (Nat.le_of_lt hm)

end Stencil.Double
