import Stencil.Proofs.Lossless
import Stencil.Proofs.Shortest
import Stencil.Proofs.TokenEdges

namespace Stencil

namespace Token

open Pattern Literal

def respelled (t : Token) : Token := ⟨t.kind, t.canonical⟩

theorem spelling_map_respelled (ts : List Token) :
    spelling (ts.map respelled) = ts.flatMap canonical := by
  rw [spelling, List.flatMap_map]
  rfl

theorem respelled_of_kind {t : Token} (h : t.kind ∉ [.string, .rune, .float, .int]) :
    t.respelled = t := by
  rw [respelled, canonical_of_kind h]

/-- `LiteralOf t v`: the token is a literal that is respelled, of a kind that the value can have. -/
inductive LiteralOf : Token → Variable → Prop
  | string {s : Text} (value : Text) : LiteralOf ⟨.string, s⟩ (.string value)
  | rune {s : Text} (value : Char) : LiteralOf ⟨.rune, s⟩ (.rune value)
  | float {s : Text} {x : Double} (hfinite : x.isFinite = true) (hsign : x.isNegative = false) :
      LiteralOf ⟨.float, s⟩ (.float x)
  | int {s : Text} {n : Nat} (hn : n < 2 ^ 63) : LiteralOf ⟨.int, s⟩ (.int (.ofNat n))

theorem literal_of_toVariable? {t : Token} {v : Variable} (h : t.toVariable? = some (.ok v))
    (hk : t.kind ∈ [.string, .rune, .float, .int]) : LiteralOf t v := by
  cases denotes_of_toVariable? h with
  | string _ => exact .string _
  | rune _ => exact .rune _
  | float _ hfinite => exact .float hfinite (Double.isNegative_ofDecimal _)
  | int _ hn => exact .int hn
  | _ => simp at hk

theorem exists_literal {t : Token} (hv : t.HasValue)
    (hk : t.kind ∈ [.string, .rune, .float, .int]) :
    ∃ v, t.toVariable? = some (.ok v) ∧ LiteralOf t v := by
  obtain ⟨r, hr⟩ : ∃ r, t.toVariable? = some r := by
    refine exists_toVariable?_iff.2 ?_
    revert hk
    cases t.kind <;> decide
  obtain ⟨v, rfl⟩ := hv r hr
  exact ⟨v, hr, literal_of_toVariable? hr hk⟩

theorem toFloat?_render {x : Double} (hfinite : x.isFinite = true) (hsign : x.isNegative = false) :
    toFloat? x.render = .ok (.float x) := by
  obtain ⟨d, hd, hx⟩ := Double.ofPositional?_render hfinite hsign
  simp only [toFloat?, hd, hx, hfinite, if_true]

theorem render_int {n : Nat} (hn : n < 2 ^ 63) :
    Variable.render (.int (.ofNat n)) = Text.decimal n := by
  rw [Variable.render, Int64.toInt_ofNat_of_lt hn]
  rfl

theorem toInt?_decimal {n : Nat} (hn : n < 2 ^ 63) :
    toInt? (Text.decimal n) = .ok (.int (.ofNat n)) := by
  simp only [toInt?, Text.numeral?_decimal, if_pos hn]

/-- The canonical spelling of a value stands for the value. -/
theorem toVariable?_render {t : Token} {v : Variable} (h : LiteralOf t v) :
    Token.toVariable? ⟨t.kind, v.render⟩ = some (.ok v) := by
  cases h with
  | string value => simp only [toVariable?, Variable.render, stringValue_spellString, Except.map]
  | rune value => simp only [toVariable?, Variable.render, runeValue_spellRune, Except.map]
  | float hfinite hsign => simp only [toVariable?, Variable.render, toFloat?_render hfinite hsign]
  | int hn => simp only [toVariable?, render_int hn, toInt?_decimal hn]

theorem toVariable?_respelled {t : Token} {v : Variable} (h : t.toVariable? = some (.ok v)) :
    t.respelled.toVariable? = some (.ok v) := by
  by_cases hk : t.kind ∈ [.string, .rune, .float, .int]
  · rw [respelled, ← canonical_of_toVariable? h]
    exact toVariable?_render (literal_of_toVariable? h hk)
  · rw [respelled_of_kind hk, h]

theorem toVariable?_respelled_eq {t : Token} (hv : t.HasValue) :
    t.respelled.toVariable? = t.toVariable? := by
  by_cases hk : t.kind ∈ [.string, .rune, .float, .int]
  · obtain ⟨v, hvalue, -⟩ := exists_literal hv hk
    rw [hvalue, toVariable?_respelled hvalue]
  · rw [respelled_of_kind hk]

theorem isDigit_of_isDigit {c : Char} (h : c.isDigit = true) : isDigit c = true := by
  simpa [isDigit, Char.isDigit, Char.le_def] using h

theorem matches_digits_of_isDigit {s : Text} (hne : s ≠ []) (h : ∀ c ∈ s, c.isDigit = true) :
    Matches digits s :=
  matches_digits_iff.2 ⟨hne, fun c hc => isDigit_of_isDigit (h c hc)⟩

theorem matches_float_positional (d : Decimal) : (pattern .float).Matches d.positional := by
  obtain ⟨fraction, hpos, hne, hdigits, -⟩ := d.positional_eq
  obtain ⟨hwhole, -⟩ := d.parts_spec
  rw [List.forall_mem_append] at hdigits
  exact matches_float_iff.2 ⟨_, _, hpos, matches_digits_of_isDigit hwhole hdigits.1,
    matches_digits_of_isDigit hne hdigits.2⟩

theorem matches_render {t : Token} {v : Variable} (h : LiteralOf t v) :
    (pattern t.kind).Matches v.render := by
  cases h with
  | string value => exact matches_spellString value
  | rune value => exact matches_spellRune value
  | float hfinite hsign =>
    rw [Variable.render, Double.render_eq_positional hfinite hsign]
    exact matches_float_positional _
  | int hn =>
    rw [render_int hn]
    exact matches_digits_of_isDigit (Text.decimal_ne_nil _) Text.isDigit_of_mem_decimal

theorem wellFormed_respelled {t : Token} (hw : t.WellFormed) (hv : t.HasValue) :
    t.respelled.WellFormed := by
  by_cases hk : t.kind ∈ [.string, .rune, .float, .int]
  · obtain ⟨v, hvalue, hliteral⟩ := exists_literal hv hk
    have hmatches := matches_render hliteral
    rw [canonical_of_toVariable? hvalue] at hmatches
    refine ⟨hmatches, fun hc => ?_⟩
    rw [show t.kind = .comment from hc] at hk
    simp at hk
  · rw [respelled_of_kind hk]
    exact hw

end Token
end Stencil
