import Stencil.Proofs.Escapes
import Stencil.Proofs.TokenReach
import Stencil.Proofs.Values

namespace Stencil

namespace Text

theorem readDigits_append {base n v : Nat} {s rest : Text} (h : readDigits base n s = some (v, rest))
    (t : Text) : readDigits base n (s ++ t) = some (v, rest ++ t) := by
  induction n generalizing s v with
  | zero =>
    cases h
    rfl
  | succ n ih =>
    cases s with
    | nil => cases h
    | cons c s =>
      simp only [readDigits, Option.bind_eq_bind, Option.bind_eq_some_iff, List.cons_append] at h ⊢
      obtain ⟨d, hd, ⟨w, rest'⟩, hw, hv⟩ := h
      cases hv
      exact ⟨d, hd, (w, rest' ++ t), ih hw, rfl⟩

theorem readDigits_paddedHex_two : ∀ n < 160, readDigits 16 2 (paddedHex 2 n) = some (n, []) := by
  decide +kernel

theorem readDigits_paddedHex_four : ∀ n < 160, readDigits 16 4 (paddedHex 4 n) = some (n, []) := by
  decide +kernel

theorem isAlphanum_paddedHex :
    ∀ n < 160, ∀ d ∈ paddedHex 2 n ++ paddedHex 4 n, d.isAlphanum = true := by
  have hall : ∀ n < 160, (paddedHex 2 n ++ paddedHex 4 n).all (·.isAlphanum) = true := by
    decide +kernel
  exact fun n hn => List.all_eq_true.1 (hall n hn)

end Text

namespace Literal

open Text

theorem mem_letterEscapes {c letter : Char} (h : letterEscapes.lookup c = some letter) :
    (c, letter) ∈ letterEscapes := by
  obtain ⟨l, r, heq, -⟩ := List.lookup_eq_some_iff.1 h
  rw [heq]
  simp

/-- A character is escaped by a letter or by its number, or it is a quote, or it stands for
itself. -/
inductive Escaped (q : Char) : Char → Text → Prop
  | letter {c e : Char} (h : (c, e) ∈ letterEscapes) : Escaped q c ['\\', e]
  | quote : Escaped q q ['\\', q]
  | ascii {c : Char} (h : c.toNat < 128) : Escaped q c ('\\' :: 'x' :: paddedHex 2 c.toNat)
  | control {c : Char} (h : c.toNat < 160) : Escaped q c ('\\' :: 'u' :: paddedHex 4 c.toNat)
  | plain {c : Char} (hq : c ≠ q) (hc : c ∉ letterEscapes.map (·.1)) : Escaped q c [c]

theorem escaped_escape (q c : Char) : Escaped q c (escape q c) := by
  unfold escape
  split
  next letter h => exact .letter (mem_letterEscapes h)
  next h =>
    split
    next hq =>
      rw [hq]
      exact .quote
    next hq =>
      split
      next hc =>
        simp only [isControl, Bool.or_eq_true, Bool.and_eq_true, decide_eq_true_eq] at hc
        split
        next hlt => exact .ascii hlt
        · exact .control (by omega)
      · refine .plain hq fun hmem => ?_
        simp only [letterEscapes, List.map_cons, List.map_nil, List.mem_cons, List.not_mem_nil,
          or_false] at hmem
        obtain rfl | rfl | rfl | rfl | rfl | rfl | rfl | rfl := hmem <;> cases h

theorem Escaped.ne_nil {q c : Char} {w : Text} (h : Escaped q c w) : w ≠ [] := by
  cases h <;> simp

theorem isNumeral_of_readDigits {count n : Nat} {w : Text}
    (h : readDigits 16 count w = some (n, [])) : w.length = count ∧ IsNumeral 16 w n := by
  obtain ⟨ds, rfl, hlength, hn⟩ := (readDigits_eq_some_iff (by decide)).1 h
  rw [List.append_nil]
  exact ⟨hlength, hn⟩

theorem Escaped.item {q c : Char} {w : Text} (h : Escaped q c w) : Item q w c := by
  cases h with
  | letter h => exact .letter h
  | quote => exact .quote
  | ascii h =>
    have hsmall : c.toNat < 160 := Nat.lt_trans h (by decide)
    obtain ⟨hlength, hn⟩ := isNumeral_of_readDigits (readDigits_paddedHex_two _ hsmall)
    exact .byte hlength hn h
  | control h =>
    obtain ⟨hlength, hn⟩ := isNumeral_of_readDigits (readDigits_paddedHex_four _ h)
    exact .short hlength hn
  | plain _ hc =>
    refine .plain (fun hn => hc ?_) fun hb => hc ?_
    · rw [hn]
      decide
    · rw [hb]
      decide

section Decode

variable {q : Char} (hq : q = '"' ∨ q = '\'')

include hq

theorem decode_flatMap_escape (s : Text) : decode q (s.flatMap (escape q)) = .ok s := by
  induction s with
  | nil => exact decode_nil
  | cons c s ih =>
    rw [List.flatMap_cons, decode_append_of_item hq (escaped_escape q c).item, ih]
    rfl

theorem body_of_isAlphanum {w : Text} (h : ∀ d ∈ w, d.isAlphanum = true) : Body q w := by
  refine .of_notMem (fun hmem => ?_) fun hmem => absurd (h _ hmem) (by decide)
  have hquote := h q hmem
  obtain rfl | rfl := hq <;> cases hquote

theorem Escaped.body {c : Char} {w : Text} (h : Escaped q c w) : Body q w ∧ '\n' ∉ w := by
  have hnumber : ∀ (e : Char) (w : Text), e ≠ '\n' → (∀ d ∈ w, d.isAlphanum = true) →
      Body q ('\\' :: e :: w) ∧ '\n' ∉ '\\' :: e :: w := by
    intro e w he hw
    refine ⟨.escaped (body_of_isAlphanum hq hw), ?_⟩
    simp only [List.mem_cons, not_or]
    exact ⟨by decide, fun h => he h.symm, fun h => absurd (hw _ h) (by decide)⟩
  cases h with
  | @letter _ e h =>
    have hletter : ∀ p ∈ letterEscapes, p.2 ≠ '\n' := by decide
    exact hnumber e [] (hletter _ h) (by simp)
  | quote => exact hnumber q [] (by obtain rfl | rfl := hq <;> decide) (by simp)
  | @ascii _ h =>
    refine hnumber 'x' _ (by decide) fun d hd => ?_
    exact isAlphanum_paddedHex _ (by omega) d (List.mem_append_left _ hd)
  | @control _ h =>
    refine hnumber 'u' _ (by decide) fun d hd => ?_
    exact isAlphanum_paddedHex _ h d (List.mem_append_right _ hd)
  | plain hcq hc =>
    have hb : c ≠ '\\' := by
      rintro rfl
      exact hc (by decide)
    have hn : c ≠ '\n' := by
      rintro rfl
      exact hc (by decide)
    exact ⟨.plain hcq hb .nil, by simpa using hn.symm⟩

theorem body_flatMap_escape (s : Text) :
    Body q (s.flatMap (escape q)) ∧ '\n' ∉ s.flatMap (escape q) := by
  induction s with
  | nil => exact ⟨.nil, by simp⟩
  | cons c s ih =>
    obtain ⟨hbody, hline⟩ := (escaped_escape q c).body hq
    rw [List.flatMap_cons, List.mem_append, not_or]
    exact ⟨hbody.append ih.1, hline, ih.2⟩

end Decode

theorem stringValue_spellString (s : Text) : stringValue (spellString s) = .ok s :=
  stringValue_eq_ok.2 ⟨_, rfl, decode_flatMap_escape (.inl rfl) s⟩

theorem runeValue_spellRune (c : Char) : runeValue (spellRune c) = .ok c :=
  runeValue_eq_ok.2 ⟨_, rfl, decode_flatMap_escape (.inr rfl) [c]⟩

section Tokens

theorem matches_spellString (s : Text) :
    (Token.pattern .string).Matches (spellString s) :=
  Token.matches_string_iff.2 ⟨_, rfl, body_flatMap_escape (.inl rfl) s⟩

theorem matches_spellRune (c : Char) : (Token.pattern .rune).Matches (spellRune c) := by
  have hne : [c].flatMap (escape '\'') ≠ [] := by
    rw [List.flatMap_singleton]
    exact (escaped_escape '\'' c).ne_nil
  exact Token.matches_rune_iff.2 ⟨_, rfl, hne, body_flatMap_escape (.inr rfl) [c]⟩

/-- The canonical spelling of a string or a rune is one token, whatever comes after it, and this
token is read as that string or rune. -/
theorem tokenize_quoted (s : Text) (c : Char) (x : Text) :
    tokenize (spellString s ++ x) = ⟨.string, spellString s⟩ :: tokenize x ∧
    stringValue (spellString s) = .ok s ∧
    tokenize (spellRune c ++ x) = ⟨.rune, spellRune c⟩ :: tokenize x ∧
    runeValue (spellRune c) = .ok c := by
  refine ⟨?_, stringValue_spellString s, ?_, runeValue_spellRune c⟩
  · exact Token.tokenize_append_of_reach (t := ⟨.string, spellString s⟩) nofun
      ⟨matches_spellString s, nofun⟩ rfl x
  · exact Token.tokenize_append_of_reach (t := ⟨.rune, spellRune c⟩) nofun
      ⟨matches_spellRune c, nofun⟩ rfl x

end Tokens

end Literal

end Stencil
