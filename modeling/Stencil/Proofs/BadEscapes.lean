import Stencil.Proofs.Escapes
import Stencil.Proofs.TokenText

namespace Stencil

namespace Text

variable {base n : Nat} {c : Char} {d : Nat} {ds : Text}

theorem isAlphanum_of_isDigit (h : IsDigit base c d) : c.isAlphanum = true := by
  have hall : ∀ e ∈ "0123456789abcdef".toList ++ "0123456789ABCDEF".toList,
      e.isAlphanum = true := forall_mem_of_all (by decide)
  obtain ⟨-, h | h⟩ := h
  · exact hall c (List.mem_append_left _ (List.mem_of_getElem? h))
  · exact hall c (List.mem_append_right _ (List.mem_of_getElem? h))

theorem isAlphanum_of_isNumeral (h : IsNumeral base ds n) : ∀ c ∈ ds, c.isAlphanum = true := by
  induction ds generalizing n with
  | nil => simp
  | cons c ds ih =>
    obtain ⟨d, m, hd, hm, -⟩ := isNumeral_cons_iff.1 h
    exact List.forall_mem_cons.2 ⟨isAlphanum_of_isDigit hd, ih hm⟩

end Text

namespace Body

variable {q c : Char} {ds s : Text}

theorem of_escaped (h : Body q ('\\' :: c :: s)) : Body q s := by
  cases h with
  | escaped h => exact h
  | plain _ hb _ => exact (hb rfl).elim

theorem of_append (hds : ∀ c ∈ ds, c.isAlphanum = true)
    (h : Body q (ds ++ s)) : Body q s := by
  induction ds with
  | nil => exact h
  | cons c ds ih =>
    rw [List.forall_mem_cons] at hds
    rw [List.cons_append] at h
    generalize heq : ds ++ s = t at h
    cases h with
    | escaped _ => exact absurd hds.1 (by decide)
    | plain _ _ h => exact ih hds.2 (heq ▸ h)

end Body

namespace Literal

open Text

/-- `Numeric e base count high ascii`: after a backslash and `e` so many digits of the base are the
number of a character, or the lower digits of it below a first one, `high`. -/
inductive Numeric : Char → Nat → Nat → Nat → Bool → Prop
  | byte : Numeric 'x' 16 2 0 true
  | short : Numeric 'u' 16 4 0 false
  | long : Numeric 'U' 16 8 0 false
  | octal {e : Char} {high : Nat} (he : IsDigit 8 e high) : Numeric e 8 2 high true

/-- `BadEscape q s fault`: between quotes `q` the text `s` begins with a backslash that is not
followed by an escape. -/
inductive BadEscape (q : Char) : Text → LiteralFault → Prop
  | unknown {e : Char} {s : Text} (hq : e ≠ q) (hletter : e ∉ letterEscapes.map (·.2))
      (hnumeric : ∀ base count high ascii, ¬ Numeric e base count high ascii) :
      BadEscape q ('\\' :: e :: s) (.unknownEscape e)
  | digits {e : Char} {s : Text} {base count high : Nat} {ascii : Bool}
      (h : Numeric e base count high ascii)
      (hs : ∀ ds n, ds <+: s → ds.length = count → ¬ IsNumeral base ds n) :
      BadEscape q ('\\' :: e :: s) (.missingDigits count base)
  | notAscii {e : Char} {ds s : Text} {base count high n : Nat}
      (h : Numeric e base count high true) (hds : ds.length = count) (hn : IsNumeral base ds n)
      (hlarge : 0x80 ≤ high * base ^ count + n) :
      BadEscape q ('\\' :: e :: (ds ++ s)) (.notAscii (high * base ^ count + n))
  | codePoint {e : Char} {ds s : Text} {base count high n : Nat}
      (h : Numeric e base count high false) (hds : ds.length = count) (hn : IsNumeral base ds n)
      (hinvalid : ¬ (high * base ^ count + n).isValidChar) :
      BadEscape q ('\\' :: e :: (ds ++ s)) (.invalidCodePoint (high * base ^ count + n))

variable {q c e : Char} {n base count high : Nat} {ascii : Bool} {s w body good bad out : Text}
  {fault : LiteralFault}

theorem map_eq_error_iff {ε α β : Type} {f : α → β} {x : Except ε α} {e : ε} :
    x.map f = .error e ↔ x = .error e := by
  cases x <;> simp [Except.map]

theorem character_eq_error_iff :
    character n = .error fault ↔ ¬ n.isValidChar ∧ fault = .invalidCodePoint n := by
  by_cases hvalid : n.isValidChar
  · rw [character, dif_pos hvalid]
    constructor
    · intro h
      cases h
    · rintro ⟨hinvalid, -⟩
      exact (hinvalid hvalid).elim
  · rw [character, dif_neg hvalid]
    simp [hvalid, eq_comm]

theorem asciiCharacter_eq_error_iff :
    asciiCharacter n = .error fault ↔ 0x80 ≤ n ∧ fault = .notAscii n := by
  by_cases hn : n < 0x80
  · have hvalid : n.isValidChar := .inl (by omega)
    rw [asciiCharacter, if_pos hn, character_eq_error_iff]
    simp [hvalid, Nat.not_le.2 hn]
  · rw [asciiCharacter, if_neg hn]
    simp [Nat.le_of_not_lt hn, eq_comm]

def numericCharacter (ascii : Bool) : Nat → Except LiteralFault Char :=
  if ascii then asciiCharacter else character

theorem numericEscape_eq_error_iff {toChar : Nat → Except LiteralFault Char} (hb : base ∈ bases) :
    numericEscape base count high toChar s = .error fault ↔
      (fault = .missingDigits count base ∧
        ∀ ds n, ds <+: s → ds.length = count → ¬ IsNumeral base ds n) ∨
      ∃ ds n rest, s = ds ++ rest ∧ ds.length = count ∧ IsNumeral base ds n ∧
        toChar (high * base ^ count + n) = .error fault := by
  have hdigits : ∀ {n rest}, readDigits base count s = some (n, rest) ↔
      ∃ ds, s = ds ++ rest ∧ ds.length = count ∧ IsNumeral base ds n := readDigits_eq_some_iff hb
  constructor
  · intro h
    unfold numericEscape at h
    split at h
    next hread =>
      cases h
      refine .inl ⟨rfl, ?_⟩
      rintro ds n ⟨rest, hs⟩ hlength hn
      rw [hdigits.2 ⟨ds, hs.symm, hlength, hn⟩] at hread
      cases hread
    next n rest hread =>
      obtain ⟨ds, hs, hlength, hn⟩ := hdigits.1 hread
      exact .inr ⟨ds, n, rest, hs, hlength, hn, map_eq_error_iff.1 h⟩
  · rintro (⟨rfl, hnone⟩ | ⟨ds, n, rest, hs, hlength, hn, hchar⟩)
    · have hread : readDigits base count s = none := by
        refine Option.eq_none_iff_forall_ne_some.2 fun ⟨n, rest⟩ hread => ?_
        obtain ⟨ds, hs, hlength, hn⟩ := hdigits.1 hread
        exact hnone ds n ⟨rest, hs.symm⟩ hlength hn
      rw [numericEscape, hread]
    · rw [numericEscape, hdigits.2 ⟨ds, hs, hlength, hn⟩]
      exact map_eq_error_iff.2 hchar

section Quotes

variable (hq : q = '"' ∨ q = '\'')

include hq

theorem readEscape_numeric (h : Numeric e base count high ascii) :
    readEscape q e s = numericEscape base count high (numericCharacter ascii) s := by
  cases h with
  | byte | short | long => obtain rfl | rfl := hq <;> rfl
  | octal he => exact readEscape_octal hq ((digitValue?_eq_some_iff (by decide)).2 he)

omit hq in
theorem readEscape_unknown (hne : e ≠ q) (hletter : e ∉ letterEscapes.map (·.2))
    (hnumeric : ∀ base count high ascii, ¬ Numeric e base count high ascii) :
    readEscape q e s = .error (.unknownEscape e) := by
  have hfind : letterEscapes.find? (·.2 == e) = none := by
    refine List.find?_eq_none.2 fun p hp heq => hletter (List.mem_map.2 ⟨p, hp, ?_⟩)
    simpa using heq
  have hx : e ≠ 'x' := fun h => hnumeric 16 2 0 true (h ▸ .byte)
  have hu : e ≠ 'u' := fun h => hnumeric 16 4 0 false (h ▸ .short)
  have hU : e ≠ 'U' := fun h => hnumeric 16 8 0 false (h ▸ .long)
  have hdigit : digitValue? 8 e = none := by
    refine Option.eq_none_iff_forall_ne_some.2 fun d hd => ?_
    exact hnumeric _ _ _ _ (.octal ((digitValue?_eq_some_iff (by decide)).1 hd))
  simp only [readEscape, hfind, if_neg hne, if_neg hx, if_neg hu, if_neg hU, hdigit]

theorem readEscape_eq_error_iff :
    readEscape q e s = .error fault ↔ BadEscape q ('\\' :: e :: s) fault := by
  have hnumeric : ∀ {base count high ascii}, Numeric e base count high ascii →
      base ∈ bases := by
    intro base count high ascii h
    cases h <;> decide
  constructor
  · intro h
    have hgood : ∀ c, ¬ Item q ['\\', e] c := by
      intro c hc
      have hread : readEscape q e ([] ++ s) = .ok (c, s) := readEscape_of_item hq hc
      rw [List.nil_append, h] at hread
      cases hread
    by_cases hn : ∃ base count high ascii, Numeric e base count high ascii
    · obtain ⟨base, count, high, ascii, hn⟩ := hn
      rw [readEscape_numeric hq hn, numericEscape_eq_error_iff (hnumeric hn)] at h
      obtain ⟨rfl, hnone⟩ | ⟨ds, n, rest, rfl, hds, hvalue, hchar⟩ := h
      · exact .digits hn hnone
      · cases ascii with
        | true =>
          obtain ⟨hlarge, rfl⟩ := asciiCharacter_eq_error_iff.1 hchar
          exact .notAscii hn hds hvalue hlarge
        | false =>
          obtain ⟨hinvalid, rfl⟩ := character_eq_error_iff.1 hchar
          exact .codePoint hn hds hvalue hinvalid
    · have hne : e ≠ q := fun heq => hgood q (heq ▸ .quote)
      have hletter : e ∉ letterEscapes.map (·.2) := by
        intro hmem
        obtain ⟨⟨c, l⟩, hp, rfl⟩ := List.mem_map.1 hmem
        exact hgood c (.letter hp)
      have hnone : ∀ base count high ascii, ¬ Numeric e base count high ascii :=
        fun base count high ascii h => hn ⟨base, count, high, ascii, h⟩
      rw [readEscape_unknown hne hletter hnone] at h
      cases h
      exact .unknown hne hletter hnone
  · intro h
    cases h with
    | unknown hne hletter hnone => exact readEscape_unknown hne hletter hnone
    | digits hn hs =>
      rw [readEscape_numeric hq hn]
      exact (numericEscape_eq_error_iff (hnumeric hn)).2 (.inl ⟨rfl, hs⟩)
    | notAscii hn hds hvalue hlarge =>
      rw [readEscape_numeric hq hn]
      exact (numericEscape_eq_error_iff (hnumeric hn)).2 (.inr ⟨_, _, _, rfl, hds, hvalue,
        asciiCharacter_eq_error_iff.2 ⟨hlarge, rfl⟩⟩)
    | codePoint hn hds hvalue hinvalid =>
      rw [readEscape_numeric hq hn]
      exact (numericEscape_eq_error_iff (hnumeric hn)).2 (.inr ⟨_, _, _, rfl, hds, hvalue,
        character_eq_error_iff.2 ⟨hinvalid, rfl⟩⟩)

theorem decode_of_badEscape (h : BadEscape q bad fault) : decode q bad = .error fault := by
  obtain ⟨e, s, rfl⟩ : ∃ e s, bad = '\\' :: e :: s := by cases h <;> exact ⟨_, _, rfl⟩
  rw [decode, if_neg (by decide), if_pos rfl]
  split
  next hread =>
    rw [(readEscape_eq_error_iff hq).2 h] at hread
    cases hread
    rfl
  next hread =>
    rw [(readEscape_eq_error_iff hq).2 h] at hread
    cases hread

omit hq in
theorem Item.body_of_append (hw : Item q w c) (h : Body q (w ++ s)) : Body q s := by
  have hdigits : ∀ {base n : Nat} {ds : Text}, IsNumeral base ds n → Body q (ds ++ s) → Body q s :=
    fun hn => Body.of_append (isAlphanum_of_isNumeral hn)
  cases hw with
  | plain _ hb =>
    cases h with
    | escaped _ => exact (hb rfl).elim
    | plain _ _ h => exact h
  | letter | quote => exact h.of_escaped
  | byte _ hc _ | short _ hc | long _ hc => exact hdigits hc h.of_escaped
  | @octal ds _ hds hc _ =>
    obtain ⟨e, ds, rfl⟩ := List.exists_cons_of_length_eq_add_one hds
    obtain ⟨-, n, -, hn, -⟩ := isNumeral_cons_iff.1 hc
    exact hdigits hn h.of_escaped

/-- Of a body on one line reading fails at the first bad escape. -/
theorem decode_eq_error_iff (hbody : Body q body) (hline : '\n' ∉ body) :
    decode q body = .error fault ↔
      ∃ good bad out, body = good ++ bad ∧ Unescapes q good out ∧ BadEscape q bad fault := by
  constructor
  · intro h
    fun_induction decode q body with
    | case1 => cases h
    | case2 => exact (hline List.mem_cons_self).elim
    | case3 =>
      cases hbody with
      | plain _ hb _ => exact (hb rfl).elim
    | case4 _ _ _ hread =>
      cases h
      exact ⟨[], _, [], rfl, .nil, (readEscape_eq_error_iff hq).1 hread⟩
    | case5 _ _ c rest' hread _ ih =>
      obtain ⟨ds, rfl, hitem⟩ := item_of_readEscape hread
      obtain ⟨good, bad, out, rfl, hgood, hbad⟩ := ih (hitem.body_of_append hbody)
        (fun hmem => hline (by simp [hmem])) (map_eq_error_iff.1 h)
      exact ⟨_ ++ good, bad, c :: out, by simp, .cons hitem hgood, hbad⟩
    | case6 c rest hn hb ih =>
      have hitem : Item q [c] c := .plain hn hb
      obtain ⟨good, bad, out, rfl, hgood, hbad⟩ := ih (hitem.body_of_append hbody)
        (fun hmem => hline (List.mem_cons_of_mem c hmem)) (map_eq_error_iff.1 h)
      exact ⟨c :: good, bad, c :: out, rfl, .cons hitem hgood, hbad⟩
  · rintro ⟨good, bad, out, rfl, hgood, hbad⟩
    clear hbody hline
    induction hgood with
    | nil => exact decode_of_badEscape hq hbad
    | cons hw _ ih =>
      rw [List.append_assoc, decode_append_of_item hq hw, ih]
      rfl

end Quotes

end Literal
end Stencil
