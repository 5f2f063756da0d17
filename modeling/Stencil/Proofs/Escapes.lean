import Stencil.Literal
import Stencil.Proofs.Digits

namespace Stencil.Literal

open Text

/-- `Item q w c`: between quotes `q` the text `w` stands for the character `c`. -/
inductive Item (q : Char) : Text → Char → Prop
  | plain {c : Char} (hn : c ≠ '\n') (hb : c ≠ '\\') : Item q [c] c
  | letter {c e : Char} (h : (c, e) ∈ letterEscapes) : Item q ['\\', e] c
  | quote : Item q ['\\', q] q
  | byte {ds : Text} {c : Char} (hds : ds.length = 2) (hc : IsNumeral 16 ds c.toNat)
      (hlt : c.toNat < 0x80) : Item q ('\\' :: 'x' :: ds) c
  | octal {ds : Text} {c : Char} (hds : ds.length = 3) (hc : IsNumeral 8 ds c.toNat)
      (hlt : c.toNat < 0x80) : Item q ('\\' :: ds) c
  | short {ds : Text} {c : Char} (hds : ds.length = 4) (hc : IsNumeral 16 ds c.toNat) :
      Item q ('\\' :: 'u' :: ds) c
  | long {ds : Text} {c : Char} (hds : ds.length = 8) (hc : IsNumeral 16 ds c.toNat) :
      Item q ('\\' :: 'U' :: ds) c

/-- `Unescapes q body out`: from left to right, the text between quotes `q` stands for the
characters of `out`. -/
inductive Unescapes (q : Char) : Text → Text → Prop
  | nil : Unescapes q [] []
  | cons {w s out : Text} {c : Char} (hw : Item q w c) (hs : Unescapes q s out) :
      Unescapes q (w ++ s) (c :: out)

variable {q c v e : Char} {n : Nat} {s w rest body out : Text}

theorem character_eq_ok_iff : character n = .ok c ↔ n = c.toNat := by
  by_cases hvalid : n.isValidChar
  · rw [character, dif_pos hvalid, Except.ok.injEq]
    constructor
    · rintro rfl
      rfl
    · rintro rfl
      rfl
  · rw [character, dif_neg hvalid]
    constructor
    · intro h
      cases h
    · rintro rfl
      exact (hvalid c.valid).elim

theorem asciiCharacter_eq_ok_iff : asciiCharacter n = .ok c ↔ n = c.toNat ∧ c.toNat < 0x80 := by
  by_cases hn : n < 0x80
  · rw [asciiCharacter, if_pos hn, character_eq_ok_iff]
    constructor
    · rintro rfl
      exact ⟨rfl, hn⟩
    · exact And.left
  · rw [asciiCharacter, if_neg hn]
    constructor
    · intro h
      cases h
    · rintro ⟨rfl, hlt⟩
      exact (hn hlt).elim

theorem numericEscape_eq_ok_iff {base count high : Nat} {toChar : Nat → Except LiteralFault Char}
    (hb : base ∈ bases) : numericEscape base count high toChar s = .ok (v, rest) ↔
      ∃ ds n, s = ds ++ rest ∧ ds.length = count ∧ IsNumeral base ds n ∧
        toChar (high * base ^ count + n) = .ok v := by
  constructor
  · intro h
    unfold numericEscape at h
    split at h
    · cases h
    next n rest' hr =>
      obtain ⟨ds, rfl, hlength, hn⟩ := (readDigits_eq_some_iff hb).1 hr
      cases hc : toChar (high * base ^ count + n) with
      | error fault =>
        rw [hc] at h
        cases h
      | ok c =>
        rw [hc] at h
        cases h
        exact ⟨ds, n, rfl, hlength, hn, hc⟩
  · rintro ⟨ds, n, hs, hlength, hn, hc⟩
    rw [numericEscape, (readDigits_eq_some_iff hb).2 ⟨ds, hs, hlength, hn⟩]
    simp only [hc]
    rfl

theorem hexEscape_eq_ok_iff {count : Nat} :
    numericEscape 16 count 0 character s = .ok (v, rest) ↔
      ∃ ds, s = ds ++ rest ∧ ds.length = count ∧ IsNumeral 16 ds v.toNat := by
  rw [numericEscape_eq_ok_iff (by decide)]
  simp only [Nat.zero_mul, Nat.zero_add, character_eq_ok_iff]
  constructor
  · rintro ⟨ds, n, hs, hlength, hn, rfl⟩
    exact ⟨ds, hs, hlength, hn⟩
  · rintro ⟨ds, hs, hlength, hn⟩
    exact ⟨ds, v.toNat, hs, hlength, hn, rfl⟩

theorem asciiHexEscape_eq_ok_iff {count : Nat} :
    numericEscape 16 count 0 asciiCharacter s = .ok (v, rest) ↔
      ∃ ds, s = ds ++ rest ∧ ds.length = count ∧ IsNumeral 16 ds v.toNat ∧ v.toNat < 0x80 := by
  rw [numericEscape_eq_ok_iff (by decide)]
  simp only [Nat.zero_mul, Nat.zero_add, asciiCharacter_eq_ok_iff]
  constructor
  · rintro ⟨ds, n, hs, hlength, hn, rfl, hlt⟩
    exact ⟨ds, hs, hlength, hn, hlt⟩
  · rintro ⟨ds, hs, hlength, hn, hlt⟩
    exact ⟨ds, v.toNat, hs, hlength, hn, rfl, hlt⟩

theorem octalEscape_eq_ok_iff {high : Nat} (he : digitValue? 8 e = some high) :
    numericEscape 8 2 high asciiCharacter s = .ok (v, rest) ↔
      ∃ ds, s = ds ++ rest ∧ ds.length = 2 ∧ IsNumeral 8 (e :: ds) v.toNat ∧ v.toNat < 0x80 := by
  have hdigit : ∀ d, IsDigit 8 e d ↔ high = d := by
    intro d
    rw [← digitValue?_eq_some_iff (by decide), he, Option.some.injEq]
  rw [numericEscape_eq_ok_iff (by decide)]
  simp only [asciiCharacter_eq_ok_iff, isNumeral_cons_iff, hdigit]
  constructor
  · rintro ⟨ds, n, hs, hlength, hn, hvalue, hlt⟩
    exact ⟨ds, hs, hlength, ⟨high, n, rfl, hn, by rw [hlength, hvalue]⟩, hlt⟩
  · rintro ⟨ds, hs, hlength, ⟨_, n, rfl, hn, hvalue⟩, hlt⟩
    exact ⟨ds, n, hs, hlength, hn, by rw [hvalue, hlength], hlt⟩

theorem item_of_readEscape (h : readEscape q e s = .ok (v, rest)) :
    ∃ ds, s = ds ++ rest ∧ Item q ('\\' :: e :: ds) v := by
  unfold readEscape at h
  split at h
  next c l hfind =>
    cases h
    obtain rfl : l = e := by simpa using List.find?_some hfind
    exact ⟨[], rfl, .letter (List.mem_of_find?_eq_some hfind)⟩
  · repeat' split at h
    next he =>
      cases h
      rw [he]
      exact ⟨[], rfl, .quote⟩
    next he =>
      obtain ⟨ds, hs, hlength, hn, hlt⟩ := asciiHexEscape_eq_ok_iff.1 h
      rw [he]
      exact ⟨ds, hs, .byte hlength hn hlt⟩
    next he =>
      obtain ⟨ds, hs, hlength, hn⟩ := hexEscape_eq_ok_iff.1 h
      rw [he]
      exact ⟨ds, hs, .short hlength hn⟩
    next he =>
      obtain ⟨ds, hs, hlength, hn⟩ := hexEscape_eq_ok_iff.1 h
      rw [he]
      exact ⟨ds, hs, .long hlength hn⟩
    next high hd =>
      obtain ⟨ds, hs, hlength, hn, hlt⟩ := (octalEscape_eq_ok_iff hd).1 h
      exact ⟨ds, hs, .octal (congrArg Nat.succ hlength) hn hlt⟩
    · cases h

theorem readEscape_octal {high : Nat} (hq : q = '"' ∨ q = '\'') (h : digitValue? 8 e = some high) :
    readEscape q e s = numericEscape 8 2 high asciiCharacter s := by
  have hne : ∀ x, digitValue? 8 x = none → e ≠ x := by
    rintro x hx rfl
    rw [h] at hx
    cases hx
  have hletters : letterEscapes.find? (·.2 == e) = none := by
    have hnone : ∀ p ∈ letterEscapes, digitValue? 8 p.2 = none := by decide
    refine List.find?_eq_none.2 fun p hp => ?_
    simpa using (hne p.2 (hnone p hp)).symm
  have hquote : e ≠ q := by
    apply hne
    obtain rfl | rfl := hq <;> rfl
  rw [readEscape, hletters]
  simp only [if_neg hquote, if_neg (hne 'x' rfl), if_neg (hne 'u' rfl), if_neg (hne 'U' rfl), h]

theorem readEscape_of_item {ds : Text} (hq : q = '"' ∨ q = '\'')
    (h : Item q ('\\' :: e :: ds) v) : readEscape q e (ds ++ rest) = .ok (v, rest) := by
  cases h with
  | letter h =>
    have hfind : ∀ p ∈ letterEscapes, letterEscapes.find? (·.2 == p.2) = some p := by decide
    rw [readEscape, hfind _ h]
    rfl
  | quote => obtain rfl | rfl := hq <;> rfl
  | byte hds hc hlt =>
    have hread : numericEscape 16 2 0 asciiCharacter (ds ++ rest) = .ok (v, rest) :=
      asciiHexEscape_eq_ok_iff.2 ⟨ds, rfl, hds, hc, hlt⟩
    obtain rfl | rfl := hq <;> exact hread
  | octal hds hc hlt =>
    obtain ⟨high, -, hd, -⟩ := isNumeral_cons_iff.1 hc
    have hdigit := (digitValue?_eq_some_iff (by decide)).2 hd
    rw [readEscape_octal hq hdigit]
    exact (octalEscape_eq_ok_iff hdigit).2 ⟨ds, rfl, Nat.succ.inj hds, hc, hlt⟩
  | short hds hc =>
    have hread : numericEscape 16 4 0 character (ds ++ rest) = .ok (v, rest) :=
      hexEscape_eq_ok_iff.2 ⟨ds, rfl, hds, hc⟩
    obtain rfl | rfl := hq <;> exact hread
  | long hds hc =>
    have hread : numericEscape 16 8 0 character (ds ++ rest) = .ok (v, rest) :=
      hexEscape_eq_ok_iff.2 ⟨ds, rfl, hds, hc⟩
    obtain rfl | rfl := hq <;> exact hread

theorem decode_nil : decode q [] = .ok [] := by
  rw [decode.eq_def]

theorem decode_plain (hn : c ≠ '\n') (hb : c ≠ '\\') :
    decode q (c :: s) = (decode q s).map (c :: ·) := by
  rw [decode.eq_def]
  simp only [if_neg hn, if_neg hb]

theorem decode_escaped (h : readEscape q e s = .ok (v, rest)) :
    decode q ('\\' :: e :: s) = (decode q rest).map (v :: ·) := by
  rw [decode, if_neg (by decide), if_pos rfl]
  split
  next heq =>
    rw [h] at heq
    cases heq
  next heq =>
    rw [h] at heq
    cases heq
    rfl

theorem decode_append_of_item (hq : q = '"' ∨ q = '\'') (h : Item q w c) (s : Text) :
    decode q (w ++ s) = (decode q s).map (c :: ·) := by
  have hescape : ∀ {e : Char} {ds : Text}, Item q ('\\' :: e :: ds) c →
      decode q ('\\' :: e :: (ds ++ s)) = (decode q s).map (c :: ·) :=
    fun hitem => decode_escaped (readEscape_of_item hq hitem)
  cases h with
  | plain hn hb => exact decode_plain hn hb
  | letter h => exact hescape (.letter h)
  | quote => exact hescape .quote
  | byte hds hc hlt => exact hescape (.byte hds hc hlt)
  | @octal ds _ hds hc hlt =>
    obtain ⟨e, ds, rfl⟩ := List.exists_cons_of_length_eq_add_one hds
    exact hescape (.octal hds hc hlt)
  | short hds hc => exact hescape (.short hds hc)
  | long hds hc => exact hescape (.long hds hc)

theorem unescapes_of_decode (h : decode q body = .ok out) : Unescapes q body out := by
  fun_induction decode q body generalizing out with
  | case1 =>
    cases h
    exact .nil
  | case2 | case3 | case4 => cases h
  | case5 _ _ c rest' hread _ ih =>
    obtain ⟨ds, rfl, hitem⟩ := item_of_readEscape hread
    cases hrest : decode q rest' with
    | error fault =>
      rw [hrest] at h
      cases h
    | ok out =>
      rw [hrest] at h
      cases h
      exact .cons hitem (ih hrest)
  | case6 c rest hn hb ih =>
    cases hrest : decode q rest with
    | error fault =>
      rw [hrest] at h
      cases h
    | ok out =>
      rw [hrest] at h
      cases h
      exact .cons (.plain hn hb) (ih hrest)

/-- What is read is characters and escapes one after the other, and nothing else is. -/
theorem decode_eq_ok_iff_unescapes (hq : q = '"' ∨ q = '\'') :
    decode q body = .ok out ↔ Unescapes q body out := by
  refine ⟨unescapes_of_decode, fun h => ?_⟩
  induction h with
  | nil => exact decode_nil
  | cons hw _ ih =>
    rw [decode_append_of_item hq hw, ih]
    rfl

end Stencil.Literal
