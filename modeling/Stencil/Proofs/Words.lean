import Stencil.Proofs.Escapes

namespace Stencil.Literal

open Text

inductive WordFault where
  | literal (fault : LiteralFault)
  | overflow
  deriving DecidableEq, Repr

/-- A product and a sum, unless one of them has more than 32 bits. -/
def mulAdd (word factor summand : UInt32) : Except WordFault UInt32 :=
  if word.toNat * factor.toNat + summand.toNat < 2 ^ 32 then .ok (word * factor + summand)
  else .error .overflow

/-- Takes `count` digits at the start of a text up into a number, `total` being the number of digits
that the escape has. -/
def readWord (base total : Nat) : Nat → UInt32 → Text → Except WordFault (UInt32 × Text)
  | 0, word, s => .ok (word, s)
  | _ + 1, _, [] => .error (.literal (.missingDigits total base))
  | count + 1, word, c :: s =>
    match digitValue? base c with
    | none => .error (.literal (.missingDigits total base))
    | some d => do
      let word ← mulAdd word (.ofNat base) (.ofNat d)
      readWord base total count word s

def wordCharacter (toChar : Nat → Except LiteralFault Char) (word : UInt32) (rest : Text) :
    Except WordFault (Char × Text) :=
  ((toChar word.toNat).map (·, rest)).mapError .literal

def wordHexEscape (count : Nat) (toChar : Nat → Except LiteralFault Char) (s : Text) :
    Except WordFault (Char × Text) := do
  let (word, rest) ← readWord 16 count count 0 s
  wordCharacter toChar word rest

def wordOctalEscape (high : Nat) (s : Text) : Except WordFault (Char × Text) := do
  let (low, rest) ← readWord 8 2 2 0 s
  let word ← mulAdd (.ofNat high) (.ofNat 64) low
  wordCharacter asciiCharacter word rest

def readWordEscape (q c : Char) (s : Text) : Except WordFault (Char × Text) :=
  match letterEscapes.find? (·.2 == c) with
  | some (value, _) => .ok (value, s)
  | none =>
    if c = q then .ok (q, s)
    else if c = 'x' then wordHexEscape 2 asciiCharacter s
    else if c = 'u' then wordHexEscape 4 character s
    else if c = 'U' then wordHexEscape 8 character s
    else match digitValue? 8 c with
      | some high => wordOctalEscape high s
      | none => .error (.literal (.unknownEscape c))

section Numbers

variable {base count total k m n d : Nat} {s rest : Text} {v : Char}

theorem mulAdd_ofNat (hn : n < 2 ^ 32) (hm : m < 2 ^ 32) (hd : d < 2 ^ 32)
    (h : n * m + d < 2 ^ 32) :
    mulAdd (.ofNat n) (.ofNat m) (.ofNat d) = .ok (.ofNat (n * m + d)) := by
  rw [mulAdd, UInt32.toNat_ofNat_of_lt' hn, UInt32.toNat_ofNat_of_lt' hm,
    UInt32.toNat_ofNat_of_lt' hd, if_pos h, UInt32.ofNat_add, UInt32.ofNat_mul]

/-- Where the numbers of so many digits have 32 bits, none on the way to them has more. -/
theorem readWord_eq (hb : base ∈ bases) (hroom : base ^ (k + count) ≤ 2 ^ 32) (hn : n < base ^ k) :
    readWord base total count (.ofNat n) s =
      match readDigits base count s with
      | none => .error (.literal (.missingDigits total base))
      | some (v, rest) => .ok (.ofNat (n * base ^ count + v), rest) := by
  have hbase : ∀ base ∈ bases, 0 < base ∧ base < 2 ^ 32 := by decide
  obtain ⟨hpos, hlt⟩ := hbase base hb
  induction count generalizing k n s with
  | zero => simp [readWord, readDigits]
  | succ count ih =>
    cases s with
    | nil => rfl
    | cons c s =>
      rw [readWord, readDigits]
      cases hd : digitValue? base c with
      | none => rfl
      | some d =>
        have hdigit := lt_of_digitValue? hd
        have hnext : n * base + d < base ^ (k + 1) := by
          have hhigh : (n + 1) * base ≤ base ^ k * base := Nat.mul_le_mul_right _ hn
          rw [Nat.add_mul, Nat.one_mul] at hhigh
          rw [Nat.pow_succ]
          omega
        have hroom' : base ^ (k + 1 + count) ≤ 2 ^ 32 := by
          rwa [Nat.add_right_comm, Nat.add_assoc]
        have hword : n * base + d < 2 ^ 32 :=
          Nat.lt_of_lt_of_le hnext
            ((Nat.pow_le_pow_right hpos (Nat.le_add_right _ _)).trans hroom')
        have hfits : n < 2 ^ 32 := by
          have := Nat.le_mul_of_pos_right n hpos
          omega
        simp only [mulAdd_ofNat hfits hlt (hdigit.trans hlt) hword, bind, Except.bind, Option.bind,
          ih hroom' hnext]
        cases readDigits base count s with
        | none => rfl
        | some r =>
          have hvalue : (n * base + d) * base ^ count + r.1 =
              n * base ^ (count + 1) + (d * base ^ count + r.1) := by
            rw [Nat.pow_succ', Nat.add_mul, Nat.mul_assoc, Nat.add_assoc]
          simp only [hvalue]
          rfl

theorem readWord_zero_eq (hb : base ∈ bases) (hroom : base ^ count ≤ 2 ^ 32) :
    readWord base total count 0 s =
      match readDigits base count s with
      | none => .error (.literal (.missingDigits total base))
      | some (v, rest) => .ok (.ofNat v, rest) := by
  have hroom' : base ^ (0 + count) ≤ 2 ^ 32 := by rwa [Nat.zero_add]
  have hzero : (0 : UInt32) = .ofNat 0 := rfl
  rw [hzero, readWord_eq hb hroom' Nat.one_pos]
  simp only [Nat.zero_mul, Nat.zero_add]

theorem wordHexEscape_eq {toChar : Nat → Except LiteralFault Char} (hcount : count ≤ 8) :
    wordHexEscape count toChar s = (numericEscape 16 count 0 toChar s).mapError .literal := by
  have hroom : 16 ^ count ≤ 2 ^ 32 := Nat.pow_le_pow_right (by decide) hcount
  rw [wordHexEscape, readWord_zero_eq (by decide) hroom, numericEscape]
  cases h : readDigits 16 count s with
  | none => rfl
  | some r =>
    have hlt : r.1 < 2 ^ 32 := Nat.lt_of_lt_of_le (lt_of_readDigits h) hroom
    simp only [bind, Except.bind, wordCharacter, UInt32.toNat_ofNat_of_lt' hlt, Nat.zero_mul,
      Nat.zero_add]

theorem wordOctalEscape_eq (h : n < 8) :
    wordOctalEscape n s = (numericEscape 8 2 n asciiCharacter s).mapError .literal := by
  rw [wordOctalEscape, readWord_zero_eq (by decide) (by decide), numericEscape]
  cases hr : readDigits 8 2 s with
  | none => rfl
  | some r =>
    have hlow : r.1 < 64 := lt_of_readDigits hr
    have hsum : mulAdd (.ofNat n) (.ofNat 64) (.ofNat r.1) = .ok (.ofNat (n * 64 + r.1)) :=
      mulAdd_ofNat (by omega) (by decide) (by omega) (by omega)
    have hlt : n * 64 + r.1 < 2 ^ 32 := by omega
    simp only [bind, Except.bind, hsum, wordCharacter, UInt32.toNat_ofNat_of_lt' hlt]
    rfl

end Numbers

variable {q c v : Char} {s rest body out : Text}

theorem readWordEscape_eq : readWordEscape q c s = (readEscape q c s).mapError .literal := by
  rw [readWordEscape, readEscape]
  cases letterEscapes.find? (·.2 == c) with
  | some p => rfl
  | none =>
    simp only [apply_ite (Except.mapError WordFault.literal), wordHexEscape_eq (Nat.le_refl 8),
      wordHexEscape_eq (show 4 ≤ 8 by decide), wordHexEscape_eq (show 2 ≤ 8 by decide)]
    cases h : digitValue? 8 c with
    | none => rfl
    | some high =>
      simp only [wordOctalEscape_eq (lt_of_digitValue? h)]
      rfl

theorem length_of_readWordEscape (h : readWordEscape q c s = .ok (v, rest)) :
    rest.length ≤ s.length := by
  rw [readWordEscape_eq] at h
  cases hr : readEscape q c s with
  | error fault =>
    rw [hr] at h
    cases h
  | ok r =>
    rw [hr] at h
    cases h
    exact length_of_readEscape hr

def decodeWords (q : Char) (s : Text) : Except WordFault Text :=
  match s with
  | [] => .ok []
  | c :: rest =>
    if c = '\n' then .error (.literal .newline)
    else if c = '\\' then
      match rest with
      | [] => .error (.literal .trailingBackslash)
      | e :: rest =>
        match _h : readWordEscape q e rest with
        | .error fault => .error fault
        | .ok (v, rest') => (decodeWords q rest').map (v :: ·)
    else (decodeWords q rest).map (c :: ·)
termination_by s.length
decreasing_by
  all_goals simp only [List.length_cons]
  · have := length_of_readWordEscape _h
    omega
  · omega

theorem decodeWords_escape {e : Char} : decodeWords q ('\\' :: e :: s) =
    match readWordEscape q e s with
    | .error fault => .error fault
    | .ok (v, rest) => (decodeWords q rest).map (v :: ·) := by
  rw [decodeWords, if_neg (by decide), if_pos rfl]
  split
  next heq => rw [heq]
  next heq => rw [heq]

theorem decodeWords_eq : decodeWords q body = (decode q body).mapError .literal := by
  have hmap : ∀ (c : Char) (r : Except LiteralFault Text),
      (r.mapError WordFault.literal).map (c :: ·) = (r.map (c :: ·)).mapError .literal := by
    intro c r
    cases r <;> rfl
  fun_induction decode q body with
  | case1 | case2 | case3 =>
    rw [decodeWords.eq_def]
    rfl
  | case4 e rest fault hread =>
    rw [decodeWords_escape, readWordEscape_eq, hread]
    rfl
  | case5 e rest v rest' hread _ ih =>
    rw [decodeWords_escape, readWordEscape_eq, hread, ← hmap, ← ih]
    rfl
  | case6 c rest hn hb ih =>
    rw [decodeWords.eq_def, ← hmap, ← ih]
    simp only [if_neg hn, if_neg hb]

/-- Exactly the characters and escapes of the grammar are read, as what they stand for, and on no
text does a number leave 32 bits while it is read. -/
theorem decode_follows_grammar (hq : q = '"' ∨ q = '\'') (body : Text) :
    (∀ out, decode q body = .ok out ↔ Unescapes q body out) ∧
    decodeWords q body = (decode q body).mapError .literal :=
  ⟨fun _ => decode_eq_ok_iff_unescapes hq, decodeWords_eq⟩

theorem decode_follows_grammar_every_form :
    decode '"' "é\\n\\\"\\x4A\\172\\u00e9\\U0001F600".toList = .ok "é\n\"Jzé😀".toList ∧
    decodeWords '"' "é\\n\\\"\\x4A\\172\\u00e9\\U0001F600".toList = .ok "é\n\"Jzé😀".toList := by
  have hgrammar := decode_follows_grammar (.inl rfl)
    "é\\n\\\"\\x4A\\172\\u00e9\\U0001F600".toList
  have hread := (hgrammar.1 "é\n\"Jzé😀".toList).2 <|
    .cons (w := "é".toList) (.plain (by decide) (by decide)) <|
    .cons (w := "\\n".toList) (.letter (by decide)) <|
    .cons (w := "\\\"".toList) .quote <|
    .cons (w := "\\x4A".toList) (.byte rfl ⟨[4, 10], by decide, rfl⟩ (by decide)) <|
    .cons (w := "\\172".toList) (.octal rfl ⟨[1, 7, 2], by decide, rfl⟩ (by decide)) <|
    .cons (w := "\\u00e9".toList) (.short rfl ⟨[0, 0, 14, 9], by decide, rfl⟩) <|
    .cons (w := "\\U0001F600".toList) (.long rfl ⟨[0, 0, 0, 1, 15, 6, 0, 0], by decide, rfl⟩) .nil
  refine ⟨hread, ?_⟩
  rw [hgrammar.2, hread]
  rfl

end Stencil.Literal
