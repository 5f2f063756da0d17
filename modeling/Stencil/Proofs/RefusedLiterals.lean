import Stencil.Proofs.BadEscapes
import Stencil.Proofs.Culprits
import Stencil.Proofs.Numerals
import Stencil.Proofs.Quoting

namespace Stencil

/-- Whether the form of the tokens rules out the fault. -/
def LiteralFault.IsRuledOut : LiteralFault → Prop
  | missingQuotes _ | newline | trailingBackslash | emptyRune | malformedNumber => True
  | unknownEscape _ | missingDigits _ _ | notAscii _ | invalidCodePoint _ | longRune
  | integerTooLarge | floatTooLarge => False

namespace Literal

/-- `Misquoted q s fault`: the text has the quotes `q` at both ends, and between them a bad escape
after characters and good ones. -/
def Misquoted (q : Char) (s : Text) (fault : LiteralFault) : Prop :=
  ∃ good bad out, s = q :: (good ++ bad ++ [q]) ∧ Unescapes q good out ∧ BadEscape q bad fault

variable {q : Char} {body bad out : Text} {fault : LiteralFault}

theorem BadEscape.not_isRuledOut (h : BadEscape q bad fault) : ¬ fault.IsRuledOut := by
  cases h <;> exact id

theorem Unescapes.ne_nil (h : Unescapes q body out) (hne : body ≠ []) : out ≠ [] := by
  cases h with
  | nil => exact (hne rfl).elim
  | cons => exact List.cons_ne_nil _ _

theorem decode_inside {s : Text} (hs : s = q :: (body ++ [q])) :
    (inside q s >>= decode q) = decode q body := by
  rw [inside_eq_ok.2 hs]
  rfl

theorem misquoted_iff (hq : q = '"' ∨ q = '\'') {s : Text} (hs : s = q :: (body ++ [q]))
    (hbody : Body q body) (hline : '\n' ∉ body) :
    (inside q s >>= decode q) = .error fault ↔ Misquoted q s fault := by
  rw [decode_inside hs, decode_eq_error_iff hq hbody hline, hs]
  simp only [Misquoted, List.cons.injEq, true_and, List.append_left_inj]

theorem runeValue_eq_error_iff {s : Text} (hs : s = '\'' :: (body ++ ['\''])) (hne : body ≠ []) :
    runeValue s = .error fault ↔ (inside '\'' s >>= decode '\'') = .error fault ∨
      fault = .longRune ∧ ∃ out, Unescapes '\'' body out ∧ 1 < out.length := by
  have hdecode := decode_inside hs
  rw [runeValue, ← bind_assoc, hdecode, Reader.bind_eq_error]
  refine or_congr_right ?_
  simp only [decode_eq_ok_iff_unescapes (.inr rfl)]
  constructor
  · rintro ⟨out, hout, hrune⟩
    obtain _ | ⟨c, _ | ⟨d, rest⟩⟩ := out
    · exact (hout.ne_nil hne rfl).elim
    · cases hrune
    · cases hrune
      exact ⟨rfl, _, hout, by simp⟩
  · rintro ⟨rfl, out, hout, hlong⟩
    refine ⟨out, hout, ?_⟩
    obtain _ | ⟨c, _ | ⟨d, rest⟩⟩ := out
    · cases hlong
    · exact (Nat.lt_irrefl 1 hlong).elim
    · rfl

end Literal

namespace Token

/-- `Faulty t fault`: the text of the token has the form of its kind, but no value. -/
def Faulty (t : Token) (fault : LiteralFault) : Prop :=
  match t.kind with
  | .string => Literal.Misquoted '"' t.text fault
  | .rune => Literal.Misquoted '\'' t.text fault ∨ fault = .longRune ∧ ∃ body out,
    t.text = '\'' :: (body ++ ['\'']) ∧ Literal.Unescapes '\'' body out ∧ 1 < out.length
  | .int => fault = .integerTooLarge ∧ 2 ^ 63 ≤ Nat.ofDigitChars 10 t.text 0
  | .float => fault = .floatTooLarge ∧ ∃ whole fraction,
    t.text = whole ++ '.' :: fraction ∧ '.' ∉ whole ∧ (Double.ofDecimal false
      ⟨Nat.ofDigitChars 10 (whole ++ fraction) 0, -fraction.length⟩).isFinite = false
  | _ => False

variable {t : Token} {fault : LiteralFault} {s : Text}

theorem Faulty.not_isRuledOut (h : t.Faulty fault) : ¬ fault.IsRuledOut := by
  unfold Faulty at h
  split at h
  · obtain ⟨good, bad, out, -, -, hbad⟩ := h
    exact hbad.not_isRuledOut
  · obtain ⟨good, bad, out, -, -, hbad⟩ | ⟨rfl, -⟩ := h
    · exact hbad.not_isRuledOut
    · exact id
  · obtain ⟨rfl, -⟩ := h
    exact id
  · obtain ⟨rfl, -⟩ := h
    exact id
  · exact h.elim

theorem isDigit_of_matches_digits (h : Pattern.Matches digits s) :
    s ≠ [] ∧ ∀ c ∈ s, c.isDigit = true := by
  obtain ⟨hne, hdigits⟩ := matches_digits_iff.1 h
  refine ⟨hne, fun c hc => ?_⟩
  simpa [isDigit, Char.isDigit, Char.le_def] using hdigits c hc

theorem rawValue_of_matches (h : (pattern .literal).Matches s) :
    ∃ value, Literal.rawValue s = .ok value := by
  obtain ⟨body, hs, -⟩ := matches_raw_iff.1 h
  exact ⟨body, Literal.inside_eq_ok.2 hs⟩

theorem stringValue_eq_error_iff (h : (pattern .string).Matches s) :
    Literal.stringValue s = .error fault ↔ Literal.Misquoted '"' s fault := by
  obtain ⟨body, hs, hbody, hline⟩ := matches_string_iff.1 h
  exact Literal.misquoted_iff (.inl rfl) hs hbody hline

theorem runeValue_eq_error_iff (h : (pattern .rune).Matches s) :
    Literal.runeValue s = .error fault ↔ Literal.Misquoted '\'' s fault ∨ fault = .longRune ∧
      ∃ body out, s = '\'' :: (body ++ ['\'']) ∧ Literal.Unescapes '\'' body out ∧
        1 < out.length := by
  obtain ⟨body, hs, hne, hbody, hline⟩ := matches_rune_iff.1 h
  rw [Literal.runeValue_eq_error_iff hs hne, Literal.misquoted_iff (.inr rfl) hs hbody hline, hs]
  simp

theorem toInt?_eq_error_iff (h : (pattern .int).Matches s) :
    toInt? s = .error fault ↔ fault = .integerTooLarge ∧ 2 ^ 63 ≤ Nat.ofDigitChars 10 s 0 := by
  obtain ⟨hne, hdigits⟩ := isDigit_of_matches_digits h
  rw [toInt?, Text.numeral?_of_isDigit hne hdigits]
  change (if _ then _ else _) = _ ↔ _
  split
  next hlt =>
    constructor
    · intro h
      cases h
    · rintro ⟨-, hlarge⟩
      exact (Nat.not_lt.2 hlarge hlt).elim
  next hlarge =>
    constructor
    · rintro ⟨⟩
      exact ⟨rfl, Nat.le_of_not_lt hlarge⟩
    · rintro ⟨rfl, -⟩
      rfl

theorem toFloat?_eq_error_iff (h : (pattern .float).Matches s) :
    toFloat? s = .error fault ↔ fault = .floatTooLarge ∧ ∃ whole fraction,
      s = whole ++ '.' :: fraction ∧ '.' ∉ whole ∧ (Double.ofDecimal false
        ⟨Nat.ofDigitChars 10 (whole ++ fraction) 0, -fraction.length⟩).isFinite = false := by
  obtain ⟨whole, fraction, rfl, hw, hf⟩ := matches_float_iff.1 h
  obtain ⟨hwhole, hwdigits⟩ := isDigit_of_matches_digits hw
  obtain ⟨hfraction, hfdigits⟩ := isDigit_of_matches_digits hf
  have hpoint : '.' ∉ whole := fun hmem => absurd (hwdigits _ hmem) (by decide)
  rw [toFloat?, Decimal.ofPositional?_of_isDigit hwhole hfraction
    (List.forall_mem_append.2 ⟨hwdigits, hfdigits⟩)]
  simp only
  split
  next hfinite =>
    constructor
    · intro h
      cases h
    · rintro ⟨-, whole', fraction', heq, hpoint', hinfinite⟩
      obtain ⟨rfl, rfl⟩ := append_cons_inj_of_notMem hpoint hpoint' heq
      rw [hfinite] at hinfinite
      cases hinfinite
  next hinfinite =>
    constructor
    · rintro ⟨⟩
      exact ⟨rfl, whole, fraction, rfl, hpoint, Bool.eq_false_iff.2 hinfinite⟩
    · rintro ⟨rfl, -⟩
      rfl

theorem toVariable?_eq_error_iff (ht : t.WellFormed) :
    t.toVariable? = some (.error fault) ↔ t.Faulty fault := by
  obtain ⟨kind, s⟩ := t
  have hs : (pattern kind).Matches s := ht.matches'
  cases kind with
  | literal =>
    obtain ⟨value, hvalue⟩ := rawValue_of_matches hs
    simp [toVariable?, Faulty, hvalue, Except.map]
  | string =>
    simp only [toVariable?, Faulty, Option.some.injEq, Literal.map_eq_error_iff]
    exact stringValue_eq_error_iff hs
  | rune =>
    simp only [toVariable?, Faulty, Option.some.injEq, Literal.map_eq_error_iff]
    exact runeValue_eq_error_iff hs
  | float =>
    simp only [toVariable?, Faulty, Option.some.injEq]
    exact toFloat?_eq_error_iff hs
  | int =>
    simp only [toVariable?, Faulty, Option.some.injEq]
    exact toInt?_eq_error_iff hs
  | _ => simp [toVariable?, Faulty]

end Token

namespace Reader

/-- As `readVariable`, but it fails with `stray` where no variable begins. -/
def readVariableOr (stray : List Token → Failure) (below : Reader Pipeline) (ts : List Token) :
    Except Failure (Variable × List Token) :=
  match ts with
  | [] => .error (stray [])
  | t :: rest =>
    if t.kind = .space then .ok (readSpace (t :: rest))
    else if t.kind = .groupOpen then readGrouping below (t :: rest)
    else match t.toVariable? with
      | some (.ok v) => .ok (v, rest)
      | some (.error fault) => .error ⟨.invalidLiteral t.text fault.message, t :: rest⟩
      | none => .error (stray (t :: rest))

variable {stray : List Token → Failure} {below : Reader Pipeline} {ts rest : List Token}

theorem readVariableOr_unexpected :
    readVariableOr (unexpected "a variable".toList) below ts = readVariable below ts := by
  cases ts <;> rfl

theorem readVariableOr_eq (h : Token.beginsVariable ts = true) :
    readVariableOr stray below ts = readVariable below ts := by
  cases ts with
  | nil => cases h
  | cons t rest =>
    rw [readVariableOr, readVariable]
    by_cases hs : t.kind = .space
    · rw [if_pos hs, if_pos hs]
    · by_cases hg : t.kind = .groupOpen
      · rw [if_neg hs, if_neg hs, if_pos hg, if_pos hg]
      · obtain ⟨r, hr⟩ := Token.exists_toVariable?_iff.2 ⟨h, hs, hg⟩
        rw [if_neg hs, if_neg hs, if_neg hg, if_neg hg, hr]
        cases r <;> rfl

def readVariablesOr (stray : List Token → Failure) (below : Reader Pipeline) (ts : List Token) :
    Except Failure (Group × List Token) :=
  if _hb : Token.beginsVariable ts then
    match _h : readVariableOr stray below ts with
    | .error f => .error f
    | .ok (v, rest) => (readVariablesOr stray below rest).map (·.map (v :: ·) id)
  else .ok ([], ts)
termination_by ts.length
decreasing_by exact length_of_readVariable (readVariableOr_eq _hb ▸ _h)

theorem readVariablesOr_eq (stray : List Token → Failure) (below : Reader Pipeline)
    (ts : List Token) : readVariablesOr stray below ts = readVariables below ts := by
  fun_induction readVariablesOr stray below ts with
  | case1 ts hb f h =>
    rw [readVariableOr_eq hb] at h
    exact (readVariables_of_error hb h).symm
  | case2 ts hb v rest h ih =>
    rw [readVariableOr_eq hb] at h
    rw [readVariables_of_ok hb h, ih]
  | case3 ts hb => rw [readVariables, if_neg hb]

end Reader

theorem exists_faulty_of_parse {file s literal reason : Text} {options : Options} {e : ParseError}
    (h : parse file s options = .error e) (hk : e.kind = .invalidLiteral literal reason) :
    ∃ g ∈ (segments s).1, ∃ t ∈ tokenize g.source, ∃ fault,
      literal = t.text ∧ reason = fault.message ∧ t.Faulty fault := by
  obtain ⟨before, g, us, f, hfirst, rfl⟩ | ⟨-, before, -, rfl⟩ := parse_eq_error.1 h
  · obtain ⟨later, hsegments⟩ := hfirst.among
    have hmem : g ∈ (segments s).1 := by simp [hsegments]
    obtain ⟨t, rest, hrest, hblames⟩ := hfirst.exists_blames (carved_of_segments g hmem)
    have hkind : f.kind = .invalidLiteral literal reason := hk
    rw [hkind] at hblames
    obtain ⟨hliteral, fault, hfault, hreason⟩ := hblames
    have ht : t ∈ tokenize g.source := by simp [hfirst.tokens, hrest]
    have hformed := wellFormed_of_lexed (lexed_tokenize g.source) t ht
    exact ⟨g, hmem, t, ht, fault, hliteral, hreason,
      (Token.toVariable?_eq_error_iff hformed).1 hfault⟩
  · cases hk

/-- A template is refused for a literal only if a token of an action is faulty: a string or a rune
with a bad escape, a rune of more than one character, an integer that a signed word of 64 bits does
not hold, or a float that is not finite. What else reading a value checks, every token has by its
form; and what reading a variable does where none begins does not matter, because it is not asked
for one there. -/
theorem literals_shielded :
    (∀ s, ∀ t ∈ tokenize s, ∀ fault, t.toVariable? = some (.error fault) ↔ t.Faulty fault) ∧
    (∀ (t : Token) fault, t.Faulty fault → t.kind ≠ .literal ∧ ¬ fault.IsRuledOut) ∧
    (∀ file s options e literal reason, parse file s options = .error e →
      e.kind = .invalidLiteral literal reason →
      ∃ g ∈ (segments s).1, ∃ t ∈ tokenize g.source, ∃ fault,
        literal = t.text ∧ reason = fault.message ∧ t.Faulty fault) ∧
    (∀ below ts, Reader.readVariableOr (Reader.unexpected "a variable".toList) below ts =
        Reader.readVariable below ts ∧
      ∀ stray, Reader.readVariablesOr stray below ts = Reader.readVariables below ts) := by
  refine ⟨fun s t ht fault => ?_, fun t fault h => ⟨?_, h.not_isRuledOut⟩,
    fun _ _ _ _ _ _ => exists_faulty_of_parse, fun below ts => ⟨Reader.readVariableOr_unexpected,
      fun stray => Reader.readVariablesOr_eq stray below ts⟩⟩
  · exact Token.toVariable?_eq_error_iff (wellFormed_of_lexed (lexed_tokenize s) t ht)
  · intro hk
    rw [Token.Faulty, hk] at h
    exact h

theorem literals_shielded_escaped_quote : ∃ e,
    parse [] "\x7b\x7b x \"a\\x\\\"\" \x7d\x7d".toList = .error e ∧
    e.kind = .invalidLiteral "\"a\\x\\\"\"".toList "expected 2 base-16 digits in escape".toList ∧
    ∃ g ∈ (segments "\x7b\x7b x \"a\\x\\\"\" \x7d\x7d".toList).1,
      ∃ t ∈ tokenize g.source, ∃ fault, "\"a\\x\\\"\"".toList = t.text ∧
        "expected 2 base-16 digits in escape".toList = fault.message ∧ t.Faulty fault := by
  have hparse : (match parse [] "\x7b\x7b x \"a\\x\\\"\" \x7d\x7d".toList with
      | .ok _ => none
      | .error e => some e.kind) = some (.invalidLiteral "\"a\\x\\\"\"".toList
        "expected 2 base-16 digits in escape".toList) := by decide +kernel
  cases he : parse [] "\x7b\x7b x \"a\\x\\\"\" \x7d\x7d".toList with
  | ok t =>
    rw [he] at hparse
    cases hparse
  | error e =>
    rw [he] at hparse
    have hk := Option.some.inj hparse
    obtain ⟨-, -, hfaulty, -⟩ := literals_shielded
    exact ⟨e, rfl, hk, hfaulty _ _ _ e _ _ he hk⟩

end Stencil
