import Stencil.Proofs.TokenText

namespace Stencil

namespace Token

open Pattern

def kinds : List TokenKind := rules.map (·.kind)

def earlier (k : TokenKind) : List TokenKind := kinds.takeWhile (· != k)

/-- Whether a token of the kind can begin with the character. -/
def heads (c : Char) : TokenKind → Bool
  | .range => c == 'r'
  | .assignment => c == '$'
  | .ident => c == '_' || isLetter c
  | .keyword => c == '.' || c == '$'
  | .literal => c == '`'
  | .string => c == '"'
  | .rune => c == '\''
  | .float | .int => isDigit c
  | .comment => c == '/'
  | .space => isSpace c
  | .pipe => c == '|'
  | .groupOpen => c == '('
  | .groupClose => c == ')'
  | .statementOpen => c == '{'
  | .statementClose => c == '-' || c == '}'
  | .text => true

theorem begins_pattern (c : Char) (k : TokenKind) : (pattern k).begins c = heads c k := by
  cases k <;>
    simp [pattern, rule, rules, begins, nullable, chain, word, char, Pattern.optional, oneOrMore,
      digits, spaces1, anyBut, any, heads]

theorem take_of_not_heads {k : TokenKind} {c : Char} {s : Text} (h : heads c k = false) :
    (rule k).take (c :: s) = none :=
  Lexer.Rule.take_of_not_begins ((begins_pattern c k).trans h)

theorem first_of_take {k : TokenKind} {c : Char} {s : Text} {b : Token × Text}
    (h : (rule k).take (c :: s) = some b)
    (hq : ∀ j ∈ earlier k, heads c j = true → (rule j).take (c :: s) = none) :
    Lexer.first rules (c :: s) = some b := by
  have hsplit : rules =
      (earlier k).map rule ++ rule k :: ((kinds.dropWhile (· != k)).tail.map rule) := by
    cases k <;> rfl
  refine Lexer.first_eq_some_iff.2 ⟨_, _, _, hsplit, h, fun q hmem => ?_⟩
  obtain ⟨j, hj, rfl⟩ := List.mem_map.1 hmem
  cases hh : heads c j with
  | true => exact hq j hj hh
  | false => exact take_of_not_heads hh

theorem isDigit_iff {c : Char} : isDigit c = true ↔ 48 ≤ c.toNat ∧ c.toNat ≤ 57 := by
  simp only [isDigit, Bool.and_eq_true, decide_eq_true_eq, Char.le_def, UInt32.le_iff_toNat_le]
  rfl

theorem isLetter_iff {c : Char} :
    isLetter c = true ↔ 97 ≤ c.toNat ∧ c.toNat ≤ 122 ∨ 65 ≤ c.toNat ∧ c.toNat ≤ 90 := by
  simp only [isLetter, Bool.or_eq_true, Bool.and_eq_true, decide_eq_true_eq, Char.le_def,
    UInt32.le_iff_toNat_le]
  rfl

theorem isSpace_iff {c : Char} :
    isSpace c = true ↔ c = '\t' ∨ c = '\n' ∨ c = '\x0c' ∨ c = '\r' ∨ c = ' ' := by
  simp [isSpace]

/-- What the token would take of the text after it, or an earlier rule of the token and more. -/
def reach (t : Token) : Pattern :=
  match t.kind with
  | .ident => .alt (.one isWord) (if t.text = "range".toList then headerTail else .nothing)
  | .keyword =>
    if t.text.length ≤ 1 then .one isLetter
    else .alt nameMore (if t.text.head? = some '$' then assignTail else .nothing)
  | .float => .one isDigit
  | .int => .alt (.one isDigit) (.seq (char '.') (.one isDigit))
  | .space => .one isSpace
  | .statementOpen => if t.text.length ≤ 2 then char '-' else .nothing
  | _ => .nothing

/-- Whether the text after the token has nothing at its start that the token would take. -/
def EndsAt (t : Token) (x : Text) : Prop := ∀ m, m <+: x → ¬ t.reach.Matches m

/-- Whether the text of the token is one of its kind; a comment ends with the first end it has. -/
structure WellFormed (t : Token) : Prop where
  matches' : (pattern t.kind).Matches t.text
  closed : t.kind = .comment → ∀ m, m <+: t.text → (pattern .comment).Matches m → m = t.text

theorem reach_not_nullable (t : Token) : t.reach.nullable = false := by
  obtain ⟨kind, s⟩ := t
  unfold reach
  cases kind with
  | ident => by_cases h : s = "range".toList <;> simp only [h, if_true, if_false] <;> rfl
  | keyword =>
    by_cases h : s.length ≤ 1
    · simp only [h, if_true]
      rfl
    · by_cases hd : s.head? = some '$' <;> simp only [h, hd, if_true, if_false] <;> rfl
  | statementOpen => by_cases h : s.length ≤ 2 <;> simp only [h, if_true, if_false] <;> rfl
  | _ => rfl

theorem not_reach_nil (t : Token) : ¬ t.reach.Matches [] := by
  rw [← nullable_iff, reach_not_nullable]
  exact Bool.false_ne_true

theorem endsAt_of_reach {t : Token} (h : t.reach = .nothing) (x : Text) : t.EndsAt x :=
  fun _ _ hm => not_matches_nothing (h ▸ hm)

theorem prefix_append_cases {p q w x : Text} (h : p ++ q <+: w ++ x) :
    (∃ z, p = w ++ z ∧ z ++ q <+: x) ∨ ∃ d z, w = p ++ d :: z ∧ q <+: d :: z ++ x := by
  have hp : p <+: w ++ x := (List.prefix_append p q).trans h
  obtain hle | hlt := Nat.lt_or_ge p.length w.length
  · obtain ⟨z, rfl⟩ := List.prefix_of_prefix_length_le hp (List.prefix_append w x) (Nat.le_of_lt hle)
    cases z with
    | nil => simp at hle
    | cons d z =>
      rw [List.append_assoc] at h
      exact .inr ⟨d, z, rfl, (List.prefix_append_right_inj p).1 h⟩
  · obtain ⟨z, rfl⟩ := List.prefix_of_prefix_length_le (List.prefix_append w x) hp hlt
    rw [List.append_assoc] at h
    exact .inl ⟨z, rfl, (List.prefix_append_right_inj w).1 h⟩

theorem range_end {s : Text} (h : Matches (pattern .range) s) :
    ∃ a, s = a ++ [':', '='] ∧ ':' ∉ a := by
  obtain ⟨a, b, rfl, ha, hb⟩ :=
    (matches_chain_append_iff [spaces1, char '$', dottedName,
      Pattern.optional (chain [spaces, char ',', spaces, char '$', dottedName]), spaces1]).1 h
  exact ⟨a, by rw [matches_word_iff.1 hb], ha.notMem (by decide)⟩

theorem assignment_end {s : Text} (h : Matches (pattern .assignment) s) :
    ∃ a, s = a ++ ['='] ∧ '=' ∉ a := by
  obtain ⟨a, b, rfl, ha, hb⟩ :=
    (matches_chain_append_iff [dottedName, spaces1, Pattern.optional (char ':')]).1 h
  exact ⟨a, by rw [matches_char_iff.1 hb], ha.notMem (by decide)⟩

theorem eq_nil_of_matches_append {t : Token} {x y : Text} (hw : t.WellFormed) (he : t.EndsAt x)
    (hc : t.kind ≠ .comment) (hy : y <+: x) (h : (pattern t.kind).Matches (t.text ++ y)) :
    y = [] := by
  apply Classical.byContradiction
  intro hne
  obtain ⟨d, y, rfl⟩ := List.exists_cons_of_ne_nil hne
  have hd : [d] <+: x := List.IsPrefix.trans ⟨y, rfl⟩ hy
  obtain ⟨kind, s⟩ := t
  have hs := hw.matches'
  cases kind with
  | range =>
    obtain ⟨a, rfl, ha⟩ := range_end hs
    obtain ⟨b, hb, hnb⟩ := range_end h
    exact hne (eq_nil_of_terminated ha hnb hb)
  | assignment =>
    obtain ⟨a, rfl, ha⟩ := assignment_end hs
    obtain ⟨b, hb, hnb⟩ := assignment_end h
    exact hne (eq_nil_of_terminated ha hnb hb)
  | ident =>
    obtain ⟨c, w, rfl, -, -⟩ := matches_ident_iff.1 hs
    obtain ⟨c', w', heq, -, hw'⟩ := matches_ident_iff.1 h
    obtain ⟨rfl, rfl⟩ := List.cons.inj heq
    exact he [d] hd (.altLeft (.one (hw' d (by simp))))
  | keyword =>
    obtain ⟨c, n, rfl, -, hn⟩ := matches_keyword_iff.1 hs
    obtain ⟨c', n', heq, -, hn'⟩ := matches_keyword_iff.1 h
    obtain ⟨rfl, rfl⟩ := List.cons.inj heq
    obtain ⟨e, u, hu, hletter, htail⟩ := matches_dottedName_iff.1 (hn'.resolve_right (by simp))
    cases n with
    | nil =>
      obtain ⟨rfl, rfl⟩ := List.cons.inj hu
      exact he [d] hd (.one hletter)
    | cons f n =>
      obtain ⟨rfl, rfl⟩ := List.cons.inj hu
      obtain ⟨m, hm, hmore⟩ := htail.exists_nameMore hne
      exact he m (hm.trans hy) (.altLeft hmore)
  | literal =>
    obtain ⟨a, rfl, ha⟩ := matches_raw_iff.1 hs
    obtain ⟨b, hb, hnb⟩ := matches_raw_iff.1 h
    exact hne (eq_nil_of_terminated ha hnb (List.cons.inj hb).2)
  | string =>
    obtain ⟨a, rfl, ha, -⟩ := matches_string_iff.1 hs
    obtain ⟨b, hb, hbody, -⟩ := matches_string_iff.1 h
    simp only [List.cons_append, List.append_assoc, List.cons.injEq, true_and] at hb
    exact hne (ha.unique (by decide) hbody hb).2
  | rune =>
    obtain ⟨a, rfl, -, ha, -⟩ := matches_rune_iff.1 hs
    obtain ⟨b, hb, -, hbody, -⟩ := matches_rune_iff.1 h
    simp only [List.cons_append, List.append_assoc, List.cons.injEq, true_and] at hb
    exact hne (ha.unique (by decide) hbody hb).2
  | float =>
    obtain ⟨a, b, rfl, ha, hb⟩ := matches_float_iff.1 hs
    obtain ⟨a', b', heq, ha', hb'⟩ := matches_float_iff.1 h
    rw [List.append_assoc, List.cons_append] at heq
    have hda := ha.notMem (c := '.') (by decide)
    have hda' := ha'.notMem (c := '.') (by decide)
    obtain ⟨-, rfl⟩ := append_cons_inj_of_notMem hda hda' heq
    exact he [d] hd (.one ((matches_digits_iff.1 hb').2 d (by simp)))
  | int => exact he [d] hd (.altLeft (.one ((matches_int_iff.1 h).2 d (by simp))))
  | comment => exact hc rfl
  | space => exact he [d] hd (.one ((matches_space_iff.1 h).2 d (by simp)))
  | pipe | groupOpen | groupClose =>
    rw [matches_char_iff.1 hs] at h
    simpa using matches_char_iff.1 h
  | statementOpen =>
    obtain rfl | rfl := matches_statementOpen_iff.1 hs
    · obtain heq | heq := matches_statementOpen_iff.1 h
      · simp at heq
      · simp only [List.cons_append, List.nil_append, List.cons.injEq, true_and] at heq
        obtain ⟨rfl, rfl⟩ := heq
        exact he ['-'] hd (matches_char_iff.2 rfl)
    · obtain heq | heq := matches_statementOpen_iff.1 h <;> simp at heq
  | statementClose =>
    obtain rfl | rfl := matches_statementClose_iff.1 hs
    all_goals obtain heq | heq := matches_statementClose_iff.1 h <;> simp at heq
  | text =>
    obtain ⟨c, rfl, -⟩ := matches_one_iff.1 hs
    obtain ⟨c', heq, -⟩ := matches_one_iff.1 h
    simp at heq

theorem head_of_spaces1 {q : Pattern} {qs : List Pattern} {s : Text}
    (h : Matches (chain (spaces1 :: q :: qs)) s) : ∃ c r, s = c :: r ∧ isSpace c = true := by
  obtain ⟨a, b, rfl, ha, -⟩ := matches_chain_cons_iff.1 h
  obtain ⟨hne, hall⟩ := matches_oneOrMore_iff.1 ha
  obtain ⟨c, r, rfl⟩ := List.exists_cons_of_ne_nil hne
  exact ⟨c, r ++ b, rfl, hall c List.mem_cons_self⟩

theorem isWord_eq_false_of_isSpace {c : Char} (h : isSpace c = true) : isWord c = false := by
  obtain rfl | rfl | rfl | rfl | rfl := isSpace_iff.1 h <;> decide

theorem not_matches_range {s x m : Text} (hw : WellFormed ⟨.ident, s⟩)
    (he : EndsAt ⟨.ident, s⟩ x) (hm : m <+: s ++ x) : ¬ Matches (pattern .range) m := by
  intro h
  obtain ⟨r, rfl, hr⟩ := matches_range_iff.1 h
  have hword : ∀ c ∈ s, isWord c = true := by
    obtain ⟨c, w, rfl, hc, hall⟩ := matches_ident_iff.1 hw.matches'
    exact List.forall_mem_cons.2 ⟨by obtain rfl | hc := hc <;> simp [isWord, *], hall⟩
  obtain ⟨z, hz, hzr⟩ | ⟨d, z, rfl, hrz⟩ := prefix_append_cases hm
  · cases z with
    | nil =>
      rw [List.append_nil] at hz
      refine he r hzr (.altRight ?_)
      rw [if_pos hz.symm]
      exact hr
    | cons d z =>
      have hd : isWord d = true := by
        have : ∀ c ∈ "range".toList, isWord c = true := forall_mem_of_all (by decide)
        exact this d (by rw [hz]; simp)
      exact he [d] (List.IsPrefix.trans ⟨z ++ r, rfl⟩ hzr) (.altLeft (.one hd))
  · obtain ⟨c, r, rfl, hc⟩ := head_of_spaces1 hr
    obtain ⟨rfl, -⟩ := List.cons_prefix_cons.1 hrz
    have := hword c (by simp)
    rw [isWord_eq_false_of_isSpace hc] at this
    cases this

theorem not_matches_assignment {s x m : Text} (hw : WellFormed ⟨.keyword, s⟩)
    (he : EndsAt ⟨.keyword, s⟩ x) (hm : m <+: s ++ x) : ¬ Matches (pattern .assignment) m := by
  intro h
  obtain ⟨n', r, rfl, hn', hr⟩ := matches_assignment_iff.1 h
  obtain ⟨c, n, rfl, -, hn⟩ := matches_keyword_iff.1 hw.matches'
  obtain ⟨rfl, hrest⟩ := List.cons_prefix_cons.1 hm
  obtain ⟨e, u, rfl, he', hu⟩ := matches_dottedName_iff.1 hn'
  obtain hn | rfl := hn
  · obtain ⟨f, v, rfl, -, hv⟩ := matches_dottedName_iff.1 hn
    obtain ⟨z, hz, hzr⟩ | ⟨d, z, hz, hrz⟩ := prefix_append_cases hrest
    · obtain ⟨rfl, rfl⟩ := List.cons.inj hz
      cases z with
      | nil => exact he r hzr (.altRight hr)
      | cons d z =>
        obtain ⟨m, hmz, hmore⟩ := hu.exists_nameMore (List.cons_ne_nil d z)
        exact he m (hmz.trans ((List.prefix_append _ r).trans hzr)) (.altLeft hmore)
    · obtain ⟨rfl, rfl⟩ := List.cons.inj hz
      obtain ⟨c, r, rfl, hc⟩ := head_of_spaces1 hr
      obtain ⟨rfl, -⟩ := List.cons_prefix_cons.1 hrz
      obtain hd | rfl := hv.tail_head
      · rw [isWord_eq_false_of_isSpace hc] at hd
        cases hd
      · exact absurd hc (by decide)
  · exact he [e] (List.IsPrefix.trans ⟨u ++ r, rfl⟩ hrest) (.one he')

theorem not_matches_float {s x m : Text} (hw : WellFormed ⟨.int, s⟩)
    (he : EndsAt ⟨.int, s⟩ x) (hm : m <+: s ++ x) : ¬ Matches (pattern .float) m := by
  intro h
  obtain ⟨a, b, rfl, ha, hb⟩ := matches_float_iff.1 h
  obtain ⟨-, hs⟩ := matches_int_iff.1 hw.matches'
  obtain ⟨z, rfl, hzx⟩ | ⟨d, z, rfl, hdz⟩ := prefix_append_cases hm
  · cases z with
    | nil =>
      obtain ⟨hne, hall⟩ := matches_digits_iff.1 hb
      obtain ⟨d, b, rfl⟩ := List.exists_cons_of_ne_nil hne
      have hdot : Matches (.seq (char '.') (.one isDigit)) (['.'] ++ [d]) :=
        .seq (matches_char_iff.2 rfl) (.one (hall d List.mem_cons_self))
      exact he ['.', d] (List.IsPrefix.trans ⟨b, rfl⟩ hzx) (.altRight hdot)
    | cons d z =>
      have hd : isDigit d = true := (matches_digits_iff.1 ha).2 d (by simp)
      exact he [d] (List.IsPrefix.trans ⟨z ++ '.' :: b, rfl⟩ hzx) (.altLeft (.one hd))
  · obtain ⟨rfl, -⟩ := List.cons_prefix_cons.1 hdz
    exact absurd (hs '.' (by simp)) (by decide)

/-- Only three pairs of kinds can begin with the same character, beside the last kind of all. -/
theorem heads_earlier {c : Char} {k : TokenKind} (hk : heads c k = true) (ht : k ≠ .text) :
    ∀ j ∈ earlier k, heads c j = true →
      (j, k) ∈ [(.range, .ident), (.assignment, .keyword), (.float, .int)] := by
  cases k with
  | range => simp [earlier, kinds, rules]
  | text => exact (ht rfl).elim
  | ident =>
    simp only [heads, Bool.or_eq_true, beq_iff_eq] at hk
    obtain rfl | hk := hk
    · decide
    · have hne : c ≠ '$' := by
        rintro rfl
        exact absurd hk (by decide)
      simp [earlier, kinds, rules, heads, hne]
  | keyword =>
    simp only [heads, Bool.or_eq_true, beq_iff_eq] at hk
    obtain rfl | rfl := hk <;> decide
  | float | int =>
    have hlit : ∀ d ∈ ['r', '$', '_', '.', '`', '"', '\''], c ≠ d := by
      have hnone : ∀ d ∈ ['r', '$', '_', '.', '`', '"', '\''], isDigit d = false :=
        forall_mem_of_all (by decide)
      rintro d hd rfl
      have hdigit : isDigit c = true := hk
      rw [hnone c hd] at hdigit
      cases hdigit
    have hlet : isLetter c = false := by
      have := isDigit_iff.1 hk
      rw [← Bool.not_eq_true, isLetter_iff]
      omega
    simp only [List.forall_mem_cons] at hlit
    simp [earlier, kinds, rules, heads, hlit, hlet]
  | space =>
    obtain rfl | rfl | rfl | rfl | rfl := isSpace_iff.1 hk <;> decide
  | statementClose =>
    simp only [heads, Bool.or_eq_true, beq_iff_eq] at hk
    obtain rfl | rfl := hk <;> decide
  | _ =>
    simp only [heads, beq_iff_eq] at hk
    obtain rfl := hk
    decide

theorem not_matches_nil (k : TokenKind) : ¬ (pattern k).Matches [] := by
  have hnull : (pattern k).nullable = false := by cases k <;> rfl
  rw [← nullable_iff, hnull]
  exact Bool.false_ne_true

theorem text_ne_nil {t : Token} (hw : t.WellFormed) : t.text ≠ [] := by
  intro h
  have hs := hw.matches'
  rw [h] at hs
  exact not_matches_nil t.kind hs

theorem not_matches_of_take {k : TokenKind} {s m : Text} (h : (rule k).take s = none)
    (hm : m <+: s) : ¬ (pattern k).Matches m :=
  fun hmatch => Lexer.Rule.take_ne_none (not_matches_nil k) hm hmatch h

theorem reach_of_ne_comment {k : TokenKind} (h : k ≠ .comment) : (rule k).reach = .longest := by
  cases k <;> first | rfl | exact (h rfl).elim

theorem take_of_endsAt {t : Token} {x : Text} (hw : t.WellFormed) (he : t.EndsAt x) :
    (rule t.kind).take (t.text ++ x) = some (t, x) := by
  have hne := text_ne_nil hw
  have htake : (t, x) = (⟨(rule t.kind).kind, t.text⟩, x) := by rw [rule_kind]
  by_cases hc : t.kind = .comment
  · have hr : (rule t.kind).reach = .shortest := by rw [hc]; rfl
    rw [htake]
    refine Lexer.Rule.take_append_of_shortest hr hne hw.matches' fun m hm hmm => ?_
    exact hw.closed hc m hm (hc ▸ hmm)
  · have hr := reach_of_ne_comment hc
    rw [htake]
    refine Lexer.Rule.take_append_of_longest hr hne hw.matches' fun y hy hyy => ?_
    exact eq_nil_of_matches_append hw he hc hy hyy

/-- A token that ends where it does is found there, whatever else follows. -/
theorem first_of_endsAt {t : Token} {x : Text} (ht : t.kind ≠ .text) (hw : t.WellFormed)
    (he : t.EndsAt x) : Lexer.first rules (t.text ++ x) = some (t, x) := by
  have htake := take_of_endsAt hw he
  obtain ⟨kind, s⟩ := t
  obtain ⟨-, hne, -⟩ := Lexer.Rule.take_eq_some_iff.1 htake
  obtain ⟨c, s, rfl⟩ := List.exists_cons_of_ne_nil hne
  have hc : heads c kind = true := (begins_pattern c kind).symm.trans hw.matches'.begins
  refine first_of_take htake fun j hj hjc => Lexer.Rule.take_eq_none_iff.2 (.inr ?_)
  intro m hm hmm
  have hpair := heads_earlier hc ht j hj hjc
  simp only [List.mem_cons, Prod.mk.injEq, List.not_mem_nil, or_false] at hpair
  obtain ⟨rfl, rfl⟩ | ⟨rfl, rfl⟩ | ⟨rfl, rfl⟩ := hpair
  · exact (not_matches_range hw he hm hmm).elim
  · exact (not_matches_assignment hw he hm hmm).elim
  · exact (not_matches_float hw he hm hmm).elim

section Found

variable {t : Token} {x : Text} (h : Lexer.first rules (t.text ++ x) = some (t, x))

include h

theorem take_of_first : (rule t.kind).take (t.text ++ x) = some (t, x) := by
  obtain ⟨r, hr, hk, htake⟩ := Lexer.exists_rule_of_first h
  rw [← hk, rule_of_mem hr]
  exact htake

theorem take_earlier_of_first : ∀ j ∈ earlier t.kind, (rule j).take (t.text ++ x) = none := by
  obtain ⟨before, r, after, hsplit, hr, hnone⟩ := Lexer.first_eq_some_iff.1 h
  have hk : r.kind = t.kind := (Lexer.Rule.take_eq_some_iff.1 hr).1.symm
  have hnodup : (kinds).Nodup := by decide
  rw [kinds, hsplit, List.map_append, List.map_cons, List.nodup_append] at hnodup
  have hbefore : earlier t.kind = before.map (·.kind) := by
    have hpos : ∀ k ∈ before.map (·.kind), (k != t.kind) = true := by
      intro k hmem
      rw [← hk]
      simpa using hnodup.2.2 k hmem r.kind List.mem_cons_self
    rw [earlier, kinds, hsplit, List.map_append, List.map_cons,
      List.takeWhile_append_of_pos hpos, hk]
    simp
  intro j hj
  rw [hbefore] at hj
  obtain ⟨q, hq, rfl⟩ := List.mem_map.1 hj
  rw [rule_of_mem (hsplit ▸ List.mem_append_left _ hq)]
  exact hnone q hq

theorem wellFormed_of_first : t.WellFormed := by
  have htake := take_of_first h
  refine ⟨(Lexer.Rule.matches_of_take htake).2, fun hc m hm hmm => ?_⟩
  obtain ⟨-, -, hs⟩ := Lexer.Rule.take_eq_some_iff.1 htake
  rw [hc] at hs
  obtain ⟨-, -, hmin⟩ := shortest_eq_some_iff.1 hs
  exact hm.eq_of_length_le (hmin m (hm.trans (List.prefix_append _ x)) hmm)

theorem not_matches_longer (hc : t.kind ≠ .comment) {m : Text} (hm : m <+: x) (hne : m ≠ []) :
    ¬ (pattern t.kind).Matches (t.text ++ m) := by
  intro hmm
  obtain ⟨-, -, hs⟩ := Lexer.Rule.take_eq_some_iff.1 (take_of_first h)
  have hr : (rule t.kind).reach = .longest := reach_of_ne_comment hc
  rw [Lexer.Rule.split, hr] at hs
  obtain ⟨-, -, hmax⟩ := longest_eq_some_iff.1 hs
  have hle := hmax (t.text ++ m) ((List.prefix_append_right_inj t.text).2 hm) hmm
  rw [List.length_append] at hle
  exact hne (List.eq_nil_of_length_eq_zero (by omega))

theorem not_matches_earlier {j : TokenKind} (hj : j ∈ earlier t.kind) {m : Text}
    (hm : m <+: x) : ¬ (pattern j).Matches (t.text ++ m) :=
  not_matches_of_take (take_earlier_of_first h j hj) ((List.prefix_append_right_inj t.text).2 hm)

end Found

theorem endsAt_of_first {t : Token} {x : Text}
    (h : Lexer.first rules (t.text ++ x) = some (t, x)) : t.EndsAt x := by
  intro m hm hreach
  have hs := (wellFormed_of_first h).matches'
  have hne : m ≠ [] := by
    rintro rfl
    exact t.not_reach_nil hreach
  obtain ⟨kind, s⟩ := t
  cases kind with
  | ident =>
    obtain hword | hhead := matches_alt_iff.1 hreach
    · obtain ⟨d, rfl, hd⟩ := matches_one_iff.1 hword
      obtain ⟨c, w, rfl, hc, hw⟩ := matches_ident_iff.1 hs
      refine not_matches_longer h nofun hm hne (matches_ident_iff.2 ⟨c, w ++ [d], rfl, hc, ?_⟩)
      simpa [or_imp, forall_and, hd] using hw
    · split at hhead
      next heq =>
        have hrange : TokenKind.range ∈ earlier TokenKind.ident := by decide
        refine not_matches_earlier h hrange hm ?_
        exact matches_range_iff.2 ⟨m, by rw [← heq], hhead⟩
      · exact not_matches_nothing hhead
  | keyword =>
    obtain ⟨c, n, rfl, hc, hn⟩ := matches_keyword_iff.1 hs
    have hlong : ∀ n', n ++ m = n' → ¬ Matches dottedName n' := by
      rintro n' rfl hd
      exact not_matches_longer h nofun hm hne (matches_keyword_iff.2 ⟨c, _, rfl, hc, .inl hd⟩)
    obtain hn | rfl := hn
    · obtain ⟨e, u, rfl, he, hu⟩ := matches_dottedName_iff.1 hn
      obtain hmore | hassign := matches_alt_iff.1 hreach
      · exact hlong _ rfl (matches_dottedName_iff.2
          ⟨e, u ++ m, rfl, he, hu.append (NameTail.of_nameMore hmore)⟩)
      · split at hassign
        next hdollar =>
          obtain rfl : c = '$' := Option.some.inj hdollar
          have hassignment : TokenKind.assignment ∈ earlier TokenKind.keyword := by decide
          refine not_matches_earlier h hassignment hm ?_
          exact matches_assignment_iff.2 ⟨e :: u, m, rfl, hn, hassign⟩
        · exact not_matches_nothing hassign
    · obtain ⟨d, rfl, hd⟩ := matches_one_iff.1 hreach
      exact hlong _ rfl (matches_dottedName_iff.2 ⟨d, [], rfl, hd, .nil⟩)
  | float =>
    obtain ⟨d, rfl, hd⟩ := matches_one_iff.1 hreach
    obtain ⟨a, b, rfl, ha, hb⟩ := matches_float_iff.1 hs
    obtain ⟨-, hall⟩ := matches_digits_iff.1 hb
    refine not_matches_longer h nofun hm hne (matches_float_iff.2 ⟨a, b ++ [d], by simp, ha, ?_⟩)
    refine matches_digits_iff.2 ⟨by simp, ?_⟩
    simpa [or_imp, forall_and, hd] using hall
  | int =>
    obtain ⟨hne', hall⟩ := matches_int_iff.1 hs
    obtain hdigit | hdot := matches_alt_iff.1 hreach
    · obtain ⟨d, rfl, hd⟩ := matches_one_iff.1 hdigit
      refine not_matches_longer h nofun hm hne (matches_int_iff.2 ⟨by simp, ?_⟩)
      simpa [or_imp, forall_and, hd] using hall
    · obtain ⟨a, b, rfl, ha, hb⟩ := matches_seq_iff.1 hdot
      obtain rfl := matches_char_iff.1 ha
      obtain ⟨d, rfl, hd⟩ := matches_one_iff.1 hb
      have hfloat : TokenKind.float ∈ earlier TokenKind.int := by decide
      refine not_matches_earlier h hfloat hm ?_
      exact matches_float_iff.2 ⟨s, [d], rfl, matches_digits_iff.2 ⟨hne', hall⟩,
        matches_digits_iff.2 ⟨by simp, by simpa using hd⟩⟩
  | space =>
    obtain ⟨d, rfl, hd⟩ := matches_one_iff.1 hreach
    obtain ⟨-, hall⟩ := matches_space_iff.1 hs
    refine not_matches_longer h nofun hm hne (matches_space_iff.2 ⟨by simp, ?_⟩)
    simpa [or_imp, forall_and, hd] using hall
  | statementOpen =>
    obtain rfl | rfl := matches_statementOpen_iff.1 hs
    · obtain rfl := matches_char_iff.1 hreach
      exact not_matches_longer h nofun hm hne (matches_statementOpen_iff.2 (.inr rfl))
    · exact not_matches_nothing hreach
  | _ => exact not_matches_nothing hreach

/-- Tokens that are each found where they stand, if they are spelled out one after the other. -/
def Separate : List Token → Prop
  | [] => True
  | t :: ts => t.kind ≠ .text ∧ t.WellFormed ∧ t.EndsAt (spelling ts) ∧ Separate ts

theorem lexed_of_separate {ts : List Token} (h : Separate ts) : Lexer.Lexed rules [] ts := by
  induction ts with
  | nil => trivial
  | cons t ts ih =>
    obtain ⟨hk, hw, he, hts⟩ := h
    refine ⟨?_, ih hts⟩
    rw [List.append_nil]
    exact first_of_endsAt hk hw he

theorem separate_of_lexed {ts : List Token} (h : Lexer.Lexed rules [] ts)
    (hk : ∀ t ∈ ts, t.kind ≠ .text) : Separate ts := by
  induction ts with
  | nil => trivial
  | cons t ts ih =>
    obtain ⟨ht, hts⟩ := h
    rw [List.append_nil] at ht
    rw [List.forall_mem_cons] at hk
    exact ⟨hk.1, wellFormed_of_first ht, endsAt_of_first ht, ih hts hk.2⟩

end Token

theorem leftover_nil (s : Text) : (Lexer.scan Token.rules s).2 = [] := by
  fun_induction Lexer.scan Token.rules s with
  | case1 s h =>
    cases s with
    | nil => rfl
    | cons c s =>
      have hany : (Token.pattern .text).Matches [c] := .one rfl
      have hnone := List.findSome?_eq_none_iff.1 h (Token.rule .text) (Token.rule_mem .text)
      exact (Token.not_matches_of_take hnone ⟨s, rfl⟩ hany).elim
  | case2 s l rest h ih => exact ih

theorem spelling_tokenize (s : Text) : Token.spelling (tokenize s) = s := by
  have h := Lexer.spelling_scan Token.rules s
  rw [leftover_nil, List.append_nil] at h
  exact h

theorem lexed_tokenize (s : Text) : Lexer.Lexed Token.rules [] (tokenize s) := by
  have h := Lexer.lexed_scan Token.rules s
  rw [leftover_nil] at h
  exact h

theorem Token.tokenize_of_first {s x : Text} {t : Token}
    (h : Lexer.first Token.rules s = some (t, x)) : tokenize s = t :: tokenize x := by
  rw [tokenize, Lexer.scan_of_some h]
  rfl

theorem Token.tokenize_append_of_reach {t : Token} (hk : t.kind ≠ .text) (hw : t.WellFormed)
    (hreach : t.reach = .nothing) (x : Text) : tokenize (t.text ++ x) = t :: tokenize x :=
  tokenize_of_first (first_of_endsAt hk hw (endsAt_of_reach hreach x))

theorem tokenize_of_lexed {ts : List Token} (h : Lexer.Lexed Token.rules [] ts) :
    tokenize (Token.spelling ts) = ts := by
  have hscan := Lexer.scan_of_lexed h
  rw [List.append_nil, Lexer.scan_of_none (Lexer.first_nil _)] at hscan
  rw [tokenize, Token.spelling, hscan]
  exact List.append_nil ts

theorem wellFormed_of_lexed {ts : List Token} (h : Lexer.Lexed Token.rules [] ts) :
    ∀ t ∈ ts, t.WellFormed := by
  induction ts with
  | nil => simp
  | cons t ts ih => exact List.forall_mem_cons.2 ⟨Token.wellFormed_of_first h.1, ih h.2⟩

end Stencil
