import Stencil.Proofs.Backtracking
import Stencil.Proofs.TokenReach

namespace Stencil

namespace Token

open Pattern

theorem isWord_of_matches_name {a y : Text} {d : Char} (ha : Matches dottedName.name a)
    (h : Matches dottedName.name (a ++ d :: y)) : isWord d = true := by
  obtain ⟨c, w, rfl, -, -⟩ := matches_name_iff.1 ha
  obtain ⟨c', w', heq, -, hw'⟩ := matches_name_iff.1 h
  obtain ⟨-, rfl⟩ := List.cons.inj heq
  exact hw' d (by simp)

theorem begins_dot_eq_false {c : Char} (h : isWord c = true) :
    (seq (char '.') dottedName.name).begins c = false := by
  have hne : c ≠ '.' := by
    rintro rfl
    exact absurd h (by decide)
  simpa [begins, char, nullable] using hne

theorem ordered_name : Ordered .longest dottedName.name :=
  ordered_one_seq (ordered_many_one _)

theorem ordered_dottedName : Ordered .longest dottedName := by
  apply ordered_seq_of_yields ordered_name
  · apply ordered_many_of_yields (ordered_one_seq ordered_name)
    intro a d y ha h
    obtain ⟨b, n, rfl, hb, hn⟩ := matches_seq_iff.1 ha
    obtain ⟨b', n', heq, hb', hn'⟩ := matches_seq_iff.1 h
    rw [matches_char_iff.1 hb, matches_char_iff.1 hb'] at heq
    obtain ⟨-, rfl⟩ := List.cons.inj heq
    exact begins_dot_eq_false (isWord_of_matches_name hn hn')
  · exact fun a d y ha h => begins_dot_eq_false (isWord_of_matches_name ha h)

theorem ordered_keyword : Ordered .longest (pattern .keyword) := by
  apply ordered_one_seq
  apply ordered_optional ordered_dottedName
  intro h
  obtain ⟨c, t, hnil, -⟩ := matches_dottedName_iff.1 h
  cases hnil

theorem ordered_float : Ordered .longest (pattern .float) := by
  refine ordered_seq_of_yields (ordered_oneOrMore_one _)
    (ordered_one_seq (ordered_oneOrMore_one _)) fun a d y _ h => ?_
  have hd : isDigit d = true := (matches_digits_iff.1 h).2 d (by simp)
  have hne : d ≠ '.' := by
    rintro rfl
    exact absurd hd (by decide)
  simpa [begins, chain, char, nullable] using hne

theorem ordered_statementOpen : Ordered .longest (pattern .statementOpen) := by
  apply ordered_one_seq
  apply ordered_one_seq
  apply ordered_optional (ordered_one _)
  intro h
  cases h

theorem ordered_comment : Ordered .shortest (pattern .comment) := by
  apply ordered_one_seq
  apply ordered_one_seq
  apply ordered_seq_of_length (n := 2) (ordered_many_one _) (ordered_one_seq (ordered_one _))
  intro m hm
  rw [matches_word_iff (w := ['*', '/']).1 hm]
  rfl

theorem eq_nil_of_reach {k : TokenKind} (hk : k ≠ .comment)
    (hreach : ∀ s, Token.reach ⟨k, s⟩ = .nothing) (m y : Text) (hm : Matches (pattern k) m)
    (h : Matches (pattern k) (m ++ y)) : y = [] :=
  eq_nil_of_matches_append (t := ⟨k, m⟩) ⟨hm, fun hc => (hk hc).elim⟩
    (endsAt_of_reach (hreach m) y) hk (List.prefix_refl y) h

/-- A search by the rule of a kind takes its longest match, or the shortest comment. -/
theorem firstMatch_eq_split (k : TokenKind) (s : Text) : (rule k).firstMatch s = (rule k).split s := by
  cases k with
  | ident =>
    exact Lexer.Rule.firstMatch_eq_split_of_ordered (ordered_one_seq (ordered_many_one _)) s
  | keyword => exact Lexer.Rule.firstMatch_eq_split_of_ordered ordered_keyword s
  | float => exact Lexer.Rule.firstMatch_eq_split_of_ordered ordered_float s
  | int | space => exact Lexer.Rule.firstMatch_eq_split_of_ordered (ordered_oneOrMore_one _) s
  | statementOpen => exact Lexer.Rule.firstMatch_eq_split_of_ordered ordered_statementOpen s
  | comment => exact Lexer.Rule.firstMatch_eq_split_of_ordered ordered_comment s
  | _ =>
    apply Lexer.Rule.firstMatch_eq_split_of_unique
    apply eq_nil_of_reach
    · decide
    · exact fun _ => rfl

theorem length_of_split {k : TokenKind} {s m rest t : Text}
    (h : (rule k).split s = some (m, rest)) (ht : t <+: s) (hm : Matches (pattern k) t) :
    if k = .comment then m.length ≤ t.length else t.length ≤ m.length := by
  by_cases hc : k = .comment
  · subst hc
    exact (shortest_eq_some_iff.1 h).2.2 t ht hm
  · rw [Lexer.Rule.split, reach_of_ne_comment hc] at h
    rw [if_neg hc]
    exact (longest_eq_some_iff.1 h).2.2 t ht hm

theorem first_of_lexed {pre post : List Token} {t : Token}
    (h : Lexer.Lexed rules [] (pre ++ t :: post)) :
    Lexer.first rules (t.text ++ spelling post) = some (t, spelling post) := by
  have ht := h.of_append_right.1
  rwa [List.append_nil] at ht

theorem exists_of_located {start offset : Nat} {ts : List Token} {t : Token}
    {before after : List (Token × Nat)} (h : located start ts = before ++ (t, offset) :: after) :
    ∃ pre post, ts = pre ++ t :: post ∧ spelling pre = before.flatMap (·.1.text) ∧
      offset = start + (spelling pre).utf8Length := by
  induction ts generalizing start before with
  | nil => simp [located] at h
  | cons u ts ih =>
    rw [located] at h
    cases before with
    | nil =>
      obtain ⟨hhead, -⟩ := List.cons.inj h
      obtain ⟨rfl, rfl⟩ := Prod.mk.inj hhead
      exact ⟨[], ts, rfl, rfl, rfl⟩
    | cons b before =>
      obtain ⟨rfl, htail⟩ := List.cons.inj h
      obtain ⟨pre, post, rfl, hpre, rfl⟩ := ih htail
      refine ⟨u :: pre, post, rfl, ?_, ?_⟩
      · rw [List.flatMap_cons, ← hpre]
        rfl
      · rw [Nat.add_assoc, ← Text.utf8Length_append]
        rfl

end Token

/-- The tokens of a text are not empty and spell it out, and each begins after the bytes of those
before it. No rule before that of its kind has a match there, and of the matches of its own rule it
is the longest, or the shortest if it is a comment: the one that a backtracking search takes. -/
theorem tokenize_follows_rules (s : Text) :
    Token.spelling (tokenize s) = s ∧
      ∀ before t offset after, Token.located 0 (tokenize s) = before ++ (t, offset) :: after →
        ∃ consumed rest, s = consumed ++ (t.text ++ rest) ∧ t.text ≠ [] ∧
          consumed = before.flatMap (·.1.text) ∧ offset = consumed.utf8Length ∧
          ∃ earlier r later, Token.rules = earlier ++ r :: later ∧ r.kind = t.kind ∧
            (∀ q ∈ earlier, q.firstMatch (t.text ++ rest) = none ∧
              ∀ m, m <+: t.text ++ rest → ¬ q.pattern.Matches m) ∧
            r.firstMatch (t.text ++ rest) = some (t.text, rest) ∧ r.pattern.Matches t.text ∧
            ∀ m, m <+: t.text ++ rest → r.pattern.Matches m →
              if t.kind = .comment then t.text.length ≤ m.length else m.length ≤ t.text.length := by
  refine ⟨spelling_tokenize s, fun before t offset after h => ?_⟩
  obtain ⟨pre, post, htokens, hpre, hoffset⟩ := Token.exists_of_located h
  have hlexed := lexed_tokenize s
  rw [htokens] at hlexed
  obtain ⟨earlier, r, later, hrules, htake, hnone⟩ :=
    Lexer.first_eq_some_iff.1 (Token.first_of_lexed hlexed)
  obtain ⟨hkind, hne, hsplit⟩ := Lexer.Rule.take_eq_some_iff.1 htake
  have hr : Token.rule t.kind = r := by
    rw [hkind]
    exact Token.rule_of_mem (by rw [hrules]; simp)
  subst hr
  have hno : ∀ q ∈ earlier, ∀ m, m <+: t.text ++ Token.spelling post → ¬ q.pattern.Matches m := by
    intro q hq m hm
    have hrule : Token.rule q.kind = q := Token.rule_of_mem (by rw [hrules]; simp [hq])
    have htaken := hnone q hq
    rw [← hrule] at htaken ⊢
    exact Token.not_matches_of_take htaken hm
  refine ⟨Token.spelling pre, Token.spelling post, ?_, hne, hpre, ?_, earlier, _, later, hrules,
    Token.rule_kind _, fun q hq => ⟨?_, hno q hq⟩, ?_, (Lexer.Rule.matches_of_take htake).2,
    fun m hm hmatch => Token.length_of_split hsplit hm hmatch⟩
  · rw [← spelling_tokenize s, htokens, Token.spelling, List.flatMap_append, List.flatMap_cons]
    rfl
  · rw [hoffset, Nat.zero_add]
  · exact Lexer.Rule.firstMatch_eq_none_iff.2 (hno q hq)
  · rw [Token.firstMatch_eq_split, hsplit]

-- The first end of the comment is its end, and `é` is two bytes long.
example : Token.located 0 (tokenize "é/* a */*/".toList) =
    [(⟨.text, ['é']⟩, 0), (⟨.comment, "/* a */".toList⟩, 2), (⟨.text, ['*']⟩, 9),
      (⟨.text, ['/']⟩, 10)] := by
  decide +kernel

end Stencil
