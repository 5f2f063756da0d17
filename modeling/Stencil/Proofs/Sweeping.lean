import Mathlib.Data.List.Basic
import Mathlib.Data.List.Flatten
import Mathlib.Logic.Relation
import Stencil.Comment
import Stencil.Proofs.TokenText

namespace Stencil.Comment

open Pattern

def openers : Text := ['"', '\'', '`', '/']

theorem matches_quotedSpan_iff {q : Char} {s : Text} :
    Matches (quotedSpan q) s ↔ ∃ m, s = q :: (m ++ [q]) ∧ Body q m := by
  refine Token.matches_enclosed_iff.trans (exists_congr fun m => and_congr_right fun _ => ?_)
  rw [any, matches_items_iff (q := q) (P := fun _ => True) trivial (by simp) (by simp)]
  simp

theorem matches_onwards {w s : Text} : Matches (onwards w) (w ++ s) := by
  have hw : Matches (word w) w := matches_word_iff.2 rfl
  exact .seq hw (matches_many_iff.2 fun _ _ => rfl)

theorem sweep_nil : sweep [] = [] := by
  rw [sweep, spans, Lexer.scan_of_none (Lexer.first_nil _)]
  rfl

theorem sweep_of_first {l : Lexeme SpanKind} {s x : Text}
    (h : Lexer.first spanRules s = some (l, x)) :
    sweep s = (if l.kind = .comment then [] else l.text) ++ sweep x := by
  rw [sweep, spans, Lexer.scan_of_some h]
  by_cases hk : l.kind = .comment
  · simp [sweep, spans, hk]
  · simp [sweep, spans, hk]

theorem take_other (c : Char) (x : Text) :
    Lexer.Rule.take ⟨SpanKind.other, any, .longest⟩ (c :: x) = some (⟨.other, [c]⟩, x) := by
  refine Lexer.Rule.take_append_of_longest rfl (List.cons_ne_nil c []) (.one rfl) fun y _ hm => ?_
  obtain ⟨d, heq, -⟩ := matches_one_iff.1 hm
  exact (List.cons.inj heq).2

theorem sweep_cons {c : Char} {x : Text} (h : c ∉ openers) : sweep (c :: x) = c :: sweep x := by
  have hrules : spanRules.filter (·.pattern.begins c) = [⟨.other, any, .longest⟩] := by
    simp only [openers, List.mem_cons, List.not_mem_nil, or_false, not_or] at h
    simp [spanRules, quotedSpan, onwards, chain, word, char, anyBut, any, begins, nullable, h]
  exact sweep_of_first (Lexer.first_of_take hrules (take_other c x))

theorem sweep_append_of_plain {u x : Text} (h : ∀ c ∈ u, c ∉ openers) :
    sweep (u ++ x) = u ++ sweep x := by
  induction u with
  | nil => rfl
  | cons c u ih =>
    rw [List.forall_mem_cons] at h
    rw [List.cons_append, sweep_cons h.1, ih h.2]
    rfl

theorem sweep_quoted {q : Char} {m x : Text} (hq : q = '"' ∨ q = '\'') (hm : Body q m) :
    sweep (q :: (m ++ [q]) ++ x) = q :: (m ++ [q]) ++ sweep x := by
  have hrules : ∃ rest, spanRules.filter (·.pattern.begins q) =
      ⟨.quoted, quotedSpan q, .longest⟩ :: rest := by
    obtain rfl | rfl := hq <;> exact ⟨_, rfl⟩
  obtain ⟨rest, hrules⟩ := hrules
  have htake : Lexer.Rule.take ⟨SpanKind.quoted, quotedSpan q, .longest⟩ (q :: (m ++ [q]) ++ x) =
      some (⟨.quoted, q :: (m ++ [q])⟩, x) := by
    refine Lexer.Rule.take_append_of_longest rfl (by simp)
      (matches_quotedSpan_iff.2 ⟨m, rfl, hm⟩) fun y _ hy => ?_
    obtain ⟨b, heq, hb⟩ := matches_quotedSpan_iff.1 hy
    simp only [List.cons_append, List.append_assoc, List.cons.injEq, true_and] at heq
    exact (hm.unique (by obtain rfl | rfl := hq <;> decide) hb heq).2
  rw [List.cons_append] at htake ⊢
  rw [sweep_of_first (Lexer.first_of_take hrules htake)]
  rfl

theorem filter_backtick : spanRules.filter (·.pattern.begins '`') =
    [⟨.quoted, Token.pattern .literal, .longest⟩, ⟨.quoted, onwards ['`'], .longest⟩,
      ⟨.other, any, .longest⟩] := rfl

theorem filter_slash : spanRules.filter (·.pattern.begins '/') =
    [⟨.comment, Token.pattern .comment, .shortest⟩, ⟨.other, onwards ['/', '*'], .longest⟩,
      ⟨.other, any, .longest⟩] := rfl

theorem sweep_raw {m x : Text} (hm : '`' ∉ m) :
    sweep ('`' :: (m ++ ['`']) ++ x) = '`' :: (m ++ ['`']) ++ sweep x := by
  have htake : Lexer.Rule.take ⟨SpanKind.quoted, Token.pattern .literal, .longest⟩
      ('`' :: (m ++ ['`']) ++ x) = some (⟨.quoted, '`' :: (m ++ ['`'])⟩, x) := by
    refine Lexer.Rule.take_append_of_longest rfl (by simp)
      (Token.matches_raw_iff.2 ⟨m, rfl, hm⟩) fun y _ hy => ?_
    obtain ⟨b, heq, hb⟩ := Token.matches_raw_iff.1 hy
    exact eq_nil_of_terminated hm hb (List.cons.inj heq).2
  rw [List.cons_append] at htake ⊢
  rw [sweep_of_first (Lexer.first_of_take filter_backtick htake)]
  rfl

theorem sweep_comment {s x : Text} (hs : Matches (Token.pattern .comment) s)
    (hmin : ∀ m, m <+: s → Matches (Token.pattern .comment) m → m = s) :
    sweep (s ++ x) = sweep x := by
  have hne : s ≠ [] := by
    obtain ⟨m, rfl⟩ := Token.matches_comment_iff.1 hs
    simp
  have htake : Lexer.Rule.take ⟨SpanKind.comment, Token.pattern .comment, .shortest⟩ (s ++ x) =
      some (⟨.comment, s⟩, x) := Lexer.Rule.take_append_of_shortest rfl hne hs hmin
  obtain ⟨m, rfl⟩ := Token.matches_comment_iff.1 hs
  rw [List.cons_append] at htake ⊢
  rw [sweep_of_first (Lexer.first_of_take filter_slash htake)]
  rfl

theorem sweep_sublist (s : Text) : List.Sublist (sweep s) s := by
  have h := Lexer.spelling_scan spanRules s
  have hfilter : List.Sublist (sweep s) ((Lexer.scan spanRules s).1.flatMap (·.text)) :=
    List.filter_sublist.flatMap _
  have happend := hfilter.trans (List.sublist_append_left _ (Lexer.scan spanRules s).2)
  rwa [h] at happend

theorem sweep_eq_of_length {s : Text} (h : s.length ≤ (sweep s).length) : sweep s = s :=
  (sweep_sublist s).eq_of_length_le h

theorem sweep_sweepAll (s : Text) : sweep (sweepAll s) = sweepAll s := by
  fun_induction sweepAll s with
  | case1 s h ih => exact ih
  | case2 s h => exact sweep_eq_of_length (Nat.le_of_not_lt h)

theorem sweepAll_of_sweep {s : Text} (h : sweep s = s) : sweepAll s = s := by
  rw [sweepAll, h, if_neg (Nat.lt_irrefl _)]

theorem sweepAll_eq_sweep {s : Text} (h : sweep (sweep s) = sweep s) : sweepAll s = sweep s := by
  rw [sweepAll]
  split
  · exact sweepAll_of_sweep h
  next hlt => exact (sweep_eq_of_length (Nat.le_of_not_lt hlt)).symm

theorem sweep_onwards {c : Char} {x w : Text} {r : Lexer.Rule SpanKind} {k : SpanKind}
    {after : List (Lexer.Rule SpanKind)}
    (hr : spanRules.filter (·.pattern.begins c) = r :: ⟨k, onwards w, .longest⟩ :: after)
    (hk : k ≠ .comment) (hopen : ∀ m, m <+: c :: x → ¬ r.pattern.Matches m) (hw : w <+: c :: x) :
    sweep (c :: x) = c :: x := by
  have hnone : r.take (c :: x) = none :=
    Lexer.Rule.take_eq_none_iff.2 (.inr fun m hm hp => (hopen m hm hp).elim)
  obtain ⟨s, hs⟩ := hw
  have hmatch : Matches (onwards w) (c :: x) := hs ▸ matches_onwards
  have htake : Lexer.Rule.take ⟨k, onwards w, .longest⟩ (c :: x ++ []) =
      some (⟨k, c :: x⟩, []) := by
    refine Lexer.Rule.take_append_of_longest rfl (by simp) hmatch fun y hy _ => ?_
    exact List.prefix_nil.1 hy
  rw [List.append_nil] at htake
  have hrules : spanRules.filter (·.pattern.begins c) = [r] ++ ⟨k, onwards w, .longest⟩ :: after :=
    hr
  have hfirst : Lexer.first spanRules (c :: x) = some (⟨k, c :: x⟩, []) :=
    Lexer.first_of_take_after hrules (by simpa using hnone) htake
  rw [sweep_of_first hfirst, sweep_nil, if_neg hk, List.append_nil]

theorem sweep_slash {x : Text} (h : x.head? ≠ some '*') : sweep ('/' :: x) = '/' :: sweep x := by
  have hword : ∀ t, t <+: '/' :: x → ¬ ['/', '*'] <+: t := by
    intro t ht hw
    obtain ⟨-, hx⟩ := List.cons_prefix_cons.1 (hw.trans ht)
    obtain ⟨z, rfl⟩ := hx
    exact h rfl
  have hcomment : Lexer.Rule.take ⟨SpanKind.comment, Token.pattern .comment, .shortest⟩ ('/' :: x) =
      none := by
    refine Lexer.Rule.take_eq_none_iff.2 (.inr fun m hm hp => ?_)
    obtain ⟨b, rfl⟩ := Token.matches_comment_iff.1 hp
    exact (hword _ hm ⟨_, rfl⟩).elim
  have honwards : Lexer.Rule.take ⟨SpanKind.other, onwards ['/', '*'], .longest⟩ ('/' :: x) =
      none := by
    refine Lexer.Rule.take_eq_none_iff.2 (.inr fun m hm hp => ?_)
    obtain ⟨a, b, rfl, ha, -⟩ := matches_seq_iff.1 hp
    obtain rfl := matches_word_iff.1 ha
    exact (hword _ hm ⟨_, rfl⟩).elim
  have hrules : spanRules.filter (·.pattern.begins '/') =
      [⟨.comment, Token.pattern .comment, .shortest⟩, ⟨.other, onwards ['/', '*'], .longest⟩] ++
        [⟨.other, any, .longest⟩] := filter_slash
  have hfirst : Lexer.first spanRules ('/' :: x) = some (⟨.other, ['/']⟩, x) :=
    Lexer.first_of_take_after hrules (by simp [hcomment, honwards]) (take_other '/' x)
  exact sweep_of_first hfirst

/-- `Piece z l`: a scan that comes to `l`, with `z` after it, goes past it in one step: past quotes
and what is between them, or past a character that begins neither quotes nor a comment. -/
inductive Piece (z : Text) : Text → Prop
  | plain {c : Char} (hq : c ∉ ['"', '\'', '`']) (hc : ¬ ['/', '*'] <+: c :: z) : Piece z [c]
  | quoted {q : Char} {m : Text} (hq : q = '"' ∨ q = '\'') (hm : Body q m) :
      Piece z (q :: (m ++ [q]))
  | raw {m : Text} (hm : '`' ∉ m) : Piece z ('`' :: (m ++ ['`']))

def IsComment (s : Text) : Prop :=
  ∃ m, s = '/' :: '*' :: (m ++ ['*', '/']) ∧ ¬ ['*', '/'] <:+: m ++ ['*']

/-- `Passes z s`: a scan goes past the text `s`, with `z` after it, and is outside quotes there. -/
inductive Passes (z : Text) : Text → Prop
  | nil : Passes z []
  | piece {l s : Text} (hl : Piece (s ++ z) l) (hs : Passes z s) : Passes z (l ++ s)
  | comment {l s : Text} (hl : IsComment l) (hs : Passes z s) : Passes z (l ++ s)

/-- `Deletes s t`: the text `t` is `s` without a comment that a scan of `s` comes to. -/
inductive Deletes : Text → Text → Prop
  | comment {a l z : Text} (ha : Passes (l ++ z) a) (hl : IsComment l) :
      Deletes (a ++ (l ++ z)) (a ++ z)

section Scan

variable {a l s t x y z : Text}

theorem begins_comment_iff {c : Char} :
    ['/', '*'] <+: c :: z ↔ c = '/' ∧ z.head? = some '*' := by
  rw [List.cons_prefix_cons, List.singleton_prefix_iff_head?_eq_some, eq_comm]

theorem sweep_piece (h : Piece z l) : sweep (l ++ z) = l ++ sweep z := by
  cases h with
  | @plain c hq hc =>
    by_cases hslash : c = '/'
    · subst hslash
      exact sweep_slash fun hstar => hc (begins_comment_iff.2 ⟨rfl, hstar⟩)
    · refine sweep_cons ?_
      simp only [List.mem_cons, List.not_mem_nil, or_false, not_or] at hq
      simp only [openers, List.mem_cons, List.not_mem_nil, or_false, not_or]
      exact ⟨hq.1, hq.2.1, hq.2.2, hslash⟩
  | quoted hq hm => exact sweep_quoted hq hm
  | raw hm => exact sweep_raw hm

theorem isComment_iff : IsComment s ↔ Matches (Token.pattern .comment) s ∧
    ∀ m, m <+: s → Matches (Token.pattern .comment) m → m = s := by
  simp only [Token.matches_comment_iff]
  constructor
  · rintro ⟨m, rfl, hfirst⟩
    refine ⟨⟨m, rfl⟩, ?_⟩
    rintro _ hbegins ⟨b, rfl⟩
    simp only [List.cons_prefix_cons, true_and] at hbegins
    obtain hlt | hle := Nat.lt_or_ge b.length m.length
    · refine (hfirst ?_).elim
      have hends : b ++ ['*', '/'] <+: m ++ ['*'] := by
        refine List.prefix_of_prefix_length_le hbegins ⟨['/'], by simp⟩ ?_
        simp only [List.length_append, List.length_cons, List.length_nil]
        omega
      exact (List.suffix_append b _).isInfix.trans hends.isInfix
    · rw [hbegins.eq_of_length_le]
      simp only [List.length_append]
      omega
  · rintro ⟨⟨m, rfl⟩, hmin⟩
    refine ⟨m, rfl, ?_⟩
    rintro ⟨b, w, heq⟩
    have hbegins : b ++ ['*', '/'] <+: m ++ ['*', '/'] := by
      refine ⟨w ++ ['/'], ?_⟩
      rw [← List.append_assoc, heq, List.append_assoc]
      rfl
    have hsame := hmin ('/' :: '*' :: (b ++ ['*', '/'])) (by simpa using hbegins) ⟨b, rfl⟩
    have hlength := congrArg List.length heq
    simp only [List.cons.injEq, true_and, List.append_left_inj] at hsame
    simp only [hsame, List.length_append, List.length_cons, List.length_nil] at hlength
    omega

theorem IsComment.ne_nil (h : IsComment l) : l ≠ [] := by
  obtain ⟨m, rfl, -⟩ := h
  simp

theorem sweep_isComment (h : IsComment l) (z : Text) : sweep (l ++ z) = sweep z :=
  sweep_comment (isComment_iff.1 h).1 (isComment_iff.1 h).2

theorem matches_start_or (p : Pattern) (s : Text) :
    (∃ m z, s = m ++ z ∧ Matches p m) ∨ ∀ m, m <+: s → ¬ Matches p m := by
  by_cases h : ∃ m, m <+: s ∧ Matches p m
  · obtain ⟨m, ⟨z, hz⟩, hm⟩ := h
    exact .inl ⟨m, z, hz.symm, hm⟩
  · exact .inr fun m hm hp => h ⟨m, hm, hp⟩

theorem exists_isComment (h : Matches (Token.pattern .comment) s) (z : Text) :
    ∃ l y, s ++ z = l ++ y ∧ IsComment l := by
  obtain ⟨l, y, hl, -⟩ := exists_shortest (List.prefix_append s z) h
  obtain ⟨heq, hmatch, hmin⟩ := shortest_eq_some_iff.1 hl
  refine ⟨l, y, heq.symm, isComment_iff.2 ⟨hmatch, fun m hm hp => ?_⟩⟩
  exact hm.eq_of_length_le (hmin m (hm.trans ⟨y, heq⟩) hp)

/-- How a scan goes on from a character: past a piece, past a comment, or no further, and all
stays. -/
theorem piece_or_comment (c : Char) (x : Text) :
    (∃ l z, c :: x = l ++ z ∧ l ≠ [] ∧ (Piece z l ∨ IsComment l)) ∨ sweep (c :: x) = c :: x := by
  by_cases hq : c ∈ ['"', '\'', '`']
  · simp only [List.mem_cons, List.not_mem_nil, or_false] at hq
    obtain rfl | rfl | rfl := hq
    · obtain ⟨m, z, hz, hm⟩ | hopen := matches_start_or (quotedSpan '"') ('"' :: x)
      · obtain ⟨b, rfl, hb⟩ := matches_quotedSpan_iff.1 hm
        exact .inl ⟨_, z, hz, by simp, .inl (.quoted (.inl rfl) hb)⟩
      · exact .inr (sweep_onwards (w := ['"']) rfl (by decide) hopen ⟨x, rfl⟩)
    · obtain ⟨m, z, hz, hm⟩ | hopen := matches_start_or (quotedSpan '\'') ('\'' :: x)
      · obtain ⟨b, rfl, hb⟩ := matches_quotedSpan_iff.1 hm
        exact .inl ⟨_, z, hz, by simp, .inl (.quoted (.inr rfl) hb)⟩
      · exact .inr (sweep_onwards (w := ['\'']) rfl (by decide) hopen ⟨x, rfl⟩)
    · obtain ⟨m, z, hz, hm⟩ | hopen := matches_start_or (Token.pattern .literal) ('`' :: x)
      · obtain ⟨b, rfl, hb⟩ := Token.matches_raw_iff.1 hm
        exact .inl ⟨_, z, hz, by simp, .inl (.raw hb)⟩
      · exact .inr (sweep_onwards filter_backtick (by decide) hopen ⟨x, rfl⟩)
  · by_cases hslash : ['/', '*'] <+: c :: x
    · obtain ⟨w, hw⟩ := hslash
      obtain ⟨rfl, -⟩ := List.cons.inj hw
      obtain ⟨m, z, hz, hm⟩ | hopen := matches_start_or (Token.pattern .comment) ('/' :: x)
      · obtain ⟨l, y, hl, hcomment⟩ := exists_isComment hm z
        exact .inl ⟨l, y, hz.trans hl, hcomment.ne_nil, .inr hcomment⟩
      · exact .inr (sweep_onwards filter_slash (by decide) hopen ⟨w, hw⟩)
    · exact .inl ⟨[c], x, rfl, by simp, .inl (.plain hq hslash)⟩

theorem Piece.of_head? (h : Piece z l) (hz : z.head? = y.head?) : Piece y l := by
  cases h with
  | plain hq hc =>
    rw [begins_comment_iff, hz, ← begins_comment_iff] at hc
    exact .plain hq hc
  | quoted hq hm => exact .quoted hq hm
  | raw hm => exact .raw hm

namespace Passes

theorem of_head? (h : Passes z s) (hz : z.head? = y.head?) : Passes y s := by
  induction h with
  | nil => exact .nil
  | piece hl _ ih =>
    refine .piece (hl.of_head? ?_) ih
    rw [List.head?_append, List.head?_append, hz]
  | comment hl _ ih => exact .comment hl ih

theorem append (ha : Passes (s ++ z) a) (hs : Passes z s) : Passes z (a ++ s) := by
  induction ha with
  | nil => exact hs
  | piece hl _ ih =>
    rw [List.append_assoc]
    rw [← List.append_assoc] at hl
    exact .piece hl ih
  | comment hl _ ih =>
    rw [List.append_assoc]
    exact .comment hl ih

theorem exists_sweep (h : Passes z s) :
    ∃ kept, sweep (s ++ z) = kept ++ sweep z ∧ kept.length ≤ s.length := by
  induction h with
  | nil => exact ⟨[], rfl, Nat.le_refl _⟩
  | @piece l s hl _ ih =>
    obtain ⟨kept, hkept, hle⟩ := ih
    refine ⟨l ++ kept, ?_, ?_⟩
    · rw [List.append_assoc, sweep_piece hl, hkept, List.append_assoc]
    · rw [List.length_append, List.length_append]
      exact Nat.add_le_add_left hle _
  | @comment l s hl _ ih =>
    obtain ⟨kept, hkept, hle⟩ := ih
    refine ⟨kept, ?_, ?_⟩
    · rw [List.append_assoc, sweep_isComment hl, hkept]
    · rw [List.length_append]
      omega

/-- A scan deletes the comments that it comes to, the last one first: while the first is there, what
it comes to after that does not change. -/
theorem deletes_sweep (h : Passes s a) : Relation.ReflTransGen Deletes (a ++ s) (a ++ sweep s) := by
  induction hn : s.length using Nat.strongRecOn generalizing s a with
  | _ n ih =>
    cases s with
    | nil =>
      rw [sweep_nil]
    | cons c x =>
      obtain ⟨l, z, heq, hne, hl⟩ | hopen := piece_or_comment c x
      · rw [heq] at h hn ⊢
        have hlt : z.length < n := by
          have := List.length_pos_iff.2 hne
          rw [List.length_append] at hn
          omega
        have hlast : Passes z l := by
          rw [← List.append_nil l]
          obtain hl | hl := hl
          · exact .piece hl .nil
          · exact .comment hl .nil
        have hrest := ih z.length hlt (h.append hlast) rfl
        rw [List.append_assoc, List.append_assoc] at hrest
        obtain hl | hl := hl
        · rwa [sweep_piece hl]
        · rw [sweep_isComment hl]
          refine hrest.tail (.comment (h.of_head? ?_) hl)
          rw [List.head?_append_of_ne_nil _ hne, List.head?_append_of_ne_nil _ hne]
      · rw [hopen]

end Passes

theorem sweep_eq_self_iff : sweep s = s ↔ ∀ t, ¬ Deletes s t := by
  constructor
  · intro h t ht
    obtain @⟨a, l, z, ha, hl⟩ := ht
    obtain ⟨kept, hkept, hle⟩ := ha.exists_sweep
    have hpos := List.length_pos_iff.2 hl.ne_nil
    have hlength := congrArg List.length h
    rw [hkept, sweep_isComment hl] at hlength
    simp only [List.length_append] at hlength
    have hrest := (sweep_sublist z).length_le
    omega
  · intro h
    have hdeletes : Relation.ReflTransGen Deletes s (sweep s) := Passes.nil.deletes_sweep
    obtain heq | ⟨t, ht, -⟩ := hdeletes.cases_head
    · exact heq.symm
    · exact (h t ht).elim

theorem Deletes.append (h : Deletes s t) (y : Text) : Deletes (s ++ y) (t ++ y) := by
  obtain ⟨ha, hl⟩ := h
  rw [List.append_assoc, List.append_assoc, List.append_assoc]
  refine .comment (ha.of_head? ?_) hl
  rw [List.head?_append_of_ne_nil _ hl.ne_nil, List.head?_append_of_ne_nil _ hl.ne_nil]

theorem sweep_eq_of_append (h : sweep (x ++ y) = x ++ y) : sweep x = x :=
  sweep_eq_self_iff.2 fun t ht => sweep_eq_self_iff.1 h (t ++ y) (ht.append y)

end Scan

namespace Trimmed

theorem text_ofInner (s : Text) : (ofInner s).text = s := by
  unfold ofInner
  split
  · simp [text]
  · have hright : (if s.getLast? == some '-' then s.dropLast else s) ++
        (if s.getLast? == some '-' then ['-'] else []) = s := by
      by_cases h : s.getLast? = some '-'
      · simpa [h] using List.dropLast_append_getLast? '-' h
      · simp [h]
    have hleft : ∀ u : Text, (if u.head? == some '-' then ['-'] else []) ++
        (if u.head? == some '-' then u.tail else u) = u := by
      intro u
      cases u with
      | nil => rfl
      | cons c u => by_cases h : c = '-' <;> simp [h]
    simp only [text]
    rw [hleft, hright]

theorem right_ofInner {s : Text} (hs : s ≠ []) : (ofInner (s ++ ['-'])).right = true := by
  have hlen : ¬ (s ++ ['-']).length ≤ 1 := by
    have := List.length_pos_iff.2 hs
    rw [List.length_append, List.length_singleton]
    omega
  simp only [ofInner, if_neg hlen, List.getLast?_concat, beq_self_eq_true]

theorem sweep_body {s : Text} (h : sweep s = s) : sweep (ofInner s).body = (ofInner s).body := by
  have ht := text_ofInner s
  generalize ofInner s = t at ht ⊢
  obtain ⟨left, body, right⟩ := t
  rw [← ht, text] at h
  simp only at h ⊢
  have hdash : '-' ∉ openers := by decide
  refine sweep_eq_of_append (y := if right then ['-'] else []) ?_
  cases left with
  | false => simpa using h
  | true =>
    rw [if_pos rfl, List.append_assoc, List.singleton_append, sweep_cons hdash] at h
    exact (List.cons.inj h).2

theorem ofInner_text {t : Trimmed} (hne : t.body ≠ []) (hhead : t.body.head? ≠ some '-')
    (hlast : t.body.getLast? ≠ some '-') : ofInner t.text = t := by
  obtain ⟨left, body, right⟩ := t
  simp only at hne hhead hlast
  obtain ⟨c, s, rfl⟩ := List.exists_cons_of_ne_nil hne
  have hc : c ≠ '-' := fun h => hhead (by rw [h]; rfl)
  have hend : (c :: (s ++ ['-'])).getLast? = some '-' := by
    rw [← List.cons_append, List.getLast?_concat]
  have hdrop : (c :: (s ++ ['-'])).dropLast = c :: s := by
    rw [← List.cons_append, List.dropLast_concat]
  cases left <;> cases right
  · unfold ofInner
    split <;> simp_all [text]
  · simp [ofInner, text, hend, hdrop, hc]
  · simp [ofInner, text, hlast]
  · simp [ofInner, text, hend, hdrop]

end Trimmed

end Stencil.Comment
