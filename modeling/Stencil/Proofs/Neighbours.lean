import Stencil.Proofs.TokenEdges

namespace Stencil

/-- Whether a token of the second kind right after one of the first leaves it as it is. -/
def TokenKind.KeepsApart : TokenKind → TokenKind → Prop
  | ident, k | keyword, k | float, k | int, k => k ∈ [space, pipe, groupClose, statementClose]
  | space, k => k ≠ space
  | statementOpen, k => k ≠ statementClose
  | _, _ => True

namespace Token

open Pattern

/-- Whether the first tokens are spelled as one, the head of a loop. -/
def BeginHeader (ts : List Token) : Prop :=
  ∃ (s a : Text) (us : List Token), [':', '='] <:+ a ∧
    ts = ⟨.ident, "range".toList⟩ :: ⟨.space, s⟩ :: ⟨.assignment, a⟩ :: us

/-- Whether the tokens stay apart from their neighbours. -/
def Spaced : List Token → Prop
  | [] => True
  | t :: ts => (∀ u ∈ ts.head?, t.kind.KeepsApart u.kind) ∧ ¬ BeginHeader (t :: ts) ∧ Spaced ts

theorem spaced_cons {t : Token} {ts : List Token}
    (ht : t.kind ∈ [.pipe, .groupOpen, .groupClose, .statementClose]) (h : Spaced ts) :
    Spaced (t :: ts) := by
  obtain ⟨kind, s⟩ := t
  simp only [List.mem_cons, List.not_mem_nil, or_false] at ht
  refine ⟨fun u _ => ?_, ?_, h⟩
  · obtain rfl | rfl | rfl | rfl := ht <;> trivial
  · rintro ⟨_, _, _, -, hts⟩
    cases hts
    simp at ht

section Spans

variable {P : Char → Prop} {p q w x : Text}

theorem exists_append_of_span (hw : ∀ c ∈ w, P c) (hq : ∃ c y, q = c :: y ∧ ¬ P c)
    (h : p ++ q <+: w ++ x) : ∃ z, p = w ++ z ∧ z ++ q <+: x := by
  obtain hz | ⟨d, z, rfl, hqx⟩ := prefix_append_cases h
  · exact hz
  · obtain ⟨c, y, rfl, hc⟩ := hq
    obtain ⟨rfl, -⟩ := List.cons_prefix_cons.1 hqx
    exact (hc (hw c (by simp))).elim

theorem eq_of_span (hp : ∀ c ∈ p, P c) (hw : ∀ c ∈ w, P c) (hq : ∃ c y, q = c :: y ∧ ¬ P c)
    (hx : ∀ c ∈ x.head?, ¬ P c) (h : p ++ q <+: w ++ x) : p = w ∧ q <+: x := by
  obtain ⟨z, rfl, hzx⟩ := exists_append_of_span hw hq h
  cases z with
  | nil => exact ⟨List.append_nil w, hzx⟩
  | cons e z =>
    obtain ⟨y, rfl⟩ := hzx
    exact (hx e rfl (hp e (by simp))).elim

end Spans

theorem wellFormed_of_matches {k : TokenKind} {s : Text} (h : (pattern k).Matches s)
    (hk : k ≠ .comment) : WellFormed ⟨k, s⟩ :=
  ⟨h, fun hc => (hk hc).elim⟩

theorem heads_of_spelling {u : Token} {us : List Token} {c : Char} {m : Text} (hw : u.WellFormed)
    (h : c :: m <+: spelling (u :: us)) : heads c u.kind = true := by
  obtain ⟨d, s, hs⟩ := List.exists_cons_of_ne_nil (text_ne_nil hw)
  rw [spelling_cons, hs, List.cons_append] at h
  obtain ⟨rfl, -⟩ := List.cons_prefix_cons.1 h
  exact heads_of_wellFormed hw hs

theorem kind_of_isSpace {c : Char} {k : TokenKind} (h : heads c k = true) (hk : k ≠ .text)
    (hc : isSpace c = true) : k = .space := by
  obtain rfl | rfl | rfl | rfl | rfl := isSpace_iff.1 hc <;> revert h hk <;> cases k <;> decide

theorem kind_of_dollar {k : TokenKind} (h : heads '$' k = true) (hk : k ≠ .text) :
    k = .assignment ∨ k = .keyword := by
  revert h hk
  cases k <;> decide

theorem kind_of_dash {k : TokenKind} (h : heads '-' k = true) (hk : k ≠ .text) :
    k = .statementClose := by
  revert h hk
  cases k <;> decide

theorem not_heads {c : Char} (hc : c ∈ [':', ',', '=']) :
    isSpace c = false ∧ ∀ k : TokenKind, k ≠ .text → heads c k = false := by
  simp only [List.mem_cons, List.not_mem_nil, or_false] at hc
  obtain rfl | rfl | rfl := hc
  all_goals
    refine ⟨by decide, fun k hk => ?_⟩
    revert hk
    cases k <;> decide

theorem isWord_of_heads {c : Char} {k : TokenKind} (h : heads c k = true)
    (hk : k ∈ [.space, .pipe, .groupClose, .statementClose]) : isWord c = false ∧ c ≠ '.' := by
  have hc : isSpace c = true ∨ c ∈ ['|', ')', '-', '}'] := by
    simp only [List.mem_cons, List.not_mem_nil, or_false] at hk
    obtain rfl | rfl | rfl | rfl := hk
    · exact .inl h
    all_goals simp [heads] at h; simp [h]
  obtain hspace | hc := hc
  · refine ⟨isWord_eq_false_of_isSpace hspace, ?_⟩
    rintro rfl
    exact absurd hspace (by decide)
  · have hall : ∀ d ∈ ['|', ')', '-', '}'], isWord d = false ∧ d ≠ '.' :=
      forall_mem_of_all (by decide)
    exact hall c hc

section Text

variable {ts : List Token} (hw : ∀ t ∈ ts, t.WellFormed) (hk : ∀ t ∈ ts, t.kind ≠ .text)

include hw hk

theorem not_spelling_of_spaces {r y : Text} {c : Char} (hr : ∀ d ∈ r, isSpace d = true)
    (hc : c ∈ [':', ',', '=']) : ¬ r ++ c :: y <+: spelling ts := by
  intro h
  obtain ⟨hspace, hheads⟩ := not_heads hc
  induction ts generalizing r with
  | nil => simp [spelling] at h
  | cons t ts ih =>
    rw [List.forall_mem_cons] at hw hk
    cases r with
    | nil =>
      have hhead := heads_of_spelling hw.1 h
      rw [hheads t.kind hk.1] at hhead
      cases hhead
    | cons d r =>
      have hkind := kind_of_isSpace (heads_of_spelling hw.1 h) hk.1 (hr d List.mem_cons_self)
      have hs := hw.1.matches'
      rw [hkind] at hs
      rw [spelling_cons] at h
      have hbound : ∃ d m, c :: y = d :: m ∧ ¬ isSpace d = true := ⟨c, y, rfl, by simp [hspace]⟩
      obtain ⟨z, hz, hzx⟩ := exists_append_of_span (matches_space_iff.1 hs).2 hbound h
      exact ih hw.2 hk.2 (fun e he => hr e (by rw [hz]; simp [he])) hzx

end Text

def isName (c : Char) : Bool := isWord c || c == '.'

theorem NameTail.isName {s : Text} (h : NameTail s) : ∀ c ∈ s, isName c = true := by
  induction h with
  | nil => simp
  | word hc _ ih => exact List.forall_mem_cons.2 ⟨by simp [Token.isName, hc], ih⟩
  | dot hc _ ih =>
    refine List.forall_mem_cons.2 ⟨rfl, List.forall_mem_cons.2 ⟨?_, ih⟩⟩
    simp [Token.isName, isWord, hc]

theorem isName_of_dottedName {n : Text} (h : Matches dottedName n) : ∀ c ∈ n, isName c = true := by
  obtain ⟨c, t, rfl, hc, ht⟩ := matches_dottedName_iff.1 h
  exact List.forall_mem_cons.2 ⟨by simp [isName, isWord, hc], ht.isName⟩

theorem isName_eq_false_of_isSpace {c : Char} (h : isSpace c = true) : isName c = false := by
  obtain rfl | rfl | rfl | rfl | rfl := isSpace_iff.1 h <;> decide

theorem exists_name_of_headerTail {m : Text} (h : Matches headerTail m) :
    ∃ (s n r y : Text) (c : Char), m = s ++ '$' :: (n ++ (r ++ c :: y)) ∧ s ≠ [] ∧
      (∀ d ∈ s, isSpace d = true) ∧ Matches dottedName n ∧ (∀ d ∈ r, isSpace d = true) ∧
      c ∈ [':', ','] := by
  obtain ⟨s, m, rfl, hs, h⟩ := matches_chain_cons_iff.1 h
  obtain ⟨dollar, m, rfl, hdollar, h⟩ := matches_chain_cons_iff.1 h
  obtain ⟨n, m, rfl, hn, h⟩ := matches_chain_cons_iff.1 h
  obtain ⟨o, m, rfl, ho, h⟩ := matches_chain_cons_iff.1 h
  obtain ⟨r, e, rfl, hr, he⟩ := matches_chain_cons_iff.1 h
  obtain ⟨hne, hspaces⟩ := matches_oneOrMore_iff.1 hs
  obtain ⟨-, hr⟩ := matches_oneOrMore_iff.1 hr
  obtain rfl := matches_char_iff.1 hdollar
  obtain ho | rfl := matches_optional_iff.1 ho
  · obtain ⟨r', o, rfl, hr', ho⟩ := matches_chain_cons_iff.1 ho
    obtain ⟨comma, o, rfl, hcomma, -⟩ := matches_chain_cons_iff.1 ho
    obtain rfl := matches_char_iff.1 hcomma
    exact ⟨s, n, r', o ++ (r ++ e), ',', by simp, hne, hspaces, hn, matches_many_iff.1 hr', by simp⟩
  · obtain rfl := matches_word_iff.1 he
    exact ⟨s, n, r, ['='], ':', by simp, hne, hspaces, hn, hr, by simp⟩

theorem not_isName_of_spaces {r y : Text} {c : Char} (hr : ∀ d ∈ r, isSpace d = true)
    (hc : c ∈ [':', ',']) : ∃ d m, r ++ c :: y = d :: m ∧ ¬ isName d = true := by
  cases r with
  | nil =>
    have hall : ∀ e ∈ [':', ','], ¬ isName e = true := forall_mem_of_all (by decide)
    exact ⟨c, y, rfl, hall c hc⟩
  | cons d r =>
    exact ⟨d, r ++ c :: y, rfl, by simp [isName_eq_false_of_isSpace (hr d List.mem_cons_self)]⟩

theorem colon_of_assignment {a n r y x : Text} {c : Char} (hw : WellFormed ⟨.assignment, a⟩)
    (hn : Matches dottedName n) (hr : ∀ d ∈ r, isSpace d = true) (hc : c ∈ [':', ','])
    (h : '$' :: (n ++ (r ++ c :: y)) <+: a ++ x) : [':', '='] <:+ a := by
  obtain ⟨n', t, rfl, hn', ht⟩ := matches_assignment_iff.1 hw.matches'
  obtain ⟨r', t, rfl, hr', ht⟩ := matches_chain_cons_iff.1 ht
  obtain ⟨o, e, rfl, ho, he⟩ := matches_chain_cons_iff.1 ht
  obtain rfl := matches_char_iff.1 he
  obtain ⟨hne, hspaces⟩ := matches_oneOrMore_iff.1 hr'
  rw [List.cons_append, List.cons_prefix_cons] at h
  have hname : ∀ d ∈ (r' ++ (o ++ ['=']) ++ x).head?, ¬ isName d = true := by
    obtain ⟨d, r', rfl⟩ := List.exists_cons_of_ne_nil hne
    rintro d ⟨⟩
    simp [isName_eq_false_of_isSpace (hspaces d List.mem_cons_self)]
  have hsplit : n ++ (r ++ c :: y) <+: n' ++ (r' ++ (o ++ ['=']) ++ x) := by
    simpa using h.2
  obtain ⟨-, hrest⟩ := eq_of_span (isName_of_dottedName hn) (isName_of_dottedName hn')
    (not_isName_of_spaces hr hc) hname hsplit
  have hcolon : ∃ d m, c :: y = d :: m ∧ ¬ isSpace d = true := by
    have hall : ∀ e ∈ [':', ','], ¬ isSpace e = true := forall_mem_of_all (by decide)
    exact ⟨c, y, rfl, hall c hc⟩
  have hrest : r ++ c :: y <+: r' ++ (o ++ '=' :: x) := by simpa using hrest
  obtain ho | rfl := matches_optional_iff.1 ho
  · obtain rfl := matches_char_iff.1 ho
    exact ⟨'$' :: (n' ++ r'), by simp⟩
  · have hspace : ∀ d ∈ ('=' :: x).head?, ¬ isSpace d = true := by
      rintro d ⟨⟩
      decide
    obtain ⟨-, hequals⟩ := eq_of_span hr hspaces hcolon hspace hrest
    obtain ⟨rfl, -⟩ := List.cons_prefix_cons.1 hequals
    simp at hc

theorem prefix_of_keyword {k n r y x : Text} {c : Char} (hw : WellFormed ⟨.keyword, '$' :: k⟩)
    (he : EndsAt ⟨.keyword, '$' :: k⟩ x) (hn : Matches dottedName n)
    (hr : ∀ d ∈ r, isSpace d = true) (hc : c ∈ [':', ','])
    (h : n ++ (r ++ c :: y) <+: k ++ x) : r ++ c :: y <+: x := by
  obtain ⟨d, m, heq, -, hk⟩ := matches_keyword_iff.1 hw.matches'
  obtain ⟨rfl, rfl⟩ := List.cons.inj heq
  have hname : ∀ d ∈ k, isName d = true := by
    obtain hk | rfl := hk
    · exact isName_of_dottedName hk
    · simp
  obtain ⟨z, rfl, hzx⟩ := exists_append_of_span hname (not_isName_of_spaces hr hc) h
  cases z with
  | nil => exact hzx
  | cons e z =>
    have hz : e :: z <+: x := (List.prefix_append _ _).trans hzx
    obtain ⟨f, u, hfu, hf, hu⟩ := matches_dottedName_iff.1 hn
    obtain hk | rfl := hk
    · obtain ⟨g, v, rfl, -, -⟩ := matches_dottedName_iff.1 hk
      obtain ⟨rfl, rfl⟩ := List.cons.inj hfu
      obtain ⟨m, hm, hmore⟩ := hu.exists_nameMore (List.cons_ne_nil e z)
      exact (he m (hm.trans hz) (.altLeft hmore)).elim
    · obtain ⟨rfl, rfl⟩ := List.cons.inj hfu
      exact (he [e] (List.IsPrefix.trans ⟨z, rfl⟩ hz) (.one hf)).elim

section Spaced

variable {t : Token} {ts : List Token} (hw : ∀ u ∈ ts, u.WellFormed)
  (hk : ∀ u ∈ ts, u.kind ≠ .text)

include hw hk

theorem exists_cons_of_spelling {c : Char} {m : Text} (h : c :: m <+: spelling ts) :
    ∃ u us, ts = u :: us ∧ heads c u.kind = true := by
  cases ts with
  | nil => simp [spelling] at h
  | cons u us => exact ⟨u, us, rfl, heads_of_spelling (hw u List.mem_cons_self) h⟩

theorem not_isSpace_of_spaced (hs : Spaced (t :: ts)) (ht : t.kind = .space) :
    ∀ c ∈ (spelling ts).head?, ¬ isSpace c = true := by
  intro c hc hspace
  obtain ⟨m, hm⟩ := List.head?_eq_some_iff.1 hc
  obtain ⟨u, us, rfl, hhead⟩ :=
    exists_cons_of_spelling hw hk (c := c) (m := m) (hm ▸ List.prefix_rfl)
  have hkind := kind_of_isSpace hhead (hk u List.mem_cons_self) hspace
  have hapart := hs.1 u rfl
  rw [ht, hkind] at hapart
  exact hapart rfl

theorem not_headerTail (hs : Spaced (⟨.ident, "range".toList⟩ :: ts)) (hts : Separate ts)
    {m : Text} (hm : m <+: spelling ts) : ¬ Matches headerTail m := by
  intro h
  obtain ⟨s, n, r, y, c, rfl, hne, hspaces, hn, hr, hc⟩ := exists_name_of_headerTail h
  obtain ⟨d, s', rfl⟩ := List.exists_cons_of_ne_nil hne
  obtain ⟨⟨kind, sp⟩, us, rfl, hhead⟩ := exists_cons_of_spelling hw hk hm
  rw [List.forall_mem_cons] at hw hk
  obtain rfl : kind = .space := kind_of_isSpace hhead hk.1 (hspaces d List.mem_cons_self)
  obtain ⟨-, hall⟩ := matches_space_iff.1 hw.1.matches'
  have hdollar : ∃ e x, '$' :: (n ++ (r ++ c :: y)) = e :: x ∧ ¬ isSpace e = true :=
    ⟨'$', _, rfl, by decide⟩
  have hnext := not_isSpace_of_spaced hw.2 hk.2 hs.2.2 rfl
  obtain ⟨-, hrest⟩ := eq_of_span hspaces hall hdollar hnext hm
  obtain ⟨⟨kind, a⟩, ws, rfl, hhead⟩ := exists_cons_of_spelling hw.2 hk.2 hrest
  rw [List.forall_mem_cons] at hw hk
  obtain rfl | rfl := kind_of_dollar hhead hk.2.1
  · exact hs.2.1 ⟨sp, a, ws, colon_of_assignment hw.2.1 hn hr hc hrest, rfl⟩
  · obtain ⟨-, -, -, -, -, he, -⟩ := hts
    obtain ⟨e, k, rfl, -, -⟩ := matches_keyword_iff.1 hw.2.1.matches'
    rw [spelling_cons, List.cons_append, List.cons_prefix_cons] at hrest
    obtain ⟨rfl, hrest⟩ := hrest
    have hafter := prefix_of_keyword hw.2.1 he hn hr hc hrest
    exact not_spelling_of_spaces hw.2.2 hk.2.2 hr (List.mem_append_left ['='] hc) hafter

theorem isWord_of_spaced (hs : Spaced (t :: ts)) (ht : t.kind ∈ [.ident, .keyword, .float, .int])
    {c : Char} {m : Text} (hm : c :: m <+: spelling ts) : isWord c = false ∧ c ≠ '.' := by
  obtain ⟨u, us, rfl, hhead⟩ := exists_cons_of_spelling hw hk hm
  refine isWord_of_heads hhead ?_
  have hapart := hs.1 u rfl
  simp only [List.mem_cons, List.not_mem_nil, or_false] at ht
  obtain ht | ht | ht | ht := ht
  all_goals
    rw [ht] at hapart
    exact hapart

theorem not_nameMore {m : Text} (hs : Spaced (t :: ts)) (ht : t.kind = .keyword)
    (hm : m <+: spelling ts) : ¬ Matches nameMore m := by
  intro h
  obtain hword | hdot := matches_alt_iff.1 h
  · obtain ⟨d, rfl, hd⟩ := matches_one_iff.1 hword
    rw [(isWord_of_spaced hw hk hs (by simp [ht]) hm).1] at hd
    cases hd
  · obtain ⟨a, b, rfl, ha, -⟩ := matches_seq_iff.1 hdot
    obtain rfl := matches_char_iff.1 ha
    exact (isWord_of_spaced hw hk hs (by simp [ht]) hm).2 rfl

theorem not_assignTail {m : Text} (hm : m <+: spelling ts) : ¬ Matches assignTail m := by
  intro h
  obtain ⟨r, m, rfl, hr, h⟩ := matches_chain_cons_iff.1 h
  obtain ⟨o, e, rfl, ho, he⟩ := matches_chain_cons_iff.1 h
  obtain rfl := matches_char_iff.1 he
  obtain ⟨-, hspaces⟩ := matches_oneOrMore_iff.1 hr
  obtain ho | rfl := matches_optional_iff.1 ho
  · obtain rfl := matches_char_iff.1 ho
    exact not_spelling_of_spaces hw hk hspaces (by simp) hm
  · exact not_spelling_of_spaces hw hk hspaces (by simp) hm

theorem endsAt_of_spaced (hs : Spaced (t :: ts)) (hts : Separate ts) : t.EndsAt (spelling ts) := by
  intro m hm hreach
  have hname := isWord_of_spaced hw hk hs
  obtain ⟨kind, s⟩ := t
  cases kind with
  | ident =>
    obtain hword | hhead := matches_alt_iff.1 hreach
    · obtain ⟨d, rfl, hd⟩ := matches_one_iff.1 hword
      rw [(hname (by simp) hm).1] at hd
      cases hd
    · split at hhead
      next heq =>
        obtain rfl : s = "range".toList := heq
        exact not_headerTail hw hk hs hts hm hhead
      · exact not_matches_nothing hhead
  | keyword =>
    unfold reach at hreach
    simp only at hreach
    split at hreach
    · obtain ⟨d, rfl, hd⟩ := matches_one_iff.1 hreach
      have hnot := (hname (by simp) hm).1
      simp [isWord, hd] at hnot
    · obtain hmore | hassign := matches_alt_iff.1 hreach
      · exact not_nameMore hw hk hs rfl hm hmore
      · split at hassign
        · exact not_assignTail hw hk hm hassign
        · exact not_matches_nothing hassign
  | float =>
    obtain ⟨d, rfl, hd⟩ := matches_one_iff.1 hreach
    have hnot := (hname (by simp) hm).1
    simp [isWord, hd] at hnot
  | int =>
    obtain hdigit | hpoint := matches_alt_iff.1 hreach
    · obtain ⟨d, rfl, hd⟩ := matches_one_iff.1 hdigit
      have hnot := (hname (by simp) hm).1
      simp [isWord, hd] at hnot
    · obtain ⟨a, b, rfl, ha, -⟩ := matches_seq_iff.1 hpoint
      obtain rfl := matches_char_iff.1 ha
      exact (hname (by simp) hm).2 rfl
  | space =>
    obtain ⟨d, rfl, hd⟩ := matches_one_iff.1 hreach
    obtain ⟨x, hx⟩ := hm
    refine not_isSpace_of_spaced hw hk hs rfl d ?_ hd
    rw [← hx]
    rfl
  | statementOpen =>
    unfold reach at hreach
    simp only at hreach
    split at hreach
    · obtain rfl := matches_char_iff.1 hreach
      obtain ⟨u, us, rfl, hhead⟩ := exists_cons_of_spelling hw hk hm
      exact hs.1 u rfl (kind_of_dash hhead (hk u List.mem_cons_self))
    · exact not_matches_nothing hreach
  | _ => exact not_matches_nothing hreach

end Spaced

/-- Tokens that stay apart from their neighbours are found again where they are spelled out. -/
theorem separate_of_spaced {ts : List Token} (hw : ∀ u ∈ ts, u.WellFormed)
    (hk : ∀ u ∈ ts, u.kind ≠ .text) (hs : Spaced ts) : Separate ts := by
  induction ts with
  | nil => trivial
  | cons t ts ih =>
    rw [List.forall_mem_cons] at hw hk
    have hts := ih hw.2 hk.2 hs.2.2
    exact ⟨hk.1, hw.1, endsAt_of_spaced hw.2 hk.2 hs hts, hts⟩

end Token
end Stencil
