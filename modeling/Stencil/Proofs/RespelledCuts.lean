import Mathlib.Data.List.Chain
import Stencil.Proofs.Respelling

namespace Stencil.Token

open Pattern

def literalHeads : Text := "\"'0123456789".toList

def Joined (c d : Char) : Prop := d ∈ literalHeads → isWord c = true ∧ isDigit d = true

/-- `Unquoted s`: no literal can begin in the text. -/
def Unquoted (s : Text) : Prop := ∀ c, List.IsChain Joined (c :: s)

theorem mem_literalHeads_of_isDigit {d : Char} (h : isDigit d = true) : d ∈ literalHeads := by
  have hmem : ∀ n ∈ List.range 58, 48 ≤ n → Char.ofNat n ∈ literalHeads := by decide
  obtain ⟨hlow, hhigh⟩ := isDigit_iff.1 h
  have hd := hmem d.toNat (List.mem_range.2 (by omega)) hlow
  rwa [Char.ofNat_toNat] at hd

theorem isChain_append {a b : Text} {c : Char} (ha : List.IsChain Joined (c :: a))
    (hb : Unquoted b) : List.IsChain Joined (c :: (a ++ b)) := by
  induction a generalizing c with
  | nil => exact hb c
  | cons d a ih =>
    obtain ⟨hcd, ha⟩ := List.isChain_cons_cons.1 ha
    exact List.isChain_cons_cons.2 ⟨hcd, ih ha⟩

theorem Unquoted.append {a b : Text} (ha : Unquoted a) (hb : Unquoted b) : Unquoted (a ++ b) :=
  fun c => isChain_append (ha c) hb

theorem unquoted_of_notMem {s : Text} (h : ∀ d ∈ s, d ∉ literalHeads) : Unquoted s := by
  intro c
  induction s generalizing c with
  | nil => exact .singleton c
  | cons d s ih =>
    rw [List.forall_mem_cons] at h
    exact List.isChain_cons_cons.2 ⟨fun hd => (h.1 hd).elim, ih h.2 d⟩

theorem unquoted_of_mentions {p : Pattern} (h : literalHeads.any (p.mentions ·) = false)
    {s : Text} (hs : Matches p s) : Unquoted s := by
  refine unquoted_of_notMem fun d hd hl => hs.notMem ?_ hd
  simpa using List.any_eq_false.1 h d hl

theorem notMem_literalHeads_of_isLetter {c : Char} (h : isLetter c = true) : c ∉ literalHeads := by
  have hmem : ∀ d ∈ literalHeads, isLetter d = false := forall_mem_of_all (by decide)
  intro hc
  rw [hmem c hc] at h
  cases h

theorem isWord_of_isLetter {c : Char} (h : isLetter c = true) : isWord c = true := by
  simp [isWord, h]

theorem isDigit_of_isWord {c : Char} (h : isWord c = true) (hc : c ∈ literalHeads) :
    isDigit c = true := by
  have hmem : ∀ d ∈ literalHeads, isWord d = true → isDigit d = true :=
    forall_mem_of_all (by decide)
  exact hmem c hc h

theorem isChain_of_nameTail {t : Text} (h : NameTail t) {c : Char} (hc : isWord c = true) :
    List.IsChain Joined (c :: t) := by
  induction h generalizing c with
  | nil => exact .singleton c
  | @word d s hd h ih =>
    exact List.isChain_cons_cons.2 ⟨fun hmem => ⟨hc, isDigit_of_isWord hd hmem⟩, ih hd⟩
  | @dot d s hd h ih =>
    have hdot : Joined c '.' := fun hmem => absurd hmem (by decide)
    have hletter : Joined '.' d := fun hmem => (notMem_literalHeads_of_isLetter hd hmem).elim
    exact List.isChain_cons_cons.2 ⟨hdot,
      List.isChain_cons_cons.2 ⟨hletter, ih (isWord_of_isLetter hd)⟩⟩

theorem unquoted_of_dottedName {s : Text} (h : Matches dottedName s) : Unquoted s := by
  obtain ⟨d, t, rfl, hd, ht⟩ := matches_dottedName_iff.1 h
  exact fun c => List.isChain_cons_cons.2
    ⟨fun hmem => (notMem_literalHeads_of_isLetter hd hmem).elim,
      isChain_of_nameTail ht (isWord_of_isLetter hd)⟩

theorem unquoted_of_seq {p q : Pattern} (hp : ∀ s, Matches p s → Unquoted s)
    (hq : ∀ s, Matches q s → Unquoted s) : ∀ s, Matches (.seq p q) s → Unquoted s := by
  intro s hs
  obtain ⟨a, b, rfl, ha, hb⟩ := matches_seq_iff.1 hs
  exact (hp a ha).append (hq b hb)

theorem unquoted_of_headerTail : ∀ s, Matches headerTail s → Unquoted s := by
  have hname : ∀ s, Matches dottedName s → Unquoted s := fun s => unquoted_of_dottedName
  have hclean : ∀ p : Pattern, literalHeads.any (p.mentions ·) = false →
      ∀ s, Matches p s → Unquoted s := fun p hp s => unquoted_of_mentions hp
  have hsecond : ∀ s, Matches (chain [spaces, char ',', spaces, char '$', dottedName]) s →
      Unquoted s :=
    unquoted_of_seq (hclean _ (by decide)) <| unquoted_of_seq (hclean _ (by decide)) <|
      unquoted_of_seq (hclean _ (by decide)) <| unquoted_of_seq (hclean _ (by decide)) hname
  have hoptional : ∀ s,
      Matches (Pattern.optional (chain [spaces, char ',', spaces, char '$', dottedName])) s →
        Unquoted s := by
    intro s hs
    obtain hs | rfl := matches_optional_iff.1 hs
    · exact hsecond s hs
    · exact unquoted_of_notMem (by simp)
  exact unquoted_of_seq (hclean _ (by decide)) <| unquoted_of_seq (hclean _ (by decide)) <|
    unquoted_of_seq hname <| unquoted_of_seq hoptional <|
    unquoted_of_seq (hclean _ (by decide)) (hclean _ (by decide))

theorem reach_respelled (t : Token) : t.respelled.reach = t.reach := by
  obtain ⟨kind, s⟩ := t
  cases kind <;> rfl

/-- What a token would take of the text after it: one of all the digits, those after a point, or a
text in which no literal begins. -/
inductive Reached (t : Token) : Text → Prop
  | digit {d : Char} (hd : isDigit d = true)
      (h : ∀ e, isDigit e = true → Matches t.reach [e]) : Reached t [d]
  | point {d : Char} (hd : isDigit d = true)
      (h : ∀ e, isDigit e = true → Matches t.reach ['.', e]) : Reached t ['.', d]
  | unquoted {m : Text} (h : Unquoted m) : Reached t m

theorem isWord_of_isDigit {c : Char} (h : isDigit c = true) : isWord c = true := by
  simp [isWord, h]

theorem reached_of_isWord {t : Token} {d : Char} (hd : isWord d = true)
    (h : ∀ e, isWord e = true → Matches t.reach [e]) : Reached t [d] := by
  by_cases hmem : d ∈ literalHeads
  · exact .digit (isDigit_of_isWord hd hmem) fun e he => h e (isWord_of_isDigit he)
  · exact .unquoted (unquoted_of_notMem (by simpa using hmem))

theorem reach_of_name {s : Text} (h : ¬ s.length ≤ 1) : reach ⟨.keyword, s⟩ =
    .alt nameMore (if s.head? = some '$' then assignTail else .nothing) := if_neg h

theorem reached_of_reach {t : Token} {m : Text} (h : Matches t.reach m) : Reached t m := by
  obtain ⟨kind, s⟩ := t
  cases kind with
  | ident =>
    obtain hword | hhead := matches_alt_iff.1 h
    · obtain ⟨d, rfl, hd⟩ := matches_one_iff.1 hword
      exact reached_of_isWord hd fun e he => .altLeft (.one he)
    · split at hhead
      · exact .unquoted (unquoted_of_headerTail m hhead)
      · exact (not_matches_nothing hhead).elim
  | keyword =>
    by_cases hlen : s.length ≤ 1
    · have hreach : reach ⟨.keyword, s⟩ = .one isLetter := if_pos hlen
      rw [hreach] at h
      exact .unquoted (unquoted_of_mentions (by decide) h)
    · rw [reach_of_name hlen] at h
      obtain hmore | hassign := matches_alt_iff.1 h
      · obtain hword | hdot := matches_alt_iff.1 hmore
        · obtain ⟨d, rfl, hd⟩ := matches_one_iff.1 hword
          refine reached_of_isWord hd fun e he => ?_
          rw [reach_of_name hlen]
          exact .altLeft (.altLeft (.one he))
        · exact .unquoted (unquoted_of_mentions (by decide) hdot)
      · split at hassign
        · exact .unquoted (unquoted_of_mentions (by decide) hassign)
        · exact (not_matches_nothing hassign).elim
  | float =>
    obtain ⟨d, rfl, hd⟩ := matches_one_iff.1 h
    exact .digit hd fun e he => .one he
  | int =>
    obtain hdigit | hpoint := matches_alt_iff.1 h
    · obtain ⟨d, rfl, hd⟩ := matches_one_iff.1 hdigit
      exact .digit hd fun e he => .altLeft (.one he)
    · obtain ⟨a, b, rfl, ha, hb⟩ := matches_seq_iff.1 hpoint
      obtain rfl := matches_char_iff.1 ha
      obtain ⟨d, rfl, hd⟩ := matches_one_iff.1 hb
      have hall : ∀ e, isDigit e = true → Matches (.seq (char '.') (.one isDigit)) (['.'] ++ [e]) :=
        fun e he => .seq (matches_char_iff.2 rfl) (.one he)
      exact .point hd fun e he => .altRight (hall e he)
  | space =>
    have hspace : Matches (.one isSpace) m := h
    exact .unquoted (unquoted_of_mentions (by decide) hspace)
  | statementOpen =>
    have hdash : Matches (if s.length ≤ 2 then char '-' else .nothing) m := h
    clear h
    split at hdash
    · exact .unquoted (unquoted_of_mentions (by decide) hdash)
    · exact (not_matches_nothing hdash).elim
  | _ => exact (not_matches_nothing h).elim

theorem reach_of_isWord {t : Token} (hw : t.WellFormed) (hk : t.kind ≠ .text) {c d : Char}
    (hlast : t.text.getLast? = some c) (hc : isWord c = true) (hd : isDigit d = true) :
    Matches t.reach [d] := by
  have hends : ∀ (a : Text) (e : Char), isWord e = false → t.text ≠ a ++ [e] := by
    intro a e he heq
    rw [heq, List.getLast?_concat] at hlast
    cases hlast
    rw [he] at hc
    cases hc
  obtain ⟨kind, s⟩ := t
  have hs := hw.matches'
  simp only at hends hlast
  cases kind with
  | range =>
    obtain ⟨a, rfl, -⟩ := range_end hs
    exact (hends (a ++ [':']) '=' (by decide) (by simp)).elim
  | assignment =>
    obtain ⟨a, rfl, -⟩ := assignment_end hs
    exact (hends a '=' (by decide) rfl).elim
  | ident => exact .altLeft (.one (isWord_of_isDigit hd))
  | keyword =>
    obtain ⟨e, n, rfl, he, hn⟩ := matches_keyword_iff.1 hs
    cases n with
    | nil =>
      cases hlast
      obtain rfl | rfl := he <;> exact absurd hc (by decide)
    | cons f n =>
      rw [reach_of_name (by simp)]
      exact .altLeft (.altLeft (.one (isWord_of_isDigit hd)))
  | literal =>
    obtain ⟨a, rfl, -⟩ := matches_raw_iff.1 hs
    exact (hends ('`' :: a) '`' (by decide) rfl).elim
  | string =>
    obtain ⟨a, rfl, -⟩ := matches_string_iff.1 hs
    exact (hends ('"' :: a) '"' (by decide) rfl).elim
  | rune =>
    obtain ⟨a, rfl, -⟩ := matches_rune_iff.1 hs
    exact (hends ('\'' :: a) '\'' (by decide) rfl).elim
  | float => exact .one hd
  | int => exact .altLeft (.one hd)
  | comment =>
    obtain ⟨a, rfl⟩ := matches_comment_iff.1 hs
    exact (hends ('/' :: '*' :: (a ++ ['*'])) '/' (by decide) (by simp)).elim
  | text => exact (hk rfl).elim
  | space =>
    have hspace := (matches_space_iff.1 hs).2 c (List.mem_of_getLast? hlast)
    obtain rfl | rfl | rfl | rfl | rfl := isSpace_iff.1 hspace <;> exact absurd hc (by decide)
  | pipe | groupOpen | groupClose => exact (hends [] _ (by decide) (matches_char_iff.1 hs)).elim
  | statementOpen =>
    obtain rfl | rfl := matches_statementOpen_iff.1 hs
    · exact (hends ['{'] '{' (by decide) rfl).elim
    · exact (hends ['{', '{'] '-' (by decide) rfl).elim
  | statementClose =>
    obtain rfl | rfl := matches_statementClose_iff.1 hs
    · exact (hends ['}'] '}' (by decide) rfl).elim
    · exact (hends ['-', '}'] '}' (by decide) rfl).elim

/-- A token that is respelled differently is a literal, and begins with a quote in both spellings or
with a digit in both. -/
theorem heads_of_canonical_ne {t : Token} (hw : t.WellFormed) (hv : t.HasValue)
    (hne : t.canonical ≠ t.text) :
    (∃ q a b, q ∈ ['"', '\''] ∧ t.canonical = q :: a ∧ t.text = q :: b) ∨
      ∃ d e a b, isDigit d = true ∧ isDigit e = true ∧ t.canonical = d :: a ∧ t.text = e :: b := by
  have hw' := wellFormed_respelled hw hv
  obtain ⟨d, a, hd⟩ := List.exists_cons_of_ne_nil (text_ne_nil hw')
  obtain ⟨e, b, he⟩ := List.exists_cons_of_ne_nil (text_ne_nil hw)
  have hfirst := heads_of_wellFormed hw' hd
  have hheads : heads d t.kind = true := hfirst
  have hheads' := heads_of_wellFormed hw he
  have hk : t.kind ∈ [.string, .rune, .float, .int] := by
    apply Classical.byContradiction
    exact fun hk => hne (canonical_of_kind hk)
  simp only [List.mem_cons, List.not_mem_nil, or_false] at hk
  obtain hk | hk | hk | hk := hk <;> rw [hk] at hheads hheads'
  · obtain rfl : d = '"' := beq_iff_eq.1 hheads
    obtain rfl : e = '"' := beq_iff_eq.1 hheads'
    exact .inl ⟨'"', a, b, by simp, hd, he⟩
  · obtain rfl : d = '\'' := beq_iff_eq.1 hheads
    obtain rfl : e = '\'' := beq_iff_eq.1 hheads'
    exact .inl ⟨'\'', a, b, by simp, hd, he⟩
  · exact .inr ⟨d, e, a, b, hheads, hheads', hd, he⟩
  · exact .inr ⟨d, e, a, b, hheads, hheads', hd, he⟩

section Cuts

variable {ts : List Token} (hs : Separate ts) (hv : ∀ t ∈ ts, t.HasValue)

include hs hv

/-- What stands at the start of respelled tokens, with no literal beginning in it, stands there in
the original spelling. -/
theorem prefix_of_isChain {c : Char} {m : Text} (hm : m <+: spelling (ts.map respelled))
    (hj : List.IsChain Joined (c :: m))
    (hc : isWord c = true → ∀ d, isDigit d = true → ¬ [d] <+: spelling ts) : m <+: spelling ts := by
  induction ts generalizing c m with
  | nil => exact hm
  | cons t ts ih =>
    obtain ⟨hk, hw, he, hs⟩ := hs
    rw [List.forall_mem_cons] at hv
    rw [List.map_cons, spelling_cons] at hm
    rw [spelling_cons]
    by_cases heq : t.canonical = t.text
    · have htext : t.respelled.text = t.text := heq
      rw [htext] at hm
      obtain hle | hlt := Nat.le_total m.length t.text.length
      · exact (List.prefix_of_prefix_length_le hm (List.prefix_append _ _) hle).trans
          (List.prefix_append _ _)
      · obtain ⟨z, rfl⟩ := List.prefix_of_prefix_length_le (List.prefix_append _ _) hm hlt
        obtain ⟨a, e, hlast⟩ := (List.eq_nil_or_concat t.text).resolve_left (text_ne_nil hw)
        rw [List.concat_eq_append] at hlast
        have hjz : List.IsChain Joined (e :: z) := by
          rw [hlast, List.append_assoc, ← List.cons_append] at hj
          exact hj.right_of_append
        refine (List.prefix_append_right_inj _).2
          (ih hs hv.2 ((List.prefix_append_right_inj _).1 hm) hjz fun hword d hd hpre => ?_)
        exact he [d] hpre (reach_of_isWord hw hk (by rw [hlast]; simp) hword hd)
    · cases m with
      | nil => exact List.nil_prefix
      | cons d m =>
        obtain ⟨hcd, -⟩ := List.isChain_cons_cons.1 hj
        obtain ⟨q, a, b, hq, ha, hb⟩ | ⟨e, f, a, b, he', hf, ha, hb⟩ :=
          heads_of_canonical_ne hw hv.1 heq
        · have htext : t.respelled.text = q :: a := ha
          rw [htext, List.cons_append, List.cons_prefix_cons] at hm
          obtain rfl := hm.1
          have hmem : ∀ q ∈ ['"', '\''], q ∈ literalHeads ∧ isDigit q = false :=
            forall_mem_of_all (by decide)
          obtain ⟨hmem, hdigit⟩ := hmem d hq
          rw [(hcd hmem).2] at hdigit
          cases hdigit
        · have htext : t.respelled.text = e :: a := ha
          rw [htext, List.cons_append, List.cons_prefix_cons] at hm
          obtain rfl := hm.1
          refine (hc (hcd (mem_literalHeads_of_isDigit he')).1 f hf ?_).elim
          rw [spelling_cons, hb]
          exact ⟨b ++ spelling ts, rfl⟩

theorem exists_digit_prefix {d : Char} (hd : isDigit d = true)
    (hm : [d] <+: spelling (ts.map respelled)) : ∃ e, isDigit e = true ∧ [e] <+: spelling ts := by
  cases ts with
  | nil => simp [spelling] at hm
  | cons t ts =>
    have hw := hs.2.1
    rw [List.forall_mem_cons] at hv
    rw [List.map_cons, spelling_cons] at hm
    rw [spelling_cons]
    by_cases heq : t.canonical = t.text
    · have htext : t.respelled.text = t.text := heq
      rw [htext] at hm
      obtain ⟨e, a, ha⟩ := List.exists_cons_of_ne_nil (text_ne_nil hw)
      rw [ha, List.cons_append] at hm ⊢
      obtain rfl := (List.cons_prefix_cons.1 hm).1
      exact ⟨d, hd, a ++ spelling ts, rfl⟩
    · obtain ⟨q, a, b, hq, ha, hb⟩ | ⟨e, f, a, b, he, hf, ha, hb⟩ :=
        heads_of_canonical_ne hw hv.1 heq
      · have htext : t.respelled.text = q :: a := ha
        rw [htext, List.cons_append, List.cons_prefix_cons] at hm
        obtain rfl := hm.1
        have hmem : ∀ q ∈ ['"', '\''], isDigit q = false := forall_mem_of_all (by decide)
        rw [hmem d hq] at hd
        cases hd
      · rw [hb]
        exact ⟨f, hf, b ++ spelling ts, rfl⟩

theorem exists_point_prefix {d : Char} (hd : isDigit d = true)
    (hm : ['.', d] <+: spelling (ts.map respelled)) :
    ∃ e, isDigit e = true ∧ ['.', e] <+: spelling ts := by
  cases ts with
  | nil => simp [spelling] at hm
  | cons t ts =>
    obtain ⟨hk, hw, -, hs⟩ := hs
    rw [List.forall_mem_cons] at hv
    have hw' := wellFormed_respelled hw hv.1
    rw [List.map_cons, spelling_cons] at hm
    obtain ⟨c, a, ha⟩ := List.exists_cons_of_ne_nil (text_ne_nil hw')
    rw [ha, List.cons_append, List.cons_prefix_cons] at hm
    obtain ⟨rfl, hm⟩ := hm
    have hheads := heads_of_wellFormed hw' ha
    obtain ⟨kind, s⟩ := t
    have hkinds : ∀ k : TokenKind, heads '.' k = true → k ≠ .text → k = .keyword := by
      intro k
      cases k <;> decide
    have hkeyword : kind = .keyword := hkinds kind hheads hk
    subst hkeyword
    have hs' : s = '.' :: a := ha
    subst hs'
    obtain ⟨c, n, heq, -, hn⟩ := matches_keyword_iff.1 hw.matches'
    obtain ⟨rfl, rfl⟩ := List.cons.inj heq
    obtain hn | rfl := hn
    · obtain ⟨e, u, rfl, he, -⟩ := matches_dottedName_iff.1 hn
      obtain rfl := (List.cons_prefix_cons.1 hm).1
      exact (notMem_literalHeads_of_isLetter he (mem_literalHeads_of_isDigit hd)).elim
    · obtain ⟨e, he, hpre⟩ := exists_digit_prefix hs hv.2 hd hm
      exact ⟨e, he, List.cons_prefix_cons.2 ⟨rfl, hpre⟩⟩

theorem endsAt_respelled {t : Token} (he : t.EndsAt (spelling ts)) :
    t.respelled.EndsAt (spelling (ts.map respelled)) := by
  intro m hm hreach
  rw [reach_respelled] at hreach
  have hreached := reached_of_reach hreach
  cases hreached with
  | digit hd h =>
    obtain ⟨e, hdigit, hpre⟩ := exists_digit_prefix hs hv hd hm
    exact he [e] hpre (h e hdigit)
  | point hd h =>
    obtain ⟨e, hdigit, hpre⟩ := exists_point_prefix hs hv hd hm
    exact he ['.', e] hpre (h e hdigit)
  | unquoted h =>
    have hspace : isWord ' ' = false := by decide
    refine he m (prefix_of_isChain hs hv hm (h ' ') fun hword => ?_) hreach
    rw [hspace] at hword
    cases hword

theorem separate_respelled : Separate (ts.map respelled) := by
  induction ts with
  | nil => trivial
  | cons t ts ih =>
    obtain ⟨hk, hw, he, hs⟩ := hs
    rw [List.forall_mem_cons] at hv
    exact ⟨hk, wellFormed_respelled hw hv.1, endsAt_respelled hs hv.2 he, ih hs hv.2⟩

theorem tokenize_respelled : tokenize (ts.flatMap canonical) = ts.map respelled := by
  rw [← spelling_map_respelled]
  exact tokenize_of_lexed (lexed_of_separate (separate_respelled hs hv))

end Cuts

end Stencil.Token
