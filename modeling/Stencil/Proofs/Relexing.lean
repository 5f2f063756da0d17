import Stencil.Proofs.ActionTokens

namespace Stencil

/-- Whether tokens of the kind can join with those next to them. -/
def TokenKind.joins : TokenKind → Bool
  | range | assignment | ident | keyword | float | int | space => true
  | _ => false

namespace Token

open Pattern

/-- The characters that tokens begin with that do not join. -/
def stops : Text := "`\"'/|()\x7b\x7d-".toList

theorem notMem_stops {t : Token} (hw : t.WellFormed) (hk : t.kind.joins = true) :
    ∀ c ∈ t.text, c ∉ stops := by
  intro c hc hs
  have hmentions : ∀ c ∈ stops, (pattern t.kind).mentions c = false := by
    revert hk
    cases t.kind <;> first | exact fun _ => forall_mem_of_all (by decide) | exact nofun
  exact hw.matches'.notMem (hmentions c hs) hc

theorem mem_stops_of_heads {c : Char} {k : TokenKind} (h : heads c k = true) (hk : k ≠ .text)
    (hj : k.joins = false) : c ∈ stops := by
  cases k with
  | text => exact (hk rfl).elim
  | statementClose =>
    simp only [heads, Bool.or_eq_true, beq_iff_eq] at h
    obtain rfl | rfl := h <;> decide
  | literal | string | rune | comment | pipe | groupOpen | groupClose | statementOpen =>
    obtain rfl := beq_iff_eq.1 h
    decide
  | _ => cases hj

theorem head?_mem_stops {t : Token} (hw : t.WellFormed) (hk : t.kind ≠ .text)
    (hj : t.kind.joins = false) (x : Text) : ∀ c ∈ (t.text ++ x).head?, c ∈ stops := by
  obtain ⟨c, s, hs⟩ := List.exists_cons_of_ne_nil (text_ne_nil hw)
  rw [hs]
  rintro _ ⟨⟩
  exact mem_stops_of_heads (heads_of_wellFormed hw hs) hk hj

theorem exists_first_of_cons (c : Char) (s : Text) :
    ∃ (t : Token) (x : Text), Lexer.first rules (c :: s) = some (t, x) := by
  cases h : Lexer.first rules (c :: s) with
  | none =>
    have hleft := leftover_nil (c :: s)
    rw [Lexer.scan_of_none h] at hleft
    cases hleft
  | some b => exact ⟨b.1, b.2, rfl⟩

theorem exists_first_of_notMem_stops {c : Char} {s rest : Text} (hs : ∀ d ∈ c :: s, d ∉ stops)
    (hrest : ∀ d ∈ rest.head?, d ∈ stops) :
    ∃ t s', c :: s = t.text ++ s' ∧ (t.kind.joins = true ∨ t.kind = .text) ∧ t.text ≠ [] ∧
      Lexer.first rules (c :: s ++ rest) = some (t, s' ++ rest) := by
  obtain ⟨t, x, hfirst⟩ := exists_first_of_cons c (s ++ rest)
  obtain ⟨hne, heq⟩ := Lexer.first_eq_some hfirst
  have hw : t.WellFormed := by
    rw [← heq] at hfirst
    exact wellFormed_of_first hfirst
  obtain ⟨d, m, ht⟩ := List.exists_cons_of_ne_nil hne
  have hd : d = c := by
    rw [ht] at heq
    exact (List.cons.inj heq).1
  subst hd
  have hkind : t.kind.joins = true ∨ t.kind = .text := by
    by_cases hk : t.kind = .text
    · exact .inr hk
    · refine .inl ?_
      rw [← Bool.not_eq_false]
      intro hj
      exact hs d List.mem_cons_self (mem_stops_of_heads (heads_of_wellFormed hw ht) hk hj)
  have hstops : ∀ e ∈ t.text, e ∉ stops := by
    obtain hk | hk := hkind
    · exact notMem_stops hw hk
    · have hm := hw.matches'
      rw [hk] at hm
      obtain ⟨e, he, -⟩ := matches_one_iff.1 hm
      rw [he, List.forall_mem_singleton]
      rw [he] at ht
      obtain rfl := (List.cons.inj ht).1
      exact hs e List.mem_cons_self
  have hsplit : ∃ s', d :: s = t.text ++ s' ∧ x = s' ++ rest := by
    rw [← List.cons_append] at heq
    obtain ⟨a, ha, hb⟩ | ⟨a, ha, hb⟩ := List.append_eq_append_iff.1 heq
    · exact ⟨a, ha, hb⟩
    · cases a with
      | nil =>
        refine ⟨[], by simpa using ha.symm, by simpa using hb.symm⟩
      | cons e a =>
        exact (hstops e (by rw [ha]; simp) (hrest e (by rw [hb]; rfl))).elim
  obtain ⟨s', hs', rfl⟩ := hsplit
  exact ⟨t, s', hs', hkind, hne, hfirst⟩

theorem tokenize_append_of_notMem_stops {s rest : Text} (hs : ∀ d ∈ s, d ∉ stops)
    (hrest : ∀ d ∈ rest.head?, d ∈ stops) :
    ∃ ts, tokenize (s ++ rest) = ts ++ tokenize rest ∧ spelling ts = s ∧
      ∀ t ∈ ts, t.kind.joins = true ∨ t.kind = .text := by
  induction hn : s.length using Nat.strongRecOn generalizing s with
  | ind n ih =>
    cases s with
    | nil => exact ⟨[], rfl, rfl, by simp⟩
    | cons c s =>
      obtain ⟨t, s', hs', hk, hne, hfirst⟩ := exists_first_of_notMem_stops hs hrest
      have hlen := congrArg List.length hs'
      have hpos := List.length_pos_iff.2 hne
      rw [List.length_append, hn] at hlen
      rw [hs', List.forall_mem_append] at hs
      obtain ⟨ts, hts, hspell, hkinds⟩ := ih s'.length (by omega) hs.2 rfl
      refine ⟨t :: ts, ?_, ?_, List.forall_mem_cons.2 ⟨hk, hkinds⟩⟩
      · rw [tokenize_of_first hfirst, hts]
        rfl
      · rw [hs', ← hspell]
        rfl

/-- `Relexed ts us`: the first tokens spelled out can be read as the second ones, which differ only
in runs of tokens that join. -/
inductive Relexed : List Token → List Token → Prop
  | nil : Relexed [] []
  | apart {t : Token} {ts us : List Token} (ht : t.kind.joins = false) (h : Relexed ts us) :
      Relexed (t :: ts) (t :: us)
  | run {run run' ts us : List Token} (hne : run ≠ []) (hne' : run' ≠ [])
      (hrun : ∀ t ∈ run, t.kind.joins = true)
      (hrun' : ∀ t ∈ run', t.kind.joins = true ∨ t.kind = .text) (h : Relexed ts us) :
      Relexed (run ++ ts) (run' ++ us)

theorem Relexed.mem_or {ts us : List Token} (h : Relexed ts us) :
    ∀ u ∈ us, u ∈ ts ∨ u.kind.joins = true ∨ u.kind = .text := by
  induction h with
  | nil => simp
  | apart ht h ih =>
    rw [List.forall_mem_cons]
    exact ⟨.inl List.mem_cons_self, fun u hu => (ih u hu).imp_left (List.mem_cons_of_mem _)⟩
  | run hne hne' hrun hrun' h ih =>
    rw [List.forall_mem_append]
    exact ⟨fun u hu => .inr (hrun' u hu), fun u hu => (ih u hu).imp_left (List.mem_append_right _)⟩

theorem tokenize_append_of_apart {t : Token} (hw : t.WellFormed) (hj : t.kind.joins = false)
    (hk : t.kind ∉ [.statementOpen, .text]) (x : Text) :
    tokenize (t.text ++ x) = t :: tokenize x := by
  have hreach : t.reach = .nothing := by
    obtain ⟨kind, s⟩ := t
    cases kind with
    | statementOpen => exact (hk (by simp)).elim
    | _ => first | rfl | cases hj
  have htext : t.kind ≠ .text := fun h => hk (by simp [h])
  exact tokenize_append_of_reach htext hw hreach x

theorem exists_relexed_run {run : List Token} (hw : ∀ t ∈ run, t.WellFormed)
    (hj : ∀ t ∈ run, t.kind.joins = true) {x : Text} (hx : ∀ d ∈ x.head?, d ∈ stops) :
    ∃ run', tokenize (spelling run ++ x) = run' ++ tokenize x ∧
      ∀ ts us, Relexed ts us → Relexed (run ++ ts) (run' ++ us) := by
  by_cases hne : run = []
  · subst hne
    exact ⟨[], rfl, fun _ _ => id⟩
  · have hstops : ∀ d ∈ spelling run, d ∉ stops := by
      intro d hd
      obtain ⟨t, ht, hd⟩ := List.mem_flatMap.1 hd
      exact notMem_stops (hw t ht) (hj t ht) d hd
    obtain ⟨run', hrun', hspell, hkinds⟩ := tokenize_append_of_notMem_stops hstops hx
    refine ⟨run', hrun', fun ts us => .run hne ?_ hj hkinds⟩
    rintro rfl
    exact spelling_ne_nil hw hne hspell.symm

theorem wellFormed_opening (left : Bool) : (opening left).WellFormed := by
  refine ⟨matches_statementOpen_iff.2 ?_, nofun⟩
  cases left
  · exact .inl rfl
  · exact .inr rfl

section Relexing

variable {ts : List Token} (hw : ∀ t ∈ ts, t.WellFormed)
  (hk : ∀ t ∈ ts, t.kind ∉ [.statementOpen, .statementClose, .text])

include hw hk

theorem exists_relexed_append {run : List Token} (hrun : ∀ t ∈ run, t.WellFormed)
    (hj : ∀ t ∈ run, t.kind.joins = true) {rest : Text} (hrest : ∀ d ∈ rest.head?, d ∈ stops) :
    ∃ us, tokenize (spelling (run ++ ts) ++ rest) = us ++ tokenize rest ∧
      Relexed (run ++ ts) us := by
  induction ts generalizing run with
  | nil =>
    obtain ⟨run', hrun', hrelexed⟩ := exists_relexed_run hrun hj hrest
    refine ⟨run', ?_, ?_⟩
    · rw [List.append_nil, hrun']
    · simpa using hrelexed [] [] .nil
  | cons t ts ih =>
    rw [List.forall_mem_cons] at hw hk
    cases ht : t.kind.joins with
    | true =>
      rw [List.append_cons]
      refine ih hw.2 hk.2 ?_ ?_
      · simpa [or_imp, forall_and, hw.1] using hrun
      · simpa [or_imp, forall_and, ht] using hj
    | false =>
      have hkind : t.kind ∉ [.statementOpen, .text] := by
        have := hk.1
        simp_all
      have htext : t.kind ≠ .text := fun h => hkind (by simp [h])
      obtain ⟨us, hus, hrelexed⟩ := ih hw.2 hk.2 (List.forall_mem_nil _) (List.forall_mem_nil _)
      rw [List.nil_append] at hus hrelexed
      obtain ⟨run', hrun', hmore⟩ :=
        exists_relexed_run hrun hj (head?_mem_stops hw.1 htext ht (spelling ts ++ rest))
      refine ⟨run' ++ t :: us, ?_, hmore _ _ (.apart ht hrelexed)⟩
      rw [spelling_append, spelling_cons, List.append_assoc, List.append_assoc, hrun',
        tokenize_append_of_apart hw.1 ht hkind, hus]
      simp

/-- Tokens spelled out before a stop are found again but for those that join. -/
theorem exists_relexed {rest : Text} (hrest : ∀ d ∈ rest.head?, d ∈ stops) :
    ∃ us, tokenize (spelling ts ++ rest) = us ++ tokenize rest ∧ Relexed ts us :=
  exists_relexed_append hw hk (List.forall_mem_nil _) (List.forall_mem_nil _) hrest

theorem tokenize_opening {left : Bool} {rest : Text} (hne : ts ≠ [] ∨ rest.head? ≠ some '-') :
    tokenize ((opening left).text ++ (spelling ts ++ rest)) =
      opening left :: tokenize (spelling ts ++ rest) := by
  have hdash : (spelling ts ++ rest).head? ≠ some '-' := by
    rw [List.head?_append]
    have hhead := head?_spelling_ne_dash hw hk
    cases hs : (spelling ts).head? with
    | some c =>
      rw [hs] at hhead
      exact hhead
    | none =>
      refine hne.resolve_left fun hts => spelling_ne_nil hw hts ?_
      exact List.head?_eq_none_iff.1 hs
  refine tokenize_of_first (first_of_endsAt nofun (wellFormed_opening left) fun m hm hreach => ?_)
  cases left with
  | false =>
    obtain rfl := matches_char_iff.1 hreach
    obtain ⟨x, hx⟩ := hm
    rw [← hx] at hdash
    exact hdash rfl
  | true => exact not_matches_nothing hreach

end Relexing

theorem tokenize_closing (right : Bool) : tokenize (closing right).text = [closing right] := by
  cases right <;> decide +kernel

/-- The delimiters of an action that is put together from tokens are found, and between them the
tokens but for those that join. -/
theorem exists_relexed_action {ts : List Token} (hw : ∀ t ∈ ts, t.WellFormed)
    (hk : ∀ t ∈ ts, t.kind ∉ [.statementOpen, .statementClose, .text]) (hne : ts ≠ [])
    (left right : Bool) :
    ∃ us, tokenize ((opening left).text ++ (spelling ts ++ (closing right).text)) =
      opening left :: (us ++ [closing right]) ∧ Relexed ts us := by
  have hstop : ∀ d ∈ (closing right).text.head?, d ∈ stops := by
    cases right <;> rintro _ ⟨⟩ <;> decide
  obtain ⟨us, hus, hrelexed⟩ := exists_relexed hw hk hstop
  refine ⟨us, ?_, hrelexed⟩
  rw [tokenize_opening hw hk (.inl hne), hus, tokenize_closing]

theorem not_spellsAction_delimiters {limit : Nat} (left right : Bool) (a : Action) :
    ¬ SpellsAction limit (tokenize ((opening left).text ++ (closing right).text)) a := by
  rintro ⟨o, c, us, p, -, -, hp, hts, -⟩
  have hlength : (tokenize ((opening left).text ++ (closing right).text)).length = 2 := by
    cases left <;> cases right <;> decide +kernel
  have hpos := List.length_pos_iff.2 hp.ne_nil_of_pipeline
  rw [hts, List.length_cons, List.length_append, List.length_singleton] at hlength
  omega

end Token
end Stencil
