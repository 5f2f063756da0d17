import Stencil.Proofs.Acceptance
import Stencil.Proofs.ActionTokens
import Stencil.Proofs.Rewriting
import Stencil.Proofs.Sweeping

namespace Stencil

namespace Token

/-- The tokens of an action without comments; if nothing but spaces would stand between its
delimiters, the comments stay. -/
def withoutComments (ts : List Token) : List Token :=
  if ∀ t ∈ ts, t.kind ∈ [.comment, .space, .statementOpen, .statementClose] then ts
  else ts.filter (·.kind != .comment)

theorem not_mentions_openers {k : TokenKind}
    (hk : k ∉ [.literal, .string, .rune, .comment, .text]) :
    ∀ c ∈ Comment.openers, (pattern k).mentions c = false := by
  cases k <;> first | exact forall_mem_of_all (by decide) | simp at hk

/-- A token of an action with all that a scan for comments removes from it: nothing, unless it is
a comment. -/
theorem sweep_append {t : Token} {x : Text} (hw : t.WellFormed) (hk : t.kind ≠ .text) :
    Comment.sweep (t.text ++ x) = (if t.kind = .comment then [] else t.text) ++ Comment.sweep x := by
  obtain ⟨kind, s⟩ := t
  have hs := hw.matches'
  simp only at hs hk ⊢
  by_cases hplain : kind ∉ [.literal, .string, .rune, .comment, .text]
  · have hc : kind ≠ .comment := by
      rintro rfl
      simp at hplain
    rw [if_neg hc, Comment.sweep_append_of_plain]
    exact fun c hcs hco => hs.notMem (not_mentions_openers hplain c hco) hcs
  · cases kind with
    | literal =>
      obtain ⟨m, rfl, hm⟩ := matches_raw_iff.1 hs
      exact Comment.sweep_raw hm
    | string =>
      obtain ⟨m, rfl, hm, -⟩ := matches_string_iff.1 hs
      exact Comment.sweep_quoted (.inl rfl) hm
    | rune =>
      obtain ⟨m, rfl, -, hm, -⟩ := matches_rune_iff.1 hs
      exact Comment.sweep_quoted (.inr rfl) hm
    | comment => exact Comment.sweep_comment hs (hw.closed rfl)
    | text => exact (hk rfl).elim
    | _ => simp at hplain

section Sweep

variable {ts : List Token} (hw : ∀ t ∈ ts, t.WellFormed) (hk : ∀ t ∈ ts, t.kind ≠ .text)

include hw hk

theorem sweep_spelling :
    Comment.sweep (spelling ts) = spelling (ts.filter (·.kind != .comment)) := by
  induction ts with
  | nil => exact Comment.sweep_nil
  | cons t ts ih =>
    rw [List.forall_mem_cons] at hw hk
    have hstep : Comment.sweep (spelling (t :: ts)) =
        (if t.kind = .comment then [] else t.text) ++ Comment.sweep (spelling ts) :=
      sweep_append hw.1 hk.1
    rw [hstep, ih hw.2 hk.2]
    by_cases hc : t.kind = .comment
    · simp [hc, spelling]
    · simp [hc, spelling]

theorem sweepAll_spelling :
    Comment.sweepAll (spelling ts) = spelling (ts.filter (·.kind != .comment)) := by
  have hagain : Comment.sweep (spelling (ts.filter (·.kind != .comment))) =
      spelling (ts.filter (·.kind != .comment)) := by
    rw [sweep_spelling (fun t ht => hw t (List.mem_of_mem_filter ht))
      fun t ht => hk t (List.mem_of_mem_filter ht), List.filter_filter]
    simp
  have hsweep := sweep_spelling hw hk
  rw [Comment.sweepAll_eq_sweep (by rw [hsweep, hagain]), hsweep]

end Sweep

theorem isBlank_of_isSpace {c : Char} (h : isSpace c = true) : Text.isBlank c = true := by
  obtain rfl | rfl | rfl | rfl | rfl := isSpace_iff.1 h <;> decide

theorem not_isBlank_of_heads {c : Char} {k : TokenKind} (h : heads c k = true)
    (hk : k ∉ [.space, .text]) : Text.isBlank c = false := by
  have hletter : isLetter c = true → Text.isBlank c = false := by
    intro hl
    have := isLetter_iff.1 hl
    simp [Text.isBlank]
    omega
  have hdigit : isDigit c = true → Text.isBlank c = false := by
    intro hd
    have := isDigit_iff.1 hd
    simp [Text.isBlank]
    omega
  cases k <;> simp only [heads, Bool.or_eq_true, beq_iff_eq] at h
  case ident => exact h.elim (by rintro rfl; decide) hletter
  case float | int => exact hdigit h
  case space | text => simp at hk
  case keyword | statementClose => obtain rfl | rfl := h <;> decide
  all_goals
    subst h
    decide

theorem all_isBlank_text {t : Token} (hw : t.WellFormed) (hk : t.kind ≠ .text) :
    t.text.all Text.isBlank = true ↔ t.kind = .space := by
  constructor
  · intro h
    obtain ⟨c, s, hs⟩ := List.exists_cons_of_ne_nil (text_ne_nil hw)
    apply Classical.byContradiction
    intro hspace
    have hblank := not_isBlank_of_heads (heads_of_wellFormed hw hs) (by simp [hspace, hk])
    rw [hs, List.all_cons, hblank] at h
    cases h
  · intro h
    have hs := hw.matches'
    rw [h] at hs
    exact List.all_eq_true.2 fun c hc => isBlank_of_isSpace ((matches_space_iff.1 hs).2 c hc)

section Inner

variable {ts : List Token} (hw : ∀ t ∈ ts, t.WellFormed)
  (hk : ∀ t ∈ ts, t.kind ∉ [.statementOpen, .statementClose, .text])

include hw hk

theorem all_isBlank_spelling :
    (spelling ts).all Text.isBlank = true ↔ ∀ t ∈ ts, t.kind = .space := by
  rw [spelling, List.all_flatMap, List.all_eq_true]
  refine forall₂_congr fun t ht => all_isBlank_text (hw t ht) fun h => ?_
  have := hk t ht
  simp [h] at this

end Inner

end Token

namespace Segment.Holds

variable {limit : Nat} {g : Segment} {left right : Bool} {us : List Token} {p : Pipeline}
  (h : g.Holds limit left us right p)

include h

theorem trimmed : Comment.Trimmed.ofInner g.inner = ⟨left, Token.spelling us, right⟩ := by
  have hinner : g.inner = Comment.Trimmed.text ⟨left, Token.spelling us, right⟩ := h.inner_eq
  rw [hinner]
  exact Comment.Trimmed.ofInner_text
    (Token.spelling_ne_nil h.wellFormed h.spells.ne_nil_of_pipeline)
    (Token.head?_spelling_ne_dash h.wellFormed h.inner_kind)
    (Token.getLast?_spelling_ne h.wellFormed h.inner_kind (by decide))

theorem sweepAll : Comment.sweepAll (Token.spelling us) =
    Token.spelling (us.filter (·.kind != .comment)) :=
  Token.sweepAll_spelling h.wellFormed fun t ht hk => h.inner_kind t ht (by simp [hk])

theorem all_isBlank : (Token.spelling (us.filter (·.kind != .comment))).all Text.isBlank = true ↔
    ∀ t ∈ tokenize g.source, t.kind ∈ [.comment, .space, .statementOpen, .statementClose] := by
  rw [Token.all_isBlank_spelling (fun t ht => h.wellFormed t (List.mem_of_mem_filter ht))
    fun t ht => h.inner_kind t (List.mem_of_mem_filter ht), h.tokens]
  constructor
  · intro hspace
    rw [List.forall_mem_cons, List.forall_mem_append, List.forall_mem_singleton]
    refine ⟨by simp [Token.opening], fun t ht => ?_, by simp [Token.closing]⟩
    by_cases hcomment : t.kind = .comment
    · simp [hcomment]
    · simp [hspace t (List.mem_filter.2 ⟨ht, by simp [hcomment]⟩)]
  · intro hall t ht
    obtain ⟨ht, hcomment⟩ := List.mem_filter.1 ht
    have hkind := hall t (by simp [ht])
    have hinner := h.inner_kind t ht
    simp only [List.mem_cons, List.not_mem_nil, or_false, not_or] at hkind hinner
    obtain hk | hk | hk | hk := hkind
    · simp [hk] at hcomment
    · exact hk
    · exact (hinner.1 hk).elim
    · exact (hinner.2.1 hk).elim

theorem source_tidy : { g with inner := Comment.tidy g.inner }.source =
    Token.spelling (Token.withoutComments (tokenize g.source)) := by
  have hsource := spelling_tokenize g.source
  have hblank := h.all_isBlank
  unfold Comment.tidy Token.withoutComments
  simp only [h.trimmed, h.sweepAll]
  by_cases hall : ∀ t ∈ tokenize g.source,
      t.kind ∈ [.comment, .space, .statementOpen, .statementClose]
  · rw [if_pos hall, if_pos (hblank.2 hall), hsource]
  · rw [if_neg hall, if_neg (mt hblank.1 hall), h.tokens]
    simp [Token.spelling, Token.opening, Token.closing, Segment.source, Comment.Trimmed.text]

end Segment.Holds

/-- Removing the comments of an accepted template deletes the comment tokens of its actions, but
for the actions that hold nothing else. -/
theorem removeComments_of_parse {file s : Text} {options : Options} {t : Tree}
    (h : parse file s options = .ok t) :
    removeComments s = rewriteActions (fun ts => Token.spelling (Token.withoutComments ts)) s := by
  obtain ⟨-, as, has, -⟩ := parse_eq_ok.1 h
  simp only [removeComments, rewriteActions]
  congr 1
  refine List.flatMap_congr fun g hg => ?_
  obtain ⟨left, us, right, p, hholds⟩ := has.exists_holds hg
  rw [hholds.source_tidy]

theorem removeComments_of_parse_mixed : ∃ t,
    parse [] "\x7b\x7b- f /* c */ \"/* d */\" \x7d\x7d\x7b\x7b /* e */ \x7d\x7d".toList = .ok t ∧
      removeComments "\x7b\x7b- f /* c */ \"/* d */\" \x7d\x7d\x7b\x7b /* e */ \x7d\x7d".toList =
        "\x7b\x7b- f  \"/* d */\" \x7d\x7d\x7b\x7b /* e */ \x7d\x7d".toList := by
  obtain ⟨t, ht⟩ : ∃ t,
      parse [] "\x7b\x7b- f /* c */ \"/* d */\" \x7d\x7d\x7b\x7b /* e */ \x7d\x7d".toList = .ok t :=
    Except.exists_of_isOk (by decide +kernel)
  refine ⟨t, ht, ?_⟩
  rw [removeComments_of_parse ht]
  decide +kernel

end Stencil
