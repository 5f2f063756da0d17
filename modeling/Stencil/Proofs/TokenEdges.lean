import Stencil.Proofs.Carving
import Stencil.Proofs.TokenReach

namespace Stencil.Token

open Pattern

theorem spelling_cons (t : Token) (ts : List Token) :
    spelling (t :: ts) = t.text ++ spelling ts := rfl

theorem spelling_append (ts us : List Token) : spelling (ts ++ us) = spelling ts ++ spelling us :=
  List.flatMap_append

theorem heads_of_wellFormed {t : Token} {c : Char} {s : Text} (hw : t.WellFormed)
    (h : t.text = c :: s) : heads c t.kind = true := by
  have hs := hw.matches'
  rw [h] at hs
  exact (begins_pattern c t.kind).symm.trans hs.begins

theorem not_mentions_edges {k : TokenKind}
    (hk : k ∉ [.literal, .string, .rune, .comment, .statementOpen, .statementClose, .text]) :
    ∀ c ∈ ['-', '}', '\\'], (pattern k).mentions c = false := by
  cases k <;> first | exact forall_mem_of_all (by decide) | simp at hk

theorem getLast?_ne {t : Token} {c : Char} (hw : t.WellFormed)
    (hk : t.kind ∉ [.statementOpen, .statementClose, .text]) (hc : c ∈ ['-', '}', '\\']) :
    t.text.getLast? ≠ some c := by
  obtain ⟨kind, s⟩ := t
  have hs := hw.matches'
  simp only at hs hk ⊢
  have hends : ∀ (m : Text) (d : Char), d ∉ ['-', '}', '\\'] → (m ++ [d]).getLast? ≠ some c := by
    intro m d hd
    rw [List.getLast?_concat]
    rintro ⟨⟩
    exact hd hc
  by_cases hplain :
      kind ∉ [.literal, .string, .rune, .comment, .statementOpen, .statementClose, .text]
  · exact fun h => hs.notMem (not_mentions_edges hplain c hc) (List.mem_of_getLast? h)
  · cases kind with
    | literal =>
      obtain ⟨m, rfl, -⟩ := matches_raw_iff.1 hs
      exact hends ('`' :: m) '`' (by decide)
    | string =>
      obtain ⟨m, rfl, -⟩ := matches_string_iff.1 hs
      exact hends ('"' :: m) '"' (by decide)
    | rune =>
      obtain ⟨m, rfl, -⟩ := matches_rune_iff.1 hs
      exact hends ('\'' :: m) '\'' (by decide)
    | comment =>
      obtain ⟨m, rfl⟩ := matches_comment_iff.1 hs
      have := hends ('/' :: '*' :: (m ++ ['*'])) '/' (by decide)
      simpa using this
    | _ => simp at hplain hk

theorem spelling_ne_nil {ts : List Token} (hw : ∀ t ∈ ts, t.WellFormed) (hne : ts ≠ []) :
    spelling ts ≠ [] := by
  obtain ⟨t, ts, rfl⟩ := List.exists_cons_of_ne_nil hne
  intro h
  rw [spelling, List.flatMap_cons] at h
  exact text_ne_nil (hw t List.mem_cons_self) (List.append_eq_nil_iff.1 h).1

section Inner

variable {ts : List Token} (hw : ∀ t ∈ ts, t.WellFormed)
  (hk : ∀ t ∈ ts, t.kind ∉ [.statementOpen, .statementClose, .text])

include hw hk

theorem head?_spelling_ne_dash : (spelling ts).head? ≠ some '-' := by
  cases ts with
  | nil => simp [spelling]
  | cons t ts =>
    have ht := hw t List.mem_cons_self
    have hkt := hk t List.mem_cons_self
    obtain ⟨c, s, hs⟩ := List.exists_cons_of_ne_nil (text_ne_nil ht)
    have hheads := heads_of_wellFormed ht hs
    rw [spelling, List.flatMap_cons, hs]
    rintro ⟨⟩
    revert hheads
    cases hkind : t.kind <;> first | decide | simp [hkind] at hkt

theorem getLast?_spelling_ne {c : Char} (hc : c ∈ ['-', '}', '\\']) :
    (spelling ts).getLast? ≠ some c := by
  induction ts with
  | nil => simp [spelling]
  | cons t ts ih =>
    rw [List.forall_mem_cons] at hw hk
    rw [spelling, List.flatMap_cons, List.getLast?_append]
    have ih := ih hw.2 hk.2
    rw [spelling] at ih
    cases hrest : (ts.flatMap (·.text)).getLast? with
    | none => exact getLast?_ne hw.1 hk.1 hc
    | some d =>
      rw [hrest] at ih
      exact ih

/-- The tokens of a text in which a search for closing braces finds none can follow anything and be
followed by anything. -/
theorem skips_of_spelling {y : Option Char} (h : Skips '}' y (spelling ts)) :
    ∀ t ∈ ts, ∀ z, Skips '}' z t.text := by
  induction ts with
  | nil => simp
  | cons t ts ih =>
    rw [List.forall_mem_cons] at hw hk ⊢
    rw [spelling, List.flatMap_cons] at h
    obtain ⟨ht, hts⟩ := h.of_append (getLast?_ne hw.1 hk.1 (by decide))
    exact ⟨fun z => ht.of_getLast? (getLast?_ne hw.1 hk.1 (by decide)), ih hw.2 hk.2 hts⟩

end Inner

theorem skips_spelling {ts : List Token} (h : ∀ t ∈ ts, ∀ z, Skips '}' z t.text)
    (y : Option Char) : Skips '}' y (spelling ts) := by
  induction ts with
  | nil => exact .nil
  | cons t ts ih =>
    rw [List.forall_mem_cons] at h
    exact (h.1 _).append (ih h.2)

end Stencil.Token
