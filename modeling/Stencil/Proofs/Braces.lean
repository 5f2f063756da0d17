import Stencil.Proofs.Respelling

namespace Stencil

namespace Literal

open Text

variable {q : Char}

theorem escape_brace (hq : q = '"' ∨ q = '\'') : escape q '}' = ['}'] := by
  obtain rfl | rfl := hq <;> decide

theorem Escaped.eq_brace {c : Char} {w : Text} (h : Escaped q c ('}' :: w)) : c = '}' := by
  cases h with
  | plain _ _ => rfl

theorem Escaped.skips {c : Char} {w : Text} (h : Escaped q c w) {y : Option Char}
    (hy : c = '}' → y ≠ some '}') : Skips '}' y w := by
  have hnumber : ∀ w : Text, (∀ d ∈ w, d.isAlphanum = true) → Skips '}' y w := by
    intro w hw
    refine .of_notMem (fun hmem => absurd (hw _ hmem) (by decide)) fun hmem => ?_
    exact absurd (hw _ hmem) (by decide)
  cases h with
  | letter _ => exact .escaped .nil
  | quote => exact .escaped .nil
  | ascii h =>
    refine .escaped (hnumber _ fun d hd => ?_)
    exact isAlphanum_paddedHex _ (by omega) d (List.mem_append_left _ hd)
  | control h =>
    exact .escaped (hnumber _ fun d hd => isAlphanum_paddedHex _ h d (List.mem_append_right _ hd))
  | plain _ hc =>
    refine .plain (fun hb => hc ?_) (fun hd => ?_) .nil
    · rw [hb]
      decide
    · cases y with
      | none => simp
      | some d => exact hy hd

theorem head?_flatMap_escape {v s : Text} (h : (v.flatMap (escape q) ++ s).head? = some '}') :
    (v = [] ∧ s.head? = some '}') ∨ v.head? = some '}' := by
  cases v with
  | nil => exact .inl ⟨rfl, h⟩
  | cons c v =>
    have he := escaped_escape q c
    rw [List.flatMap_cons] at h
    obtain ⟨d, w, hw⟩ := List.exists_cons_of_ne_nil he.ne_nil
    rw [hw] at he h
    obtain rfl := Option.some.inj h
    exact .inr (congrArg some he.eq_brace)

theorem infix_of_head? {c : Char} {v : Text} (hc : c = '}') (h : v.head? = some '}') :
    ['}', '}'] <:+: c :: v := by
  obtain ⟨d, v⟩ | _ := v
  · cases h
  · cases h
    exact ⟨[], _, by rw [hc]; rfl⟩

theorem skips_flatMap_escape {v : Text} (h : ¬ ['}', '}'] <:+: v) {y : Option Char}
    (hy : y ≠ some '}') : Skips '}' y (v.flatMap (escape q)) := by
  induction v with
  | nil => exact .nil
  | cons c v ih =>
    have hv : ¬ ['}', '}'] <:+: v := fun hv => h (hv.trans (List.suffix_cons c v).isInfix)
    rw [List.flatMap_cons]
    refine ((escaped_escape q c).skips fun hc hhead => ?_).append (ih hv)
    obtain ⟨-, hhead⟩ | hhead := head?_flatMap_escape hhead
    · cases y with
      | none => cases hhead
      | some d => exact hy hhead
    · exact h (infix_of_head? hc hhead)

theorem exists_split_of_infix (hq : q = '"' ∨ q = '\'') {v : Text} (h : ['}', '}'] <:+: v) :
    ∃ w x, splitUnescaped '}' (v.flatMap (escape q)) = some (w, x) := by
  induction v with
  | nil => simp at h
  | cons c v ih =>
    rw [List.flatMap_cons]
    by_cases hpair : c = '}' ∧ v.head? = some '}'
    · obtain ⟨rfl, hhead⟩ := hpair
      cases v with
      | nil => cases hhead
      | cons d v =>
        cases hhead
        rw [List.flatMap_cons, escape_brace hq]
        exact ⟨[], v.flatMap (escape q), rfl⟩
    · have hv : ['}', '}'] <:+: v := by
        obtain hprefix | hv := List.infix_cons_iff.1 h
        · obtain ⟨rfl, htail⟩ := List.cons_prefix_cons.1 hprefix
          obtain ⟨t, rfl⟩ := htail
          exact (hpair ⟨rfl, rfl⟩).elim
        · exact hv
      obtain ⟨w, x, hsplit⟩ := ih hv
      have hskips : Skips '}' (v.flatMap (escape q)).head? (escape q c) := by
        refine (escaped_escape q c).skips fun hc hhead => hpair ⟨hc, ?_⟩
        rw [← List.append_nil (v.flatMap (escape q))] at hhead
        obtain ⟨-, hhead⟩ | hhead := head?_flatMap_escape hhead
        · cases hhead
        · exact hhead
      rw [splitUnescaped_append hskips, hsplit]
      exact ⟨_, _, rfl⟩

end Literal

namespace Token

open Pattern Literal

/-- In canonical spelling too, a search for closing braces goes past each token, but for strings
whose value has some. -/
theorem skips_canonical {t : Token} (hw : t.WellFormed) (hv : t.HasValue)
    (ht : ∀ z, Skips '}' z t.text)
    (hclean : ∀ v, t.toVariable? = some (.ok (.string v)) → ¬ ['}', '}'] <:+: v) (z : Option Char) :
    Skips '}' z t.canonical := by
  by_cases hk : t.kind ∈ [.string, .rune, .float, .int]
  · obtain ⟨v, hvalue, hliteral⟩ := exists_literal hv hk
    have hquoted : ∀ (q : Char) (s : Text), q = '"' ∨ q = '\'' → ¬ ['}', '}'] <:+: s →
        Skips '}' z (spell q s) := by
      intro q s hq hs
      have hplain : q ≠ '\\' ∧ q ≠ '}' := by obtain rfl | rfl := hq <;> decide
      have hlast : Skips '}' z [q] := .plain hplain.1 (fun h => (hplain.2 h).elim) .nil
      have hbody : Skips '}' (some q) (s.flatMap (escape q)) :=
        skips_flatMap_escape hs fun h => hplain.2 (Option.some.inj h)
      have hinner : Skips '}' ([q] ++ z.toList).head? (s.flatMap (escape q)) := hbody
      exact .plain hplain.1 (fun h => (hplain.2 h).elim) (hinner.append hlast)
    have hplain : t.kind = .float ∨ t.kind = .int → Skips '}' z t.canonical := by
      intro hk
      have hmatches : (pattern t.kind).Matches t.canonical := (wellFormed_respelled hw hv).matches'
      refine .of_notMem (hmatches.notMem ?_) (hmatches.notMem ?_)
      all_goals obtain hk | hk := hk <;> rw [hk] <;> decide
    rw [← canonical_of_toVariable? hvalue] at hplain ⊢
    cases hliteral with
    | string value => exact hquoted '"' value (.inl rfl) (hclean value hvalue)
    | rune value =>
      refine hquoted '\'' [value] (.inr rfl) fun h => ?_
      have := h.length_le
      simp at this
    | float _ _ => exact hplain (.inl rfl)
    | int _ => exact hplain (.inr rfl)
  · rw [canonical_of_kind hk]
    exact ht z

theorem take_text (c : Char) (s : Text) : (rule .text).take (c :: s) = some (⟨.text, [c]⟩, s) := by
  refine Lexer.Rule.take_append_of_longest (m := [c]) rfl (by simp) (.one rfl) fun y _ hy => ?_
  obtain ⟨d, hd, -⟩ := matches_one_iff.1 hy
  simpa using (List.cons.inj hd).2

/-- Where braces end an action inside a string, its quote is not the beginning of a token. -/
theorem first_quote {v w x : Text}
    (h : splitUnescaped '}' (v.flatMap (escape '"')) = some (w, x)) :
    Lexer.first rules ('"' :: (w ++ ['}', '}'])) = some (⟨.text, ['"']⟩, w ++ ['}', '}']) := by
  obtain ⟨hbody, -⟩ := body_flatMap_escape (q := '"') (.inl rfl) v
  rw [← append_of_splitUnescaped h] at hbody
  refine first_of_take (take_text _ _) fun j hj hhead => ?_
  have hkinds : ∀ k ∈ earlier .text, heads '"' k = true → k = .string := by decide
  obtain rfl := hkinds j hj hhead
  refine Lexer.Rule.take_eq_none_iff.2 (.inr fun m hm hmatches => ?_)
  obtain ⟨b, rfl, hb, -⟩ := matches_string_iff.1 hmatches
  obtain ⟨y, hy⟩ := (List.cons_prefix_cons.1 hm).2
  have heq : (w ++ '}' :: '}' :: x) ++ '"' :: [] = b ++ '"' :: (y ++ x ++ ['"']) := by
    have hwhole := congrArg (· ++ x ++ ['"']) hy
    simpa using hwhole.symm
  obtain ⟨-, hnil⟩ := hbody.unique (by decide) hb heq
  simp at hnil

end Token

end Stencil
