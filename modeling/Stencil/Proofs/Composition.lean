import Stencil.Proofs.Refusal

namespace Stencil

variable {limit : Nat}

theorem SpellsActions.assemble_append {gs : List Segment} {as : List Action}
    (h : SpellsActions limit gs as) (hs : List Segment) (bs : List Action) (tail : Text) :
    assemble (gs ++ hs) (as ++ bs) tail = assemble gs as [] ++ assemble hs bs tail := by
  induction h with
  | nil => rfl
  | @cons g a gs as _ _ ih =>
    rw [List.cons_append, List.cons_append, assemble_cons, assemble_cons, ih, List.append_assoc,
      List.cons_append]

theorem tail_eq_nil_of_assemble {gs : List Segment} {as : List Action} {tail : Text}
    (h : assemble gs as tail = [] ∨ ∃ t a, assemble gs as tail = t ++ [.action a]) :
    tail = [] := by
  by_cases hnil : tail = []
  · exact hnil
  · have hbranch : Parse.textBranch tail = [.text tail] := by
      rw [Parse.textBranch, if_neg (by simpa using hnil)]
    rw [assemble, hbranch] at h
    obtain h | ⟨t, a, h⟩ := h
    · cases (List.append_eq_nil_iff.1 h).2
    · cases List.singleton_inj.1 (List.append_inj' h rfl).2

/-- A template that is empty or ends with an action does not change what follows it: the trees are
one after the other, and an error is the same at a place that lies behind it. -/
theorem parse_append {file s₁ s₂ : Text} {options : Options} {t₁ : Tree}
    (h₁ : parse file s₁ options = .ok t₁) (hlast : t₁ = [] ∨ ∃ t a, t₁ = t ++ [.action a]) :
    (∀ t₂, parse file s₂ options = .ok t₂ → parse file (s₁ ++ s₂) options = .ok (t₁ ++ t₂)) ∧
      ∀ e, parse file s₂ options = .error e →
        parse file (s₁ ++ s₂) options = .error { e with position := e.position.behind s₁ } := by
  obtain ⟨-, as, has, rfl⟩ := parse_eq_ok.1 h₁
  have htail := tail_eq_nil_of_assemble hlast
  have hs₁ : Segment.joined (segments s₁).1 = s₁ := by
    have hjoined := Segment.joined_segments s₁
    rwa [htail, List.append_nil] at hjoined
  have hsegments : segments (s₁ ++ s₂) = (segments s₂).map ((segments s₁).1 ++ ·) id := by
    have hcarved : ∀ g ∈ (segments s₁).1, g.Carved := carved_of_segments
    have happend := segments_append hcarved s₂
    rwa [hs₁] at happend
  constructor
  · intro t₂ h₂
    obtain ⟨hclosed, bs, hbs, rfl⟩ := parse_eq_ok.1 h₂
    refine parse_eq_ok.2 ⟨?_, as ++ bs, ?_, ?_⟩
    · rw [hsegments]
      exact hclosed
    · rw [hsegments]
      exact has.append hbs
    · rw [hsegments, htail]
      exact (has.assemble_append _ bs _).symm
  · intro e h₂
    rw [parse_eq_error, hsegments]
    obtain ⟨before, g, us, f, hbreak, rfl⟩ | ⟨⟨bs, hbs⟩, before, hunclosed, rfl⟩ :=
      parse_eq_error.1 h₂
    · left
      refine ⟨(segments s₁).1 ++ before, g, us, f, hbreak.append ⟨as, has⟩, ?_⟩
      simp only [Segment.joined_append, hs₁, List.append_assoc, Text.place_append s₁]
    · right
      refine ⟨⟨as ++ bs, has.append hbs⟩, before, hunclosed, ?_⟩
      simp only [Prod.map_fst, Segment.joined_append, hs₁, List.append_assoc, Text.place_append s₁]

theorem parse_append_second_line : ∃ t₁ t₂ e,
    parse [] "a \x7b\x7b x \x7d\x7d\n\x7b\x7b y \x7d\x7d".toList = .ok t₁ ∧
      parse [] "\\ \x7b\x7b z \x7d\x7d".toList = .ok t₂ ∧
      parse [] ("a \x7b\x7b x \x7d\x7d\n\x7b\x7b y \x7d\x7d".toList ++
        "\\ \x7b\x7b z \x7d\x7d".toList) = .ok (t₁ ++ t₂) ∧
      parse [] "é \x7b\x7b ) \x7d\x7d".toList = .error e ∧ e.position = ⟨1, 6⟩ ∧
      parse [] ("a \x7b\x7b x \x7d\x7d\n\x7b\x7b y \x7d\x7d".toList ++
        "é \x7b\x7b ) \x7d\x7d".toList) = .error { e with position := ⟨2, 13⟩ } := by
  have hlast : (match parse [] "a \x7b\x7b x \x7d\x7d\n\x7b\x7b y \x7d\x7d".toList with
      | .ok t => t.getLast?.any (·.action?.isSome)
      | .error _ => false) = true := by decide +kernel
  have hplace : (match parse [] "é \x7b\x7b ) \x7d\x7d".toList with
      | .ok _ => none
      | .error e => some e.position) = some ⟨1, 6⟩ := by decide +kernel
  obtain ⟨t₂, h₂⟩ : ∃ t, parse [] "\\ \x7b\x7b z \x7d\x7d".toList = .ok t :=
    Except.exists_of_isOk (by decide +kernel)
  cases h₁ : parse [] "a \x7b\x7b x \x7d\x7d\n\x7b\x7b y \x7d\x7d".toList with
  | error e =>
    rw [h₁] at hlast
    cases hlast
  | ok t₁ =>
    have haction : t₁ = [] ∨ ∃ t a, t₁ = t ++ [.action a] := by
      rw [h₁] at hlast
      cases hb : t₁.getLast? with
      | none => exact .inl (List.getLast?_eq_none_iff.1 hb)
      | some b =>
        obtain ⟨t, rfl⟩ := List.getLast?_eq_some_iff.1 hb
        cases b with
        | text s => simp [Branch.action?] at hlast
        | action a => exact .inr ⟨t, a, rfl⟩
    cases he : parse [] "é \x7b\x7b ) \x7d\x7d".toList with
    | ok t =>
      rw [he] at hplace
      cases hplace
    | error e =>
      rw [he] at hplace
      have hposition : e.position = ⟨1, 6⟩ := Option.some.inj hplace
      refine ⟨t₁, t₂, e, rfl, h₂, (parse_append h₁ haction).1 t₂ h₂, rfl, hposition, ?_⟩
      rw [(parse_append h₁ haction).2 e he, hposition]
      rfl

end Stencil
