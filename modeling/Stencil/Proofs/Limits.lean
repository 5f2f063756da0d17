import Stencil.Proofs.Refusal
import Stencil.Proofs.TreeShape

namespace Stencil

namespace Phrase

def symbol : Phrase → Symbol
  | .variable _ => .variable
  | .group _ => .group
  | .pipeline _ => .pipeline

/-- Whether there is room for the phrase if so many pipelines may be inside one another. -/
def Fits (n : Nat) : Phrase → Prop
  | .variable v => v.nesting ≤ n
  | .group g => Group.nesting g ≤ n
  | .pipeline p => p.nesting < n

instance (n : Nat) (x : Phrase) : Decidable (x.Fits n) :=
  match x with
  | .variable v => inferInstanceAs (Decidable (v.nesting ≤ n))
  | .group g => inferInstanceAs (Decidable (Group.nesting g ≤ n))
  | .pipeline p => inferInstanceAs (Decidable (p.nesting < n))

variable {n : Nat} {v : Variable} {g : Group} {p : Pipeline}

theorem fits_grouping_iff {o c : Text} :
    Fits n (.variable (.grouping o p c)) ↔ Fits n (.pipeline p) := Iff.rfl

theorem fits_cons_iff :
    Fits n (.group (v :: g)) ↔ Fits n (.variable v) ∧ Fits n (.group g) := by
  simp only [Fits, Group.nesting, Nat.max_le]

theorem fits_stage_iff : Fits (n + 1) (.pipeline (.stage g)) ↔ Fits n (.group g) :=
  Nat.lt_succ_iff

theorem fits_piped_iff : Fits (n + 1) (.pipeline (.piped g p)) ↔
    Fits n (.group g) ∧ Fits n (.pipeline p) := by
  simp only [Fits, Pipeline.nesting, Nat.lt_succ_iff, Nat.max_le, Nat.succ_le_iff]

theorem not_fits_zero : ¬ Fits 0 (.pipeline p) := Nat.not_lt_zero _

end Phrase

namespace Spells

variable {limit m n : Nat} {ts : List Token} {x : Phrase}

theorem fits (h : Spells n ts x) : x.Fits n := by
  induction h with
  | @token n t v h =>
    obtain ⟨-, hnesting⟩ := (Token.denotes_iff.2 (.inl h)).groups_eq_nil
    exact hnesting.trans_le n.zero_le
  | space | nil => exact Nat.zero_le _
  | grouping ho hc h ih => exact Phrase.fits_grouping_iff.2 ih
  | cons hv hg hs ihv ihg => exact Phrase.fits_cons_iff.2 ⟨ihv, ihg⟩
  | stage hg hne ih => exact Phrase.fits_stage_iff.2 ih
  | piped hg hne ht hp ihg ihp => exact Phrase.fits_piped_iff.2 ⟨ihg, ihp⟩

theorem of_fits (h : Spells n ts x) (hx : x.Fits m) : Spells m ts x := by
  induction h generalizing m with
  | token h => exact .token h
  | space hne h => exact .space hne h
  | grouping ho hc h ih => exact .grouping ho hc (ih (Phrase.fits_grouping_iff.1 hx))
  | nil => exact .nil
  | cons hv hg hs ihv ihg =>
    obtain ⟨hfv, hfg⟩ := Phrase.fits_cons_iff.1 hx
    exact .cons (ihv hfv) (ihg hfg) hs
  | stage hg hne ih =>
    cases m with
    | zero => exact (Phrase.not_fits_zero hx).elim
    | succ m => exact .stage (ih (Phrase.fits_stage_iff.1 hx)) hne
  | piped hg hne ht hp ihg ihp =>
    cases m with
    | zero => exact (Phrase.not_fits_zero hx).elim
    | succ m =>
      obtain ⟨hfg, hfp⟩ := Phrase.fits_piped_iff.1 hx
      exact .piped (ihg hfg) hne ht (ihp hfp)

theorem breaks_of_not_fits (h : Spells n ts x) (hx : ¬ x.Fits m) :
    ∃ us vs, ts = us ++ vs ∧
      ∀ rest, Breaks limit x.symbol m us ⟨.nestingTooDeep limit, vs ++ rest⟩ := by
  induction h generalizing m with
  | @token n t v h => exact (hx ((Spells.token (n := m) h).fits)).elim
  | @space n ts hne h => exact (hx ((Spells.space (n := m) hne h).fits)).elim
  | @grouping n o c ts p ho hc h ih =>
    obtain ⟨us, vs, rfl, hbreaks⟩ := ih (hx ∘ Phrase.fits_grouping_iff.2)
    refine ⟨o :: us, vs ++ [c], by simp, fun rest => .grouping ho ?_⟩
    rw [List.append_assoc]
    exact hbreaks ([c] ++ rest)
  | nil => exact (hx (Nat.zero_le _)).elim
  | @cons n ts us v g hv hg hs ihv ihg =>
    by_cases hfits : (Phrase.variable v).Fits m
    · obtain ⟨ws, vs, rfl, hbreaks⟩ := ihg fun hfg => hx (Phrase.fits_cons_iff.2 ⟨hfits, hfg⟩)
      refine ⟨ts ++ ws, vs, by simp, fun rest => .group_cons (hv.of_fits hfits) (hbreaks rest) ?_⟩
      intro hspace t ht
      have hhead : ∀ t ∈ (ws ++ vs ++ []).head?, t.kind ≠ .space :=
        hg.head_ne_space (hs hspace) (by simp)
      refine hhead t ?_
      simp [Option.mem_def.1 ht]
    · obtain ⟨ws, vs, rfl, hbreaks⟩ := ihv hfits
      refine ⟨ws, vs ++ us, by simp, fun rest => ?_⟩
      rw [List.append_assoc]
      exact .group .nil (hbreaks (us ++ rest))
  | @stage n ts g hg hne ih =>
    cases m with
    | zero => exact ⟨[], ts, rfl, fun _ => .full⟩
    | succ m =>
      obtain ⟨us, vs, hts, hbreaks⟩ := ih (hx ∘ Phrase.fits_stage_iff.2)
      exact ⟨us, vs, hts, fun rest => .stage (hbreaks rest)⟩
  | @piped n t ts us g p hg hne ht hp ihg ihp =>
    cases m with
    | zero => exact ⟨[], ts ++ t :: us, rfl, fun _ => .full⟩
    | succ m =>
      by_cases hfits : (Phrase.group g).Fits m
      · obtain ⟨ws, vs, rfl, hbreaks⟩ := ihp fun hfp => hx (Phrase.fits_piped_iff.2 ⟨hfits, hfp⟩)
        exact ⟨ts ++ t :: ws, vs, by simp,
          fun rest => .piped (hg.of_fits hfits) hne ht (hbreaks rest)⟩
      · obtain ⟨ws, vs, rfl, hbreaks⟩ := ihg hfits
        refine ⟨ws, vs ++ t :: us, by simp, fun rest => .stage ?_⟩
        rw [List.append_assoc]
        exact hbreaks (t :: us ++ rest)

/-- With less room the tokens spell the same, or break off at the level that is one too many. -/
theorem cut (limit m : Nat) (h : Spells n ts x) : Spells m ts x ∨ ∃ us vs, ts = us ++ vs ∧
    ∀ rest, Breaks limit x.symbol m us ⟨.nestingTooDeep limit, vs ++ rest⟩ := by
  by_cases hx : x.Fits m
  · exact .inl (h.of_fits hx)
  · exact .inr (h.breaks_of_not_fits hx)

end Spells

theorem Breaks.cut (limit : Nat) {limit' m n : Nat} {s : Symbol} {us : List Token} {f : Failure}
    (h : Breaks limit' s n us f) (hle : m ≤ n) :
    Breaks limit s m us f ∨ ∃ ws vs, us = ws ++ vs ∧
      Breaks limit s m ws ⟨.nestingTooDeep limit, vs ++ f.rest⟩ := by
  induction h generalizing m with
  | literal h => exact .inl (.literal h)
  | @grouping n o us f ho h ih =>
    obtain hsame | ⟨ws, vs, rfl, hbreaks⟩ := ih hle
    · exact .inl (.grouping ho hsame)
    · exact .inr ⟨o :: ws, vs, rfl, .grouping ho hbreaks⟩
  | @unclosed n o us rest p ho hp hrest hc =>
    obtain hsame | ⟨ws, vs, rfl, hbreaks⟩ := hp.cut limit m
    · exact .inl (.unclosed ho hsame hrest hc)
    · exact .inr ⟨o :: ws, vs, rfl, .grouping ho (hbreaks _)⟩
  | @group n us vs g f hg h ih =>
    obtain hgroup | ⟨ws, xs, rfl, hbreaks⟩ := hg.cut limit m
    · obtain hsame | ⟨ws, xs, rfl, hbreaks⟩ := ih hle
      · exact .inl (.group hgroup hsame)
      · exact .inr ⟨us ++ ws, xs, by simp, .group hgroup hbreaks⟩
    · refine .inr ⟨ws, xs ++ vs, by simp, ?_⟩
      rw [List.append_assoc]
      exact hbreaks _
  | full =>
    obtain rfl := Nat.le_zero.1 hle
    exact .inr ⟨[], [], rfl, .full⟩
  | @empty n rest h =>
    cases m with
    | zero => exact .inr ⟨[], [], rfl, .full⟩
    | succ m => exact .inl (.empty h)
  | @stage n us f h ih =>
    cases m with
    | zero => exact .inr ⟨[], us, rfl, .full⟩
    | succ m =>
      obtain hsame | ⟨ws, vs, heq, hbreaks⟩ := ih (Nat.le_of_succ_le_succ hle)
      · exact .inl (.stage hsame)
      · exact .inr ⟨ws, vs, heq, .stage hbreaks⟩
  | @piped n t us vs g f hg hne ht h ih =>
    cases m with
    | zero => exact .inr ⟨[], us ++ t :: vs, rfl, .full⟩
    | succ m =>
      obtain hgroup | ⟨ws, xs, rfl, hbreaks⟩ := hg.cut limit m
      · obtain hsame | ⟨ws, xs, rfl, hbreaks⟩ := ih (Nat.le_of_succ_le_succ hle)
        · exact .inl (.piped hgroup hne ht hsame)
        · exact .inr ⟨us ++ t :: ws, xs, by simp, .piped hgroup hne ht hbreaks⟩
      · refine .inr ⟨ws, xs ++ t :: vs, by simp, .stage ?_⟩
        rw [List.append_assoc]
        exact hbreaks _
  | unopened ho => exact .inl (.unopened ho)
  | @action n o us f ho h ih =>
    obtain hsame | ⟨ws, vs, rfl, hbreaks⟩ := ih hle
    · exact .inl (.action ho hsame)
    · exact .inr ⟨o :: ws, vs, rfl, .action ho hbreaks⟩
  | @unended n o us rest p ho hp hrest hc =>
    obtain hsame | ⟨ws, vs, rfl, hbreaks⟩ := hp.cut limit m
    · exact .inl (.unended ho hsame hrest hc)
    · exact .inr ⟨o :: ws, vs, rfl, .action ho (hbreaks _)⟩
  | @trailing n o c t us rest p ho hp hc =>
    obtain hsame | ⟨ws, vs, rfl, hbreaks⟩ := hp.cut limit m
    · exact .inl (.trailing ho hsame hc)
    · refine .inr ⟨o :: ws, vs ++ [c], by simp, .action ho ?_⟩
      rw [List.append_assoc]
      exact hbreaks _

theorem Action.nesting_singleton (o c : Text) (p : Pipeline) :
    Action.nesting ⟨o, [p], c⟩ = p.nesting := Nat.max_zero _

namespace SpellsAction

variable {m n : Nat} {ts : List Token} {a : Action}

theorem of_nesting (h : SpellsAction n ts a) (ha : a.nesting ≤ m) : SpellsAction m ts a := by
  obtain ⟨o, c, us, p, ho, hc, hp, rfl, rfl⟩ := h
  rw [Action.nesting_singleton] at ha
  exact ⟨o, c, us, p, ho, hc, hp.of_fits (Nat.lt_succ_of_le ha), rfl, rfl⟩

theorem breaks_of_nesting (h : SpellsAction n ts a) (ha : m < a.nesting) :
    ∃ us vs, ts = us ++ vs ∧ Breaks m .action (m + 1) us ⟨.nestingTooDeep m, vs⟩ := by
  obtain ⟨o, c, us, p, ho, hc, hp, rfl, rfl⟩ := h
  rw [Action.nesting_singleton] at ha
  obtain ⟨ws, vs, rfl, hbreaks⟩ := hp.breaks_of_not_fits (m := m + 1) (Nat.not_lt.2 ha)
  exact ⟨o :: ws, vs ++ [c], by simp, .action ho (hbreaks [c])⟩

end SpellsAction

namespace SpellsActions

variable {m n : Nat} {gs : List Segment} {as : List Action}

theorem of_nesting (h : SpellsActions n gs as) (has : ∀ a ∈ as, a.nesting ≤ m) :
    SpellsActions m gs as := by
  induction h with
  | nil => exact .nil
  | cons ha _ ih =>
    obtain ⟨hone, hrest⟩ := List.forall_mem_cons.1 has
    exact .cons (ha.of_nesting hone) (ih hrest)

theorem firstBreak_of_nesting (h : SpellsActions n gs as) (has : ∃ a ∈ as, m < a.nesting) :
    ∃ before g us rest, FirstBreak m gs before g us ⟨.nestingTooDeep m, rest⟩ := by
  induction h with
  | nil =>
    obtain ⟨a, ha, -⟩ := has
    cases ha
  | @cons g a gs as ha hrest ih =>
    by_cases hone : a.nesting ≤ m
    · obtain ⟨b, hb, hdeep⟩ := has
      obtain rfl | hmem := List.mem_cons.1 hb
      · exact (Nat.not_lt.2 hone hdeep).elim
      · obtain ⟨before, g', us, rest, hfirst⟩ := ih ⟨b, hmem, hdeep⟩
        have hg : ∃ as, SpellsActions m [g] as := ⟨[a], .cons (ha.of_nesting hone) .nil⟩
        exact ⟨g :: before, g', us, rest, hfirst.append hg⟩
    · obtain ⟨us, rest, hts, hbreaks⟩ := ha.breaks_of_nesting (Nat.not_le.1 hone)
      exact ⟨[], g, us, rest, ⟨⟨gs, rfl⟩, ⟨[], .nil⟩, hts, hbreaks⟩⟩

end SpellsActions

/-- With a smaller limit the first action that breaks off does so in the same way, or an action
nests too deep before that place. -/
theorem FirstBreak.cut {m n : Nat} {gs before : List Segment} {g : Segment} {us : List Token}
    {f : Failure} (h : FirstBreak n gs before g us f) (hle : m ≤ n) :
    FirstBreak m gs before g us f ∨
      ∃ before' g' us' rest, FirstBreak m gs before' g' us' ⟨.nestingTooDeep m, rest⟩ ∧
        Segment.joined before' ++ g'.before ++ Token.spelling us' <+:
          Segment.joined before ++ g.before ++ Token.spelling us := by
  obtain ⟨⟨later, rfl⟩, ⟨as, has⟩, htokens, hbreaks⟩ := h
  by_cases hfits : ∀ a ∈ as, a.nesting ≤ m
  · have hearlier : ∃ as, SpellsActions m before as := ⟨as, has.of_nesting hfits⟩
    obtain hsame | ⟨ws, vs, rfl, hcut⟩ := hbreaks.cut m (Nat.succ_le_succ hle)
    · exact .inl ⟨⟨later, rfl⟩, hearlier, htokens, hsame⟩
    · refine .inr ⟨before, g, ws, vs ++ f.rest, ⟨⟨later, rfl⟩, hearlier, ?_, hcut⟩, ?_⟩
      · rw [htokens, List.append_assoc]
      · rw [Token.spelling_append, ← List.append_assoc]
        exact List.prefix_append ..
  · push Not at hfits
    obtain ⟨before', g', us', rest, hfirst⟩ := has.firstBreak_of_nesting hfits
    refine .inr ⟨before', g', us', rest, hfirst.append_later, hfirst.isPrefix.trans ?_⟩
    rw [List.append_assoc]
    exact List.prefix_append ..

theorem Tree.nesting_le_iff {n : Nat} {t : Tree} :
    t.nesting ≤ n ↔ ∀ a ∈ t.actions, a.nesting ≤ n := by
  induction t with
  | nil => simp [nesting, actions]
  | cons b t ih =>
    have hcons : Tree.nesting (b :: t) ≤ n ↔ b.nesting ≤ n ∧ Tree.nesting t ≤ n :=
      Nat.max_le
    rw [hcons, ih]
    cases b <;> simp [actions, Branch.nesting, Branch.action?]

/-- A smaller limit only cuts off. A tree that nests no deeper is the same, any other is refused as
too deep; and what is refused in any case is refused for the same reason or as too deep, then at no
later place. -/
theorem parse_of_limit_le {file s : Text} {d d' : Nat} (hle : d ≤ d') :
    (∀ t, parse file s ⟨d'⟩ = .ok t →
      (t.nesting ≤ d → parse file s ⟨d⟩ = .ok t) ∧
        (d < t.nesting → ∃ e, parse file s ⟨d⟩ = .error e ∧ e.kind = .nestingTooDeep d)) ∧
      ∀ e, parse file s ⟨d'⟩ = .error e → ∃ e', parse file s ⟨d⟩ = .error e' ∧
        (e' = e ∨ (e'.kind = .nestingTooDeep d ∧ e'.position ≤ e.position)) := by
  constructor
  · intro t h
    obtain ⟨hclosed, as, has, rfl⟩ := parse_eq_ok.1 h
    have hnesting := Tree.nesting_le_iff (n := d) (t := assemble (segments s).1 as (segments s).2)
    rw [actions_assemble has] at hnesting
    constructor
    · intro hfits
      exact parse_eq_ok.2 ⟨hclosed, as, has.of_nesting (hnesting.1 hfits), rfl⟩
    · intro hdeep
      have hsome : ∃ a ∈ as, d < a.nesting := by
        by_contra hnone
        push Not at hnone
        exact Nat.not_le.2 hdeep (hnesting.2 hnone)
      obtain ⟨before, g, us, rest, hfirst⟩ := has.firstBreak_of_nesting hsome
      exact ⟨_, parse_eq_error.2 (.inl ⟨before, g, us, _, hfirst, rfl⟩), rfl⟩
  · intro e h
    obtain ⟨before, g, us, f, hfirst, rfl⟩ | ⟨⟨as, has⟩, before, hunclosed, rfl⟩ :=
      parse_eq_error.1 h
    · obtain hsame | ⟨before', g', us', rest, hcut, hprefix⟩ := hfirst.cut hle
      · exact ⟨_, parse_eq_error.2 (.inl ⟨before, g, us, f, hsame, rfl⟩), .inl rfl⟩
      · exact ⟨_, parse_eq_error.2 (.inl ⟨before', g', us', _, hcut, rfl⟩),
          .inr ⟨rfl, Text.place_le_of_prefix hprefix⟩⟩
    · by_cases hfits : ∀ a ∈ as, a.nesting ≤ d
      · exact ⟨_, parse_eq_error.2 (.inr ⟨⟨as, has.of_nesting hfits⟩, before, hunclosed, rfl⟩),
          .inl rfl⟩
      · push Not at hfits
        obtain ⟨before', g', us', rest, hcut⟩ := has.firstBreak_of_nesting hfits
        have hprefix := hcut.isPrefix.trans (List.prefix_append _ before)
        exact ⟨_, parse_eq_error.2 (.inl ⟨before', g', us', _, hcut, rfl⟩),
          .inr ⟨rfl, Text.place_le_of_prefix hprefix⟩⟩

theorem parse_of_limit_le_siblings : ∃ t₁ t₂ e₃,
    parse [] "\x7b\x7b (x) (y) | z \x7d\x7d".toList ⟨3⟩ = .ok t₁ ∧
      parse [] "\x7b\x7b (x) (y) | z \x7d\x7d".toList ⟨1⟩ = .ok t₁ ∧
      parse [] "\x7b\x7b x | (y) \x7d\x7d".toList ⟨3⟩ = .ok t₂ ∧
      (∃ e, parse [] "\x7b\x7b x | (y) \x7d\x7d".toList ⟨1⟩ = .error e ∧
        e.kind = .nestingTooDeep 1) ∧
      parse [] "\x7b\x7b ((x)|) \x7d\x7d".toList ⟨3⟩ = .error e₃ ∧
      ∃ e, parse [] "\x7b\x7b ((x)|) \x7d\x7d".toList ⟨1⟩ = .error e ∧
        (e = e₃ ∨ (e.kind = .nestingTooDeep 1 ∧ e.position ≤ e₃.position)) := by
  have hkept : (match parse [] "\x7b\x7b (x) (y) | z \x7d\x7d".toList ⟨3⟩ with
      | .ok t => some (Tree.nesting t)
      | .error _ => none) = some 1 := by decide +kernel
  have hcut : (match parse [] "\x7b\x7b x | (y) \x7d\x7d".toList ⟨3⟩ with
      | .ok t => some (Tree.nesting t)
      | .error _ => none) = some 2 := by decide +kernel
  have hrefused : (match parse [] "\x7b\x7b ((x)|) \x7d\x7d".toList ⟨3⟩ with
      | .ok _ => none
      | .error e => some e.position) = some ⟨1, 9⟩ := by decide +kernel
  cases h₁ : parse [] "\x7b\x7b (x) (y) | z \x7d\x7d".toList ⟨3⟩ with
  | error e =>
    rw [h₁] at hkept
    cases hkept
  | ok t₁ =>
    cases h₂ : parse [] "\x7b\x7b x | (y) \x7d\x7d".toList ⟨3⟩ with
    | error e =>
      rw [h₂] at hcut
      cases hcut
    | ok t₂ =>
      cases h₃ : parse [] "\x7b\x7b ((x)|) \x7d\x7d".toList ⟨3⟩ with
      | ok t =>
        rw [h₃] at hrefused
        cases hrefused
      | error e₃ =>
        rw [h₁] at hkept
        rw [h₂] at hcut
        have hle : Tree.nesting t₁ ≤ 1 := (Option.some.inj hkept).le
        have hlt : 1 < Tree.nesting t₂ := (Option.some.inj hcut).symm ▸ Nat.lt_succ_self 1
        exact ⟨t₁, t₂, e₃, rfl, ((parse_of_limit_le (by decide)).1 t₁ h₁).1 hle, rfl,
          ((parse_of_limit_le (by decide)).1 t₂ h₂).2 hlt, rfl,
          (parse_of_limit_le (by decide)).2 e₃ h₃⟩

end Stencil
