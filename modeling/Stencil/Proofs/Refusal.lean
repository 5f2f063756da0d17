import Stencil.Proofs.Breaks
import Stencil.Proofs.Places

namespace Stencil

namespace Segment

def joined (gs : List Segment) : Text := gs.flatMap fun g => g.before ++ g.source

theorem joined_cons (g : Segment) (gs : List Segment) :
    joined (g :: gs) = g.before ++ g.source ++ joined gs := List.flatMap_cons

theorem joined_append (gs hs : List Segment) : joined (gs ++ hs) = joined gs ++ joined hs :=
  List.flatMap_append

theorem joined_segments (s : Text) : joined (segments s).1 ++ (segments s).2 = s :=
  flatMap_segments s

end Segment

/-- `FirstBreak limit gs before g us f`: of the segments `gs` the first that spells no action is
`g`, which comes after those of `before`, and it breaks off after the tokens `us`. -/
structure FirstBreak (limit : Nat) (gs before : List Segment) (g : Segment) (us : List Token)
    (f : Failure) : Prop where
  among : ∃ later, gs = before ++ g :: later
  earlier : ∃ as, SpellsActions limit before as
  tokens : tokenize g.source = us ++ f.rest
  breaks : Breaks limit .action (limit + 1) us f

namespace FirstBreak

variable {limit : Nat} {gs hs before : List Segment} {g : Segment} {us : List Token} {f : Failure}

theorem append (h : FirstBreak limit hs before g us f) (hgs : ∃ as, SpellsActions limit gs as) :
    FirstBreak limit (gs ++ hs) (gs ++ before) g us f := by
  obtain ⟨⟨later, rfl⟩, ⟨bs, hbs⟩, htokens, hbreaks⟩ := h
  obtain ⟨as, has⟩ := hgs
  exact ⟨⟨later, (List.append_assoc ..).symm⟩, ⟨as ++ bs, has.append hbs⟩, htokens, hbreaks⟩

theorem append_later (h : FirstBreak limit gs before g us f) :
    FirstBreak limit (gs ++ hs) before g us f := by
  obtain ⟨later, rfl⟩ := h.among
  exact ⟨⟨later ++ hs, by simp⟩, h.earlier, h.tokens, h.breaks⟩

theorem isPrefix (h : FirstBreak limit gs before g us f) :
    Segment.joined before ++ g.before ++ Token.spelling us <+: Segment.joined gs := by
  obtain ⟨later, rfl⟩ := h.among
  have hsource := spelling_tokenize g.source
  rw [h.tokens, Token.spelling_append] at hsource
  refine ⟨Token.spelling f.rest ++ Segment.joined later, ?_⟩
  rw [Segment.joined_append, Segment.joined_cons, ← hsource]
  simp only [List.append_assoc]

end FirstBreak

/-- What carved segments are followed by is carved as if it stood alone. -/
theorem segments_append {gs : List Segment} (hgs : ∀ g ∈ gs, g.Carved) (s : Text) :
    segments (Segment.joined gs ++ s) = (segments s).map (gs ++ ·) id := by
  induction gs with
  | nil => rfl
  | cons g gs ih =>
    obtain ⟨hg, hgs⟩ := List.forall_mem_cons.1 hgs
    have hfound : nextAction (g.before ++ g.source ++ (Segment.joined gs ++ s)) =
        .found g (Segment.joined gs ++ s) := nextAction_eq_found_iff.2 ⟨rfl, hg⟩
    rw [Segment.joined_cons, List.append_assoc, segments_of_found hfound, ih hgs]
    rfl

namespace Parse

variable {limit : Nat} {file : Text} {start : Position} {e : ParseError}

theorem action_eq_error {source : Text} : action limit file start source = .error e ↔
    ∃ us f, tokenize source = us ++ f.rest ∧ Breaks limit .action (limit + 1) us f ∧
      e = ⟨file, start.after (Token.spelling us), source, f.kind⟩ := by
  have hread : ∀ {us : List Token} {f : Failure}, tokenize source = us ++ f.rest →
      (tokenize source).take ((tokenize source).length - f.rest.length) = us := by
    intro us f h
    rw [h, List.length_append, Nat.add_sub_cancel, List.take_left]
  unfold action
  cases h : Action.ofTokens limit (tokenize source) with
  | ok a =>
    simp only [h, reduceCtorEq, false_iff, not_exists, not_and]
    intro us f hts hus
    rw [Action.ofTokens_eq_error.2 ⟨us, hts, hus⟩] at h
    cases h
  | error f =>
    obtain ⟨us, hts, hus⟩ := Action.ofTokens_eq_error.1 h
    simp only [h, hread hts, Except.error.injEq]
    constructor
    · rintro rfl
      exact ⟨us, f, hts, hus, rfl⟩
    · rintro ⟨vs, f', hts', hvs, rfl⟩
      rw [Action.ofTokens_eq_error.2 ⟨vs, hts', hvs⟩] at h
      cases h
      rw [← hread hts, hread hts']

theorem finish_of_branches {gs : List Segment} {t : Tree} {finish : Position}
    (h : branches limit file start gs = .ok (t, finish)) :
    finish = start.after (Segment.joined gs) := by
  induction gs generalizing start t with
  | nil =>
    cases h
    rfl
  | cons g gs ih =>
    rw [branches] at h
    obtain ⟨a, -, hrest⟩ := Reader.bind_eq_ok.1 h
    obtain ⟨⟨bs, last⟩, hbs, heq⟩ := Reader.bind_eq_ok.1 hrest
    cases heq
    rw [ih hbs, Segment.joined_cons, Position.after_append, Position.after_append]

theorem branches_eq_error {gs : List Segment} : branches limit file start gs = .error e ↔
    ∃ before g us f, FirstBreak limit gs before g us f ∧
      e = ⟨file, start.after (Segment.joined before ++ g.before ++ Token.spelling us), g.source,
        f.kind⟩ := by
  induction gs generalizing start with
  | nil =>
    constructor
    · intro h
      cases h
    · rintro ⟨before, g, us, f, ⟨⟨later, hgs⟩, -, -, -⟩, -⟩
      cases before <;> cases hgs
  | cons g gs ih =>
    rw [branches, Reader.bind_eq_error]
    constructor
    · rintro (h | ⟨a, ha, h⟩)
      · obtain ⟨us, f, hts, hus, rfl⟩ := action_eq_error.1 h
        rw [← Position.after_append]
        exact ⟨[], g, us, f, ⟨⟨gs, rfl⟩, ⟨[], .nil⟩, hts, hus⟩, rfl⟩
      · obtain hrest | ⟨_, -, hend⟩ := Reader.bind_eq_error.1 h
        · obtain ⟨before, g', us, f, ⟨⟨later, rfl⟩, ⟨as, has⟩, hts, hus⟩, rfl⟩ := ih.1 hrest
          refine ⟨g :: before, g', us, f, ⟨⟨later, rfl⟩, ⟨a :: as, ?_⟩, hts, hus⟩, ?_⟩
          · exact .cons (action_eq_ok.1 ha) has
          · simp only [Segment.joined_cons, Position.after_append]
        · cases hend
    · rintro ⟨before, g', us, f, ⟨⟨later, hgs⟩, ⟨as, has⟩, hts, hus⟩, rfl⟩
      cases before with
      | nil =>
        obtain ⟨rfl, rfl⟩ := List.cons.inj hgs
        left
        rw [Segment.joined, List.flatMap_nil, List.nil_append, Position.after_append]
        exact action_eq_error.2 ⟨us, f, hts, hus, rfl⟩
      | cons g₀ before =>
        obtain ⟨rfl, rfl⟩ := List.cons.inj hgs
        cases has with
        | @cons _ a _ as ha has =>
          refine .inr ⟨a, action_eq_ok.2 ha, Reader.bind_eq_error.2 (.inl ?_)⟩
          refine ih.2 ⟨before, g', us, f, ⟨⟨later, rfl⟩, ⟨as, has⟩, hts, hus⟩, ?_⟩
          simp only [Segment.joined_cons, Position.after_append]

end Parse

/-- A template is refused exactly if one of its actions breaks off, or if all spell something and
braces after the last are not closed. -/
theorem parse_eq_error {file s : Text} {options : Options} {e : ParseError} :
    parse file s options = .error e ↔
      (∃ before g us f, FirstBreak options.maxDepth (segments s).1 before g us f ∧
        e = ⟨file, (Segment.joined before ++ g.before ++ Token.spelling us).place, g.source,
          f.kind⟩) ∨
      ((∃ as, SpellsActions options.maxDepth (segments s).1 as) ∧
        ∃ before, nextAction (segments s).2 = .unclosed before ∧
          e = ⟨file, (Segment.joined (segments s).1 ++ before).place, [], .unbalancedDelimiter⟩) := by
  rw [parse]
  simp only [Reader.bind_eq_error, Parse.branches_eq_error, Position.after_start]
  refine or_congr_right ?_
  constructor
  · rintro ⟨⟨bs, finish⟩, hbs, hend⟩
    obtain rfl := Parse.finish_of_branches hbs
    obtain ⟨as, has, -⟩ := Parse.branches_eq_ok.1 ⟨_, hbs⟩
    split at hend
    next before hu =>
      cases hend
      simp only [Position.after_start, Position.after_place]
      exact ⟨⟨as, has⟩, before, hu, rfl⟩
    · cases hend
  · rintro ⟨⟨as, has⟩, before, hu, rfl⟩
    obtain ⟨finish, hbs⟩ : ∃ finish, Parse.branches options.maxDepth file {} (segments s).1 =
        .ok (weave (segments s).1 as, finish) := Parse.branches_eq_ok.2 ⟨as, has, rfl⟩
    refine ⟨_, hbs, ?_⟩
    obtain rfl := Parse.finish_of_branches hbs
    simp only [hu, Position.after_start, Position.after_place]

theorem FirstBreak.refuses {file s : Text} {options : Options} {before : List Segment}
    {g : Segment} {us : List Token} {f : Failure}
    (h : FirstBreak options.maxDepth (segments s).1 before g us f) (after : Text) :
    parse file (Segment.joined before ++ g.before ++ g.source ++ after) options =
      .error ⟨file, (Segment.joined before ++ g.before ++ Token.spelling us).place, g.source,
        f.kind⟩ := by
  obtain ⟨later, hsegments⟩ := h.among
  have hcarved : ∀ g' ∈ before ++ [g], g'.Carved := by
    intro g' hg'
    refine carved_of_segments g' (s := s) ?_
    rw [hsegments, ← List.singleton_append, ← List.append_assoc]
    exact List.mem_append_left later hg'
  have hjoined : Segment.joined (before ++ [g]) = Segment.joined before ++ g.before ++ g.source := by
    simp [Segment.joined]
  have hafter := segments_append hcarved after
  rw [hjoined] at hafter
  refine parse_eq_error.2 (.inl ⟨before, g, us, f, ⟨?_, h.earlier, h.tokens, h.breaks⟩, rfl⟩)
  rw [hafter]
  exact ⟨(segments after).1, List.append_assoc ..⟩

end Stencil
