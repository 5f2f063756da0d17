import Stencil.Proofs.Levels
import Stencil.Proofs.Unescaped

namespace Stencil

/-- What the kind of an error tells of the token `t` that it points at, which `read` is before. -/
def ErrorKind.Blames (limit : Nat) (read : List Token) (t : Token) : ErrorKind → Prop
  | unexpectedCharacter found => t.kind = .text ∧ found = t.text
  | unexpectedToken _ found => t.kind ≠ .text ∧ found = t.label
  | invalidLiteral literal reason => literal = t.text ∧
    ∃ fault, t.toVariable? = some (.error fault) ∧ reason = fault.message
  | nestingTooDeep n => n = limit ∧ Token.Opens (limit + 1) [0] read
  | unexpectedEnd _ | trailingTokens _ | unbalancedDelimiter => False

/-- The error points at the token `t`, with `read` before it, of the first action of the template `s`
that cannot be read, which is that of the segment `g`. -/
structure ParseError.PointsAt (e : ParseError) (limit : Nat) (s : Text) (before : List Segment)
    (g : Segment) (read : List Token) (t : Token) : Prop where
  among : ∃ later, (segments s).1 = before ++ g :: later
  earlier : ∀ g' ∈ before, ∃ a, Action.ofTokens limit (tokenize g'.source) = .ok a
  refused : ∀ a, Action.ofTokens limit (tokenize g.source) ≠ .ok a
  source : e.source = g.source
  tokens : ∃ rest, tokenize g.source = read ++ t :: rest
  position : e.position = (Segment.joined before ++ g.before ++ Token.spelling read).place
  blames : e.kind.Blames limit read t

theorem ErrorKind.blames_unexpected (limit : Nat) (read : List Token) (expected : Text) (t : Token)
    (rest : List Token) :
    (Reader.unexpected expected (t :: rest)).kind.Blames limit read t := by
  by_cases ht : t.kind = .text
  · simp [Reader.unexpected, ht, Blames]
  · simp [Reader.unexpected, ht, Blames]

namespace Breaks

variable {limit n : Nat} {s : Symbol} {us rest : List Token} {t : Token} {f : Failure}

theorem inner_kind (h : Breaks limit s n us f) (hk : ¬ f.kind.IsEnding) :
    ∀ t ∈ us, t.kind ∉ [.statementClose, .text] := by
  have hspelled : ∀ {m : Nat} {ts : List Token} {x : Phrase}, Spells m ts x →
      ∀ t ∈ ts, t.kind ∉ [.statementClose, .text] :=
    fun h t ht hstop => h.inner_kind t ht (List.mem_cons_of_mem _ hstop)
  induction h with
  | literal | full | empty | unopened => simp
  | trailing => exact (hk trivial).elim
  | @grouping _ o _ _ ho _ ih | @action _ o _ _ ho _ ih =>
    exact List.forall_mem_cons.2 ⟨by simp [ho], ih hk⟩
  | unclosed ho hp hrest hc | unended ho hp hrest hc =>
    exact List.forall_mem_cons.2 ⟨by simp [ho], hspelled hp⟩
  | group hg h ih => exact List.forall_mem_append.2 ⟨hspelled hg, ih hk⟩
  | stage h ih => exact ih hk
  | @piped _ t _ _ _ _ hg hne ht h ih =>
    have hpipe : t.kind ∉ [.statementClose, .text] := by simp [ht]
    exact List.forall_mem_append.2 ⟨hspelled hg, List.forall_mem_cons.2 ⟨hpipe, ih hk⟩⟩

theorem blames (h : Breaks limit s n us f) (hk : ¬ f.kind.IsEnding)
    (hdeep : ∀ k, f.kind ≠ .nestingTooDeep k) (hf : f.rest = t :: rest) (read : List Token) :
    f.kind.Blames limit read t := by
  induction h with
  | literal h =>
    cases hf
    exact ⟨rfl, _, h, rfl⟩
  | full => exact (hdeep limit rfl).elim
  | unclosed | empty | unopened | unended =>
    rw [Reader.rest_unexpected] at hf
    subst hf
    exact ErrorKind.blames_unexpected ..
  | trailing => exact (hk trivial).elim
  | grouping _ _ ih | group _ _ ih | stage _ ih | piped _ _ _ _ ih | action _ _ ih =>
    exact ih hk hdeep hf

theorem blames_of_action (h : Breaks limit .action (limit + 1) us f) (hk : ¬ f.kind.IsEnding)
    (hf : f.rest = t :: rest) : f.kind.Blames limit us t := by
  cases hkind : f.kind with
  | nestingTooDeep k => exact h.opens_of_action hkind
  | _ =>
    rw [← hkind]
    exact h.blames hk (by simp [hkind]) hf us

end Breaks

theorem FirstBreak.exists_blames {limit : Nat} {gs before : List Segment} {g : Segment}
    {us : List Token} {f : Failure} (h : FirstBreak limit gs before g us f) (hg : g.Carved) :
    ∃ t rest, f.rest = t :: rest ∧ f.kind.Blames limit us t := by
  have hk := Segment.not_isEnding_of_ofTokens hg
    (Action.ofTokens_eq_error.2 ⟨us, h.tokens, h.breaks⟩)
  have hstopped := g.stopped_tokenize
  rw [h.tokens] at hstopped
  obtain ⟨t, rest, hrest⟩ := (hstopped.of_append (h.breaks.inner_kind hk)).exists_cons
  exact ⟨t, rest, hrest, h.breaks.blames_of_action hk hrest⟩

namespace Segment

theorem getLast?_source (g : Segment) : g.source.getLast? = some '}' := by
  have hsource : g.source = ('{' :: '{' :: g.inner ++ ['}']) ++ ['}'] := by simp [source]
  rw [hsource, List.getLast?_concat]

theorem getLast?_joined_ne (gs : List Segment) : (joined gs).getLast? ≠ some '\\' := by
  induction gs using List.reverseRecOn with
  | nil => simp [joined]
  | append_singleton gs g _ =>
    have hjoined : joined (gs ++ [g]) = joined gs ++ g.before ++ g.source := by
      simp [joined]
    rw [hjoined, List.getLast?_append, getLast?_source]
    simp

end Segment

/-- Where a template is refused, the error points at a token of the first action that cannot be
read, whatever is after that action; or at the braces that nothing closes, if all actions can be
read. -/
theorem parse_error_culprit {file s : Text} {options : Options} {e : ParseError}
    (h : parse file s options = .error e) :
    (e.kind = .unbalancedDelimiter → e.source = [] ∧
      (∀ g ∈ (segments s).1, ∃ a, Action.ofTokens options.maxDepth (tokenize g.source) = .ok a) ∧
      ∃ before rest, s = Segment.joined (segments s).1 ++ before ++ '{' :: '{' :: rest ∧
        Text.trailingBackslashes (Segment.joined (segments s).1 ++ before) % 2 = 0 ∧
        ¬ Text.HasUnescaped '}' rest ∧
        e.position = (Segment.joined (segments s).1 ++ before).place) ∧
    (e.kind ≠ .unbalancedDelimiter → ∃ before g read t,
      e.PointsAt options.maxDepth s before g read t ∧
      ∀ after, parse file (Segment.joined before ++ g.before ++ g.source ++ after) options =
        .error e) := by
  obtain ⟨before, g, us, f, hfirst, rfl⟩ | ⟨⟨as, has⟩, before, hunclosed, rfl⟩ :=
    parse_eq_error.1 h
  · obtain ⟨later, hsegments⟩ := hfirst.among
    have hmem : g ∈ (segments s).1 := by simp [hsegments]
    obtain ⟨t, rest, hrest, hblames⟩ := hfirst.exists_blames (carved_of_segments g hmem)
    refine ⟨fun hk => ?_, fun _ => ⟨before, g, us, t, ?_, hfirst.refuses⟩⟩
    · have hkind : f.kind = .unbalancedDelimiter := hk
      rw [hkind] at hblames
      exact hblames.elim
    · refine ⟨⟨later, hsegments⟩, fun g' hg' => ?_, fun a ha => ?_, rfl, ?_, rfl, hblames⟩
      · obtain ⟨as, has⟩ := hfirst.earlier
        obtain ⟨a, ha⟩ := has.exists_of_mem hg'
        exact ⟨a, Action.ofTokens_eq_ok.2 ha⟩
      · rw [Action.ofTokens_eq_error.2 ⟨us, hfirst.tokens, hfirst.breaks⟩] at ha
        cases ha
      · exact ⟨rest, hrest ▸ hfirst.tokens⟩
  · obtain ⟨rest, htail, hbefore, hrest⟩ := nextAction_eq_unclosed_iff.1 hunclosed
    refine ⟨fun _ => ⟨rfl, fun g hg => ?_, ?_⟩, fun hk => (hk rfl).elim⟩
    · obtain ⟨a, ha⟩ := has.exists_of_mem hg
      exact ⟨a, Action.ofTokens_eq_ok.2 ha⟩
    · refine ⟨before, rest, ?_, ?_, ?_, rfl⟩
      · rw [List.append_assoc, ← htail, Segment.joined_segments]
      · rw [Text.trailingBackslashes_append (Segment.getLast?_joined_ne _)]
        exact hbefore.trailingBackslashes
      · exact (splitUnescaped_eq_none_iff (by decide)).1 hrest

theorem parse_error_culprit_second_line : ∃ e₁ e₂,
    parse [] "é\n\x7b\x7b a \x7d\x7d\x7b\x7b \"é\" ) \x7d\x7d \x7b\x7b".toList = .error e₁ ∧
      e₁.position = ⟨2, 15⟩ ∧
      (∃ before g read t, e₁.PointsAt 128
        "é\n\x7b\x7b a \x7d\x7d\x7b\x7b \"é\" ) \x7d\x7d \x7b\x7b".toList before g read t) ∧
      parse [] "\x7b\x7b a \x7d\x7d\\\x7b\x7b\x7b b".toList = .error e₂ ∧
      e₂.position = ⟨1, 10⟩ ∧ e₂.kind = .unbalancedDelimiter ∧ e₂.source = [] := by
  have h₁ : (match parse [] "é\n\x7b\x7b a \x7d\x7d\x7b\x7b \"é\" ) \x7d\x7d \x7b\x7b".toList with
      | .ok _ => none
      | .error e => some (e.position, decide (e.kind = .unbalancedDelimiter))) =
        some (⟨2, 15⟩, false) := by decide +kernel
  have h₂ : (match parse [] "\x7b\x7b a \x7d\x7d\\\x7b\x7b\x7b b".toList with
      | .ok _ => none
      | .error e => some (e.position, decide (e.kind = .unbalancedDelimiter))) =
        some (⟨1, 10⟩, true) := by decide +kernel
  cases he₁ : parse [] "é\n\x7b\x7b a \x7d\x7d\x7b\x7b \"é\" ) \x7d\x7d \x7b\x7b".toList with
  | ok t =>
    rw [he₁] at h₁
    cases h₁
  | error e₁ =>
    cases he₂ : parse [] "\x7b\x7b a \x7d\x7d\\\x7b\x7b\x7b b".toList with
    | ok t =>
      rw [he₂] at h₂
      cases h₂
    | error e₂ =>
      rw [he₁] at h₁
      rw [he₂] at h₂
      obtain ⟨hposition₁, hkind₁⟩ := Prod.mk.inj (Option.some.inj h₁)
      obtain ⟨hposition₂, hkind₂⟩ := Prod.mk.inj (Option.some.inj h₂)
      obtain ⟨before, g, read, t, hpoints, -⟩ :=
        (parse_error_culprit he₁).2 (of_decide_eq_false hkind₁)
      have hkind := of_decide_eq_true hkind₂
      exact ⟨e₁, e₂, rfl, hposition₁, ⟨before, g, read, t, hpoints⟩, rfl, hposition₂, hkind,
        ((parse_error_culprit he₂).1 hkind).1⟩

end Stencil
