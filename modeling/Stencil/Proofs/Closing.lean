import Stencil.Proofs.Acceptance
import Stencil.Proofs.ActionTokens

namespace Stencil

def ErrorKind.IsEnding : ErrorKind → Prop
  | unexpectedEnd _ | trailingTokens _ => True
  | _ => False

/-- Whether one of the tokens is of a kind that no reader of pipelines takes. -/
def Token.Stopped (ts : List Token) : Prop := ∃ t ∈ ts, t.kind ∈ [.statementClose, .text]

namespace Token.Stopped

variable {t : Token} {ts us : List Token}

theorem ne_nil (h : Stopped ts) : ts ≠ [] := by
  obtain ⟨t, ht, -⟩ := h
  exact List.ne_nil_of_mem ht

theorem exists_cons (h : Stopped ts) : ∃ t rest, ts = t :: rest :=
  List.exists_cons_of_ne_nil h.ne_nil

theorem of_append (h : Stopped (ts ++ us)) (hts : ∀ t ∈ ts, t.kind ∉ [.statementClose, .text]) :
    Stopped us := by
  obtain ⟨u, hu, hk⟩ := h
  obtain hu | hu := List.mem_append.1 hu
  · exact (hts u hu hk).elim
  · exact ⟨u, hu, hk⟩

theorem tail (h : Stopped (t :: ts)) (ht : t.kind ∉ [.statementClose, .text]) : Stopped ts := by
  rw [← List.singleton_append] at h
  exact h.of_append (List.forall_mem_singleton.2 ht)

end Token.Stopped

namespace Reader

variable {α β : Type} {read : List Token → Except Failure (α × List Token)} {ts : List Token}

def extend (extra : List Token) : Except Failure (α × List Token) → Except Failure (α × List Token)
  | .ok (a, rest) => .ok (a, rest ++ extra)
  | .error f => .error ⟨f.kind, f.rest ++ extra⟩

/-- The reader does not look behind these tokens: what comes after them makes no difference to it.
It leaves tokens with the property `P`. -/
structure Confined (P : List Token → Prop) (read : List Token → Except Failure (α × List Token))
    (ts : List Token) : Prop where
  append (extra : List Token) : read (ts ++ extra) = extend extra (read ts)
  leaves {a : α} {rest : List Token} (h : read ts = .ok (a, rest)) : P rest
  error {f : Failure} (h : read ts = .error f) : ¬ f.kind.IsEnding

namespace Confined

variable {P Q : List Token → Prop}

theorem of_ok {a : α} {r : List Token} (hr : P r)
    (h : ∀ extra, read (ts ++ extra) = .ok (a, r ++ extra)) : Confined P read ts := by
  have hread : read ts = .ok (a, r) := by simpa using h []
  refine ⟨fun extra => ?_, fun heq => ?_, fun heq => ?_⟩
  · rw [h, hread]
    rfl
  · rw [hread] at heq
    cases heq
    exact hr
  · rw [hread] at heq
    cases heq

theorem of_error {f : Failure} (hf : ¬ f.kind.IsEnding)
    (h : ∀ extra, read (ts ++ extra) = .error ⟨f.kind, f.rest ++ extra⟩) : Confined P read ts := by
  have hread : read ts = .error f := by simpa using h []
  refine ⟨fun extra => ?_, fun heq => ?_, fun heq => ?_⟩
  · rw [h, hread]
    rfl
  · rw [hread] at heq
    cases heq
  · rw [hread] at heq
    cases heq
    exact hf

theorem congr {other : List Token → Except Failure (α × List Token)} {us : List Token}
    (h : Confined P other us) (heq : ∀ extra, read (ts ++ extra) = other (us ++ extra)) :
    Confined P read ts := by
  have hread : read ts = other us := by simpa using heq []
  refine ⟨fun extra => ?_, fun hok => ?_, fun herror => ?_⟩
  · rw [heq, hread, h.append]
  · exact h.leaves (hread ▸ hok)
  · exact h.error (hread ▸ herror)

theorem of_unexpected {e : Text} (hts : ts ≠ [])
    (h : ∀ extra, read (ts ++ extra) = .error (unexpected e (ts ++ extra))) :
    Confined P read ts := by
  obtain ⟨t, ts, rfl⟩ := List.exists_cons_of_ne_nil hts
  by_cases ht : t.kind = .text
  · refine of_error (f := ⟨.unexpectedCharacter t.text, t :: ts⟩) id fun extra => ?_
    rw [h, List.cons_append, unexpected, if_pos ht]
  · refine of_error (f := ⟨.unexpectedToken e t.label, t :: ts⟩) id fun extra => ?_
    rw [h, List.cons_append, unexpected, if_neg ht]

theorem bind {next : α × List Token → Except Failure (β × List Token)} (h : Confined P read ts)
    (hnext : ∀ {a : α} {rest : List Token}, read ts = .ok (a, rest) →
      Confined Q (fun us => next (a, us)) rest) :
    Confined Q (fun ts => read ts >>= next) ts := by
  have happend := h.append
  cases hread : read ts with
  | error f =>
    refine of_error (h.error hread) fun extra => ?_
    simp only [happend, hread, extend, Bind.bind, Except.bind]
  | ok r =>
    obtain ⟨a, rest⟩ := r
    have hafter := hnext hread
    refine ⟨fun extra => ?_, fun heq => ?_, fun heq => ?_⟩
    · simp only [happend, hread, extend, Bind.bind, Except.bind, hafter.append]
    · rw [hread] at heq
      exact hafter.leaves heq
    · rw [hread] at heq
      exact hafter.error heq

theorem map (h : Confined P read ts) (f : α → β) :
    Confined P (fun ts => (read ts).map (·.map f id)) ts := by
  have happend := h.append
  cases hread : read ts with
  | error e =>
    refine of_error (h.error hread) fun extra => ?_
    simp only [happend, hread, extend, Except.map]
  | ok r =>
    obtain ⟨a, rest⟩ := r
    refine of_ok (a := f a) (h.leaves hread) fun extra => ?_
    simp only [happend, hread, extend, Except.map, Prod.map, id_eq]

end Confined

/-- The reader comes to no end of the tokens while there is one at which the readers stop, and leaves
that one. -/
def Stops (read : List Token → Except Failure (α × List Token)) : Prop :=
  ∀ {ts}, Token.Stopped ts → Confined Token.Stopped read ts

theorem stops_expect {kind : TokenKind} (hk : kind ∉ [.statementClose, .text]) :
    Stops (expect kind) := by
  intro ts h
  obtain ⟨t, ts, rfl⟩ := h.exists_cons
  by_cases ht : t.kind = kind
  · exact .of_ok (h.tail (ht ▸ hk)) fun extra => expect_cons ht _
  · exact .of_unexpected h.ne_nil fun extra => if_neg ht

theorem stops_readSpace : Stops fun ts => .ok (readSpace ts) := by
  intro ts h
  obtain ⟨spaces, rest, rfl, hspaces, hrest⟩ := exists_spaces ts
  have hstop : Token.Stopped rest := h.of_append fun t ht => by rw [hspaces t ht]; decide
  obtain ⟨t, rest, rfl⟩ := hstop.exists_cons
  refine .of_ok (a := .space (Token.spelling spaces)) hstop fun extra => ?_
  rw [List.append_assoc]
  exact congrArg _ (readSpace_append hspaces hrest)

section Below

variable {below : Reader Pipeline} (hbelow : Stops below.read)

include hbelow

theorem stops_readGrouping : Stops (readGrouping below) := by
  intro ts h
  have hopen : Confined Token.Stopped (expect .groupOpen) ts := stops_expect (by decide) h
  refine hopen.bind fun {o us} ho => ?_
  have hbody := hbelow (hopen.leaves ho)
  refine hbody.bind fun {p ws} hp => ?_
  have hclose : Confined Token.Stopped (expect .groupClose) ws :=
    stops_expect (by decide) (hbody.leaves hp)
  exact hclose.bind fun {c rest} hc => .of_ok (hclose.leaves hc) fun extra => rfl

theorem stops_readVariable : Stops (readVariable below) := by
  intro ts h
  obtain ⟨t, ts, rfl⟩ := h.exists_cons
  by_cases hs : t.kind = .space
  · exact (stops_readSpace h).congr fun extra => if_pos hs
  by_cases hg : t.kind = .groupOpen
  · refine (stops_readGrouping hbelow h).congr fun extra => ?_
    rw [List.cons_append, readVariable, if_neg hs, if_pos hg]
  cases hv : t.toVariable? with
  | none =>
    refine .of_unexpected (e := "a variable".toList) h.ne_nil fun extra => ?_
    simp only [List.cons_append, readVariable, if_neg hs, if_neg hg, hv]
  | some r =>
    cases r with
    | error fault =>
      refine .of_error (f := ⟨.invalidLiteral t.text fault.message, t :: ts⟩) id fun extra => ?_
      simp only [List.cons_append, readVariable, if_neg hs, if_neg hg, hv]
    | ok v =>
      have hbegins := (Token.kind_of_toVariable? hv).1
      have hts : Token.Stopped ts := h.tail fun hk => by
        simp only [List.mem_cons, List.not_mem_nil, or_false] at hk
        obtain hk | hk := hk <;> rw [hk] at hbegins <;> cases hbegins
      refine .of_ok (a := v) hts fun extra => ?_
      simp only [List.cons_append, readVariable, if_neg hs, if_neg hg, hv]

theorem stops_readVariables : Stops (readVariables below) := by
  intro ts h
  induction hn : ts.length using Nat.strongRecOn generalizing ts with
  | ind n ih =>
    subst hn
    obtain ⟨t, ts, rfl⟩ := h.exists_cons
    by_cases hb : t.kind.beginsVariable = true
    · have hone := stops_readVariable hbelow h
      have hmore : Confined Token.Stopped (fun ts => readVariable below ts >>= fun r =>
          (readVariables below r.2).map (·.map (r.1 :: ·) id)) (t :: ts) := by
        refine hone.bind fun {v rest} hv => ?_
        exact (ih _ (length_of_readVariable hv) (hone.leaves hv) rfl).map (v :: ·)
      refine hmore.congr fun extra => ?_
      rw [List.cons_append, readVariables, if_pos (by exact hb)]
      cases readVariable below (t :: (ts ++ extra)) <;> rfl
    · refine .of_ok (a := []) h fun extra => ?_
      rw [List.cons_append, readVariables, if_neg (by exact hb)]

theorem stops_readGroup : Stops (readGroup below) := by
  intro ts h
  have hall := stops_readVariables hbelow h
  refine hall.bind fun {g rest} hg => ?_
  have hrest := hall.leaves hg
  by_cases hnil : g.isEmpty = true
  · exact .of_unexpected hrest.ne_nil fun extra => if_pos hnil
  · exact .of_ok hrest fun extra => if_neg hnil

theorem stops_readPipeline : Stops (readPipeline below) := by
  intro ts h
  have hgroup := stops_readGroup hbelow h
  refine hgroup.bind fun {g rest} hg => ?_
  have hrest := hgroup.leaves hg
  obtain ⟨⟨kind, text⟩, rest, rfl⟩ := hrest.exists_cons
  by_cases hk : kind = .pipe
  · subst hk
    have hstop : Token.Stopped rest := hrest.tail (by simp)
    refine ((hbelow hstop).map (.piped g)).congr fun extra => ?_
    rw [List.cons_append]
    dsimp only
    cases below.read (rest ++ extra) <;> rfl
  · refine .of_ok (a := .stage g) hrest fun extra => ?_
    cases kind <;> first | rfl | exact (hk rfl).elim

end Below

theorem stops_pipeline (limit n : Nat) : Stops (pipeline limit n).read := by
  induction n with
  | zero => exact fun {ts} _ => .of_error (f := ⟨.nestingTooDeep limit, ts⟩) id fun extra => rfl
  | succ n ih => exact stops_readPipeline ih

theorem readPipelines_pipeline (limit n : Nat) (ts : List Token) :
    readPipelines (pipeline limit n) ts = ((pipeline limit n).read ts).map (·.map ([·]) id) := by
  rw [readPipelines]
  split
  next f hf => rw [hf]; rfl
  next p rest hp =>
    obtain ⟨_, -, -, hrest, -⟩ := sound_pipeline limit n hp
    rw [if_neg (by simp [hrest]), hp]
    rfl

theorem stops_readPipelines (limit n : Nat) : Stops (readPipelines (pipeline limit n)) :=
  fun h => ((stops_pipeline limit n h).map ([·])).congr fun _ => readPipelines_pipeline limit n _

def readAction (limit : Nat) (ts : List Token) : Except Failure (Action × List Token) := do
  let (opener, ts) ← expect .statementOpen ts
  let (pipelines, ts) ← readPipelines (pipeline limit (limit + 1)) ts
  let (closer, ts) ← expect .statementClose ts
  return (⟨opener.text, pipelines, closer.text⟩, ts)

theorem ofTokens_eq_bind (limit : Nat) (ts : List Token) :
    Action.ofTokens limit ts = readAction limit ts >>= fun r => match r.2 with
      | [] => .ok r.1
      | t :: rest => .error ⟨.trailingTokens t.label, t :: rest⟩ := by
  simp only [Action.ofTokens, readAction, bind_assoc, pure_bind]
  rfl

theorem confined_readAction (limit : Nat) (h : Token.Stopped ts) :
    Confined (fun _ => True) (readAction limit) ts := by
  have hopen : Confined Token.Stopped (expect .statementOpen) ts := stops_expect (by decide) h
  refine hopen.bind fun {o us} ho => ?_
  have hall := stops_readPipelines limit (limit + 1) (hopen.leaves ho)
  refine hall.bind fun {ps vs} hps => ?_
  have hvs := hall.leaves hps
  obtain ⟨t, vs, rfl⟩ := hvs.exists_cons
  by_cases ht : t.kind = .statementClose
  · refine .of_ok (a := ⟨o.text, ps, t.text⟩) (r := vs) trivial fun extra => ?_
    rw [List.cons_append]
    simp only [expect_cons ht]
    rfl
  · refine .of_unexpected (e := TokenKind.statementClose.label) hvs.ne_nil fun extra => ?_
    rw [List.cons_append]
    simp only [expect, if_neg ht]
    rfl

end Reader

theorem getLast?_append_ne {c : Char} {a b : Text} (ha : a.getLast? ≠ some c)
    (hb : b.getLast? ≠ some c) : (a ++ b).getLast? ≠ some c := by
  intro h
  rw [List.getLast?_append, Option.or_eq_some_iff] at h
  obtain h | ⟨-, h⟩ := h
  · exact hb h
  · exact ha h

/-- Two closing braces are the last ones of what is carved, if they stand where a search finds
them. -/
theorem Skips.eq_nil_of_append_eq {inner a rest : Text} (h : Skips '}' (some '}') inner)
    (ha : a.getLast? ≠ some '\\') (heq : inner ++ ['}', '}'] = a ++ '}' :: '}' :: rest) :
    rest = [] := by
  have hlater : ∀ w, inner = a ++ '}' :: w → (w ++ ['}']).head? ≠ some '}' := by
    rintro w rfl
    obtain ⟨-, hw⟩ := h.of_append ha
    cases hw with
    | plain _ hd _ => exact hd rfl
  -- what is carved ends in the second brace, or one or more characters after it
  obtain rfl | ⟨rest, e, rfl⟩ := rest.eq_nil_or_concat'
  · rfl
  obtain rfl | ⟨rest, d, rfl⟩ := rest.eq_nil_or_concat'
  · have heq : (inner ++ ['}']) ++ ['}'] = (a ++ ['}', '}']) ++ [e] := by simpa using heq
    have hinner : inner ++ ['}'] = (a ++ ['}']) ++ ['}'] := by
      simpa using (List.append_inj' heq rfl).1
    exact (hlater [] (List.append_inj' hinner rfl).1 rfl).elim
  · have heq : inner ++ ['}', '}'] = (a ++ '}' :: '}' :: rest) ++ [d, e] := by simpa using heq
    exact (hlater ('}' :: rest) (List.append_inj' heq rfl).1 rfl).elim

namespace Segment

theorem stopped_tokenize (g : Segment) : Token.Stopped (tokenize g.source) := by
  have hw := wellFormed_of_lexed (lexed_tokenize g.source)
  have hlast : (Token.spelling (tokenize g.source)).getLast? = some '}' := by
    rw [spelling_tokenize]
    simp [Segment.source, List.getLast?_cons]
  obtain hnil | ⟨ts, t, hts⟩ := (tokenize g.source).eq_nil_or_concat'
  · rw [hnil] at hlast
    cases hlast
  rw [hts] at hw hlast ⊢
  have ht : t.WellFormed := hw t (by simp)
  obtain ⟨m, d, hm⟩ := t.text.eq_nil_or_concat'.resolve_left (Token.text_ne_nil ht)
  have htext : t.text.getLast? = some '}' := by
    have hspelling : Token.spelling [t] = t.text := List.append_nil t.text
    rw [Token.spelling_append, hspelling, hm, ← List.append_assoc, List.getLast?_concat] at hlast
    rw [hm, List.getLast?_concat, hlast]
  refine ⟨t, by simp, Classical.byContradiction fun hk => ?_⟩
  by_cases ho : t.kind = .statementOpen
  · obtain ⟨left, rfl⟩ := Token.eq_opening ht ho
    cases left <;> cases htext
  · exact Token.getLast?_ne ht (by simpa [ho] using hk) (by decide) htext

variable {g : Segment} (hg : g.Carved)

include hg

theorem rest_eq_nil {limit : Nat} {o c : Token} {us vs rest : List Token} {ps : Pipelines}
    (ho : Reader.expect .statementOpen (tokenize g.source) = .ok (o, us))
    (hps : Reader.readPipelines (Reader.pipeline limit (limit + 1)) us = .ok (ps, vs))
    (hc : Reader.expect .statementClose vs = .ok (c, rest)) : rest = [] := by
  obtain ⟨hok, hts⟩ := Reader.expect_eq_ok ho
  obtain ⟨hck, rfl⟩ := Reader.expect_eq_ok hc
  obtain ⟨p, rfl, hp⟩ := Reader.readPipelines_eq_ok hps
  obtain ⟨used, rfl, hused, -⟩ := Reader.sound_pipeline limit (limit + 1) hp
  have hw := wellFormed_of_lexed (lexed_tokenize g.source)
  have hsource := spelling_tokenize g.source
  rw [hts] at hw hsource
  simp only [List.forall_mem_cons, List.forall_mem_append] at hw
  obtain ⟨hwo, hwused, hwc, hwrest⟩ := hw
  obtain ⟨left, rfl⟩ := Token.eq_opening hwo hok
  obtain ⟨right, rfl⟩ := Token.eq_closing hwc hck
  have heq : g.inner ++ ['}', '}'] = (if left then ['-'] else []) ++ Token.spelling used ++
      (if right then ['-'] else []) ++ '}' :: '}' :: Token.spelling rest := by
    simpa [Token.spelling, Token.opening, Token.closing, Segment.source] using hsource.symm
  have hlast : ((if left then ['-'] else []) ++ Token.spelling used ++
      (if right then ['-'] else [])).getLast? ≠ some '\\' := by
    have hspelling := Token.getLast?_spelling_ne hwused hused.inner_kind (c := '\\') (by decide)
    exact getLast?_append_ne (getLast?_append_ne (by cases left <;> decide) hspelling)
      (by cases right <;> decide)
  have hnil := Skips.eq_nil_of_append_eq hg.inner hlast heq
  exact Classical.byContradiction fun hne => Token.spelling_ne_nil hwrest hne hnil

theorem readAction_eq_ok {limit : Nat} {a : Action} {rest : List Token}
    (h : Reader.readAction limit (tokenize g.source) = .ok (a, rest)) : rest = [] := by
  obtain ⟨⟨o, us⟩, ho, h⟩ := Reader.bind_eq_ok.1 h
  obtain ⟨⟨ps, vs⟩, hps, h⟩ := Reader.bind_eq_ok.1 h
  obtain ⟨⟨c, rest'⟩, hc, heq⟩ := Reader.bind_eq_ok.1 h
  cases heq
  exact rest_eq_nil hg ho hps hc

theorem ofTokens_tokenize (limit : Nat) : Action.ofTokens limit (tokenize g.source) =
    (Reader.readAction limit (tokenize g.source)).map (·.1) := by
  rw [Reader.ofTokens_eq_bind]
  cases hread : Reader.readAction limit (tokenize g.source) with
  | error f => rfl
  | ok r =>
    obtain ⟨a, rest⟩ := r
    obtain rfl := readAction_eq_ok hg hread
    rfl

theorem not_isEnding_of_ofTokens {limit : Nat} {f : Failure}
    (h : Action.ofTokens limit (tokenize g.source) = .error f) : ¬ f.kind.IsEnding := by
  have hconfined := Reader.confined_readAction limit g.stopped_tokenize
  rw [ofTokens_tokenize hg] at h
  cases hread : Reader.readAction limit (tokenize g.source) with
  | error f' =>
    rw [hread] at h
    cases h
    exact hconfined.error hread
  | ok r =>
    rw [hread] at h
    cases h

/-- Tokens after those of an action are only found to be too many: they change nothing else. -/
theorem ofTokens_append_cons (limit : Nat) (t : Token) (extra : List Token) :
    Action.ofTokens limit (tokenize g.source ++ t :: extra) =
      match Action.ofTokens limit (tokenize g.source) with
      | .ok _ => .error ⟨.trailingTokens t.label, t :: extra⟩
      | .error f => .error ⟨f.kind, f.rest ++ t :: extra⟩ := by
  have happend := (Reader.confined_readAction limit g.stopped_tokenize).append (t :: extra)
  rw [ofTokens_tokenize hg, Reader.ofTokens_eq_bind, happend]
  cases hread : Reader.readAction limit (tokenize g.source) with
  | error f => rfl
  | ok r =>
    obtain ⟨a, rest⟩ := r
    obtain rfl := readAction_eq_ok hg hread
    rfl

end Segment

namespace Parse

variable {limit : Nat} {file : Text}

theorem kind_of_action_error {start : Position} {source : Text} {e : ParseError}
    (h : action limit file start source = .error e) :
    ∃ f, Action.ofTokens limit (tokenize source) = .error f ∧ e.kind = f.kind := by
  unfold action at h
  dsimp only at h
  split at h
  · cases h
  next f hf =>
    cases h
    exact ⟨f, hf, rfl⟩

theorem kind_of_branches_error {start : Position} {gs : List Segment} {e : ParseError}
    (h : branches limit file start gs = .error e) :
    ∃ g ∈ gs, ∃ f, Action.ofTokens limit (tokenize g.source) = .error f ∧ e.kind = f.kind := by
  induction gs generalizing start with
  | nil => cases h
  | cons g gs ih =>
    rw [branches] at h
    cases ha : action limit file (start.after g.before) g.source with
    | error e' =>
      rw [ha] at h
      cases h
      exact ⟨g, List.mem_cons_self, kind_of_action_error ha⟩
    | ok a =>
      cases hbs : branches limit file ((start.after g.before).after g.source) gs with
      | error e' =>
        simp only [ha, hbs, bind, Except.bind] at h
        cases h
        obtain ⟨g', hg', hf⟩ := ih hbs
        exact ⟨g', List.mem_cons_of_mem g hg', hf⟩
      | ok r =>
        simp only [ha, hbs, bind, Except.bind] at h
        cases h

end Parse

theorem kind_of_parse_error {file s : Text} {options : Options} {e : ParseError}
    (h : parse file s options = .error e) : e.kind = .unbalancedDelimiter ∨
      ∃ g ∈ (segments s).1, ∃ f,
        Action.ofTokens options.maxDepth (tokenize g.source) = .error f ∧ e.kind = f.kind := by
  rw [parse] at h
  simp only at h
  cases hbs : Parse.branches options.maxDepth file {} (segments s).1 with
  | error e' =>
    rw [hbs] at h
    cases h
    exact .inr (Parse.kind_of_branches_error hbs)
  | ok r =>
    left
    simp only [hbs, bind, Except.bind] at h
    split at h
    · cases h
      rfl
    · cases h

/-- No template is refused because an action ends too early or because something follows its end.
When the closing delimiter of an action is read it is the last token of the action, and nothing is
looked for after the last token: more tokens there change no outcome but that of an accepted action,
which they follow. -/
theorem parse_error_kind (file s : Text) (options : Options) :
    (∀ e, parse file s options = .error e →
      ∀ w, e.kind ≠ .unexpectedEnd w ∧ e.kind ≠ .trailingTokens w) ∧
    ∀ g ∈ (segments s).1,
      (∀ o us ps vs c rest, Reader.expect .statementOpen (tokenize g.source) = .ok (o, us) →
        Reader.readPipelines (Reader.pipeline options.maxDepth (options.maxDepth + 1)) us =
          .ok (ps, vs) →
        Reader.expect .statementClose vs = .ok (c, rest) → rest = []) ∧
      ∀ t extra, Action.ofTokens options.maxDepth (tokenize g.source ++ t :: extra) =
        match Action.ofTokens options.maxDepth (tokenize g.source) with
        | .ok _ => .error ⟨.trailingTokens t.label, t :: extra⟩
        | .error f => .error ⟨f.kind, f.rest ++ t :: extra⟩ := by
  have hcarved : ∀ g ∈ (segments s).1, g.Carved := carved_of_segments
  refine ⟨fun e he w => ?_, fun g hg => ⟨fun o us ps vs c rest ho hps hc => ?_, fun t extra => ?_⟩⟩
  · have hending : ¬ e.kind.IsEnding := by
      obtain hk | ⟨g, hg, f, hf, hk⟩ := kind_of_parse_error he
      · rw [hk]
        exact id
      · rw [hk]
        exact Segment.not_isEnding_of_ofTokens (hcarved g hg) hf
    constructor <;>
    · intro hk
      rw [hk] at hending
      exact hending trivial
  · exact Segment.rest_eq_nil (hcarved g hg) ho hps hc
  · exact Segment.ofTokens_append_cons (hcarved g hg) options.maxDepth t extra

theorem parse_error_kind_escaped : ∃ e,
    parse [] "\x7b\x7b a \\\x7d\x7d b \x7d\x7d".toList = .error e ∧
    e.kind = .unexpectedCharacter ['\\'] ∧
      ∀ w, e.kind ≠ .unexpectedEnd w ∧ e.kind ≠ .trailingTokens w := by
  have hkind : (match parse [] "\x7b\x7b a \\\x7d\x7d b \x7d\x7d".toList with
      | .ok _ => none
      | .error e => some e.kind) = some (.unexpectedCharacter ['\\']) := by decide +kernel
  cases h : parse [] "\x7b\x7b a \\\x7d\x7d b \x7d\x7d".toList with
  | ok t =>
    rw [h] at hkind
    cases hkind
  | error e =>
    rw [h] at hkind
    exact ⟨e, rfl, Option.some.inj hkind, (parse_error_kind [] _ {}).1 e h⟩

end Stencil
