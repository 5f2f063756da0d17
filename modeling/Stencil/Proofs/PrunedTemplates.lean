import Stencil.Proofs.Parting
import Stencil.Proofs.RemovalAgreement
import Stencil.Proofs.Reparsing
import Stencil.Proofs.Skeleton

namespace Stencil

def Phrase.KeepsTokens (keep : TokenKind → Bool) (ts : List Token) : Phrase → Prop
  | .variable v => Group.tokens (v.keeping keep) = (ts.filter (keep ·.kind)).map Token.respelled
  | .group g => Group.tokens (Group.keeping keep g) =
      (ts.filter (keep ·.kind)).map Token.respelled
  | .pipeline p => (p.keeping keep).tokens = (ts.filter (keep ·.kind)).map Token.respelled

theorem Spells.keepsTokens {keep : TokenKind → Bool} (hspace : keep .space = false)
    (hbracket : ∀ k : TokenKind, k.isBracket = true → keep k = true) {n : Nat} {ts : List Token}
    {x : Phrase} (h : Spells n ts x) (hw : ∀ t ∈ ts, t.WellFormed) : x.KeepsTokens keep ts := by
  induction h with
  | @token n t v h =>
    have hkind := Token.variableKind_of_toVariable? h
    have hleaf : v.kind ≠ .groupOpen := hkind ▸ (Token.kind_of_toVariable? h).2.2
    change Group.tokens (v.keeping keep) = _
    cases hk : keep t.kind with
    | false => simp [Variable.keeping_of_not hleaf (hkind ▸ hk), hk, Group.tokens]
    | true =>
      simp [Variable.keeping_of_keep hleaf (hkind ▸ hk), hk, Group.tokens,
        Variable.tokens_of_kind hleaf, hkind, Token.respelled, Token.canonical_of_toVariable? h]
  | @space n ts hne h =>
    have hnil : ts.filter (keep ·.kind) = [] := by
      rw [List.filter_eq_nil_iff]
      intro t ht
      rw [h t ht, hspace]
      exact Bool.false_ne_true
    change Group.tokens (Variable.keeping keep (.space (Token.spelling ts))) = _
    rw [hnil, Variable.keeping_of_not (by simp [Variable.kind]) hspace]
    rfl
  | @grouping n o c ts p ho hc h ih =>
    rw [List.forall_mem_cons, List.forall_mem_append] at hw
    have ih : (p.keeping keep).tokens = _ := ih hw.2.1
    have hopen : keep o.kind = true := hbracket _ (by rw [ho]; rfl)
    have hclose : keep c.kind = true := hbracket _ (by rw [hc]; rfl)
    have ho' : o.respelled = ⟨.groupOpen, o.text⟩ := by
      rw [Token.respelled_of_kind (by simp [ho]), ← ho]
    have hc' : c.respelled = ⟨.groupClose, c.text⟩ := by
      rw [Token.respelled_of_kind (by simp [hc]), ← hc]
    change Group.tokens (Variable.keeping keep (.grouping o.text p c.text)) = _
    simp [Variable.keeping, Group.tokens, Variable.tokens, ih, hopen, hclose, ho', hc']
  | nil => rfl
  | @cons n ts us v g hv hg hs ihv ihg =>
    rw [List.forall_mem_append] at hw
    have ihv : Group.tokens (v.keeping keep) = _ := ihv hw.1
    have ihg : Group.tokens (Group.keeping keep g) = _ := ihg hw.2
    change Group.tokens (Group.keeping keep (v :: g)) = _
    rw [Group.keeping, Group.tokens_append, ihv, ihg, List.filter_append, List.map_append]
  | stage hg hne ih => exact ih hw
  | @piped n t ts us g p hg hne ht hp ihg ihp =>
    rw [List.forall_mem_append, List.forall_mem_cons] at hw
    have ihg : Group.tokens (Group.keeping keep g) = _ := ihg hw.1
    have ihp : (p.keeping keep).tokens = _ := ihp hw.2.2
    have hpipe : keep t.kind = true := hbracket _ (by rw [ht]; rfl)
    have ht' : t.respelled = ⟨.pipe, ['|']⟩ := by
      rw [Token.respelled_of_kind (by simp [ht]), ← ht, ← Token.text_of_pipe hw.2.1 ht]
    change (Pipeline.keeping keep (.piped g p)).tokens = _
    simp [Pipeline.keeping, Pipeline.tokens, ihg, ihp, hpipe, ht']

theorem TokenKind.isEssential_of_isBracket (k : TokenKind) (h : k.isBracket = true) :
    k.isEssential = true := by
  revert h
  cases k <;> decide

namespace Token

variable {before after : Option TokenKind} {stay : Bool} {ts us : List Token}

def pruneInner (us : List Token) : List Token :=
  pruneBetween true (some .statementOpen) (some .statementClose) us

theorem prune_delimited (left right : Bool) : prune (opening left :: (us ++ [closing right])) =
    opening left :: (pruneInner us ++ [closing right]) := by
  rw [prune, pruneBetween_enclosed (by simp [opening]) (by simp [closing])]
  rfl

theorem filter_pruneBetween (keep : TokenKind → Bool) (hcomment : keep .comment = false) :
    (pruneBetween stay before after ts).filter (keep ·.kind) = ts.filter (keep ·.kind) := by
  induction ts generalizing before with
  | nil => rfl
  | cons t ts ih =>
    rw [pruneBetween]
    split
    next h => rw [ih, List.filter_cons_of_neg (by simp [h.1, hcomment])]
    next => rw [List.filter_cons, List.filter_cons, ih]

theorem filter_delimited (keep : TokenKind → Bool) {left right : Bool}
    (hopen : keep .statementOpen = true) (hclose : keep .statementClose = true) :
    (opening left :: (us ++ [closing right])).filter (keep ·.kind) =
      opening left :: (us.filter (keep ·.kind) ++ [closing right]) := by
  simp [opening, closing, hopen, hclose]

theorem filter_pruneInner : ((pruneInner us).map respelled).filter (·.kind.isEssential) =
    (us.filter (·.kind.isEssential)).map respelled := by
  rw [List.filter_map, ← filter_pruneBetween TokenKind.isEssential rfl]
  rfl

theorem takesComments_prune : TakesComments prune := by
  intro left us right
  refine ⟨_, prune_delimited left right, pruneBetween_subset, fun t ht hc => ?_⟩
  have hmem : t ∈ us.filter (·.kind != .comment) := List.mem_filter.2 ⟨ht, by simpa using hc⟩
  rw [← filter_pruneBetween (· != .comment) rfl] at hmem
  exact (List.mem_filter.1 hmem).1

theorem gapless_map_respelled :
    Gapless before after (ts.map respelled) ↔ Gapless before after ts := by
  induction ts generalizing before with
  | nil => exact Iff.rfl
  | cons t ts ih => exact and_congr_right fun _ => ih

theorem respelled_respelled {t : Token} (hv : t.HasValue) :
    t.respelled.respelled = t.respelled := by
  by_cases hk : t.kind ∈ [.string, .rune, .float, .int]
  · obtain ⟨v, hvalue, -⟩ := exists_literal hv hk
    rw [respelled, ← canonical_of_toVariable? (toVariable?_respelled hvalue),
      canonical_of_toVariable? hvalue, respelled]
  · rw [respelled_of_kind hk, respelled_of_kind hk]

end Token

/-- The segment with its action pruned and in canonical spelling. -/
def Segment.pruned (g : Segment) : Segment := g.withTokens (Token.prune (tokenize g.source))

namespace Segment.Holds

variable {limit : Nat} {g : Segment} {left right : Bool} {us : List Token} {p : Pipeline}
  (h : g.Holds limit left us right p)

include h

theorem map_prune : (Token.prune (tokenize g.source)).map Token.respelled =
    Token.opening left :: ((Token.pruneInner us).map Token.respelled ++ [Token.closing right]) := by
  rw [h.tokens, Token.prune_delimited, List.map_cons, List.map_append, List.map_singleton,
    Token.respelled_opening, Token.respelled_closing]

theorem wellFormed_prune :
    ∀ t ∈ (Token.prune (tokenize g.source)).map Token.respelled, t.WellFormed := by
  rw [List.forall_mem_map]
  intro t ht
  have hmem := Token.pruneBetween_subset t ht
  exact Token.wellFormed_respelled (wellFormed_of_lexed (lexed_tokenize g.source) t hmem)
    (h.spellsAction.hasValue t hmem)

theorem kind_prune :
    ∀ t ∈ (Token.prune (tokenize g.source)).map Token.respelled, t.kind ≠ .text := by
  rw [List.forall_mem_map]
  exact fun t ht => h.spellsAction.kind_ne_text t (Token.pruneBetween_subset t ht)

theorem source_pruned : g.pruned.source =
    Token.spelling ((Token.prune (tokenize g.source)).map Token.respelled) := by
  rw [Token.spelling_map_respelled, pruned, h.tokens, Token.prune_delimited, source_withTokens]

theorem wellFormed_pruned : ∀ t ∈ (Token.pruneInner us).map Token.respelled, t.WellFormed := by
  have hw := h.wellFormed_prune
  rw [h.map_prune, List.forall_mem_cons, List.forall_mem_append] at hw
  exact hw.2.1

theorem known_pruned : ∀ t ∈ (Token.pruneInner us).map Token.respelled, t.Known := by
  rw [List.forall_mem_map]
  intro t ht
  have hmem := Token.pruneBetween_subset t ht
  exact ⟨h.inner_kind t hmem, h.spells.respelled.hasValue _ (List.mem_map_of_mem hmem)⟩

theorem gapless_pruned_iff :
    Token.Gapless (some .statementOpen) (some .statementClose)
        ((Token.pruneInner us).map Token.respelled) ↔ ∀ h ∈ p.groups, h.Keeps true := by
  rw [Token.gapless_map_respelled]
  exact h.spells.gaplessPruned _ _ rfl

theorem exists_relexed_pruned (hne : Token.pruneInner us ≠ []) :
    ∃ ws, tokenize g.pruned.source = Token.opening left :: (ws ++ [Token.closing right]) ∧
      Token.Relexed ((Token.pruneInner us).map Token.respelled) ws := by
  have hclose : Token.spelling [Token.closing right] = (Token.closing right).text := by
    simp [Token.spelling]
  rw [h.source_pruned, h.map_prune, Token.spelling_cons, Token.spelling_append, hclose]
  exact Token.exists_relexed_action h.wellFormed_pruned (fun t ht => (h.known_pruned t ht).inner)
    (by simpa using hne) left right

theorem pruneInner_ne_nil {a : Action} (ha : SpellsAction limit (tokenize g.pruned.source) a) :
    Token.pruneInner us ≠ [] := by
  intro hnil
  rw [h.source_pruned, h.map_prune, hnil] at ha
  exact Token.not_spellsAction_delimiters left right a (by simpa [Token.spelling] using ha)

/-- An action that says the same when it is pruned keeps something in each group, and no tokens of
it join. -/
theorem keeps_and_parted {a : Action} (ha : SpellsAction limit (tokenize g.pruned.source) a)
    (hsame : a.keeping TokenKind.isEssential = Action.keeping TokenKind.isEssential
      ⟨(Token.opening left).text, [p], (Token.closing right).text⟩) :
    (∀ h ∈ p.groups, h.Keeps true) ∧
      Token.Parted ((Token.prune (tokenize g.source)).map Token.respelled) := by
  obtain ⟨ws, hws, hrelexed⟩ := h.exists_relexed_pruned (h.pruneInner_ne_nil ha)
  rw [hws] at ha
  obtain ⟨q, hq, rfl⟩ := spellsAction_delimited_iff.1 ha
  refine ⟨h.gapless_pruned_iff.1 (hrelexed.gapless_iff.2 (hq.gapless _ _)), ?_⟩
  have hww : ∀ t ∈ ws, t.WellFormed := by
    have hw := wellFormed_of_lexed (lexed_tokenize g.pruned.source)
    rw [hws, List.forall_mem_cons, List.forall_mem_append] at hw
    exact hw.2.1
  have hkeeping : q.keeping TokenKind.isEssential = p.keeping TokenKind.isEssential := by
    simpa [Action.keeping] using hsame
  have hleft : (q.keeping TokenKind.isEssential).tokens = _ :=
    hq.keepsTokens rfl TokenKind.isEssential_of_isBracket hww
  have hright : (p.keeping TokenKind.isEssential).tokens = _ :=
    h.spells.keepsTokens rfl TokenKind.isEssential_of_isBracket h.wellFormed
  have hfilter : (ws.filter (·.kind.isEssential)).map Token.respelled =
      ((Token.pruneInner us).map Token.respelled).filter (·.kind.isEssential) := by
    rw [Token.filter_pruneInner, ← hleft, hkeeping, hright]
  refine (Token.parted_of_filter_tokenize h.wellFormed_prune h.kind_prune
    (List.forall_mem_nil _) ?_).2
  rw [← h.source_pruned, hws, h.map_prune, Token.filter_delimited TokenKind.isEssential rfl rfl,
    Token.filter_delimited TokenKind.isEssential rfl rfl, ← hfilter]
  simp [Token.respelled_opening, Token.respelled_closing]

theorem exists_spellsAction_pruned (hkeeps : ∀ h ∈ p.groups, h.Keeps true)
    (hparted : Token.Parted ((Token.prune (tokenize g.source)).map Token.respelled)) :
    ∃ a, SpellsAction limit (tokenize g.pruned.source) a ∧
      a.keeping TokenKind.isEssential = Action.keeping TokenKind.isEssential
        ⟨(Token.opening left).text, [p], (Token.closing right).text⟩ := by
  have hgapless := h.gapless_pruned_iff.2 hkeeps
  have hne : Token.pruneInner us ≠ [] := by
    intro hnil
    rw [hnil] at hgapless
    cases hgapless
  obtain ⟨ws, hws, hrelexed⟩ := h.exists_relexed_pruned hne
  have hfilter := Token.filter_tokenize_of_parted h.wellFormed_prune h.kind_prune hparted
  rw [← h.source_pruned, hws, h.map_prune, Token.filter_delimited (· != .space) rfl rfl,
    Token.filter_delimited (· != .space) rfl rfl] at hfilter
  have hspaces : ws.filter (·.kind != .space) =
      ((Token.pruneInner us).map Token.respelled).filter (·.kind != .space) :=
    List.append_cancel_right (List.cons.inj hfilter).2
  have hknown : ∀ t ∈ ws, t.Known := by
    intro t ht
    by_cases hs : t.kind = .space
    · exact ⟨by simp [hs], fun r hr => ((Token.kind_of_toVariable? hr).2.1 hs).elim⟩
    · have hmem : t ∈ ws.filter (·.kind != .space) := List.mem_filter.2 ⟨ht, by simpa using hs⟩
      rw [hspaces] at hmem
      exact h.known_pruned t (List.mem_filter.1 hmem).1
  have hsame : KeepsSame TokenKind.isEssential us ws := by
    rw [KeepsSame, Token.filter_isEssential ws, hspaces, ← Token.filter_isEssential,
      Token.filter_pruneInner, List.map_map]
    refine List.map_congr_left fun t ht => Token.respelled_respelled ?_
    exact h.spells.hasValue t (List.mem_filter.1 ht).1
  obtain ⟨q, hq, hkeeping⟩ := h.spells.spelledBy rfl TokenKind.isEssential_of_isBracket ws _ _ rfl
    hsame hknown (hrelexed.gapless_iff.1 hgapless)
  rw [hws]
  refine ⟨_, spellsAction_delimited_iff.2 ⟨q, hq, rfl⟩, ?_⟩
  simp [Action.keeping, hkeeping]

end Segment.Holds

theorem SpellsAction.exists_pruned_iff {limit : Nat} {g : Segment} {a : Action}
    (h : SpellsAction limit (tokenize g.source) a) :
    (∃ b, SpellsAction limit (tokenize g.pruned.source) b ∧
      b.keeping TokenKind.isEssential = a.keeping TokenKind.isEssential) ↔
      (∀ h ∈ a.groups, h.Keeps true) ∧
        Token.Parted ((Token.prune (tokenize g.source)).map Token.respelled) := by
  obtain ⟨left, us, right, p, hholds, rfl⟩ := spellsAction_iff.1 h
  rw [Action.groups_singleton]
  constructor
  · rintro ⟨b, hb, hsame⟩
    exact hholds.keeps_and_parted hb hsame
  · rintro ⟨hkeeps, hparted⟩
    exact hholds.exists_spellsAction_pruned hkeeps hparted

theorem SpellsActions.exists_pruned_iff {limit : Nat} {gs : List Segment} {as : List Action}
    (h : SpellsActions limit gs as) :
    (∃ bs, SpellsActions limit (gs.map Segment.pruned) bs ∧
      bs.map (Action.keeping TokenKind.isEssential) =
        as.map (Action.keeping TokenKind.isEssential)) ↔
      (∀ a ∈ as, ∀ h ∈ a.groups, h.Keeps true) ∧
        ∀ g ∈ gs, Token.Parted ((Token.prune (tokenize g.source)).map Token.respelled) := by
  induction h with
  | nil => simp [SpellsActions]
  | @cons g a gs as ha has ih =>
    have hfirst := ha.exists_pruned_iff
    rw [List.forall_mem_cons, List.forall_mem_cons]
    constructor
    · rintro ⟨_, _ | ⟨hb, hbs⟩, hsame⟩
      obtain ⟨hsame, hrest⟩ := List.cons.inj hsame
      obtain ⟨hkeeps, hparted⟩ := hfirst.1 ⟨_, hb, hsame⟩
      obtain ⟨hkeeps', hparted'⟩ := ih.1 ⟨_, hbs, hrest⟩
      exact ⟨⟨hkeeps, hkeeps'⟩, hparted, hparted'⟩
    · rintro ⟨⟨hkeeps, hkeeps'⟩, hparted, hparted'⟩
      obtain ⟨b, hb, hsame⟩ := hfirst.2 ⟨hkeeps, hparted⟩
      obtain ⟨bs, hbs, hrest⟩ := ih.2 ⟨hkeeps', hparted'⟩
      exact ⟨b :: bs, .cons hb hbs, by rw [List.map_cons, List.map_cons, hsame, hrest]⟩

theorem Tree.actions_keeping (keep : TokenKind → Bool) (t : Tree) :
    (t.keeping keep).actions = t.actions.map (Action.keeping keep) := by
  induction t with
  | nil => rfl
  | cons b t ih =>
    simp only [Tree.keeping, Tree.actions] at ih ⊢
    cases b with
    | text s => exact ih
    | action a => exact congrArg (a.keeping keep :: ·) ih

theorem Tree.groups_eq_flatMap (t : Tree) : t.groups = t.actions.flatMap Action.groups := by
  induction t with
  | nil => rfl
  | cons b t ih =>
    simp only [Tree.groups, Tree.actions] at ih ⊢
    cases b with
    | text s => exact ih
    | action a => exact congrArg (a.groups ++ ·) ih

theorem keeping_assemble (keep : TokenKind → Bool) (gs : List Segment) (as : List Action)
    (tail : Text) : Tree.keeping keep (assemble gs as tail) =
      assemble gs (as.map (Action.keeping keep)) tail := by
  have htext : ∀ s, Tree.keeping keep (Parse.textBranch s) = Parse.textBranch s := by
    intro s
    unfold Parse.textBranch
    cases s <;> rfl
  induction gs generalizing as with
  | nil => exact htext tail
  | cons g gs ih =>
    cases as with
    | nil => exact htext tail
    | cons a as =>
      rw [assemble_cons, List.map_cons, assemble_cons, ← ih, Tree.keeping, List.map_append,
        List.map_cons]
      exact congrArg (· ++ _) (htext g.before)

theorem assemble_pruned (gs : List Segment) (as : List Action) (tail : Text) :
    assemble (gs.map Segment.pruned) as tail = assemble gs as tail := by
  induction gs generalizing as with
  | nil => rfl
  | cons g gs ih =>
    cases as with
    | nil => rfl
    | cons a as =>
      rw [List.map_cons, assemble_cons, assemble_cons, ih]
      rfl

instance (stay : Bool) (g : Group) : Decidable (g.Keeps stay) :=
  inferInstanceAs (Decidable (_ ∨ _))

theorem exists_parse_iff_exists_spellsActions {file r tail : Text} {options : Options}
    {gs : List Segment} {as : List Action} (has : SpellsActions options.maxDepth gs as)
    (hclosed : splitUnescaped '{' tail = none)
    (hsegments : segments r = (gs.map Segment.pruned, tail)) :
    (∃ u, parse file r options = .ok u ∧ u.keeping TokenKind.isEssential =
      (assemble gs as tail).keeping TokenKind.isEssential) ↔
      ∃ bs, SpellsActions options.maxDepth (gs.map Segment.pruned) bs ∧
        bs.map (Action.keeping TokenKind.isEssential) =
          as.map (Action.keeping TokenKind.isEssential) := by
  simp only [parse_eq_ok, hsegments]
  constructor
  · rintro ⟨_, ⟨-, bs, hbs, rfl⟩, hsame⟩
    have hactions := congrArg Tree.actions hsame
    rw [Tree.actions_keeping, Tree.actions_keeping, actions_assemble hbs,
      actions_assemble has] at hactions
    exact ⟨bs, hbs, hactions⟩
  · rintro ⟨bs, hbs, hsame⟩
    refine ⟨_, ⟨hclosed, bs, hbs, rfl⟩, ?_⟩
    rw [assemble_pruned, keeping_assemble, hsame, keeping_assemble]

/-- The pruned template is accepted and says the same, spaces and comments aside, exactly if no
string of it has two closing braces in a row, each group keeps something, if only a comment that is
alone in it, and no tokens join that are left. -/
theorem parse_pruneComments {file s : Text} {t : Tree} (h : parse file s = .ok t) :
    ∃ r, pruneComments s = .ok r ∧
      ((∃ u, parse file r = .ok u ∧
        u.keeping TokenKind.isEssential = t.keeping TokenKind.isEssential) ↔
        (∀ v ∈ t.strings, ¬ ['}', '}'] <:+: v) ∧ (∀ g ∈ t.groups, g.Keeps true) ∧
          ∀ g ∈ (segments s).1,
            Token.Parted ((Token.prune (tokenize g.source)).map Token.respelled)) := by
  refine ⟨_, by rw [pruneComments_eq file, h], ?_⟩
  obtain ⟨hclosed, as, has, rfl⟩ := parse_eq_ok.1 h
  have hcarved : ∀ g ∈ (segments s).1, g.Carved := carved_of_segments
  have hbreaks := exists_breaks_iff has (segments s).2
  rw [rewriteActions]
  by_cases hb : ∃ g ∈ (segments s).1, g.Breaks
  · constructor
    · rintro ⟨u, hu, -⟩
      obtain ⟨-, bs, hbs, -⟩ := parse_eq_ok.1 hu
      obtain ⟨c, hc, hrefused⟩ :=
        exists_refused_withTokens Token.takesComments_prune has hcarved hb _
      obtain ⟨b, hb⟩ := hbs.exists_of_mem hc
      exact (hrefused b hb).elim
    · rintro ⟨hclean, -⟩
      obtain ⟨v, hv, hbraces⟩ := hbreaks.1 hb
      exact (hclean v hv hbraces).elim
  · have hclean : ∀ v ∈ (assemble (segments s).1 as (segments s).2).strings,
        ¬ ['}', '}'] <:+: v := fun v hv hbraces => hb (hbreaks.2 ⟨v, hv, hbraces⟩)
    have hsegments := segments_withTokens Token.takesComments_prune has hcarved
      (fun g hg hbreak => hb ⟨g, hg, hbreak⟩) (nextAction_ne_found_of_segments s)
    rw [exists_parse_iff_exists_spellsActions has hclosed hsegments, has.exists_pruned_iff,
      Tree.groups_eq_flatMap, actions_assemble has, List.forall_mem_flatMap]
    exact ⟨fun hrest => ⟨hclean, hrest⟩, And.right⟩

theorem parse_pruneComments_nested : ∃ t r u,
    parse [] "\x7b\x7b f /* c */ \"a\" | ( g/* d */ 1.50 )\x7d\x7d\x7b\x7b/* e */\x7d\x7d".toList =
      .ok t ∧
    pruneComments
      "\x7b\x7b f /* c */ \"a\" | ( g/* d */ 1.50 )\x7d\x7d\x7b\x7b/* e */\x7d\x7d".toList = .ok r ∧
    parse [] r = .ok u ∧ u.keeping TokenKind.isEssential = t.keeping TokenKind.isEssential := by
  obtain ⟨t, ht⟩ : ∃ t, parse []
      "\x7b\x7b f /* c */ \"a\" | ( g/* d */ 1.50 )\x7d\x7d\x7b\x7b/* e */\x7d\x7d".toList = .ok t :=
    Except.exists_of_isOk (by decide +kernel)
  have htree : ((parse []
      "\x7b\x7b f /* c */ \"a\" | ( g/* d */ 1.50 )\x7d\x7d\x7b\x7b/* e */\x7d\x7d".toList).toOption.any
      fun t => decide ((∀ v ∈ t.strings, ¬ ['}', '}'] <:+: v) ∧ ∀ g ∈ t.groups, g.Keeps true)) =
        true := by decide +kernel
  rw [ht] at htree
  obtain ⟨hclean, hkeeps⟩ := of_decide_eq_true htree
  obtain ⟨r, hr, hiff⟩ := parse_pruneComments ht
  obtain ⟨u, hu, hsame⟩ := hiff.2 ⟨hclean, hkeeps, by decide +kernel⟩
  exact ⟨t, r, u, ht, hr, hu, hsame⟩

/-- Not every accepted template is accepted when it is pruned: the comments of this one are two in
one group, and none of them stays. -/
theorem parse_pruneComments_ne : ¬ ∀ (s : Text) (t : Tree), parse [] s = .ok t →
    ∃ r u, pruneComments s = .ok r ∧ parse [] r = .ok u ∧
      u.keeping TokenKind.isEssential = t.keeping TokenKind.isEssential := by
  intro h
  obtain ⟨t, ht⟩ : ∃ t, parse [] "\x7b\x7b/* a *//* b */\x7d\x7d".toList = .ok t :=
    Except.exists_of_isOk (by decide +kernel)
  have hrefused : ((pruneComments "\x7b\x7b/* a *//* b */\x7d\x7d".toList).bind (parse [])).isOk =
      false := by decide +kernel
  obtain ⟨r, u, hr, hu, -⟩ := h _ t ht
  rw [hr, Except.bind, hu] at hrefused
  cases hrefused

end Stencil
