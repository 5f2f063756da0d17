import Stencil.Proofs.Pruning
import Stencil.Proofs.Respelling
import Stencil.Proofs.TreeTokens

namespace Stencil

namespace TokenKind

def opensGroup : TokenKind → Bool
  | statementOpen | groupOpen | pipe => true
  | _ => false

def closesGroup : TokenKind → Bool
  | statementClose | groupClose | pipe => true
  | _ => false

end TokenKind

theorem Variable.isComment_iff {v : Variable} : v.isComment = true ↔ v.kind = .comment := by
  cases v <;> simp [isComment, kind]

theorem Variable.pruned_of_kind {min : Nat} {v : Variable} (h : v.kind ≠ .groupOpen) :
    v.pruned min = v := by
  cases v <;> first | rfl | exact (h rfl).elim

def Group.isLoneComment : Group → Bool
  | [.comment _] => true
  | _ => false

theorem Group.isLoneComment_iff {g : Group} :
    g.isLoneComment = true ↔ ∃ text, g = [.comment text] := by
  constructor
  · intro h
    unfold isLoneComment at h
    split at h
    · exact ⟨_, rfl⟩
    · cases h
  · rintro ⟨text, rfl⟩
    rfl

namespace Token

/-- Whether one token between others of these kinds is a group on its own. -/
def alone (before after : Option TokenKind) : Bool :=
  before.any (·.opensGroup) && after.any (·.closesGroup)

/-- The tokens without comments, but for those that are a group on their own if these stay. The
kinds are those of the tokens before and after the given ones. -/
def pruneBetween (stay : Bool) (before after : Option TokenKind) : List Token → List Token
  | [] => []
  | t :: ts =>
    let kept := pruneBetween stay (some t.kind) after ts
    let lone := alone before ((ts.head?.map (·.kind)).or after)
    if t.kind = .comment ∧ (stay && lone) = false then kept else t :: kept

/-- The tokens of an action without the comments that are not alone in their group. -/
def prune (ts : List Token) : List Token := pruneBetween true none none ts

variable {stay : Bool} {before after : Option TokenKind} {ts us : List Token}

theorem lastKind_cons {t : Token} : ((t :: ts).getLast?.map (·.kind)).or before =
    (ts.getLast?.map (·.kind)).or (some t.kind) := by
  cases h : ts.getLast? <;> simp [List.getLast?_cons, h]

theorem pruneBetween_append : pruneBetween stay before after (ts ++ us) =
    pruneBetween stay before ((us.head?.map (·.kind)).or after) ts ++
      pruneBetween stay ((ts.getLast?.map (·.kind)).or before) after us := by
  induction ts generalizing before with
  | nil => rfl
  | cons t ts ih =>
    have hnext : ((ts ++ us).head?.map (·.kind)).or after =
        (ts.head?.map (·.kind)).or ((us.head?.map (·.kind)).or after) := by
      cases ts <;> rfl
    rw [List.cons_append, pruneBetween, pruneBetween, hnext, ih, lastKind_cons]
    split <;> rfl

theorem pruneBetween_of_no_comment (h : ∀ t ∈ ts, t.kind ≠ .comment) :
    pruneBetween stay before after ts = ts := by
  induction ts generalizing before with
  | nil => rfl
  | cons t ts ih =>
    rw [List.forall_mem_cons] at h
    rw [pruneBetween, ih h.2, if_neg fun hc => h.1 hc.1]

theorem pruneBetween_cons_of_ne {t : Token} (h : t.kind ≠ .comment) :
    pruneBetween stay before after (t :: ts) = t :: pruneBetween stay (some t.kind) after ts := by
  rw [pruneBetween, if_neg fun hc => h hc.1]

theorem pruneBetween_enclosed {o c : Token} (ho : o.kind ≠ .comment) (hc : c.kind ≠ .comment) :
    pruneBetween stay before after (o :: (ts ++ [c])) =
      o :: (pruneBetween stay (some o.kind) (some c.kind) ts ++ [c]) := by
  rw [pruneBetween_cons_of_ne ho, pruneBetween_append,
    pruneBetween_of_no_comment (List.forall_mem_singleton.2 hc)]
  rfl

theorem pruneBetween_false :
    pruneBetween false before after ts = ts.filter (·.kind != .comment) := by
  induction ts generalizing before with
  | nil => rfl
  | cons t ts ih =>
    by_cases hc : t.kind = .comment
    · simp [pruneBetween, ih, hc]
    · simp [pruneBetween, ih, hc]

theorem variableKind_of_toVariable? {t : Token} {v : Variable}
    (h : t.toVariable? = some (.ok v)) : v.kind = t.kind := by
  cases denotes_of_toVariable? h <;> rfl

theorem closesGroup_of_begins {t : Token} (h : t.kind.beginsVariable = true) :
    t.kind.closesGroup = false := by
  revert h
  cases t.kind <;> decide

/-- A pipe ends the group before it and begins the one after it. -/
theorem alone_pipe {t : Token} (ht : t.kind = .pipe) (h : alone before after = true) :
    alone before (some t.kind) = true ∧ alone (some t.kind) after = true := by
  rw [alone, Bool.and_eq_true] at h
  rw [alone, alone, h.1, h.2, ht]
  exact ⟨rfl, rfl⟩

end Token

namespace Spells

variable {n : Nat} {ts : List Token}

theorem variable_last {v : Variable} (h : Spells n ts (.variable v)) :
    ∃ t, ts.getLast? = some t ∧ t.kind.opensGroup = false := by
  cases h with
  | @token _ t _ h =>
    have hb := (Token.kind_of_toVariable? h).1
    have hg := (Token.kind_of_toVariable? h).2.2
    refine ⟨t, rfl, ?_⟩
    revert hb hg
    cases t.kind <;> decide
  | space hne h =>
    refine ⟨ts.getLast hne, List.getLast?_eq_some_getLast hne, ?_⟩
    rw [h _ (List.getLast_mem hne)]
    rfl
  | @grouping _ o c us p ho hc h =>
    refine ⟨c, by rw [← List.cons_append, List.getLast?_concat], ?_⟩
    rw [hc]
    rfl

end Spells

/-- What it means for the tokens of a phrase to be pruned as the phrase is. A group, or a variable,
is one that is pruned itself if it is longer than what can stand alone in its place. -/
def Phrase.PrunedWith (ts : List Token) : Phrase → Prop
  | .variable v => ∀ before after,
      (Token.pruneBetween true before after ts).flatMap Token.canonical =
        Group.render (Group.prunedAbove (Token.alone before after).toNat [v.pruned 1])
  | .group g => ∀ before after,
      (Token.pruneBetween true before after ts).flatMap Token.canonical =
        Group.render (Group.prunedAbove (Token.alone before after).toNat (Group.prunedInner 1 g))
  | .pipeline p => ∀ before after, Token.alone before after = true →
      (Token.pruneBetween true before after ts).flatMap Token.canonical = (p.pruned 1).render

theorem Group.render_append (g h : Group) :
    Group.render (g ++ h) = Group.render g ++ Group.render h := by
  simp [Group.render_eq_flatMap]

theorem Group.prunedAbove_singleton {min : Nat} {v : Variable} (h : v.isComment = false) :
    Group.prunedAbove min [v] = [v] := by
  unfold Group.prunedAbove
  split
  · rfl
  · simp [Group.pruneComments, h]

theorem Token.prunedWith {t : Token} {v : Variable} (h : t.toVariable? = some (.ok v)) :
    Phrase.PrunedWith [t] (.variable v) := by
  intro before after
  have hkind := Token.variableKind_of_toVariable? h
  have hleaf : v.pruned 1 = v := Variable.pruned_of_kind (hkind ▸ (Token.kind_of_toVariable? h).2.2)
  have hcomment : v.isComment = true ↔ t.kind = .comment := by rw [Variable.isComment_iff, hkind]
  rw [hleaf]
  by_cases hc : t.kind = .comment
  · have hv : v.isComment = true := hcomment.2 hc
    cases ha : Token.alone before after with
    | false =>
      simp [Token.pruneBetween, ha, hc, Group.prunedAbove, Group.pruneComments, hv, Group.render]
    | true =>
      simp [Token.pruneBetween, ha, Group.prunedAbove, Group.render,
        Token.canonical_of_toVariable? h]
  · have hv : v.isComment = false := by rwa [← Bool.not_eq_true, hcomment]
    rw [Group.prunedAbove_singleton hv, Token.pruneBetween_of_no_comment (by simpa using hc)]
    simp [Group.render, Token.canonical_of_toVariable? h]

/-- What tokens spell is rendered without its comments as the tokens without theirs. -/
theorem Spells.prunedWith {n : Nat} {ts : List Token} {x : Phrase} (h : Spells n ts x)
    (hw : ∀ t ∈ ts, t.WellFormed) : x.PrunedWith ts := by
  induction h with
  | token h => exact Token.prunedWith h
  | @space n ts hne h =>
    intro before after
    have hplain : ∀ t ∈ ts, t.kind ≠ .comment := fun t ht => by simp [h t ht]
    have hrender : Variable.render (.space (Token.spelling ts)) = ts.flatMap Token.canonical :=
      (Spells.space (n := n) hne h).render_eq hw
    have hsame : Variable.pruned 1 (.space (Token.spelling ts)) = .space (Token.spelling ts) := rfl
    rw [Token.pruneBetween_of_no_comment hplain, ← hrender, hsame,
      Group.prunedAbove_singleton (by rfl)]
    simp [Group.render]
  | @grouping n o c ts p ho hc h ih =>
    intro before after
    rw [List.forall_mem_cons, List.forall_mem_append] at hw
    have hbody := ih hw.2.1 (some o.kind) (some c.kind) (by rw [ho, hc]; rfl)
    rw [Token.pruneBetween_enclosed (by simp [ho]) (by simp [hc]),
      Token.flatMap_canonical_enclosed (by simp [ho]) (by simp [hc]),
      Group.prunedAbove_singleton (by rfl)]
    simp [Group.render, Variable.pruned, Variable.render, hbody]
  | nil => exact fun before after => rfl
  | @cons n ts us v g hv hg hs ihv ihg =>
    intro before after
    rw [List.forall_mem_append] at hw
    rw [Token.pruneBetween_append, List.flatMap_append, ihv hw.1, ihg hw.2, ← Group.render_append,
      Group.prunedInner]
    obtain ⟨rfl, rfl⟩ | ⟨u, us, w, g, rfl, rfl, hb, -⟩ := hg.group_head
    · have hnil : ∀ m, Group.prunedAbove m (Group.prunedInner 1 []) = [] := fun m => by
        simp [Group.prunedAbove, Group.prunedInner]
      rw [hnil, List.append_nil, Group.prunedInner]
      rfl
    · obtain ⟨t, hlast, ht⟩ := hv.variable_last
      have hfirst : Token.alone before (some u.kind) = false := by
        simp [Token.alone, Token.closesGroup_of_begins hb]
      have hsecond : Token.alone (some t.kind) after = false := by simp [Token.alone, ht]
      have hne : Group.prunedInner 1 (w :: g) ≠ [] := List.cons_ne_nil _ _
      rw [Group.prunedAbove_cons (Bool.toNat_le _) hne, hlast]
      simp only [List.head?_cons, Option.map_some, Option.some_or, hfirst, hsecond,
        Bool.toNat_false]
  | stage hg hne ih =>
    intro before after halone
    rw [ih hw before after, halone]
    rfl
  | @piped n t ts us g p hg hne ht hp ihg ihp =>
    intro before after halone
    rw [List.forall_mem_append, List.forall_mem_cons] at hw
    obtain ⟨hopens, hcloses⟩ := Token.alone_pipe ht halone
    have htext := Token.canonical_of_pipe hw.2.1 ht
    have hleft := ihg hw.1 before (some t.kind)
    have hright := ihp hw.2.2 (some t.kind) after hcloses
    rw [hopens] at hleft
    rw [Token.pruneBetween_append, Token.pruneBetween_cons_of_ne (by simp [ht])]
    simp [hleft, hright, htext, Pipeline.pruned, Pipeline.render]

theorem SpellsAction.render_pruned {limit : Nat} {ts : List Token} {a : Action}
    (h : SpellsAction limit ts a) (hw : ∀ t ∈ ts, t.WellFormed) :
    (a.pruned 1).render = (Token.prune ts).flatMap Token.canonical := by
  obtain ⟨o, c, us, p, ho, hc, hp, rfl, rfl⟩ := h
  rw [List.forall_mem_cons, List.forall_mem_append] at hw
  have hbody := hp.prunedWith hw.2.1 (some o.kind) (some c.kind) (by rw [ho, hc]; rfl)
  rw [Token.prune, Token.pruneBetween_enclosed (by simp [ho]) (by simp [hc]),
    Token.flatMap_canonical_enclosed (by simp [ho]) (by simp [hc]), hbody]
  simp [Action.render, Action.pruned, Pipelines.render]

theorem render_pruned_assemble {limit : Nat} {gs : List Segment} {as : List Action}
    (h : SpellsActions limit gs as) (tail : Text) :
    (Tree.pruned 1 (assemble gs as tail)).render =
      gs.flatMap (fun g => g.before ++ (Token.prune (tokenize g.source)).flatMap Token.canonical) ++
        tail := by
  have htext : ∀ s, (Tree.pruned 1 (Parse.textBranch s)).render = s := by
    intro s
    unfold Parse.textBranch
    cases s <;> simp [Tree.pruned, Tree.render, Branch.pruned, Branch.render]
  induction h with
  | nil => exact htext tail
  | @cons g a gs as ha has ih =>
    have hw := wellFormed_of_lexed (lexed_tokenize g.source)
    have hbefore := htext g.before
    simp only [Tree.pruned, Tree.render] at hbefore ih ⊢
    rw [assemble_cons, List.map_append, List.flatMap_append, hbefore, List.map_cons,
      List.flatMap_cons, ih, Branch.pruned, Branch.render, ha.render_pruned hw]
    simp

def ParseError.inFile (file : Text) (e : ParseError) : ParseError := { e with file }

section File

variable (file file' : Text)

theorem Parse.action_inFile {limit : Nat} {start : Position} {source : Text} :
    Parse.action limit file' start source =
      (Parse.action limit file start source).mapError (·.inFile file') := by
  unfold Parse.action
  simp only
  cases Action.ofTokens limit (tokenize source) <;> rfl

theorem Parse.branches_inFile {limit : Nat} {start : Position} {gs : List Segment} :
    Parse.branches limit file' start gs =
      (Parse.branches limit file start gs).mapError (·.inFile file') := by
  induction gs generalizing start with
  | nil => rfl
  | cons g gs ih =>
    rw [Parse.branches, Parse.branches, Parse.action_inFile file, ih]
    cases Parse.action limit file (start.after g.before) g.source with
    | error e => rfl
    | ok a =>
      cases Parse.branches limit file ((start.after g.before).after g.source) gs <;> rfl

theorem parse_inFile {s : Text} {options : Options} :
    parse file' s options = (parse file s options).mapError (·.inFile file') := by
  unfold parse
  simp only [Parse.branches_inFile file file']
  cases Parse.branches options.maxDepth file {} (segments s).1 with
  | error e => rfl
  | ok r =>
    simp only [bind, Except.bind, Except.mapError]
    cases nextAction (segments s).2 <;> rfl

end File

/-- Pruning fails exactly where parsing does, with the same error but for the file. Else it gives
the template with its literals in canonical spelling and without the comments that are not between
tokens that begin and end a group. -/
theorem pruneComments_eq (file s : Text) :
    pruneComments s = match parse file s with
      | .error e => .error (e.inFile "prune-comments.tmpl".toList)
      | .ok _ => .ok (rewriteActions (fun ts => (Token.prune ts).flatMap Token.canonical) s) := by
  rw [pruneComments, parse_inFile file]
  cases h : parse file s with
  | error e => rfl
  | ok t =>
    obtain ⟨-, as, has, rfl⟩ := parse_eq_ok.1 h
    have hrender := render_pruned_assemble has (segments s).2
    rw [← pruneGroups_fst] at hrender
    exact congrArg Except.ok hrender

end Stencil
