import Mathlib.Data.List.Infix
import Stencil.Proofs.Neighbours
import Stencil.Proofs.Respelling
import Stencil.Proofs.TreeShape

namespace Stencil

/-- Whether a group begins with variables that are spelled as the head of a loop. -/
def Group.beginsHeader : Group → Bool
  | .ident w :: .space _ :: .assign a :: _ => w = "range".toList ∧ [':', '='] <:+ a
  | _ => false

/-- Whether the variables of a group are read back from their spelling. Floats are left out. -/
structure Group.Spellable (g : Group) : Prop where
  alternate : List.IsChain (fun v w => v.isSpace ≠ w.isSpace) g
  spelled : ∀ v ∈ g, v.WellSpelled ∧ v.kind ≠ .float
  headers : ∀ h, h <:+ g → Group.beginsHeader h = false

/-- Whether an action of such groups ends where its rendering does, and not before. -/
structure Action.Spellable (limit : Nat) (a : Action) : Prop extends
    a.Shaped Group.Spellable limit where
  carved : ∃ inner, nextAction a.render = .found ⟨[], inner⟩ []

def Branch.Spellable (limit : Nat) : Branch → Prop
  | .text s => s ≠ []
  | .action a => a.Spellable limit

/-- Whether a tree is read back from its spelling where so many levels are allowed. Texts stand
before actions or at the end. -/
structure Tree.Spellable (limit : Nat) (t : Tree) : Prop where
  branches : ∀ b ∈ t, b.Spellable limit
  texts : List.IsChain (fun b c => ∀ s ∈ b.text?, c.text? = none ∧
    splitUnescaped '{' (s ++ ['{', '{']) = some (s, [])) t
  last : ∀ b ∈ t.getLast?, ∀ s ∈ b.text?, splitUnescaped '{' s = none

instance (g : Group) : Decidable g.Spellable :=
  decidable_of_iff (List.IsChain (fun v w => v.isSpace ≠ w.isSpace) g ∧
    (∀ v ∈ g, v.WellSpelled ∧ v.kind ≠ .float) ∧ ∀ h ∈ g.tails, Group.beginsHeader h = false)
    ⟨fun h => ⟨h.1, h.2.1, fun t ht => h.2.2 t ((List.mem_tails t g).2 ht)⟩,
      fun h => ⟨h.alternate, h.spelled, fun t ht => h.headers t ((List.mem_tails t g).1 ht)⟩⟩

instance (s : Text) : Decidable (∃ inner, nextAction s = .found ⟨[], inner⟩ []) :=
  match nextAction s with
  | .found ⟨[], inner⟩ [] => isTrue ⟨inner, rfl⟩
  | .found ⟨_ :: _, _⟩ _ => isFalse nofun
  | .found _ (_ :: _) => isFalse nofun
  | .unclosed _ | .absent => isFalse nofun

instance (limit : Nat) (a : Action) : Decidable (a.Spellable limit) :=
  decidable_of_iff (a.Shaped Group.Spellable limit ∧
    ∃ inner, nextAction a.render = .found ⟨[], inner⟩ [])
    ⟨fun ⟨hs, hc⟩ => ⟨hs, hc⟩, fun ⟨hs, hc⟩ => ⟨hs, hc⟩⟩

instance (limit : Nat) : DecidablePred (Branch.Spellable limit)
  | .text s => inferInstanceAs (Decidable (s ≠ []))
  | .action a => inferInstanceAs (Decidable (a.Spellable limit))

instance (limit : Nat) (t : Tree) : Decidable (t.Spellable limit) :=
  decidable_of_iff ((∀ b ∈ t, b.Spellable limit) ∧
    List.IsChain (fun b c => ∀ s ∈ b.text?, c.text? = none ∧
      splitUnescaped '{' (s ++ ['{', '{']) = some (s, [])) t ∧
    ∀ b ∈ t.getLast?, ∀ s ∈ b.text?, splitUnescaped '{' s = none)
    ⟨fun ⟨hb, ht, hl⟩ => ⟨hb, ht, hl⟩, fun ⟨hb, ht, hl⟩ => ⟨hb, ht, hl⟩⟩

theorem Group.Spellable.of_cons {v : Variable} {g : Group} (h : Group.Spellable (v :: g)) :
    Group.Spellable [v] ∧ Group.Spellable g := by
  obtain ⟨halternate, hspelled, hheaders⟩ := h
  rw [List.forall_mem_cons] at hspelled
  refine ⟨⟨.singleton v, List.forall_mem_singleton.2 hspelled.1, fun h hs => ?_⟩,
    halternate.tail, hspelled.2, fun h hs => hheaders h (hs.trans (List.suffix_cons v g))⟩
  obtain rfl | hnil := List.suffix_cons_iff.1 hs
  · cases v <;> rfl
  · rw [List.suffix_nil.1 hnil]
    rfl

abbrev Phrase.Spellable (n : Nat) (x : Phrase) : Prop := x.Shaped Group.Spellable n

namespace Phrase

variable {n : Nat} {v : Variable} {g : Group}

theorem Spellable.of_cons (h : Spellable n (.group (v :: g))) :
    Spellable n (.variable v) ∧ Spellable n (.group g) :=
  have hg : Group.Spellable [v] ∧ Group.Spellable g := h.1.of_cons
  ((shaped_cons_iff hg.1 hg.2).1 h).2

theorem Spellable.of_leaf (h : Spellable n (.variable v)) : v.WellSpelled ∧ v.kind ≠ .float :=
  h.1.spelled v (List.mem_singleton_self v)

end Phrase

namespace Variable

variable {v w : Variable}

theorem isSpace_iff_kind : v.isSpace = true ↔ v.kind = .space := by
  cases v <;> simp [isSpace, kind]

theorem exists_nat_of_toInt_nonneg {n : Int64} (h : 0 ≤ n.toInt) :
    ∃ k : Nat, k < 2 ^ 63 ∧ n = .ofNat k := by
  obtain ⟨k, hk⟩ := Int.eq_ofNat_of_zero_le h
  have hlt := n.toInt_lt
  refine ⟨k, by omega, ?_⟩
  rw [← Int64.ofInt_toInt n, hk]
  rfl

theorem denotes_of_literal {k : TokenKind} (h : Token.LiteralOf ⟨k, v.render⟩ v) :
    Token.Denotes ⟨k, v.render⟩ v ∧ Token.WellFormed ⟨k, v.render⟩ := by
  have hcomment : k ≠ .comment := by
    generalize v.render = s at h
    cases h <;> nofun
  exact ⟨Token.denotes_iff.2 (.inl (Token.toVariable?_render h)),
    Token.wellFormed_of_matches (Token.matches_render h) hcomment⟩

theorem denotes_of_wellSpelled (hv : v.WellSpelled ∧ v.kind ≠ .float)
    (hgroup : v.kind ≠ .groupOpen) :
    Token.Denotes ⟨v.kind, v.render⟩ v ∧ Token.WellFormed ⟨v.kind, v.render⟩ := by
  have hone (h : tokenize v.render = [⟨v.kind, v.render⟩]) :
      Token.WellFormed ⟨v.kind, v.render⟩ := by
    have hw := wellFormed_of_lexed (lexed_tokenize v.render)
    rw [h, List.forall_mem_singleton] at hw
    exact hw
  cases v with
  | string value => exact denotes_of_literal (.string value)
  | rune value => exact denotes_of_literal (.rune value)
  | int n =>
    obtain ⟨k, hk, rfl⟩ := exists_nat_of_toInt_nonneg hv.1
    exact denotes_of_literal (.int hk)
  | float => exact (hv.2 rfl).elim
  | grouping => exact (hgroup rfl).elim
  | _ => exact ⟨by constructor, hone hv.1⟩

theorem keepsApart_of_closes {k : TokenKind} (hk : k ∈ [.pipe, .groupClose, .statementClose]) :
    v.kind.KeepsApart k := by
  simp only [List.mem_cons, List.not_mem_nil, or_false] at hk
  obtain rfl | rfl | rfl := hk <;> cases v <;> simp [kind, TokenKind.KeepsApart]

theorem keepsApart_of_isSpace_ne (h : v.isSpace ≠ w.isSpace) : v.kind.KeepsApart w.kind := by
  cases hv : v.isSpace with
  | true =>
    rw [isSpace_iff_kind.1 hv]
    intro hw
    exact h (hv.trans (isSpace_iff_kind.2 hw).symm)
  | false =>
    have hw : w.isSpace = true := by simpa [hv] using h.symm
    rw [isSpace_iff_kind.1 hw]
    cases v <;> simp [kind, TokenKind.KeepsApart, isSpace] at hv ⊢

theorem tokens_append_eq_cons (v : Variable) (rest : List Token) :
    ∃ s us, v.tokens ++ rest = ⟨v.kind, s⟩ :: us := by
  cases v <;> exact ⟨_, _, rfl⟩

end Variable

namespace Phrase

theorem spells_tokens {n : Nat} {x : Phrase} (h : x.Spellable n) : Spells n x.tokens x := by
  induction x using Phrase.induction generalizing n with
  | leaf v hv =>
    rw [tokens, Variable.tokens_of_kind hv]
    exact Derivation.spells_variable_token (Variable.denotes_of_wellSpelled h.of_leaf hv).1
  | grouping o p c ih =>
    obtain ⟨-, hp⟩ := shaped_grouping_iff.1 h
    exact .grouping (o := ⟨.groupOpen, o⟩) (c := ⟨.groupClose, c⟩) rfl rfl (ih hp)
  | nil => exact .nil
  | cons v g ihv ihg =>
    obtain ⟨hv, hg⟩ := h.of_cons
    refine .cons (ihv hv) (ihg hg) fun hspace w hw => ?_
    have halternate := (List.isChain_cons.1 h.1.alternate).1 w hw
    simpa [hspace] using halternate.symm
  | stage g ih =>
    obtain ⟨m, rfl⟩ := h.exists_succ
    obtain ⟨hne, hg⟩ := shaped_stage_iff.1 h
    exact .stage (ih hg) hne
  | piped g p ihg ihp =>
    obtain ⟨m, rfl⟩ := h.exists_succ
    obtain ⟨hne, hg, hp⟩ := shaped_piped_iff.1 h
    exact .piped (ihg hg) hne rfl (ihp hp)

theorem wellFormed_tokens {n : Nat} {x : Phrase} (h : x.Spellable n) :
    ∀ t ∈ x.tokens, t.WellFormed := by
  induction x using Phrase.induction generalizing n with
  | leaf v hv =>
    rw [tokens, Variable.tokens_of_kind hv, List.forall_mem_singleton]
    exact (Variable.denotes_of_wellSpelled h.of_leaf hv).2
  | grouping o p c ih =>
    obtain ⟨⟨rfl, rfl⟩, -⟩ := h.of_leaf
    obtain ⟨-, hp⟩ := shaped_grouping_iff.1 h
    have hopen : Token.WellFormed ⟨.groupOpen, ['(']⟩ :=
      Token.wellFormed_of_matches (Pattern.matches_char_iff.2 rfl) (by decide)
    have hclose : Token.WellFormed ⟨.groupClose, [')']⟩ :=
      Token.wellFormed_of_matches (Pattern.matches_char_iff.2 rfl) (by decide)
    rw [tokens, Variable.tokens, List.forall_mem_cons, List.forall_mem_append,
      List.forall_mem_singleton]
    exact ⟨hopen, ih hp, hclose⟩
  | nil => simp [tokens, Group.tokens]
  | cons v g ihv ihg =>
    obtain ⟨hv, hg⟩ := h.of_cons
    exact List.forall_mem_append.2 ⟨ihv hv, ihg hg⟩
  | stage g ih =>
    obtain ⟨m, rfl⟩ := h.exists_succ
    obtain ⟨-, hg⟩ := shaped_stage_iff.1 h
    exact ih hg
  | piped g p ihg ihp =>
    obtain ⟨m, rfl⟩ := h.exists_succ
    obtain ⟨-, hg, hp⟩ := shaped_piped_iff.1 h
    have hpipe : Token.WellFormed ⟨.pipe, ['|']⟩ :=
      Token.wellFormed_of_matches (Pattern.matches_char_iff.2 rfl) (by decide)
    exact List.forall_mem_append.2 ⟨ihg hg, List.forall_mem_cons.2 ⟨hpipe, ihp hp⟩⟩

/-- Whether tokens can come after a phrase: after a variable those that stay apart from it, after a
group or a pipeline what ends one. -/
def Precedes (rest : List Token) : Phrase → Prop
  | .variable v => (∀ u ∈ rest.head?, v.kind.KeepsApart u.kind) ∧
      ¬ Token.BeginHeader (⟨v.kind, v.render⟩ :: rest)
  | .group _ | .pipeline _ => ∀ u ∈ rest.head?, u.kind ∈ [.pipe, .groupClose, .statementClose]

section Header

variable {g : Group} {rest : List Token}
  (hrest : ∀ u ∈ rest.head?, u.kind ∈ [.pipe, .groupClose, .statementClose])

include hrest

theorem exists_variable_of_tokens {t : Token} {us : List Token}
    (hends : t.kind ∉ [.pipe, .groupClose, .statementClose]) (hopen : t.kind ≠ .groupOpen)
    (h : Group.tokens g ++ rest = t :: us) :
    ∃ v g', g = v :: g' ∧ t = ⟨v.kind, v.render⟩ ∧ Group.tokens g' ++ rest = us := by
  cases g with
  | nil =>
    exact (hends (hrest t (by rw [show rest = t :: us from h]; rfl))).elim
  | cons v g =>
    rw [Group.tokens, List.append_assoc] at h
    by_cases hv : v.kind = .groupOpen
    · obtain ⟨s, ws, hws⟩ := v.tokens_append_eq_cons (Group.tokens g ++ rest)
      rw [hws] at h
      obtain ⟨rfl, -⟩ := List.cons.inj h
      exact (hopen hv).elim
    · rw [Variable.tokens_of_kind hv] at h
      obtain ⟨rfl, hus⟩ := List.cons.inj h
      exact ⟨v, g, rfl, rfl, hus⟩

theorem beginsHeader_of_tokens {v : Variable}
    (h : Token.BeginHeader (⟨v.kind, v.render⟩ :: (Group.tokens g ++ rest))) :
    Group.beginsHeader (v :: g) = true := by
  obtain ⟨s, a, us, ha, hts⟩ := h
  obtain ⟨hfirst, hts⟩ := List.cons.inj hts
  obtain ⟨w, g, rfl, hw, hts⟩ := exists_variable_of_tokens hrest (by simp) (by simp) hts
  obtain ⟨x, g, rfl, hx, -⟩ := exists_variable_of_tokens hrest (by simp) (by simp) hts
  cases v <;> cases hfirst
  cases w <;> cases hw
  cases x <;> cases hx
  exact decide_eq_true ⟨rfl, ha⟩

end Header

/-- The tokens of what is read back stay apart from one another and from what can come after
them. -/
theorem spaced_tokens {n : Nat} {x : Phrase} {rest : List Token} (h : x.Spellable n)
    (hx : x.Precedes rest) (hrest : Token.Spaced rest) : Token.Spaced (x.tokens ++ rest) := by
  induction x using Phrase.induction generalizing n rest with
  | leaf v hv =>
    rw [tokens, Variable.tokens_of_kind hv]
    exact ⟨hx.1, hx.2, hrest⟩
  | grouping o p c ih =>
    obtain ⟨-, hp⟩ := shaped_grouping_iff.1 h
    have hclose : Token.Spaced (⟨.groupClose, c⟩ :: rest) := Token.spaced_cons (by simp) hrest
    have hbody : Token.Spaced (p.tokens ++ ⟨.groupClose, c⟩ :: rest) :=
      ih hp (fun u hu => by cases hu; simp) hclose
    rw [tokens, Variable.tokens, List.cons_append, List.append_assoc]
    exact Token.spaced_cons (by simp) hbody
  | nil => exact hrest
  | cons v g ihv ihg =>
    obtain ⟨hv, hg⟩ := h.of_cons
    rw [tokens, Group.tokens, List.append_assoc]
    refine ihv hv ⟨fun u hu => ?_, fun hheader => ?_⟩ (ihg hg hx hrest)
    · cases g with
      | nil => exact Variable.keepsApart_of_closes (hx u hu)
      | cons w g =>
        obtain ⟨s, us, hus⟩ := w.tokens_append_eq_cons (Group.tokens g ++ rest)
        rw [Group.tokens, List.append_assoc, hus] at hu
        cases hu
        exact Variable.keepsApart_of_isSpace_ne (List.isChain_cons_cons.1 h.1.alternate).1
    · have hnone := h.1.headers (v :: g) List.suffix_rfl
      rw [beginsHeader_of_tokens hx hheader] at hnone
      cases hnone
  | stage g ih =>
    obtain ⟨m, rfl⟩ := h.exists_succ
    obtain ⟨-, hg⟩ := shaped_stage_iff.1 h
    exact ih hg hx hrest
  | piped g p ihg ihp =>
    obtain ⟨m, rfl⟩ := h.exists_succ
    obtain ⟨-, hg, hp⟩ := shaped_piped_iff.1 h
    have hnext : Token.Spaced (⟨.pipe, ['|']⟩ :: (p.tokens ++ rest)) :=
      Token.spaced_cons (by simp) (ihp hp hx hrest)
    rw [tokens, Pipeline.tokens, List.append_assoc]
    exact ihg hg (fun u hu => by cases hu; simp) hnext

end Phrase

theorem Token.tokenize_delimited {left right : Bool} {ts : List Token}
    (hw : ∀ t ∈ ts, t.WellFormed) (hk : ∀ t ∈ ts, t.kind ∉ [.statementOpen, .statementClose, .text])
    (hne : ts ≠ []) (hs : Spaced (ts ++ [closing right])) :
    tokenize (spelling (opening left :: (ts ++ [closing right]))) =
      opening left :: (ts ++ [closing right]) := by
  have hclosing : (closing right).WellFormed := by
    have hall := wellFormed_of_lexed (lexed_tokenize (closing right).text)
    rw [tokenize_closing, List.forall_mem_singleton] at hall
    exact hall
  refine tokenize_of_lexed (lexed_of_separate (separate_of_spaced ?_ ?_ ⟨?_, ?_, hs⟩))
  · rw [List.forall_mem_cons, List.forall_mem_append, List.forall_mem_singleton]
    exact ⟨wellFormed_opening left, hw, hclosing⟩
  · rw [List.forall_mem_cons, List.forall_mem_append, List.forall_mem_singleton]
    exact ⟨nofun, fun t ht htext => hk t ht (by simp [htext]), nofun⟩
  · obtain ⟨t, ts, rfl⟩ := List.exists_cons_of_ne_nil hne
    rintro u ⟨⟩ hclose
    exact hk t List.mem_cons_self (by simp [hclose])
  · rintro ⟨_, _, _, -, hts⟩
    cases hts

namespace Action.Spellable

variable {limit : Nat} {a : Action} (h : a.Spellable limit)

include h

theorem spellsAction : SpellsAction limit (tokenize a.render) a := by
  obtain ⟨left, p, right, rfl, hp⟩ := Action.shaped_iff.1 h.toShaped
  have hspells : Spells (limit + 1) p.tokens (.pipeline p) := Phrase.spells_tokens hp
  have hw : ∀ t ∈ p.tokens, t.WellFormed := Phrase.wellFormed_tokens hp
  have hend : (Phrase.pipeline p).Precedes [Token.closing right] := by
    rintro u ⟨⟩
    simp [Token.closing]
  have hspaced : Token.Spaced (p.tokens ++ [Token.closing right]) :=
    Phrase.spaced_tokens hp hend (Token.spaced_cons (by simp [Token.closing]) trivial)
  have hbody : Token.spelling p.tokens = p.render := Phrase.spelling_tokens (.pipeline p)
  have hrender : Action.render ⟨(Token.opening left).text, [p], (Token.closing right).text⟩ =
      Token.spelling (Token.opening left :: (p.tokens ++ [Token.closing right])) := by
    simp [Action.render, Pipelines.render, ← hbody, Token.spelling]
  rw [hrender, Token.tokenize_delimited hw hspells.inner_kind hspells.ne_nil_of_pipeline hspaced]
  exact spellsAction_delimited_iff.2 ⟨p, hspells, rfl⟩

theorem exists_segment {s : Text} (hs : Skips '{' (some '{') s) : ∃ g : Segment,
    g.before = s ∧ g.source = a.render ∧ g.Carved ∧ SpellsAction limit (tokenize g.source) a := by
  obtain ⟨inner, hcarved⟩ := h.carved
  obtain ⟨hrender, -, hinner⟩ := nextAction_eq_found_iff.1 hcarved
  have hsource : Segment.source ⟨s, inner⟩ = a.render := by
    rw [hrender]
    exact (List.append_nil _).symm
  refine ⟨⟨s, inner⟩, rfl, hsource, ⟨hs, hinner⟩, ?_⟩
  rw [hsource]
  exact h.spellsAction

end Action.Spellable

def Tree.Segmented (limit : Nat) (t : Tree) : Prop :=
  ∃ gs as tail, t = assemble gs as tail ∧
    t.render = gs.flatMap (fun g => g.before ++ g.source) ++ tail ∧ SpellsActions limit gs as ∧
    (∀ g ∈ gs, g.Carved) ∧ splitUnescaped '{' tail = none

namespace Tree

variable {limit : Nat}

theorem segmented_textBranch {s : Text} (hs : splitUnescaped '{' s = none) :
    Tree.Segmented limit (Parse.textBranch s) :=
  ⟨[], [], s, rfl, render_textBranch s, .nil, by simp, hs⟩

theorem Segmented.cons {a : Action} {s : Text} {t : Tree} (h : t.Segmented limit)
    (ha : a.Spellable limit) (hs : Skips '{' (some '{') s) :
    Tree.Segmented limit (Parse.textBranch s ++ .action a :: t) := by
  obtain ⟨gs, as, tail, rfl, hrender, hspells, hcarved, htail⟩ := h
  obtain ⟨g, rfl, hsource, hg, haction⟩ := ha.exists_segment hs
  refine ⟨g :: gs, a :: as, tail, (assemble_cons ..).symm, ?_, .cons haction hspells,
    List.forall_mem_cons.2 ⟨hg, hcarved⟩, htail⟩
  have hbefore := render_textBranch g.before
  simp only [Tree.render] at hrender hbefore ⊢
  simp [hrender, hbefore, hsource, Branch.render]

theorem Spellable.of_cons {b : Branch} {t : Tree} (h : Tree.Spellable limit (b :: t)) :
    b.Spellable limit ∧ Tree.Spellable limit t := by
  obtain ⟨hb, ht⟩ := List.forall_mem_cons.1 h.branches
  refine ⟨hb, ht, h.texts.tail, fun c hc => h.last c ?_⟩
  rw [List.getLast?_cons, Option.mem_def.1 hc]
  rfl

theorem textBranch_of_ne_nil {s : Text} (hs : s ≠ []) : Parse.textBranch s = [.text s] :=
  if_neg (by simpa using hs)

theorem Spellable.segmented : (t : Tree) → t.Spellable limit → t.Segmented limit
  | [], _ => segmented_textBranch (s := []) rfl
  | .action a :: t, h => by
    obtain ⟨ha, ht⟩ := h.of_cons
    exact (segmented t ht).cons ha .nil
  | [.text s], h => by
    have hne : s ≠ [] := h.of_cons.1
    rw [← textBranch_of_ne_nil hne]
    exact segmented_textBranch (h.last _ rfl s rfl)
  | .text s :: .action a :: t, h => by
    obtain ⟨hne, ht⟩ := h.of_cons
    obtain ⟨ha, ht⟩ := ht.of_cons
    obtain ⟨-, hsplit⟩ := (List.isChain_cons_cons.1 h.texts).1 s rfl
    have htree := (segmented t ht).cons ha (skips_of_splitUnescaped hsplit)
    rwa [textBranch_of_ne_nil hne] at htree
  | .text s :: .text r :: t, h => by
    obtain ⟨hnone, -⟩ := (List.isChain_cons_cons.1 h.texts).1 s rfl
    cases hnone

end Tree

/-- Trees that are spelled as they have to be are parsed from their rendering. -/
theorem parse_render_of_spellable {file : Text} {options : Options} {t : Tree}
    (h : t.Spellable options.maxDepth) : parse file t.render options = .ok t := by
  obtain ⟨gs, as, tail, rfl, hrender, hspells, hcarved, htail⟩ := Tree.Spellable.segmented t h
  have hnone : ∀ g rest, nextAction tail ≠ .found g rest := by
    intro g rest hfound
    rw [nextAction, htail] at hfound
    cases hfound
  refine parse_eq_ok.2 ?_
  rw [hrender, segments_flatMap hcarved hnone]
  exact ⟨htail, as, hspells, rfl⟩

theorem parse_render_of_spellable_nested : ∃ t : Tree,
    t.render = "\\\x7b\x7b \x7b\x7b- range $x|( \"\x7d\\n\" 'x' )\x7d\x7db".toList ∧
      t.Spellable 2 ∧ parse [] t.render ⟨2⟩ = .ok t := by
  refine ⟨[.text "\\\x7b\x7b ".toList,
    .action ⟨['{', '{', '-'],
      [.piped [.space [' '], .ident "range".toList, .space [' '], .keyword "$x".toList]
        (.stage [.grouping ['(']
          (.stage [.space [' '], .string ['\x7d', '\n'], .space [' '], .rune 'x', .space [' ']])
          [')']])],
      ['}', '}']⟩,
    .text ['b']], ?_, ?_, parse_render_of_spellable ?_⟩ <;> decide +kernel

end Stencil
