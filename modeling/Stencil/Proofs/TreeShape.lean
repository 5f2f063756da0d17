import Mathlib.Data.List.Chain
import Stencil.Proofs.Derivations
import Stencil.Proofs.Parting
import Stencil.Proofs.TreeTokens
import Stencil.Proofs.Unescaped
import Stencil.Tree.Edit
import Stencil.Tree.Groups

namespace Stencil

/-- Whether a variable is spelled as one of its kind. The texts that the tree has as they are
spelled are one token each; what a string or a rune holds has a spelling in any case. -/
def Variable.WellSpelled : Variable → Prop
  | .string _ | .rune _ => True
  | .float x => x.isFinite = true
  | .int n => 0 ≤ n.toInt
  | .grouping opener _ closer => opener = ['('] ∧ closer = [')']
  | v => tokenize v.render = [⟨v.kind, v.render⟩]

instance : DecidablePred Variable.WellSpelled
  | .string _ | .rune _ => inferInstanceAs (Decidable True)
  | .float x => inferInstanceAs (Decidable (x.isFinite = true))
  | .int n => inferInstanceAs (Decidable (0 ≤ n.toInt))
  | .grouping opener _ closer => inferInstanceAs (Decidable (opener = ['('] ∧ closer = [')']))
  | .assign _ | .range _ | .ident _ | .keyword _ | .literal _ | .space _ | .comment _ =>
    inferInstanceAs (Decidable (_ = _))

structure Group.WellShaped (g : Group) : Prop where
  spaces : List.IsChain (fun v w => v.isSpace = true → w.isSpace = false) g
  spelled : ∀ v ∈ g, v.WellSpelled
  literals : ∀ s, Variable.literal s ∈ g → '`' ∉ s

/-- An action with the delimiters of one and one pipeline, where no group lies deeper than `limit`
levels and each is like `Q` says. -/
structure Action.Shaped (Q : Group → Prop) (limit : Nat) (a : Action) : Prop where
  opener : a.opener ∈ [['{', '{'], ['{', '{', '-']]
  closer : a.closer ∈ [['}', '}'], ['-', '}', '}']]
  pipeline : ∃ p, a.pipelines = [p]
  groups : ∀ g ∈ a.groups, g ≠ [] ∧ Q g
  nesting : a.nesting ≤ limit

def Branch.WellShaped (limit : Nat) : Branch → Prop
  | .text s => s ≠ [] ∧ ¬ s.HasUnescaped '{'
  | .action a => a.Shaped Group.WellShaped limit

/-- What the tree of a template is like if so many levels are allowed. -/
structure Tree.WellShaped (limit : Nat) (t : Tree) : Prop where
  branches : ∀ b ∈ t, b.WellShaped limit
  texts : List.IsChain (fun b c => b.text?.isSome = true → c.text? = none) t

/-- What it means for a phrase that the groups in it are like `Q` says and that there are so many
levels or fewer inside it. A variable counts as a group of its own. -/
def Phrase.Shaped (Q : Group → Prop) (n : Nat) : Phrase → Prop
  | .variable v => Q [v] ∧ (∀ h ∈ v.groups, h ≠ [] ∧ Q h) ∧ v.nesting ≤ n
  | .group g => Q g ∧ (∀ h ∈ Group.inner g, h ≠ [] ∧ Q h) ∧ Group.nesting g ≤ n
  | .pipeline p => (∀ h ∈ p.groups, h ≠ [] ∧ Q h) ∧ p.nesting < n

namespace Phrase

variable {Q : Group → Prop} {n : Nat} {v : Variable} {g : Group} {p : Pipeline}

theorem shaped_grouping_iff {o c : Text} : Shaped Q n (.variable (.grouping o p c)) ↔
    Q [.grouping o p c] ∧ Shaped Q n (.pipeline p) := Iff.rfl

theorem shaped_cons_iff (hv : Q [v]) (hg : Q g) : Shaped Q n (.group (v :: g)) ↔
    Q (v :: g) ∧ Shaped Q n (.variable v) ∧ Shaped Q n (.group g) := by
  simp only [Shaped, Group.inner, Group.nesting, List.forall_mem_append, Nat.max_le, hv, hg,
    true_and]
  grind

theorem shaped_stage_iff : Shaped Q (n + 1) (.pipeline (.stage g)) ↔
    g ≠ [] ∧ Shaped Q n (.group g) := by
  simp only [Shaped, Pipeline.groups, Pipeline.nesting, List.forall_mem_cons, Nat.lt_succ_iff,
    and_assoc]

theorem shaped_piped_iff : Shaped Q (n + 1) (.pipeline (.piped g p)) ↔
    g ≠ [] ∧ Shaped Q n (.group g) ∧ Shaped Q n (.pipeline p) := by
  simp only [Shaped, Pipeline.groups, Pipeline.nesting, List.cons_append, List.forall_mem_cons,
    List.forall_mem_append, Nat.lt_succ_iff, Nat.max_le, Nat.succ_le_iff]
  grind

theorem Shaped.exists_succ (h : Shaped Q n (.pipeline p)) : ∃ m, n = m + 1 :=
  Nat.exists_eq_add_of_le' (Nat.one_le_of_lt h.2)

end Phrase

instance {Q : Group → Prop} [DecidablePred Q] (limit : Nat) (a : Action) :
    Decidable (a.Shaped Q limit) :=
  decidable_of_iff (a.opener ∈ [['{', '{'], ['{', '{', '-']] ∧
    a.closer ∈ [['}', '}'], ['-', '}', '}']] ∧ a.pipelines.length = 1 ∧
    (∀ g ∈ a.groups, g ≠ [] ∧ Q g) ∧ a.nesting ≤ limit)
    ⟨fun ⟨ho, hc, hp, hg, hn⟩ => ⟨ho, hc, List.length_eq_one_iff.1 hp, hg, hn⟩,
      fun ⟨ho, hc, hp, hg, hn⟩ => ⟨ho, hc, List.length_eq_one_iff.2 hp, hg, hn⟩⟩

theorem Action.shaped_iff {Q : Group → Prop} {limit : Nat} {a : Action} :
    a.Shaped Q limit ↔ ∃ left p right,
      a = ⟨(Token.opening left).text, [p], (Token.closing right).text⟩ ∧
        (Phrase.pipeline p).Shaped Q (limit + 1) := by
  constructor
  · obtain ⟨opener, pipelines, closer⟩ := a
    rintro ⟨hopener, hcloser, ⟨p, rfl⟩, hgroups, hnesting⟩
    have hopen : ∃ left, opener = (Token.opening left).text := by
      obtain rfl | hopener := List.mem_cons.1 hopener
      · exact ⟨false, rfl⟩
      · exact ⟨true, List.mem_singleton.1 hopener⟩
    have hclose : ∃ right, closer = (Token.closing right).text := by
      obtain rfl | hcloser := List.mem_cons.1 hcloser
      · exact ⟨false, rfl⟩
      · exact ⟨true, List.mem_singleton.1 hcloser⟩
    obtain ⟨left, rfl⟩ := hopen
    obtain ⟨right, rfl⟩ := hclose
    refine ⟨left, p, right, rfl, ?_, ?_⟩
    · simpa [Action.groups, Pipelines.groups] using hgroups
    · simpa [Action.nesting, Pipelines.nesting, Nat.lt_succ_iff] using hnesting
  · rintro ⟨left, p, right, rfl, hgroups, hnesting⟩
    refine ⟨?_, ?_, ⟨p, rfl⟩, ?_, ?_⟩
    · cases left <;> simp [Token.opening]
    · cases right <;> simp [Token.closing]
    · simpa [Action.groups, Pipelines.groups] using hgroups
    · simpa [Action.nesting, Pipelines.nesting] using Nat.le_of_lt_succ hnesting

namespace Group

theorem wellShaped_singleton_iff {v : Variable} :
    WellShaped [v] ↔ v.WellSpelled ∧ ∀ s, v = .literal s → '`' ∉ s := by
  constructor
  · exact fun h => ⟨h.spelled v List.mem_cons_self, fun s hs => h.literals s (by simp [hs])⟩
  · rintro ⟨hspelled, hliteral⟩
    refine ⟨.singleton v, List.forall_mem_singleton.2 hspelled, fun s hs => ?_⟩
    exact hliteral s (List.mem_singleton.1 hs).symm

theorem WellShaped.cons {v : Variable} {g : Group} (hv : WellShaped [v]) (hg : WellShaped g)
    (hspace : v.isSpace = true → ∀ w ∈ g.head?, w.isSpace = false) : WellShaped (v :: g) := by
  obtain ⟨hspelled, hliteral⟩ := wellShaped_singleton_iff.1 hv
  refine ⟨List.isChain_cons.2 ⟨fun w hw hs => hspace hs w hw, hg.spaces⟩,
    List.forall_mem_cons.2 ⟨hspelled, hg.spelled⟩, fun s hs => ?_⟩
  exact (List.mem_cons.1 hs).elim (hliteral s ·.symm) (hg.literals s)

end Group

namespace Token

theorem endsAt_nil (t : Token) : t.EndsAt [] := by
  intro m hm hreach
  rw [List.prefix_nil.1 hm] at hreach
  exact t.not_reach_nil hreach

theorem tokenize_text {t : Token} (hw : t.WellFormed) (hk : t.kind ≠ .text) :
    tokenize t.text = [t] := by
  have hseparate : Separate [t] := ⟨hk, hw, t.endsAt_nil, trivial⟩
  have hspelling : spelling [t] = t.text := List.append_nil t.text
  rw [← hspelling]
  exact tokenize_of_lexed (lexed_of_separate hseparate)

theorem Denotes.wellShaped {t : Token} {v : Variable} (h : t.Denotes v) (hw : t.WellFormed) :
    Group.WellShaped [v] := by
  rw [Group.wellShaped_singleton_iff]
  cases h with
  | literal s =>
    refine ⟨tokenize_text hw nofun, ?_⟩
    rintro s ⟨⟩
    obtain ⟨body, heq, hbody⟩ := matches_raw_iff.1 hw.matches'
    have hs : s = body := List.append_cancel_right (List.cons.inj heq).2
    rwa [hs]
  | string | rune => exact ⟨trivial, nofun⟩
  | float hd hfinite => exact ⟨hfinite, nofun⟩
  | @int s n hn hlt =>
    refine ⟨?_, nofun⟩
    change 0 ≤ (Int64.ofNat n).toInt
    rw [Int64.toInt_ofNat_of_lt hlt]
    exact Int.natCast_nonneg n
  | _ => exact ⟨tokenize_text hw nofun, nofun⟩

theorem Denotes.groups_eq_nil {t : Token} {v : Variable} (h : t.Denotes v) :
    v.groups = [] ∧ v.nesting = 0 := by
  cases h <;> exact ⟨rfl, rfl⟩

theorem tokenize_spelling_spaces {ts : List Token} (hw : ∀ t ∈ ts, t.WellFormed)
    (hk : ∀ t ∈ ts, t.kind = .space) (hne : ts ≠ []) :
    tokenize (spelling ts) = [⟨.space, spelling ts⟩] := by
  have hspaces : ∀ c ∈ spelling ts, isSpace c = true := by
    intro c hc
    obtain ⟨t, ht, hct⟩ := List.mem_flatMap.1 hc
    have hs := (hw t ht).matches'
    rw [hk t ht] at hs
    exact (matches_space_iff.1 hs).2 c hct
  have hone := tokenize_spaces (y := []) (spelling_ne_nil hw hne) hspaces (by simp)
  rwa [List.append_nil, tokenize_nil] at hone

end Token

theorem Spells.wellShaped {n : Nat} {ts : List Token} {x : Phrase} (h : Spells n ts x)
    (hw : ∀ t ∈ ts, t.WellFormed) : x.Shaped Group.WellShaped n := by
  induction h with
  | @token n t v h =>
    have hdenotes : t.Denotes v := Token.denotes_iff.2 (.inl h)
    obtain ⟨hgroups, hnesting⟩ := hdenotes.groups_eq_nil
    exact ⟨hdenotes.wellShaped (hw t List.mem_cons_self), by simp [hgroups], hnesting ▸ n.zero_le⟩
  | @space n ts hne h =>
    have hspelled : Group.WellShaped [.space (Token.spelling ts)] :=
      Group.wellShaped_singleton_iff.2 ⟨Token.tokenize_spelling_spaces hw h hne, nofun⟩
    exact ⟨hspelled, List.forall_mem_nil _, n.zero_le⟩
  | @grouping n o c ts p ho hc h ih =>
    rw [List.forall_mem_cons, List.forall_mem_append, List.forall_mem_singleton] at hw
    have hopen := hw.1.matches'
    have hclose := hw.2.2.matches'
    rw [ho] at hopen
    rw [hc] at hclose
    refine Phrase.shaped_grouping_iff.2 ⟨Group.wellShaped_singleton_iff.2 ⟨?_, nofun⟩, ih hw.2.1⟩
    exact ⟨Pattern.matches_char_iff.1 hopen, Pattern.matches_char_iff.1 hclose⟩
  | nil => exact ⟨⟨.nil, by simp, by simp⟩, by simp [Group.inner], Nat.zero_le _⟩
  | @cons n ts us v g hv hg hs ihv ihg =>
    rw [List.forall_mem_append] at hw
    have hvariable := ihv hw.1
    have hgroup := ihg hw.2
    exact (Phrase.shaped_cons_iff hvariable.1 hgroup.1).2
      ⟨hvariable.1.cons hgroup.1 hs, hvariable, hgroup⟩
  | stage hg hne ih => exact Phrase.shaped_stage_iff.2 ⟨hne, ih hw⟩
  | @piped n t ts us g p hg hne ht hp ihg ihp =>
    rw [List.forall_mem_append, List.forall_mem_cons] at hw
    exact Phrase.shaped_piped_iff.2 ⟨hne, ihg hw.1, ihp hw.2.2⟩

theorem SpellsAction.wellShaped {limit : Nat} {g : Segment} {a : Action}
    (h : SpellsAction limit (tokenize g.source) a) : a.Shaped Group.WellShaped limit := by
  obtain ⟨left, us, right, p, hholds, rfl⟩ := spellsAction_iff.1 h
  exact Action.shaped_iff.2 ⟨left, p, right, rfl, hholds.spells.wellShaped hholds.wellFormed⟩

namespace Tree.WellShaped

variable {limit : Nat} {s : Text} {t : Tree}

theorem nil : Tree.WellShaped limit [] := ⟨by simp, .nil⟩

theorem cons_action {a : Action} (ht : t.WellShaped limit)
    (ha : a.Shaped Group.WellShaped limit) :
    Tree.WellShaped limit (.action a :: t) where
  branches := List.forall_mem_cons.2 ⟨ha, ht.branches⟩
  texts := List.isChain_cons.2 ⟨fun _ _ => nofun, ht.texts⟩

theorem textBranch_append (ht : t.WellShaped limit) (hs : splitUnescaped '{' s = none)
    (hnext : ∀ b ∈ t.head?, b.text? = none) : Tree.WellShaped limit (Parse.textBranch s ++ t) := by
  unfold Parse.textBranch
  split
  · exact ht
  next hne =>
    have hshaped : (Branch.text s).WellShaped limit :=
      ⟨by simpa using hne, (splitUnescaped_eq_none_iff (by decide)).1 hs⟩
    exact ⟨List.forall_mem_cons.2 ⟨hshaped, ht.branches⟩,
      List.isChain_cons.2 ⟨fun b hb _ => hnext b hb, ht.texts⟩⟩

end Tree.WellShaped

theorem SpellsActions.wellShaped {limit : Nat} {gs : List Segment} {as : List Action}
    {tail : Text} (h : SpellsActions limit gs as) (hgs : ∀ g ∈ gs, g.Carved)
    (htail : splitUnescaped '{' tail = none) : (assemble gs as tail).WellShaped limit := by
  induction h with
  | nil =>
    have hend : Tree.WellShaped limit (Parse.textBranch tail ++ []) :=
      Tree.WellShaped.nil.textBranch_append htail (by simp)
    rwa [List.append_nil] at hend
  | @cons g a gs as ha has ih =>
    rw [List.forall_mem_cons] at hgs
    rw [assemble_cons]
    refine ((ih hgs.2).cons_action ha.wellShaped).textBranch_append hgs.1.before.splitUnescaped ?_
    rintro b ⟨⟩
    rfl

/-- The tree of a template has the shape that the levels which are allowed give it. -/
theorem parse_wellShaped {file s : Text} {options : Options} {t : Tree}
    (h : parse file s options = .ok t) : t.WellShaped options.maxDepth := by
  obtain ⟨hclosed, as, has, rfl⟩ := parse_eq_ok.1 h
  exact has.wellShaped carved_of_segments hclosed

theorem parse_wellShaped_nested : ∃ t,
    parse [] "a \x7b\x7b- ( .x | range \x60b\x60 ) 1.5 \x7d\x7d b \\\x7b\x7b".toList = .ok t ∧
      t.WellShaped 128 := by
  obtain ⟨t, ht⟩ : ∃ t,
      parse [] "a \x7b\x7b- ( .x | range \x60b\x60 ) 1.5 \x7d\x7d b \\\x7b\x7b".toList = .ok t :=
    Except.exists_of_isOk (by decide +kernel)
  exact ⟨t, ht, parse_wellShaped ht⟩

end Stencil
