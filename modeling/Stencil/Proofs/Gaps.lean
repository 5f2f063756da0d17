import Stencil.Proofs.PrunedTokens
import Stencil.Proofs.Relexing
import Stencil.Tree.Groups

namespace Stencil

namespace Token

/-- Whether each group between the tokens has some. The kinds are those of the tokens before and
after the given ones. -/
def Gapless (before after : Option TokenKind) : List Token → Prop
  | [] => alone before after = false
  | t :: ts => alone before (some t.kind) = false ∧ Gapless (some t.kind) after ts

variable {before after : Option TokenKind} {ts us : List Token}

theorem alone_of_gapless (h : Gapless before after ts) :
    alone before ((ts.head?.map (·.kind)).or after) = false := by
  cases ts with
  | nil => exact h
  | cons t ts => exact h.1

theorem gapless_append : Gapless before after (ts ++ us) ↔
    Gapless before ((us.head?.map (·.kind)).or after) ts ∧
      Gapless ((ts.getLast?.map (·.kind)).or before) after us := by
  induction ts generalizing before with
  | nil => exact ⟨fun h => ⟨alone_of_gapless h, h⟩, And.right⟩
  | cons t ts ih =>
    rw [List.cons_append, Gapless, Gapless, ih, lastKind_cons, and_assoc]

theorem gapless_append_cons {t : Token} : Gapless before after (ts ++ t :: us) ↔
    Gapless before (some t.kind) ts ∧ Gapless (some t.kind) after us := by
  induction ts generalizing before with
  | nil => exact Iff.rfl
  | cons u ts ih => rw [List.cons_append, Gapless, Gapless, ih, and_assoc]

theorem Gapless.inner (h : Gapless before after ts) : Gapless none none ts := by
  have hafter : ∀ (us : List Token) (k), Gapless k after us → Gapless k none us := by
    intro us
    induction us with
    | nil => exact fun _ _ => Bool.and_false _
    | cons t us ih => exact fun _ h => ⟨h.1, ih _ h.2⟩
  cases ts with
  | nil => rfl
  | cons t ts => exact ⟨rfl, hafter ts _ h.2⟩

theorem gapless_congr {before' : Option TokenKind}
    (h : before.any (·.opensGroup) = before'.any (·.opensGroup)) :
    Gapless before after ts ↔ Gapless before' after ts := by
  cases ts <;> simp only [Gapless, alone, h]

theorem alone_of_opensGroup {k : TokenKind} (h : k.opensGroup = false) :
    alone (some k) after = false := by
  simp [alone, h]

theorem alone_of_closesGroup {k : TokenKind} (h : k.closesGroup = false) :
    alone before (some k) = false := by
  simp [alone, h]

theorem gapless_plain_append (hne : ts ≠ [])
    (h : ∀ t ∈ ts, t.kind.opensGroup = false ∧ t.kind.closesGroup = false) :
    Gapless before after (ts ++ us) ↔ Gapless none after us := by
  induction ts generalizing before with
  | nil => exact (hne rfl).elim
  | cons t ts ih =>
    rw [List.forall_mem_cons] at h
    rw [List.cons_append, Gapless, alone_of_closesGroup h.1.2, eq_self_iff_true, true_and]
    by_cases hts : ts = []
    · subst hts
      exact gapless_congr h.1.1
    · exact ih hts h.2

theorem gapless_of_plain (hne : ts ≠ [])
    (h : ∀ t ∈ ts, t.kind.opensGroup = false ∧ t.kind.closesGroup = false) :
    Gapless before after ts := by
  rw [← List.append_nil ts, gapless_plain_append hne h]
  rfl

theorem plain_of_joins {k : TokenKind} (h : k.joins = true ∨ k = .text) :
    k.opensGroup = false ∧ k.closesGroup = false := by
  revert h
  cases k <;> decide

theorem Relexed.gapless_iff (h : Relexed ts us) :
    Gapless before after ts ↔ Gapless before after us := by
  induction h generalizing before with
  | nil => exact Iff.rfl
  | apart ht h ih => exact and_congr_right fun _ => ih
  | run hne hne' hrun hrun' h ih =>
    rw [gapless_plain_append hne fun t ht => plain_of_joins (.inl (hrun t ht)),
      gapless_plain_append hne' fun t ht => plain_of_joins (hrun' t ht), ih]

end Token

open Token

/-- What it means for tokens to have no gap in any place, but for a group of its own, which may be
empty. -/
def Phrase.Gapless (ts : List Token) : Phrase → Prop
  | .variable _ | .pipeline _ => ∀ before after, Token.Gapless before after ts
  | .group g => ∀ before after, (alone before after = true → g ≠ []) → Token.Gapless before after ts

/-- Tokens that spell something have no gaps. -/
theorem Spells.gapless {n : Nat} {ts : List Token} {x : Phrase} (h : Spells n ts x) :
    x.Gapless ts := by
  induction h with
  | @token n t v h =>
    intro before after
    obtain ⟨u, hlast, hopens⟩ := (Spells.token (n := n) h).variable_last
    obtain rfl := Option.some.inj hlast
    exact ⟨alone_of_closesGroup (closesGroup_of_begins (kind_of_toVariable? h).1),
      alone_of_opensGroup hopens⟩
  | @space n ts hne h =>
    exact fun before after => gapless_of_plain hne fun t ht => by rw [h t ht]; decide
  | @grouping n o c ts p ho hc h ih =>
    intro before after
    refine ⟨alone_of_closesGroup (by rw [ho]; rfl), gapless_append_cons.2 ⟨ih _ _, ?_⟩⟩
    exact alone_of_opensGroup (by rw [hc]; rfl)
  | nil =>
    intro before after hne
    rw [Token.Gapless, ← Bool.not_eq_true]
    exact fun h => hne h rfl
  | @cons n ts us v g hv hg hs ihv ihg =>
    intro before after _
    obtain ⟨t, hlast, ht⟩ := hv.variable_last
    refine gapless_append.2 ⟨ihv _ _, ihg _ _ fun h => ?_⟩
    rw [hlast] at h
    rw [Option.map_some, Option.some_or, alone_of_opensGroup ht] at h
    cases h
  | stage hg hne ih => exact fun before after => ih before after fun _ => hne
  | @piped n t ts us g p hg hne ht hp ihg ihp =>
    exact fun before after => gapless_append_cons.2 ⟨ihg _ _ fun _ => hne, ihp _ _⟩

/-- Whether something of the group stays when its comments go, where one alone may stay or not. -/
def Group.Keeps (stay : Bool) (g : Group) : Prop :=
  (stay = true ∧ g.isLoneComment = true) ∨ ∃ v ∈ g, v.isComment = false

section Pruning

variable {n : Nat} {stay : Bool} {ts : List Token} {before after before' after' : Option TokenKind}

theorem Spells.eq_of_isComment {v : Variable} (h : Spells n ts (.variable v))
    (hv : v.isComment = true) : ∃ t, ts = [t] ∧ t.kind = .comment := by
  cases h with
  | @token _ t _ h =>
    exact ⟨t, rfl, (variableKind_of_toVariable? h).symm.trans (Variable.isComment_iff.1 hv)⟩
  | space | grouping => cases hv

theorem Spells.eq_of_isLoneComment {text : Text} (h : Spells n ts (.group [.comment text])) :
    ∃ t, ts = [t] ∧ t.kind = .comment := by
  cases h with
  | cons hv hg hs =>
    obtain ⟨t, rfl, hc⟩ := hv.eq_of_isComment rfl
    cases hg
    exact ⟨t, rfl, hc⟩

theorem Spells.pruneBetween_variable {v : Variable} (h : Spells n ts (.variable v))
    (hv : v.isComment = true → alone before after = false ∧ alone before' after' = false) :
    pruneBetween stay before after ts = pruneBetween stay before' after' ts := by
  cases h with
  | @token _ t _ h =>
    by_cases hc : t.kind = .comment
    · obtain ⟨halone, halone'⟩ :=
        hv (Variable.isComment_iff.2 ((variableKind_of_toVariable? h).trans hc))
      simp [pruneBetween, hc, halone, halone']
    · rw [pruneBetween_of_no_comment (by simpa using hc),
        pruneBetween_of_no_comment (by simpa using hc)]
  | space hne h =>
    have hplain : ∀ t ∈ ts, t.kind ≠ .comment := fun t ht => by simp [h t ht]
    rw [pruneBetween_of_no_comment hplain, pruneBetween_of_no_comment hplain]
  | @grouping _ o c us p ho hc h =>
    have hopen : o.kind ≠ .comment := by simp [ho]
    have hclose : c.kind ≠ .comment := by simp [hc]
    rw [pruneBetween_enclosed hopen hclose, pruneBetween_enclosed hopen hclose]

theorem Spells.pruneBetween_group {g : Group} (h : Spells n ts (.group g))
    (hg : g.isLoneComment = true → alone before after = false ∧ alone before' after' = false) :
    pruneBetween stay before after ts = pruneBetween stay before' after' ts := by
  generalize hx : Phrase.group g = x at h
  induction h generalizing g before before' with
  | nil => rfl
  | @cons n ts us v g' hv hg' hs ihv ihg =>
    cases hx
    obtain ⟨t, hlast, ht⟩ := hv.variable_last
    rw [pruneBetween_append, pruneBetween_append, hlast]
    congr 1
    · refine hv.pruneBetween_variable fun hc => ?_
      obtain ⟨rfl, rfl⟩ | ⟨u, us, w, g', rfl, rfl, hb, -⟩ := hg'.group_head
      · cases v with
        | comment text => exact hg rfl
        | _ => cases hc
      · have hu := closesGroup_of_begins hb
        exact ⟨alone_of_closesGroup hu, alone_of_closesGroup hu⟩
    · exact ihg (fun _ => ⟨alone_of_opensGroup ht, alone_of_opensGroup ht⟩) rfl
  | _ => cases hx

theorem Spells.pruned_last {v : Variable} (h : Spells n ts (.variable v))
    (hv : v.isComment = false) : ∃ t, (pruneBetween stay before after ts).getLast? = some t ∧
      t.kind.opensGroup = false := by
  obtain ⟨t, hlast, ht⟩ := h.variable_last
  have hplain : (∀ t ∈ ts, t.kind ≠ .comment) →
      ∃ t, (pruneBetween stay before after ts).getLast? = some t ∧ t.kind.opensGroup = false :=
    fun hts => ⟨t, by rwa [pruneBetween_of_no_comment hts], ht⟩
  cases h with
  | @token _ t _ h =>
    refine hplain (List.forall_mem_singleton.2 fun hc => ?_)
    have hcomment := Variable.isComment_iff.2 ((variableKind_of_toVariable? h).trans hc)
    rw [hv] at hcomment
    cases hcomment
  | space hne h => exact hplain fun t ht => by simp [h t ht]
  | @grouping _ o c us p ho hc h =>
    refine ⟨c, ?_, by rw [hc]; rfl⟩
    rw [pruneBetween_enclosed (by simp [ho]) (by simp [hc]), ← List.cons_append,
      List.getLast?_concat]

end Pruning

/-- What it means for the tokens of a phrase to have gaps after pruning exactly where groups of it
keep nothing. -/
def Phrase.GaplessPruned (stay : Bool) (ts : List Token) : Phrase → Prop
  | .variable v => ∀ before after, Token.Gapless before after (pruneBetween stay none none ts) ↔
      (v.isComment = true → alone before after = false) ∧ ∀ g ∈ v.groups, g.Keeps stay
  | .group g => ∀ before after, Token.Gapless before after (pruneBetween stay none none ts) ↔
      (alone before after = true → ∃ v ∈ g, v.isComment = false) ∧
        ∀ h ∈ Group.inner g, h.Keeps stay
  | .pipeline p => ∀ before after, alone before after = true →
      (Token.Gapless before after (pruneBetween stay before after ts) ↔
        ∀ g ∈ p.groups, g.Keeps stay)

theorem gaplessPruned_token {stay : Bool} {t : Token} {v : Variable}
    (h : t.toVariable? = some (.ok v)) : Phrase.GaplessPruned stay [t] (.variable v) := by
  intro before after
  have hkind := variableKind_of_toVariable? h
  have hgroups : v.groups = [] := by
    cases v with
    | grouping => exact ((kind_of_toVariable? h).2.2 hkind.symm).elim
    | _ => rfl
  rw [hgroups]
  by_cases hc : t.kind = .comment
  · have hv := Variable.isComment_iff.2 (hkind.trans hc)
    simp [pruneBetween, hc, alone, Token.Gapless, hv]
  · have hv : v.isComment = false := by rwa [← Bool.not_eq_true, Variable.isComment_iff, hkind]
    have hgapless := (Spells.token (n := 0) h).gapless before after
    rw [pruneBetween_of_no_comment (by simpa using hc)]
    simp [hgapless, hv]

theorem gapless_pruned_group {stay : Bool} {n : Nat} {ts : List Token} {g : Group}
    (h : Spells n ts (.group g)) (hg : Phrase.GaplessPruned stay ts (.group g))
    {before after : Option TokenKind} (halone : alone before after = true) :
    Token.Gapless before after (pruneBetween stay before after ts) ↔
      g.Keeps stay ∧ ∀ h ∈ Group.inner g, h.Keeps stay := by
  cases hlone : g.isLoneComment with
  | false =>
    have hplain : pruneBetween stay before after ts = pruneBetween stay none none ts :=
      h.pruneBetween_group (by simp [hlone])
    rw [hplain, hg before after]
    simp [Group.Keeps, hlone, halone]
  | true =>
    obtain ⟨text, rfl⟩ := Group.isLoneComment_iff.1 hlone
    obtain ⟨t, rfl, hc⟩ := h.eq_of_isLoneComment
    have hinner : Group.inner [.comment text] = [] := rfl
    have hplain : Token.Gapless before after [t] :=
      gapless_of_plain (List.cons_ne_nil t []) (by rw [List.forall_mem_singleton, hc]; decide)
    have hpruned : pruneBetween stay before after [t] = if stay then [t] else [] := by
      cases stay <;> simp [pruneBetween, hc, halone]
    rw [hinner, hpruned]
    cases stay with
    | false => simp [Token.Gapless, halone, Group.Keeps, Variable.isComment]
    | true => simp [hplain, Group.Keeps, hlone]

theorem Spells.gaplessPruned {stay : Bool} {n : Nat} {ts : List Token} {x : Phrase}
    (h : Spells n ts x) : x.GaplessPruned stay ts := by
  induction h with
  | token h => exact gaplessPruned_token h
  | @space n ts hne h =>
    intro before after
    have hgapless := (Spells.space (n := n) hne h).gapless before after
    rw [pruneBetween_of_no_comment fun t ht => by simp [h t ht]]
    simp [hgapless, Variable.isComment, Variable.groups]
  | @grouping n o c ts p ho hc h ih =>
    intro before after
    have hinner := ih (some .groupOpen) (some .groupClose) rfl
    have hbefore : alone before (some .groupOpen) = false := alone_of_closesGroup rfl
    have hafter : alone (some .groupClose) after = false := alone_of_opensGroup rfl
    rw [pruneBetween_enclosed (by simp [ho]) (by simp [hc]), Token.Gapless,
      gapless_append_cons]
    simp [ho, hc, hinner, Token.Gapless, hbefore, hafter, Variable.isComment, Variable.groups]
  | nil =>
    intro before after
    simp [pruneBetween, Token.Gapless, Group.inner]
  | @cons n ts us v g hv hg hs ihv ihg =>
    intro before after
    have hts : pruneBetween stay none ((us.head?.map (·.kind)).or none) ts =
        pruneBetween stay none none ts := hv.pruneBetween_variable fun _ => ⟨rfl, rfl⟩
    have hus : pruneBetween stay ((ts.getLast?.map (·.kind)).or none) none us =
        pruneBetween stay none none us := hg.pruneBetween_group fun _ => ⟨Bool.and_false _, rfl⟩
    rw [pruneBetween_append, hts, hus]
    cases hc : v.isComment with
    | true =>
      obtain ⟨t, rfl, ht⟩ := hv.eq_of_isComment hc
      have hgroups : v.groups = [] := by
        cases v with
        | comment => rfl
        | _ => cases hc
      have hnil : pruneBetween stay none none [t] = [] := by simp [pruneBetween, ht, alone]
      rw [hnil, List.nil_append, ihg before after]
      simp [hc, Group.inner, hgroups]
    | false =>
      obtain ⟨t, hlast, ht⟩ : ∃ t, (pruneBetween stay none none ts).getLast? = some t ∧
          t.kind.opensGroup = false := hv.pruned_last hc
      rw [gapless_append, hlast, ihv, ihg]
      simp [hc, Group.inner, alone_of_opensGroup ht, or_imp, forall_and]
  | stage hg hne ih =>
    intro before after halone
    rw [gapless_pruned_group hg ih halone]
    simp [Pipeline.groups]
  | @piped n t ts us g p hg hne ht hp ihg ihp =>
    intro before after halone
    obtain ⟨hopens, hcloses⟩ := alone_pipe ht halone
    rw [pruneBetween_append, pruneBetween_cons_of_ne (by simp [ht]), gapless_append_cons]
    have hgroup := gapless_pruned_group hg ihg hopens
    rw [ihp _ _ hcloses, List.head?_cons, Option.map_some, Option.some_or, hgroup]
    simp [Pipeline.groups, and_assoc, or_imp, forall_and]

end Stencil
