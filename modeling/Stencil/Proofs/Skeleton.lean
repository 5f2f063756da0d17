import Stencil.Proofs.Gaps

namespace Stencil

/-- The kinds that the structure of an action hangs on. -/
def TokenKind.isBracket : TokenKind → Bool
  | pipe | groupOpen | groupClose => true
  | _ => false

section Keeping

variable (keep : TokenKind → Bool)

mutual

/-- The variable, if its kind is kept, and a grouping with what is kept of the groups inside it. -/
def Variable.keeping : Variable → List Variable
  | .grouping opener body closer => [.grouping opener body.keeping closer]
  | v => if keep v.kind then [v] else []

def Group.keeping : List Variable → List Variable
  | [] => []
  | v :: g => v.keeping ++ Group.keeping g

def Pipeline.keeping : Pipeline → Pipeline
  | .stage g => .stage (Group.keeping g)
  | .piped g p => .piped (Group.keeping g) p.keeping

end

def Action.keeping (a : Action) : Action :=
  { a with pipelines := a.pipelines.map (Pipeline.keeping keep) }

def Branch.keeping : Branch → Branch
  | .text s => .text s
  | .action a => .action (a.keeping keep)

def Tree.keeping (t : Tree) : Tree := t.map (Branch.keeping keep)

end Keeping

/-- Whether the token can stand inside an action that is accepted. -/
structure Token.Known (t : Token) : Prop where
  inner : t.kind ∉ [.statementOpen, .statementClose, .text]
  value : t.HasValue

section Spelled

variable {keep : TokenKind → Bool} {n : Nat} {ts us : List Token}

theorem Variable.keeping_of_not {v : Variable} (hv : v.kind ≠ .groupOpen)
    (h : keep v.kind = false) : v.keeping keep = [] := by
  cases v <;> first | exact (hv rfl).elim | exact if_neg (by rw [h]; exact Bool.false_ne_true)

theorem Variable.keeping_of_keep {v : Variable} (hv : v.kind ≠ .groupOpen)
    (h : keep v.kind = true) : v.keeping keep = [v] := by
  cases v <;> first | exact (hv rfl).elim | exact if_pos h

theorem Spells.spaces_of_isSpace {v : Variable} (h : Spells n ts (.variable v))
    (hv : v.isSpace = true) : ts ≠ [] ∧ (∀ t ∈ ts, t.kind = .space) := by
  cases h with
  | token h =>
    rw [Token.isSpace_of_toVariable? h] at hv
    cases hv
  | space hne h => exact ⟨hne, h⟩
  | grouping => cases hv

theorem Spells.exists_cons (hspace : keep .space = false) {v : Variable} {g : Group}
    (hv : Spells n ts (.variable v)) (hg : Spells n us (.group g)) :
    ∃ g', Spells n (ts ++ us) (.group g') ∧
      Group.keeping keep g' = v.keeping keep ++ Group.keeping keep g := by
  by_cases hs : v.isSpace = true → ∀ w ∈ g.head?, w.isSpace = false
  · exact ⟨v :: g, .cons hv hg hs, rfl⟩
  · simp only [Classical.not_imp, not_forall, Bool.not_eq_false] at hs
    obtain ⟨hvs, w, hw, hws⟩ := hs
    cases hg with
    | nil => cases hw
    | @cons _ us₁ us₂ w' g hw' hg hs =>
      obtain rfl := Option.some.inj hw
      obtain ⟨hne, hspaces⟩ := hv.spaces_of_isSpace hvs
      obtain ⟨-, hspaces'⟩ := hw'.spaces_of_isSpace hws
      have hjoined : Spells n (ts ++ us₁) (.variable (.space (Token.spelling (ts ++ us₁)))) :=
        .space (by simp [hne]) (List.forall_mem_append.2 ⟨hspaces, hspaces'⟩)
      have hnone : ∀ u : Variable, u.isSpace = true → u.keeping keep = [] := by
        intro u hu
        cases u with
        | space => exact if_neg (by rw [Variable.kind, hspace]; exact Bool.false_ne_true)
        | _ => cases hu
      have hcons := Spells.cons hjoined hg fun _ => hs hws
      rw [List.append_assoc] at hcons
      refine ⟨_, hcons, ?_⟩
      rw [Group.keeping, Group.keeping, hnone _ rfl, hnone v hvs, hnone _ hws]
      rfl

theorem Spells.exists_append (hspace : keep .space = false) {g h : Group}
    (hg : Spells n ts (.group g)) (hh : Spells n us (.group h)) :
    ∃ g', Spells n (ts ++ us) (.group g') ∧
      Group.keeping keep g' = Group.keeping keep g ++ Group.keeping keep h := by
  generalize hx : Phrase.group g = x at hg
  induction hg generalizing g with
  | nil =>
    cases hx
    exact ⟨h, hh, rfl⟩
  | cons hv hg hs ihv ihg =>
    cases hx
    obtain ⟨g', hg', hkeep⟩ := ihg hh rfl
    obtain ⟨g'', hg'', hkeep'⟩ := Spells.exists_cons hspace hv hg'
    refine ⟨g'', by rwa [List.append_assoc], ?_⟩
    rw [hkeep', hkeep, Group.keeping, List.append_assoc]
  | _ => cases hx

theorem Token.Known.exists_variable {t : Token} (h : t.Known) (hb : t.kind.isBracket = false)
    (hs : t.kind ≠ .space) : ∃ v, t.toVariable? = some (.ok v) := by
  obtain ⟨r, hr⟩ : ∃ r, t.toVariable? = some r := by
    have hinner := h.inner
    refine exists_toVariable?_iff.2 ?_
    revert hb hs hinner
    cases t.kind <;> decide
  obtain ⟨v, rfl⟩ := h.value r hr
  exact ⟨v, hr⟩

theorem Token.Known.exists_spells {t : Token} (h : t.Known) (hb : t.kind.isBracket = false) :
    ∃ v, Spells n [t] (.variable v) ∧ v.kind = t.kind := by
  by_cases hs : t.kind = .space
  · exact ⟨_, .space (List.cons_ne_nil t []) (List.forall_mem_singleton.2 hs), hs.symm⟩
  · obtain ⟨v, hv⟩ := h.exists_variable hb hs
    exact ⟨v, .token hv, variableKind_of_toVariable? hv⟩

theorem Token.kind_of_respelled_eq {t u : Token} (h : u.respelled = t.respelled) :
    u.kind = t.kind := by
  simpa [respelled] using congrArg (·.kind) h

theorem Token.eq_of_respelled_eq {t u : Token} (h : u.respelled = t.respelled)
    (hk : t.kind.isBracket = true) : u = t := by
  have hkind := kind_of_respelled_eq h
  have hplain : t.kind ∉ [.string, .rune, .float, .int] := by
    revert hk
    cases t.kind <;> decide
  rwa [respelled_of_kind (hkind ▸ hplain), respelled_of_kind hplain] at h

theorem Token.toVariable?_of_respelled_eq {t u : Token} {v : Variable}
    (h : u.respelled = t.respelled) (hu : u.Known) (ht : t.toVariable? = some (.ok v)) :
    u.toVariable? = some (.ok v) := by
  have hkind := kind_of_respelled_eq h
  obtain ⟨hbegins, hs, ho⟩ := kind_of_toVariable? ht
  have hb : u.kind.isBracket = false := by
    revert hbegins ho
    rw [hkind]
    cases t.kind <;> decide
  obtain ⟨w, hw⟩ := hu.exists_variable hb (hkind ▸ hs)
  have hsame := toVariable?_respelled hw
  rw [h, toVariable?_respelled ht] at hsame
  cases hsame
  exact hw

theorem exists_spells_of_not_keep (hspace : keep .space = false)
    (hbracket : ∀ k : TokenKind, k.isBracket = true → keep k = true) (hknown : ∀ t ∈ ts, t.Known)
    (h : ∀ t ∈ ts, keep t.kind = false) :
    ∃ g, Spells n ts (.group g) ∧ Group.keeping keep g = [] := by
  induction ts with
  | nil => exact ⟨[], .nil, rfl⟩
  | cons t ts ih =>
    rw [List.forall_mem_cons] at hknown h
    obtain ⟨g, hg, hkeep⟩ := ih hknown.2 h.2
    have hb : t.kind.isBracket = false := by
      rw [← Bool.not_eq_true]
      intro hb
      rw [hbracket _ hb] at h
      exact Bool.false_ne_true h.1.symm
    obtain ⟨v, hv, hk⟩ := hknown.1.exists_spells hb
    have hleaf : v.kind ≠ .groupOpen := by
      rintro ho
      rw [← hk, ho] at hb
      cases hb
    obtain ⟨g', hg', hkeep'⟩ := Spells.exists_cons hspace hv hg
    refine ⟨g', hg', ?_⟩
    rw [hkeep', hkeep, List.append_nil, Variable.keeping_of_not hleaf (hk ▸ h.1)]

/-- Whether the tokens to keep are the same in both lists, in canonical spelling. -/
def KeepsSame (keep : TokenKind → Bool) (ts us : List Token) : Prop :=
  (us.filter (keep ·.kind)).map Token.respelled = (ts.filter (keep ·.kind)).map Token.respelled

namespace KeepsSame

variable {ts' : List Token} {t : Token}

theorem of_not_keep (h : KeepsSame keep ts us) (hts : ∀ t ∈ ts, keep t.kind = false) :
    ∀ u ∈ us, keep u.kind = false := by
  have hnil : ts.filter (keep ·.kind) = [] := by simpa using hts
  rw [KeepsSame, hnil, List.map_nil, List.map_eq_nil_iff] at h
  simpa using h

theorem split_cons (h : KeepsSame keep (t :: ts) us) (ht : keep t.kind = true) :
    ∃ us₁ u us₂, us = us₁ ++ u :: us₂ ∧ (∀ u ∈ us₁, keep u.kind = false) ∧
      u.respelled = t.respelled ∧ KeepsSame keep ts us₂ := by
  rw [KeepsSame, List.filter_cons, if_pos ht, List.map_cons, List.map_eq_cons_iff] at h
  obtain ⟨u, rest, hfilter, hu, hrest⟩ := h
  obtain ⟨us₁, us₂, rfl, hnot, -, rfl⟩ := List.filter_eq_cons_iff.1 hfilter
  exact ⟨us₁, u, us₂, rfl, by simpa using hnot, hu, hrest⟩

theorem split_append (h : KeepsSame keep (ts ++ ts') us) :
    ∃ us₁ us₂, us = us₁ ++ us₂ ∧ KeepsSame keep ts us₁ ∧ KeepsSame keep ts' us₂ := by
  rw [KeepsSame, List.filter_append, List.map_append, List.map_eq_append_iff] at h
  obtain ⟨l₁, l₂, hfilter, h₁, h₂⟩ := h
  obtain ⟨us₁, us₂, rfl, rfl, rfl⟩ := List.filter_eq_append_iff.1 hfilter
  exact ⟨us₁, us₂, rfl, h₁, h₂⟩

theorem split_middle (h : KeepsSame keep (ts ++ t :: ts') us) (ht : keep t.kind = true) :
    ∃ us₁ u us₂, us = us₁ ++ u :: us₂ ∧ KeepsSame keep ts us₁ ∧ u.respelled = t.respelled ∧
      KeepsSame keep ts' us₂ := by
  obtain ⟨us₁, rest, rfl, h₁, hrest⟩ := h.split_append
  obtain ⟨skipped, u, us₂, rfl, hnot, hu, h₂⟩ := hrest.split_cons ht
  refine ⟨us₁ ++ skipped, u, us₂, by simp, ?_, hu, h₂⟩
  have hnil : skipped.filter (keep ·.kind) = [] := by simpa using hnot
  rw [KeepsSame, List.filter_append, hnil, List.append_nil]
  exact h₁

end KeepsSame

theorem ne_nil_of_gapless {g : Group} {before after : Option TokenKind}
    (h : Spells n ts (.group g)) (halone : Token.alone before after = true)
    (hgapless : Token.Gapless before after ts) : g ≠ [] := by
  rintro rfl
  cases h
  rw [Token.Gapless, halone] at hgapless
  cases hgapless

/-- What it means for all tokens without gaps that keep the same as these to spell the same phrase,
but for what is not kept. -/
def Phrase.SpelledBy (keep : TokenKind → Bool) (n : Nat) (ts : List Token) : Phrase → Prop
  | .variable v => ∀ us, KeepsSame keep ts us → (∀ u ∈ us, u.Known) → Token.Gapless none none us →
      ∃ g, Spells n us (.group g) ∧ Group.keeping keep g = v.keeping keep
  | .group g => ∀ us, KeepsSame keep ts us → (∀ u ∈ us, u.Known) → Token.Gapless none none us →
      ∃ h, Spells n us (.group h) ∧ Group.keeping keep h = Group.keeping keep g
  | .pipeline p => ∀ us before after, Token.alone before after = true → KeepsSame keep ts us →
      (∀ u ∈ us, u.Known) → Token.Gapless before after us →
      ∃ q, Spells n us (.pipeline q) ∧ q.keeping keep = p.keeping keep

end Spelled

section Same

variable {keep : TokenKind → Bool} (hspace : keep .space = false)
  (hbracket : ∀ k : TokenKind, k.isBracket = true → keep k = true)

include hspace hbracket

theorem spelledBy_token {n : Nat} {t : Token} {v : Variable} (h : t.toVariable? = some (.ok v)) :
    Phrase.SpelledBy keep n [t] (.variable v) := by
  intro us hsame hknown _
  have hkind := Token.variableKind_of_toVariable? h
  have hleaf : v.kind ≠ .groupOpen := hkind ▸ (Token.kind_of_toVariable? h).2.2
  cases ht : keep t.kind with
  | false =>
    have hnot := hsame.of_not_keep (List.forall_mem_singleton.2 ht)
    rw [Variable.keeping_of_not hleaf (hkind ▸ ht)]
    exact exists_spells_of_not_keep hspace hbracket hknown hnot
  | true =>
    obtain ⟨us₁, u, us₂, rfl, hnot, hu, hrest⟩ := hsame.split_cons ht
    rw [List.forall_mem_append, List.forall_mem_cons] at hknown
    have hvalue := Token.toVariable?_of_respelled_eq hu hknown.2.1 h
    obtain ⟨g₁, hg₁, hkeep₁⟩ := exists_spells_of_not_keep hspace hbracket (n := n) hknown.1 hnot
    obtain ⟨g₂, hg₂, hkeep₂⟩ := exists_spells_of_not_keep hspace hbracket (n := n) hknown.2.2
      (hrest.of_not_keep (by simp))
    obtain ⟨g, hg, hkeep⟩ := Spells.exists_cons hspace (.token hvalue) hg₂
    obtain ⟨g', hg', hkeep'⟩ := Spells.exists_append hspace hg₁ hg
    refine ⟨g', hg', ?_⟩
    rw [hkeep', hkeep, hkeep₁, hkeep₂, List.nil_append, List.append_nil]

theorem Spells.spelledBy {n : Nat} {ts : List Token} {x : Phrase} (h : Spells n ts x) :
    x.SpelledBy keep n ts := by
  induction h with
  | token h => exact spelledBy_token hspace hbracket h
  | @space n ts hne h =>
    intro us hsame hknown _
    have hnot := hsame.of_not_keep fun t ht => by rw [h t ht, hspace]
    have hnone : Variable.keeping keep (.space (Token.spelling ts)) = [] :=
      if_neg (by rw [Variable.kind, hspace]; exact Bool.false_ne_true)
    rw [hnone]
    exact exists_spells_of_not_keep hspace hbracket hknown hnot
  | @grouping n o c ts p ho hc h ih =>
    intro us hsame hknown hgapless
    have hopen : o.kind.isBracket = true := by rw [ho]; rfl
    have hclose : c.kind.isBracket = true := by rw [hc]; rfl
    obtain ⟨us₁, o', rest, rfl, hnot, ho', hrest⟩ := hsame.split_cons (hbracket _ hopen)
    obtain ⟨us₂, c', us₃, rfl, hbody, hc', hafter⟩ := hrest.split_middle (hbracket _ hclose)
    obtain rfl := Token.eq_of_respelled_eq ho' hopen
    obtain rfl := Token.eq_of_respelled_eq hc' hclose
    rw [Token.gapless_append_cons, Token.gapless_append_cons] at hgapless
    simp only [List.forall_mem_append, List.forall_mem_cons] at hknown
    obtain ⟨hknown₁, -, hknown₂, -, hknown₃⟩ := hknown
    obtain ⟨q, hq, hkeep⟩ := ih us₂ _ _ (by rw [ho, hc]; rfl) hbody hknown₂ hgapless.2.1
    obtain ⟨g₁, hg₁, hkeep₁⟩ := exists_spells_of_not_keep hspace hbracket hknown₁ hnot
    obtain ⟨g₃, hg₃, hkeep₃⟩ :=
      exists_spells_of_not_keep hspace hbracket hknown₃ (hafter.of_not_keep (by simp))
    obtain ⟨g, hg, hkeep'⟩ := Spells.exists_cons hspace (.grouping ho hc hq) hg₃
    obtain ⟨g', hg', hkeep''⟩ := Spells.exists_append hspace hg₁ hg
    refine ⟨g', by simpa using hg', ?_⟩
    rw [hkeep'', hkeep', hkeep₁, hkeep₃, Variable.keeping, Variable.keeping, hkeep]
    rfl
  | nil =>
    intro us hsame hknown _
    exact exists_spells_of_not_keep hspace hbracket hknown (hsame.of_not_keep (by simp))
  | @cons n ts us v g hv hg hs ihv ihg =>
    intro ws hsame hknown hgapless
    obtain ⟨us₁, us₂, rfl, h₁, h₂⟩ := hsame.split_append
    rw [List.forall_mem_append] at hknown
    rw [Token.gapless_append] at hgapless
    obtain ⟨g₁, hg₁, hkeep₁⟩ := ihv us₁ h₁ hknown.1 hgapless.1.inner
    obtain ⟨g₂, hg₂, hkeep₂⟩ := ihg us₂ h₂ hknown.2 hgapless.2.inner
    obtain ⟨g', hg', hkeep'⟩ := Spells.exists_append hspace hg₁ hg₂
    exact ⟨g', hg', by rw [hkeep', hkeep₁, hkeep₂, Group.keeping]⟩
  | @stage n ts g hg hne ih =>
    intro us before after halone hsame hknown hgapless
    obtain ⟨h, hh, hkeep⟩ := ih us hsame hknown hgapless.inner
    refine ⟨.stage h, .stage hh (ne_nil_of_gapless hh halone hgapless), ?_⟩
    rw [Pipeline.keeping, Pipeline.keeping, hkeep]
  | @piped n t ts us g p hg hne ht hp ihg ihp =>
    intro ws before after halone hsame hknown hgapless
    have hpipe : t.kind.isBracket = true := by rw [ht]; rfl
    obtain ⟨us₁, t', us₂, rfl, h₁, ht', h₂⟩ := hsame.split_middle (hbracket _ hpipe)
    obtain rfl := Token.eq_of_respelled_eq ht' hpipe
    rw [List.forall_mem_append, List.forall_mem_cons] at hknown
    rw [Token.gapless_append_cons] at hgapless
    obtain ⟨hopens, hcloses⟩ := Token.alone_pipe ht halone
    obtain ⟨h, hh, hkeep⟩ := ihg us₁ h₁ hknown.1 hgapless.1.inner
    obtain ⟨q, hq, hkeep'⟩ := ihp us₂ _ _ hcloses h₂ hknown.2.2 hgapless.2
    refine ⟨.piped h q, .piped hh (ne_nil_of_gapless hh hopens hgapless.1) ht hq, ?_⟩
    rw [Pipeline.keeping, Pipeline.keeping, hkeep, hkeep']

end Same

theorem Token.Relexed.filter_isBracket {ts us : List Token} (h : Relexed ts us) :
    us.filter (·.kind.isBracket) = ts.filter (·.kind.isBracket) := by
  have hrun : ∀ run : List Token, (∀ t ∈ run, t.kind.joins = true ∨ t.kind = .text) →
      run.filter (·.kind.isBracket) = [] := by
    intro run hrun
    rw [List.filter_eq_nil_iff]
    intro t ht
    have hk := hrun t ht
    revert hk
    cases t.kind <;> decide
  induction h with
  | nil => rfl
  | apart ht h ih => rw [List.filter_cons, List.filter_cons, ih]
  | run hne hne' hrun₁ hrun₂ h ih =>
    rw [List.filter_append, List.filter_append, ih, hrun _ hrun₂,
      hrun _ fun t ht => .inl (hrun₁ t ht)]

end Stencil
