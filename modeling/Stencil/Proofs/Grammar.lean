import Stencil.Proofs.Values

namespace Stencil

inductive Phrase where
  | variable (v : Variable)
  | group (g : Group)
  | pipeline (p : Pipeline)

/-- `Spells n ts x`: the tokens spell the phrase, which has room for so many pipelines inside one
another. -/
inductive Spells : Nat → List Token → Phrase → Prop
  | token {n : Nat} {t : Token} {v : Variable} (h : t.toVariable? = some (.ok v)) :
      Spells n [t] (.variable v)
  | space {n : Nat} {ts : List Token} (hne : ts ≠ []) (h : ∀ t ∈ ts, t.kind = .space) :
      Spells n ts (.variable (.space (Token.spelling ts)))
  | grouping {n : Nat} {o c : Token} {ts : List Token} {p : Pipeline} (ho : o.kind = .groupOpen)
      (hc : c.kind = .groupClose) (h : Spells n ts (.pipeline p)) :
      Spells n (o :: (ts ++ [c])) (.variable (.grouping o.text p c.text))
  | nil {n : Nat} : Spells n [] (.group [])
  | cons {n : Nat} {ts us : List Token} {v : Variable} {g : Group}
      (hv : Spells n ts (.variable v)) (hg : Spells n us (.group g))
      (hs : v.isSpace = true → ∀ w ∈ g.head?, w.isSpace = false) :
      Spells n (ts ++ us) (.group (v :: g))
  | stage {n : Nat} {ts : List Token} {g : Group} (hg : Spells n ts (.group g)) (hne : g ≠ []) :
      Spells (n + 1) ts (.pipeline (.stage g))
  | piped {n : Nat} {t : Token} {ts us : List Token} {g : Group} {p : Pipeline}
      (hg : Spells n ts (.group g)) (hne : g ≠ []) (ht : t.kind = .pipe)
      (hp : Spells n us (.pipeline p)) : Spells (n + 1) (ts ++ t :: us) (.pipeline (.piped g p))

/-- The tokens spell the action, with at most `limit` levels inside its pipeline. -/
def SpellsAction (limit : Nat) (ts : List Token) (a : Action) : Prop :=
  ∃ (o c : Token) (us : List Token) (p : Pipeline),
    o.kind = .statementOpen ∧ c.kind = .statementClose ∧ Spells (limit + 1) us (.pipeline p) ∧
      ts = o :: (us ++ [c]) ∧ a = ⟨o.text, [p], c.text⟩

namespace Spells

variable {n : Nat} {ts us : List Token}

theorem variable_head {v : Variable} (h : Spells n ts (.variable v)) :
    ∃ t rest, ts = t :: rest ∧ t.kind.beginsVariable = true ∧ (t.kind = .space ↔ v.isSpace = true) := by
  cases h with
  | @token _ t _ h =>
    obtain ⟨hb, hs, -⟩ := Token.kind_of_toVariable? h
    refine ⟨t, [], rfl, hb, ?_⟩
    simp [hs, Token.isSpace_of_toVariable? h]
  | space hne h =>
    obtain ⟨t, rest, rfl⟩ := List.exists_cons_of_ne_nil hne
    have ht := h t List.mem_cons_self
    exact ⟨t, rest, rfl, by rw [ht]; rfl, by simp [ht, Variable.isSpace]⟩
  | @grouping _ o c us p ho hc h =>
    exact ⟨o, us ++ [c], rfl, by rw [ho]; rfl, by simp [ho, Variable.isSpace]⟩

theorem group_head {g : Group} (h : Spells n ts (.group g)) :
    (g = [] ∧ ts = []) ∨ ∃ t rest v g', ts = t :: rest ∧ g = v :: g' ∧
      t.kind.beginsVariable = true ∧ (t.kind = .space ↔ v.isSpace = true) := by
  cases h with
  | nil => exact .inl ⟨rfl, rfl⟩
  | @cons _ us ws v g hv hg hs =>
    obtain ⟨t, rest, rfl, hb, hk⟩ := hv.variable_head
    exact .inr ⟨t, rest ++ ws, v, g, rfl, rfl, hb, hk⟩

theorem head_ne_space {g : Group} {rest : List Token} (h : Spells n ts (.group g))
    (hg : ∀ v ∈ g.head?, v.isSpace = false) (hrest : ∀ t ∈ rest.head?, t.kind ≠ .space) :
    ∀ t ∈ (ts ++ rest).head?, t.kind ≠ .space := by
  obtain ⟨rfl, rfl⟩ | ⟨t, ts, v, g, rfl, rfl, -, hk⟩ := h.group_head
  · exact hrest
  · rintro t' ⟨⟩ hspace
    rw [hg v rfl] at hk
    exact Bool.false_ne_true (hk.1 hspace)

theorem inner_kind {x : Phrase} (h : Spells n ts x) :
    ∀ t ∈ ts, t.kind ∉ [.statementOpen, .statementClose, .text] := by
  induction h with
  | token h =>
    obtain ⟨hb, -⟩ := Token.kind_of_toVariable? h
    rw [List.forall_mem_singleton]
    intro hk
    simp only [List.mem_cons, List.not_mem_nil, or_false] at hk
    obtain hk | hk | hk := hk <;> rw [hk] at hb <;> cases hb
  | space hne h =>
    intro t ht
    rw [h t ht]
    decide
  | @grouping n o c ts p ho hc h ih =>
    have hopen : o.kind ∉ [.statementOpen, .statementClose, .text] := by rw [ho]; decide
    have hclose : c.kind ∉ [.statementOpen, .statementClose, .text] := by rw [hc]; decide
    rw [List.forall_mem_cons, List.forall_mem_append, List.forall_mem_singleton]
    exact ⟨hopen, ih, hclose⟩
  | nil => simp
  | cons hv hg hs ihv ihg => exact List.forall_mem_append.2 ⟨ihv, ihg⟩
  | stage hg hne ih => exact ih
  | @piped n t ts us g p hg hne ht hp ihg ihp =>
    have hpipe : t.kind ∉ [.statementOpen, .statementClose, .text] := by rw [ht]; decide
    exact List.forall_mem_append.2 ⟨ihg, List.forall_mem_cons.2 ⟨hpipe, ihp⟩⟩

theorem ne_nil_of_group {g : Group} (h : Spells n ts (.group g)) (hne : g ≠ []) : ts ≠ [] := by
  obtain ⟨rfl, -⟩ | ⟨t, rest, -, -, rfl, -⟩ := h.group_head
  · exact (hne rfl).elim
  · simp

theorem ne_nil_of_pipeline {p : Pipeline} (h : Spells n ts (.pipeline p)) : ts ≠ [] := by
  cases h with
  | stage hg hne => exact hg.ne_nil_of_group hne
  | piped hg hne ht hp => simp

end Spells

theorem SpellsAction.kind_ne_text {limit : Nat} {ts : List Token} {a : Action}
    (h : SpellsAction limit ts a) : ∀ t ∈ ts, t.kind ≠ .text := by
  obtain ⟨o, c, us, p, ho, hc, hp, rfl, rfl⟩ := h
  rw [List.forall_mem_cons, List.forall_mem_append, List.forall_mem_singleton, ho, hc]
  exact ⟨nofun, fun t ht htext => hp.inner_kind t ht (by simp [htext]), nofun⟩

namespace Reader

variable {limit n : Nat} {ts rest : List Token}

theorem expect_cons {kind : TokenKind} {t : Token} (h : t.kind = kind) (ts : List Token) :
    expect kind (t :: ts) = .ok (t, ts) := by
  rw [expect, if_pos h]

theorem expect_eq_ok {kind : TokenKind} {t : Token} (h : expect kind ts = .ok (t, rest)) :
    t.kind = kind ∧ ts = t :: rest := by
  unfold expect at h
  split at h
  · cases h
  · split at h
    · cases h
      exact ⟨by assumption, rfl⟩
    · cases h

theorem exists_spaces (ts : List Token) : ∃ spaces rest, ts = spaces ++ rest ∧
    (∀ t ∈ spaces, t.kind = .space) ∧ ∀ t ∈ rest.head?, t.kind ≠ .space := by
  refine ⟨ts.takeWhile (·.kind = .space), ts.dropWhile (·.kind = .space),
    List.takeWhile_append_dropWhile.symm, fun t ht => ?_, fun t ht => ?_⟩
  · have := List.all_takeWhile (l := ts) (p := fun t : Token => decide (t.kind = .space))
    simpa using List.all_eq_true.1 this t ht
  · have := List.head?_dropWhile_not (fun t : Token => decide (t.kind = .space)) ts
    rw [Option.mem_def.1 ht] at this
    simpa using this

theorem readSpace_append {ts rest : List Token} (h : ∀ t ∈ ts, t.kind = .space)
    (hr : ∀ t ∈ rest.head?, t.kind ≠ .space) :
    readSpace (ts ++ rest) = (.space (Token.spelling ts), rest) := by
  have hts : ∀ t ∈ ts, (decide (t.kind = .space)) = true := fun t ht => decide_eq_true (h t ht)
  have htake : rest.takeWhile (fun t : Token => decide (t.kind = .space)) = [] := by
    cases rest with
    | nil => rfl
    | cons t rest => simp [hr t rfl]
  have hdrop : rest.dropWhile (fun t : Token => decide (t.kind = .space)) = rest := by
    cases rest with
    | nil => rfl
    | cons t rest => simp [hr t rfl]
  rw [readSpace, List.takeWhile_append_of_pos hts, List.dropWhile_append_of_pos hts, htake, hdrop,
    List.append_nil]

theorem readVariables_of_ok {below : Reader Pipeline} {ts rest : List Token} {v : Variable}
    (hb : Token.beginsVariable ts = true) (hv : readVariable below ts = .ok (v, rest)) :
    readVariables below ts = (readVariables below rest).map (·.map (v :: ·) id) := by
  rw [readVariables, if_pos hb]
  split
  next f hf =>
    rw [hv] at hf
    cases hf
  next w rest' hw =>
    rw [hv] at hw
    cases hw
    rfl

theorem readVariables_of_error {below : Reader Pipeline} {ts : List Token} {f : Failure}
    (hb : Token.beginsVariable ts = true) (hf : readVariable below ts = .error f) :
    readVariables below ts = .error f := by
  rw [readVariables, if_pos hb]
  split
  next f' hf' =>
    rw [hf] at hf'
    cases hf'
    rfl
  next v rest hv =>
    rw [hf] at hv
    cases hv

/-- What it means for the reader to read a phrase back from its tokens, whatever follows them that
cannot belong to it. -/
def ReadsBack (limit n : Nat) (ts : List Token) : Phrase → Prop
  | .variable v => ∀ rest : List Token, (v.isSpace = true → ∀ t ∈ rest.head?, t.kind ≠ .space) →
      readVariable (pipeline limit n) (ts ++ rest) = .ok (v, rest)
  | .group g => ∀ rest, Token.beginsVariable rest = false →
      readVariables (pipeline limit n) (ts ++ rest) = .ok (g, rest)
  | .pipeline p => ∀ rest : List Token, Token.beginsVariable rest = false →
      (∀ t ∈ rest.head?, t.kind ≠ .pipe) → (pipeline limit n).read (ts ++ rest) = .ok (p, rest)

theorem readGroup_of_readsBack {g : Group} (h : ReadsBack limit n ts (.group g)) (hne : g ≠ [])
    (hr : Token.beginsVariable rest = false) :
    readGroup (pipeline limit n) (ts ++ rest) = .ok (g, rest) := by
  rw [readGroup, h rest hr]
  simp [bind, Except.bind, hne]

theorem not_space_of_not_begins (h : Token.beginsVariable rest = false) :
    ∀ t ∈ rest.head?, t.kind ≠ .space := by
  cases rest with
  | nil => simp
  | cons t rest =>
    rintro u hu hs
    cases hu
    simp [Token.beginsVariable, hs, TokenKind.beginsVariable] at h

theorem readsBack_of_spells {x : Phrase} (h : Spells n ts x) : ReadsBack limit n ts x := by
  induction h with
  | @token n t v h =>
    intro rest _
    obtain ⟨-, hs, hg⟩ := Token.kind_of_toVariable? h
    simp [readVariable, hs, hg, h]
  | @space n ts hne h =>
    intro rest hr
    obtain ⟨t, ts, rfl⟩ := List.exists_cons_of_ne_nil hne
    rw [List.cons_append, readVariable, if_pos (h t List.mem_cons_self), ← List.cons_append,
      readSpace_append h (hr rfl)]
  | @grouping n o c ts p ho hc h ih =>
    intro rest _
    have hclose : Token.beginsVariable (c :: rest) = false := by
      rw [Token.beginsVariable, hc]
      rfl
    have hpipe : ∀ t ∈ (c :: rest).head?, t.kind ≠ .pipe := by
      rintro t ⟨⟩
      rw [hc]
      nofun
    have hbody := ih (c :: rest) hclose hpipe
    rw [List.cons_append, readVariable, if_neg (by rw [ho]; nofun), if_pos ho, readGrouping,
      expect_cons ho, List.append_assoc, List.singleton_append]
    simp only [bind, Except.bind, hbody, expect_cons hc, pure, Except.pure]
  | nil =>
    intro rest hr
    rw [List.nil_append, readVariables, if_neg (by simp [hr])]
  | @cons n ts us v g hv hg hs ihv ihg =>
    intro rest hr
    obtain ⟨t, ts, rfl, hb, -⟩ := hv.variable_head
    have hnext : v.isSpace = true → ∀ t ∈ (us ++ rest).head?, t.kind ≠ .space :=
      fun hvs => hg.head_ne_space (hs hvs) (not_space_of_not_begins hr)
    have hv' := ihv (us ++ rest) hnext
    rw [List.append_assoc, readVariables_of_ok (by exact hb) hv', ihg rest hr]
    rfl
  | @stage n ts g hg hne ih =>
    intro rest hr hp
    change readPipeline (pipeline limit n) (ts ++ rest) = _
    rw [readPipeline, readGroup_of_readsBack ih hne hr]
    cases rest with
    | nil => rfl
    | cons t rest =>
      have ht : t.kind ≠ .pipe := hp t rfl
      simp only [bind, Except.bind]
      split
      next u rest' heq =>
        cases heq
        exact (ht rfl).elim
      · rfl
  | @piped n t ts us g p hg hne ht hp ihg ihp =>
    intro rest hr hrp
    have hpipe : Token.beginsVariable (t :: (us ++ rest)) = false := by
      rw [Token.beginsVariable, ht]
      rfl
    change readPipeline (pipeline limit n) (ts ++ t :: us ++ rest) = _
    obtain ⟨kind, text⟩ := t
    cases ht
    rw [readPipeline, List.append_assoc, List.cons_append, readGroup_of_readsBack ihg hne hpipe]
    simp only [bind, Except.bind, ihp rest hr hrp]
    rfl

def Sound (n : Nat) (r : Reader Pipeline) : Prop :=
  ∀ {ts rest : List Token} {p : Pipeline}, r.read ts = .ok (p, rest) →
    ∃ used, ts = used ++ rest ∧ Spells n used (.pipeline p) ∧
      Token.beginsVariable rest = false ∧ ∀ t ∈ rest.head?, t.kind ≠ .pipe

section Soundness

variable {below : Reader Pipeline} (hb : Sound n below)

include hb

theorem spells_of_readGrouping {v : Variable} (h : readGrouping below ts = .ok (v, rest)) :
    ∃ used, ts = used ++ rest ∧ Spells n used (.variable v) ∧ v.isSpace = false := by
  simp only [readGrouping, bind_eq_ok, pure, Except.pure, Except.ok.injEq, Prod.mk.injEq] at h
  obtain ⟨⟨o, us⟩, ho, ⟨p, ws⟩, hp, ⟨c, xs⟩, hc, rfl, rfl⟩ := h
  obtain ⟨hok, rfl⟩ := expect_eq_ok ho
  obtain ⟨hck, hws⟩ := expect_eq_ok hc
  obtain ⟨used, rfl, hu, -⟩ := hb hp
  refine ⟨o :: (used ++ [c]), ?_, .grouping hok hck hu, rfl⟩
  simp only at hws
  simp [hws]

theorem spells_of_readVariable {v : Variable} (h : readVariable below ts = .ok (v, rest)) :
    ∃ used, ts = used ++ rest ∧ Spells n used (.variable v) ∧
      (v.isSpace = true → ∀ t ∈ rest.head?, t.kind ≠ .space) := by
  unfold readVariable at h
  split at h
  · cases h
  next t ts =>
    split at h
    next hs =>
      obtain ⟨spaces, after, hts, hspaces, hafter⟩ := exists_spaces (t :: ts)
      have hne : spaces ≠ [] := by
        rintro rfl
        rw [List.nil_append] at hts
        exact hafter t (hts ▸ rfl) hs
      rw [hts, readSpace_append hspaces hafter] at h
      cases h
      exact ⟨spaces, hts, .space hne hspaces, fun _ => hafter⟩
    next hs =>
      split at h
      · obtain ⟨used, hu, hsp, hv⟩ := spells_of_readGrouping hb h
        exact ⟨used, hu, hsp, by simp [hv]⟩
      · split at h <;> cases h
        next v hv => exact ⟨[t], rfl, .token hv, by simp [Token.isSpace_of_toVariable? hv]⟩

theorem spells_of_readVariables {g : Group} (h : readVariables below ts = .ok (g, rest)) :
    ∃ used, ts = used ++ rest ∧ Spells n used (.group g) ∧ Token.beginsVariable rest = false := by
  fun_induction readVariables below ts generalizing g rest with
  | case1 => cases h
  | case2 ts hts v mid hv ih =>
    obtain ⟨⟨g, rest⟩, hg, heq⟩ := Except.map_eq_ok.1 h
    cases heq
    obtain ⟨used, rfl, hused, hnext⟩ := spells_of_readVariable hb hv
    obtain ⟨more, rfl, hmore, hrest⟩ := ih hg
    refine ⟨used ++ more, by simp, .cons hused hmore fun hvs w hw => ?_, hrest⟩
    obtain ⟨rfl, rfl⟩ | ⟨u, us, w', g, rfl, rfl, -, hk⟩ := hmore.group_head
    · cases hw
    · cases hw
      have hu := hnext hvs u rfl
      cases hws : w.isSpace with
      | false => rfl
      | true => exact (hu (hk.2 hws)).elim
  | case3 ts hts =>
    cases h
    exact ⟨[], rfl, .nil, by simpa using hts⟩

theorem sound_readPipeline {p : Pipeline} (h : readPipeline below ts = .ok (p, rest)) :
    ∃ used, ts = used ++ rest ∧ Spells (n + 1) used (.pipeline p) ∧
      Token.beginsVariable rest = false ∧ ∀ t ∈ rest.head?, t.kind ≠ .pipe := by
  rw [readPipeline] at h
  obtain ⟨⟨g, mid⟩, hg, hnext⟩ := bind_eq_ok.1 h
  rw [readGroup] at hg
  obtain ⟨⟨g', mid'⟩, hvs, hcheck⟩ := bind_eq_ok.1 hg
  simp only at hcheck hnext
  clear h
  split at hcheck
  · cases hcheck
  next hne =>
    cases hcheck
    obtain ⟨used, rfl, hused, hmid⟩ := spells_of_readVariables hb hvs
    have hne : g ≠ [] := by simpa using hne
    split at hnext
    next text mid =>
      obtain ⟨⟨q, rest'⟩, hq, hnext⟩ := bind_eq_ok.1 hnext
      cases hnext
      obtain ⟨more, rfl, hmore, hrest⟩ := hb hq
      exact ⟨used ++ ⟨.pipe, text⟩ :: more, by simp, .piped hused hne rfl hmore, hrest⟩
    next hnp =>
      cases hnext
      refine ⟨used, rfl, .stage hused hne, hmid, fun t ht hk => ?_⟩
      cases rest with
      | nil => cases ht
      | cons u rest =>
        cases ht
        obtain ⟨kind, text⟩ := t
        cases hk
        exact hnp text rest rfl

end Soundness

theorem sound_pipeline (limit n : Nat) : Sound n (pipeline limit n) := by
  induction n with
  | zero =>
    intro ts rest p h
    cases h
  | succ n ih =>
    intro ts rest p h
    exact sound_readPipeline ih h

theorem readPipelines_eq_ok {ps : Pipelines}
    (h : readPipelines (pipeline limit n) ts = .ok (ps, rest)) :
    ∃ p, ps = [p] ∧ (pipeline limit n).read ts = .ok (p, rest) := by
  rw [readPipelines] at h
  split at h
  · cases h
  next p mid hp =>
    obtain ⟨_, -, -, hmid, -⟩ := sound_pipeline limit n hp
    rw [if_neg (by simp [hmid])] at h
    cases h
    exact ⟨p, rfl, hp⟩

end Reader

/-- The tokens of an action are accepted exactly if they spell one, and it is the one that is
read. -/
theorem Action.ofTokens_eq_ok {limit : Nat} {ts : List Token} {a : Action} :
    Action.ofTokens limit ts = .ok a ↔ SpellsAction limit ts a := by
  constructor
  · intro h
    rw [Action.ofTokens] at h
    obtain ⟨⟨o, us⟩, ho, hafter⟩ := Reader.bind_eq_ok.1 h
    obtain ⟨⟨ps, mid⟩, hp, hafter⟩ := Reader.bind_eq_ok.1 hafter
    obtain ⟨⟨c, rest⟩, hc, hend⟩ := Reader.bind_eq_ok.1 hafter
    obtain ⟨hok, rfl⟩ := Reader.expect_eq_ok ho
    obtain ⟨hck, hmid⟩ := Reader.expect_eq_ok hc
    obtain ⟨p, rfl, hread⟩ := Reader.readPipelines_eq_ok hp
    obtain ⟨used, rfl, hused, -⟩ := Reader.sound_pipeline limit (limit + 1) hread
    cases hmid
    cases rest with
    | nil =>
      cases hend
      exact ⟨o, c, used, p, hok, hck, hused, rfl, rfl⟩
    | cons t rest => cases hend
  · rintro ⟨o, c, us, p, ho, hc, hp, rfl, rfl⟩
    have hclose : Token.beginsVariable [c] = false := by
      rw [Token.beginsVariable, hc]
      rfl
    have hpipe : ∀ t ∈ [c].head?, t.kind ≠ .pipe := by
      rintro t ⟨⟩
      rw [hc]
      nofun
    have hread : (Reader.pipeline limit (limit + 1)).read (us ++ [c]) = .ok (p, [c]) :=
      Reader.readsBack_of_spells hp [c] hclose hpipe
    have hpipelines : Reader.readPipelines (Reader.pipeline limit (limit + 1)) (us ++ [c]) =
        .ok ([p], [c]) := by
      rw [Reader.readPipelines]
      split
      next f hf =>
        rw [hread] at hf
        cases hf
      next q rest hq =>
        rw [hread] at hq
        cases hq
        rw [if_neg (by simp [hclose])]
    simp only [Action.ofTokens, Reader.expect_cons ho, bind, Except.bind, hpipelines,
      Reader.expect_cons hc]
    rfl

end Stencil
