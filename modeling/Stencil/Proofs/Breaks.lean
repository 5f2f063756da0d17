import Stencil.Proofs.Closing
import Stencil.Proofs.Derivations

namespace Stencil

/-- `Breaks limit s n us f`: what is read for the symbol `s`, with room for so many pipelines inside
one another, begins with the tokens `us` and cannot go on with those that `f` leaves. -/
inductive Breaks (limit : Nat) : Symbol → Nat → List Token → Failure → Prop
  | literal {n : Nat} {t : Token} {fault : LiteralFault} {rest : List Token}
      (h : t.toVariable? = some (.error fault)) :
      Breaks limit .variable n [] ⟨.invalidLiteral t.text fault.message, t :: rest⟩
  | grouping {n : Nat} {o : Token} {us : List Token} {f : Failure} (ho : o.kind = .groupOpen)
      (h : Breaks limit .pipeline n us f) : Breaks limit .variable n (o :: us) f
  | unclosed {n : Nat} {o : Token} {us rest : List Token} {p : Pipeline}
      (ho : o.kind = .groupOpen) (hp : Spells n us (.pipeline p))
      (hrest : Symbol.pipeline.EndsAt rest) (hc : ∀ t ∈ rest.head?, t.kind ≠ .groupClose) :
      Breaks limit .variable n (o :: us) (Reader.unexpected TokenKind.groupClose.label rest)
  | group {n : Nat} {us vs : List Token} {g : Group} {f : Failure} (hg : Spells n us (.group g))
      (h : Breaks limit .variable n vs f) : Breaks limit .group n (us ++ vs) f
  | full {rest : List Token} : Breaks limit .pipeline 0 [] ⟨.nestingTooDeep limit, rest⟩
  | empty {n : Nat} {rest : List Token} (h : Token.beginsVariable rest = false) :
      Breaks limit .pipeline (n + 1) [] (Reader.unexpected "a pipeline".toList rest)
  | stage {n : Nat} {us : List Token} {f : Failure} (h : Breaks limit .group n us f) :
      Breaks limit .pipeline (n + 1) us f
  | piped {n : Nat} {t : Token} {us vs : List Token} {g : Group} {f : Failure}
      (hg : Spells n us (.group g)) (hne : g ≠ []) (ht : t.kind = .pipe)
      (h : Breaks limit .pipeline n vs f) : Breaks limit .pipeline (n + 1) (us ++ t :: vs) f
  | unopened {n : Nat} {rest : List Token} (ho : ∀ t ∈ rest.head?, t.kind ≠ .statementOpen) :
      Breaks limit .action n [] (Reader.unexpected TokenKind.statementOpen.label rest)
  | action {n : Nat} {o : Token} {us : List Token} {f : Failure} (ho : o.kind = .statementOpen)
      (h : Breaks limit .pipeline n us f) : Breaks limit .action n (o :: us) f
  | unended {n : Nat} {o : Token} {us rest : List Token} {p : Pipeline}
      (ho : o.kind = .statementOpen) (hp : Spells n us (.pipeline p))
      (hrest : Symbol.pipeline.EndsAt rest) (hc : ∀ t ∈ rest.head?, t.kind ≠ .statementClose) :
      Breaks limit .action n (o :: us) (Reader.unexpected TokenKind.statementClose.label rest)
  | trailing {n : Nat} {o c t : Token} {us rest : List Token} {p : Pipeline}
      (ho : o.kind = .statementOpen) (hp : Spells n us (.pipeline p))
      (hc : c.kind = .statementClose) :
      Breaks limit .action n (o :: (us ++ [c])) ⟨.trailingTokens t.label, t :: rest⟩

namespace Reader

variable {limit n : Nat} {ts rest : List Token} {f : Failure}

@[simp] theorem rest_unexpected (e : Text) (ts : List Token) : (unexpected e ts).rest = ts := by
  unfold unexpected
  split
  · rfl
  · split <;> rfl

theorem bind_eq_error {ε α β : Type} {x : Except ε α} {next : α → Except ε β} {e : ε} :
    (x >>= next) = .error e ↔ x = .error e ∨ ∃ a, x = .ok a ∧ next a = .error e := by
  cases x <;> simp [bind, Except.bind]

theorem expect_eq_error {kind : TokenKind} : expect kind ts = .error f ↔
    f = unexpected kind.label ts ∧ ∀ t ∈ ts.head?, t.kind ≠ kind := by
  cases ts with
  | nil => simp [expect, eq_comm]
  | cons t ts =>
    by_cases ht : t.kind = kind
    · simp [expect, ht]
    · simp [expect, ht, eq_comm (a := f)]

theorem readVariables_append {us : List Token} {g : Group} (h : Spells n us (.group g))
    (hrest : ∀ t ∈ rest.head?, t.kind ≠ .space) :
    readVariables (pipeline limit n) (us ++ rest) =
      (readVariables (pipeline limit n) rest).map (·.map (g ++ ·) id) := by
  induction g generalizing us with
  | nil =>
    cases h
    cases hread : readVariables (pipeline limit n) rest <;> rw [List.nil_append, hread] <;> rfl
  | cons v g ih =>
    cases h with
    | @cons _ vs ws _ _ hv hg hs =>
      obtain ⟨t, vs', rfl, hb, -⟩ := hv.variable_head
      have hnext : v.isSpace = true → ∀ u ∈ (ws ++ rest).head?, u.kind ≠ .space :=
        fun hspace => hg.head_ne_space (hs hspace) hrest
      have hone : readVariable (pipeline limit n) (t :: vs' ++ (ws ++ rest)) =
          .ok (v, ws ++ rest) := readsBack_of_spells hv (ws ++ rest) hnext
      rw [List.append_assoc, readVariables_of_ok (by exact hb) hone, ih hg]
      cases readVariables (pipeline limit n) rest <;> rfl

end Reader

/-- A variable goes before a group that breaks off, unless both begin with a space. -/
theorem Breaks.group_cons {limit n : Nat} {ts us : List Token} {v : Variable} {f : Failure}
    (hv : Spells n ts (.variable v)) (h : Breaks limit .group n us f)
    (hs : v.isSpace = true → ∀ t ∈ us.head?, t.kind ≠ .space) :
    Breaks limit .group n (ts ++ us) f := by
  cases h with
  | @group _ us vs g _ hg hlast =>
    rw [← List.append_assoc]
    refine .group (.cons hv hg fun hspace w hw => ?_) hlast
    obtain ⟨rfl, -⟩ | ⟨u, us, w', g, rfl, rfl, -, hk⟩ := hg.group_head
    · cases hw
    · cases hw
      have hu := hs hspace u rfl
      exact Bool.eq_false_iff.2 fun hspaces => hu (hk.2 hspaces)

theorem Breaks.variable_head {limit n : Nat} {us : List Token} {f : Failure}
    (h : Breaks limit .variable n us f) : ∃ t rest, us ++ f.rest = t :: rest ∧
      t.kind.beginsVariable = true ∧ t.kind ≠ .space := by
  cases h with
  | @literal _ t fault rest h =>
    obtain ⟨hb, hs, -⟩ := Token.kind_of_toVariable? h
    exact ⟨t, rest, rfl, hb, hs⟩
  | grouping ho h | unclosed ho hp hrest hc =>
    refine ⟨_, _, rfl, ?_⟩
    rw [ho]
    exact ⟨rfl, nofun⟩

namespace Reader

variable {limit n : Nat} {ts rest : List Token} {f : Failure}

def Refuses (limit n : Nat) (ts : List Token) (f : Failure) : Symbol → Prop
  | .variable => readVariable (pipeline limit n) ts = .error f
  | .group => readVariables (pipeline limit n) ts = .error f
  | .pipeline => (pipeline limit n).read ts = .error f
  | .action => n = limit + 1 → Action.ofTokens limit ts = .error f

theorem read_of_spells {us : List Token} {p : Pipeline} (h : Spells n us (.pipeline p))
    (hrest : Symbol.pipeline.EndsAt rest) :
    (pipeline limit n).read (us ++ rest) = .ok (p, rest) :=
  readsBack_of_spells h rest hrest.1 hrest.2

theorem refuses_of_breaks {s : Symbol} {us : List Token} (h : Breaks limit s n us f) :
    Refuses limit n (us ++ f.rest) f s := by
  induction h with
  | @literal n t fault rest h =>
    obtain ⟨-, hs, hg⟩ := Token.kind_of_toVariable? h
    simp [Refuses, readVariable, hs, hg, h]
  | @grouping n o us f ho h ih =>
    have hread : (pipeline limit n).read (us ++ f.rest) = .error f := ih
    have hs : o.kind ≠ .space := by simp [ho]
    simp only [Refuses, List.cons_append, readVariable, if_neg hs, if_pos ho, readGrouping,
      expect_cons ho, bind, Except.bind, hread]
  | @unclosed n o us rest p ho hp hrest hc =>
    have hread : (pipeline limit n).read (us ++ rest) = .ok (p, rest) := read_of_spells hp hrest
    have hs : o.kind ≠ .space := by simp [ho]
    have hclose : expect .groupClose rest = .error (unexpected TokenKind.groupClose.label rest) :=
      expect_eq_error.2 ⟨rfl, hc⟩
    simp only [Refuses, rest_unexpected, List.cons_append, readVariable, if_neg hs, if_pos ho,
      readGrouping, expect_cons ho, bind, Except.bind, hread, hclose]
  | @group n us vs g f hg h ih =>
    have hread : readVariable (pipeline limit n) (vs ++ f.rest) = .error f := ih
    obtain ⟨t, rest, heq, hb, hs⟩ := h.variable_head
    have hnext : ∀ u ∈ (vs ++ f.rest).head?, u.kind ≠ .space := by
      rw [heq]
      rintro u ⟨⟩
      exact hs
    have hbegins : Token.beginsVariable (vs ++ f.rest) = true := by
      rw [heq]
      exact hb
    change readVariables (pipeline limit n) (us ++ vs ++ f.rest) = .error f
    rw [List.append_assoc, readVariables_append hg hnext, readVariables_of_error hbegins hread]
    rfl
  | full => rfl
  | @empty n rest h =>
    rw [rest_unexpected]
    change readPipeline (pipeline limit n) rest = _
    have hnone : readVariables (pipeline limit n) rest = .ok ([], rest) := by
      rw [readVariables, if_neg (by simp [h])]
    simp only [readPipeline, readGroup, hnone, bind, Except.bind, List.isEmpty_nil, if_pos]
  | @stage n us f h ih =>
    have hread : readVariables (pipeline limit n) (us ++ f.rest) = .error f := ih
    change readPipeline (pipeline limit n) (us ++ f.rest) = _
    simp only [readPipeline, readGroup, hread, bind, Except.bind]
  | @piped n t us vs g f hg hne ht h ih =>
    have hread : (pipeline limit n).read (vs ++ f.rest) = .error f := ih
    obtain ⟨kind, text⟩ := t
    cases ht
    have hgroup : readGroup (pipeline limit n) (us ++ ⟨.pipe, text⟩ :: (vs ++ f.rest)) =
        .ok (g, ⟨.pipe, text⟩ :: (vs ++ f.rest)) :=
      readGroup_of_readsBack (readsBack_of_spells hg) hne rfl
    change readPipeline (pipeline limit n) (us ++ ⟨.pipe, text⟩ :: vs ++ f.rest) = _
    rw [List.append_assoc, List.cons_append]
    simp only [readPipeline, hgroup, bind, Except.bind, hread]
  | @unopened n rest ho =>
    intro _
    have hopen : expect .statementOpen rest =
        .error (unexpected TokenKind.statementOpen.label rest) := expect_eq_error.2 ⟨rfl, ho⟩
    simp only [rest_unexpected, List.nil_append, Action.ofTokens, hopen, bind, Except.bind]
  | @action n o us f ho h ih =>
    rintro rfl
    have hread : (pipeline limit (limit + 1)).read (us ++ f.rest) = .error f := ih
    have hall : readPipelines (pipeline limit (limit + 1)) (us ++ f.rest) = .error f := by
      rw [readPipelines_pipeline, hread]
      rfl
    simp only [List.cons_append, Action.ofTokens, expect_cons ho, bind, Except.bind, hall]
  | @unended n o us rest p ho hp hrest hc =>
    rintro rfl
    have hall : readPipelines (pipeline limit (limit + 1)) (us ++ rest) = .ok ([p], rest) := by
      rw [readPipelines_pipeline, read_of_spells hp hrest]
      rfl
    have hclose : expect .statementClose rest =
        .error (unexpected TokenKind.statementClose.label rest) := expect_eq_error.2 ⟨rfl, hc⟩
    simp only [rest_unexpected, List.cons_append, Action.ofTokens, expect_cons ho, bind, Except.bind,
      hall, hclose]
  | @trailing n o c t us rest p ho hp hc =>
    rintro rfl
    have hends : Symbol.pipeline.EndsAt (c :: t :: rest) :=
      Derivation.endsAt_close (by simp [hc]) (t :: rest)
    have hall : readPipelines (pipeline limit (limit + 1)) (us ++ c :: t :: rest) =
        .ok ([p], c :: t :: rest) := by
      rw [readPipelines_pipeline, read_of_spells hp hends]
      rfl
    simp only [List.cons_append, List.append_assoc, List.nil_append, Action.ofTokens,
      expect_cons ho, expect_cons hc, bind, Except.bind, hall]

def BreaksOff (limit n : Nat) (r : Reader Pipeline) : Prop :=
  ∀ {ts : List Token} {f : Failure}, r.read ts = .error f →
    ∃ us, ts = us ++ f.rest ∧ Breaks limit .pipeline n us f

section Soundness

variable {below : Reader Pipeline} (hb : Sound n below) (he : BreaksOff limit n below)

include hb he

theorem breaks_of_readGrouping {o : Token} (ho : o.kind = .groupOpen)
    (h : readGrouping below (o :: ts) = .error f) :
    ∃ us, o :: ts = us ++ f.rest ∧ Breaks limit .variable n us f := by
  rw [readGrouping, expect_cons ho] at h
  obtain hopen | ⟨_, ⟨⟩, hinner⟩ := bind_eq_error.1 h
  · cases hopen
  obtain hbody | ⟨⟨p, rest⟩, hp, hafter⟩ := bind_eq_error.1 hinner
  · obtain ⟨us, rfl, hus⟩ := he hbody
    exact ⟨o :: us, rfl, .grouping ho hus⟩
  · obtain ⟨us, rfl, hus, hrest⟩ := hb hp
    obtain hclose | ⟨_, -, hend⟩ := bind_eq_error.1 hafter
    · obtain ⟨rfl, hc⟩ := expect_eq_error.1 hclose
      exact ⟨o :: us, by simp, .unclosed ho hus hrest hc⟩
    · cases hend

theorem breaks_of_readVariable (hts : Token.beginsVariable ts = true)
    (h : readVariable below ts = .error f) :
    ∃ us, ts = us ++ f.rest ∧ Breaks limit .variable n us f := by
  cases ts with
  | nil => cases hts
  | cons t ts =>
    by_cases hs : t.kind = .space
    · rw [readVariable, if_pos hs] at h
      cases h
    · by_cases hg : t.kind = .groupOpen
      · rw [readVariable, if_neg hs, if_pos hg] at h
        exact breaks_of_readGrouping hb he hg h
      · obtain ⟨r, hr⟩ := Token.exists_toVariable?_iff.2 ⟨hts, hs, hg⟩
        rw [readVariable, if_neg hs, if_neg hg, hr] at h
        cases r with
        | ok v => cases h
        | error fault =>
          cases h
          exact ⟨[], rfl, .literal hr⟩

theorem breaks_of_readVariables (h : readVariables below ts = .error f) :
    ∃ us, ts = us ++ f.rest ∧ Breaks limit .group n us f := by
  fun_induction readVariables below ts with
  | case1 ts hts e hv =>
    cases h
    obtain ⟨us, heq, hus⟩ := breaks_of_readVariable hb he hts hv
    exact ⟨us, heq, .group .nil hus⟩
  | case2 ts hts v mid hv ih =>
    obtain ⟨used, rfl, hused, hnext⟩ := spells_of_readVariable hb hv
    obtain ⟨us, rfl, hus⟩ := ih (by
      cases hread : readVariables below mid with
      | error e =>
        rw [hread] at h
        cases h
        rfl
      | ok r =>
        rw [hread] at h
        cases h)
    have hapart : v.isSpace = true → ∀ t ∈ us.head?, t.kind ≠ .space := by
      intro hspace t ht
      refine hnext hspace t ?_
      rw [List.head?_append, Option.mem_def.1 ht]
      rfl
    exact ⟨used ++ us, by simp, .group_cons hused hus hapart⟩
  | case3 => cases h

omit he in
theorem spells_of_readGroup {g : Group} (h : readGroup below ts = .ok (g, rest)) :
    ∃ used, ts = used ++ rest ∧ Spells n used (.group g) ∧ g ≠ [] ∧
      Token.beginsVariable rest = false := by
  rw [readGroup] at h
  obtain ⟨⟨g', rest'⟩, hvs, hcheck⟩ := bind_eq_ok.1 h
  simp only at hcheck
  split at hcheck
  · cases hcheck
  next hne =>
    cases hcheck
    obtain ⟨used, hts, hused, hrest⟩ := spells_of_readVariables hb hvs
    exact ⟨used, hts, hused, by simpa using hne, hrest⟩

theorem breaks_of_readGroup (h : readGroup below ts = .error f) :
    ∃ us, ts = us ++ f.rest ∧ Breaks limit .pipeline (n + 1) us f := by
  rw [readGroup] at h
  obtain hall | ⟨⟨g, rest⟩, hg, hcheck⟩ := bind_eq_error.1 h
  · obtain ⟨us, heq, hus⟩ := breaks_of_readVariables hb he hall
    exact ⟨us, heq, .stage hus⟩
  · obtain ⟨used, rfl, hused, hrest⟩ := spells_of_readVariables hb hg
    simp only at hcheck
    split at hcheck
    next hnil =>
      cases hcheck
      obtain rfl := List.isEmpty_iff.1 hnil
      cases hused
      exact ⟨[], by simp, .empty hrest⟩
    · cases hcheck

theorem breaks_of_readPipeline (h : readPipeline below ts = .error f) :
    ∃ us, ts = us ++ f.rest ∧ Breaks limit .pipeline (n + 1) us f := by
  rw [readPipeline] at h
  obtain hgroup | ⟨⟨g, rest⟩, hg, hafter⟩ := bind_eq_error.1 h
  · exact breaks_of_readGroup hb he hgroup
  · obtain ⟨used, rfl, hused, hne, -⟩ := spells_of_readGroup hb hg
    simp only at hafter
    split at hafter
    next text after =>
      obtain hnext | ⟨_, -, hend⟩ := bind_eq_error.1 hafter
      · obtain ⟨us, rfl, hus⟩ := he hnext
        exact ⟨used ++ ⟨.pipe, text⟩ :: us, by simp, .piped hused hne rfl hus⟩
      · cases hend
    · cases hafter

end Soundness

theorem breaksOff_pipeline (limit n : Nat) : BreaksOff limit n (pipeline limit n) := by
  induction n with
  | zero =>
    intro ts f h
    cases h
    exact ⟨[], rfl, .full⟩
  | succ n ih =>
    intro ts f h
    exact breaks_of_readPipeline (sound_pipeline limit n) ih h

theorem breaks_of_readPipelines (h : readPipelines (pipeline limit n) ts = .error f) :
    ∃ us, ts = us ++ f.rest ∧ Breaks limit .pipeline n us f := by
  rw [readPipelines_pipeline] at h
  cases hread : (pipeline limit n).read ts with
  | ok r =>
    rw [hread] at h
    cases h
  | error e =>
    rw [hread] at h
    cases h
    exact breaksOff_pipeline limit n hread

end Reader

/-- The tokens of an action are refused exactly where what they spell breaks off. -/
theorem Action.ofTokens_eq_error {limit : Nat} {ts : List Token} {f : Failure} :
    Action.ofTokens limit ts = .error f ↔
      ∃ us, ts = us ++ f.rest ∧ Breaks limit .action (limit + 1) us f := by
  constructor
  · intro h
    rw [Action.ofTokens] at h
    obtain hopen | ⟨⟨o, us⟩, ho, hafter⟩ := Reader.bind_eq_error.1 h
    · obtain ⟨rfl, ho⟩ := Reader.expect_eq_error.1 hopen
      exact ⟨[], by simp, .unopened ho⟩
    obtain ⟨hok, rfl⟩ := Reader.expect_eq_ok ho
    obtain hall | ⟨⟨ps, rest⟩, hps, hnext⟩ := Reader.bind_eq_error.1 hafter
    · obtain ⟨vs, rfl, hvs⟩ := Reader.breaks_of_readPipelines hall
      exact ⟨o :: vs, rfl, .action hok hvs⟩
    obtain ⟨p, rfl, hp⟩ := Reader.readPipelines_eq_ok hps
    obtain ⟨used, rfl, hused, hrest⟩ := Reader.sound_pipeline limit (limit + 1) hp
    obtain hclose | ⟨⟨c, after⟩, hc, hend⟩ := Reader.bind_eq_error.1 hnext
    · obtain ⟨rfl, hc⟩ := Reader.expect_eq_error.1 hclose
      exact ⟨o :: used, by simp, .unended hok hused hrest hc⟩
    obtain ⟨hck, heq⟩ := Reader.expect_eq_ok hc
    simp only at heq hend
    subst heq
    split at hend
    · cases hend
    · cases hend
      exact ⟨o :: (used ++ [c]), by simp, .trailing hok hused hck⟩
  · rintro ⟨us, rfl, h⟩
    exact Reader.refuses_of_breaks h rfl

end Stencil
