import Mathlib.Data.List.Chain
import Stencil.Proofs.Grammar
import Stencil.Proofs.TokenEdges

/-!
Derivations of actions from their grammar:

    action   := statementOpen pipeline statementClose
    pipeline := variable+ (pipe pipeline)?
    variable := grouping | any other token that begins a variable and has a value
    grouping := groupOpen pipeline groupClose

The grammar is not ambiguous, and the reader accepts the tokens of a text exactly if they have a
derivation of no more levels than it is given; what it reads is the value of that derivation.
-/

namespace Stencil

inductive Symbol where
  | action
  | pipeline
  | group
  | variable

def Symbol.Value : Symbol → Type
  | .action => Action
  | .pipeline => Pipeline
  | .group => Group
  | .variable => Variable

/-- The derivations from each symbol, one constructor for each rule. -/
inductive Derivation : Symbol → Type
  | action (o : Token) (p : Derivation .pipeline) (c : Token) (ho : o.kind = .statementOpen)
      (hc : c.kind = .statementClose) : Derivation .action
  | stage (g : Derivation .group) : Derivation .pipeline
  | piped (g : Derivation .group) (t : Token) (p : Derivation .pipeline) (ht : t.kind = .pipe) :
      Derivation .pipeline
  | last (v : Derivation .variable) : Derivation .group
  | more (v : Derivation .variable) (g : Derivation .group) : Derivation .group
  | token (t : Token) (v : Variable) (h : t.Denotes v) : Derivation .variable
  | grouping (o : Token) (p : Derivation .pipeline) (c : Token) (ho : o.kind = .groupOpen)
      (hc : c.kind = .groupClose) : Derivation .variable

namespace Derivation

def tokens {s : Symbol} : Derivation s → List Token
  | action o p c _ _ => o :: (p.tokens ++ [c])
  | stage g => g.tokens
  | piped g t p _ => g.tokens ++ t :: p.tokens
  | last v => v.tokens
  | more v g => v.tokens ++ g.tokens
  | token t _ _ => [t]
  | grouping o p c _ _ => o :: (p.tokens ++ [c])

/-- How many groupings and pipes a group of the derivation lies under, at most. -/
def levels {s : Symbol} : Derivation s → Nat
  | action _ p _ _ _ => p.levels
  | stage g => g.levels
  | piped g _ p _ => max g.levels (p.levels + 1)
  | last v => v.levels
  | more v g => max v.levels g.levels
  | token _ _ _ => 0
  | grouping _ p _ _ _ => p.levels + 1

def value {s : Symbol} : Derivation s → s.Value
  | action o p c _ _ => (⟨o.text, [p.value], c.text⟩ : Action)
  | stage g => Pipeline.stage g.value
  | piped g _ p _ => Pipeline.piped g.value p.value
  | last v => ([v.value] : Group)
  | more v g => (v.value :: g.value : List Variable)
  | token _ v _ => v
  | grouping o p c _ _ => Variable.grouping o.text p.value c.text

end Derivation

namespace Token

def SpacesApart : List Token → Prop :=
  List.IsChain fun t u => t.kind = .space → u.kind ≠ .space

theorem spacesApart_of_lexed {ts : List Token} (h : Lexer.Lexed rules [] ts) : SpacesApart ts := by
  induction ts with
  | nil => exact .nil
  | cons t ts ih =>
    obtain ⟨ht, hts⟩ := h
    refine List.isChain_cons.2 ⟨fun u hu hs hspace => ?_, ih hts⟩
    obtain ⟨us, rfl⟩ := List.head?_eq_some_iff.1 hu
    rw [List.append_nil] at ht
    have hw : u.WellFormed := wellFormed_of_first hts.1
    obtain ⟨c, m, hc⟩ := List.exists_cons_of_ne_nil (text_ne_nil hw)
    have hheads := heads_of_wellFormed hw hc
    rw [hspace] at hheads
    obtain ⟨kind, s⟩ := t
    cases hs
    refine endsAt_of_first ht [c] ?_ (.one hheads)
    rw [List.flatMap_cons, hc]
    exact ⟨m ++ us.flatMap (·.text), rfl⟩

end Token

/-- Whether the tokens can follow all that is derived from the symbol, so that none belongs to it. -/
def Symbol.EndsAt : Symbol → List Token → Prop
  | .pipeline, ts => Token.beginsVariable ts = false ∧ ∀ t ∈ ts.head?, t.kind ≠ .pipe
  | .group, ts => Token.beginsVariable ts = false
  | _, _ => True

namespace Derivation

variable {s : Symbol} {xs ys : List Token}

theorem beginsVariable_variable (v : Derivation .variable) (xs : List Token) :
    Token.beginsVariable (v.tokens ++ xs) = true := by
  cases v with
  | token t v h => exact h.kind.1
  | grouping o p c ho hc =>
    change o.kind.beginsVariable = true
    rw [ho]
    rfl

theorem beginsVariable_group (g : Derivation .group) (xs : List Token) :
    Token.beginsVariable (g.tokens ++ xs) = true := by
  cases g with
  | last v => exact beginsVariable_variable v xs
  | more v g =>
    rw [tokens, List.append_assoc]
    exact beginsVariable_variable v _

theorem endsAt_close {c : Token} (hc : c.kind ∈ [.statementClose, .groupClose])
    (xs : List Token) : Symbol.pipeline.EndsAt (c :: xs) := by
  have hkinds : ∀ k ∈ [TokenKind.statementClose, .groupClose],
      k.beginsVariable = false ∧ k ≠ .pipe := by decide
  obtain ⟨hbegins, hpipe⟩ := hkinds c.kind hc
  refine ⟨hbegins, ?_⟩
  rintro t ⟨⟩
  exact hpipe

theorem endsAt_pipe {t : Token} (ht : t.kind = .pipe) (xs : List Token) :
    Symbol.group.EndsAt (t :: xs) := by
  change t.kind.beginsVariable = false
  rw [ht]
  rfl

theorem eq_of_enclosed {p p' : Derivation .pipeline} {o o' c c' : Token}
    (hc : c.kind ∈ [.statementClose, .groupClose]) (hc' : c'.kind ∈ [.statementClose, .groupClose])
    (heq : ∀ xs ys, Symbol.pipeline.EndsAt xs → Symbol.pipeline.EndsAt ys →
      p.tokens ++ xs = p'.tokens ++ ys → p = p' ∧ xs = ys)
    (h : o :: (p.tokens ++ [c]) ++ xs = o' :: (p'.tokens ++ [c']) ++ ys) :
    o = o' ∧ p = p' ∧ c = c' ∧ xs = ys := by
  simp only [List.cons_append, List.append_assoc, List.cons.injEq, List.nil_append] at h
  obtain ⟨ho, h⟩ := h
  obtain ⟨hp, hrest⟩ := heq _ _ (endsAt_close hc xs) (endsAt_close hc' ys) h
  obtain ⟨hclose, hxs⟩ := List.cons.inj hrest
  exact ⟨ho, hp, hclose, hxs⟩

/-- Where derivations of the same symbol begin alike and are followed by nothing that belongs to
them, they are the same. -/
theorem eq_of_tokens_append (d e : Derivation s) (hx : s.EndsAt xs) (hy : s.EndsAt ys)
    (h : d.tokens ++ xs = e.tokens ++ ys) : d = e ∧ xs = ys := by
  induction d generalizing xs ys with
  | action o p c ho hc ih =>
    cases e with
    | action o' p' c' ho' hc' =>
      obtain ⟨rfl, rfl, rfl, rfl⟩ :=
        eq_of_enclosed (by simp [hc]) (by simp [hc']) (fun _ _ => ih p') h
      exact ⟨rfl, rfl⟩
  | stage g ih =>
    cases e with
    | stage g' =>
      obtain ⟨rfl, rfl⟩ := ih g' hx.1 hy.1 h
      exact ⟨rfl, rfl⟩
    | piped g' t p ht =>
      rw [tokens, tokens, List.append_assoc, List.cons_append] at h
      obtain ⟨-, rfl⟩ := ih g' hx.1 (endsAt_pipe ht _) h
      exact (hx.2 t rfl ht).elim
  | piped g t p ht ihg ihp =>
    rw [tokens, List.append_assoc, List.cons_append] at h
    cases e with
    | stage g' =>
      obtain ⟨-, rfl⟩ := ihg g' (endsAt_pipe ht _) hy.1 h
      exact (hy.2 t rfl ht).elim
    | piped g' t' p' ht' =>
      rw [tokens, List.append_assoc, List.cons_append] at h
      obtain ⟨rfl, hrest⟩ := ihg g' (endsAt_pipe ht _) (endsAt_pipe ht' _) h
      obtain ⟨rfl, hnext⟩ := List.cons.inj hrest
      obtain ⟨rfl, rfl⟩ := ihp p' hx hy hnext
      exact ⟨rfl, rfl⟩
  | last v ih =>
    cases e with
    | last v' =>
      obtain ⟨rfl, rfl⟩ := ih v' trivial trivial h
      exact ⟨rfl, rfl⟩
    | more v' g =>
      rw [tokens, tokens, List.append_assoc] at h
      obtain ⟨-, rfl⟩ := ih v' trivial trivial h
      exact absurd ((beginsVariable_group g ys).symm.trans hx) (by decide)
  | more v g ihv ihg =>
    rw [tokens, List.append_assoc] at h
    cases e with
    | last v' =>
      obtain ⟨-, rfl⟩ := ihv v' trivial trivial h
      exact absurd ((beginsVariable_group g xs).symm.trans hy) (by decide)
    | more v' g' =>
      rw [tokens, List.append_assoc] at h
      obtain ⟨rfl, hrest⟩ := ihv v' trivial trivial h
      obtain ⟨rfl, rfl⟩ := ihg g' hx hy hrest
      exact ⟨rfl, rfl⟩
  | token t v hv =>
    cases e with
    | token t' v' hv' =>
      obtain ⟨rfl, rfl⟩ := List.cons.inj h
      obtain rfl := hv.unique hv'
      exact ⟨rfl, rfl⟩
    | grouping o p c ho hc =>
      obtain ⟨rfl, -⟩ := List.cons.inj h
      exact (hv.kind.2.1 ho).elim
  | grouping o p c ho hc ih =>
    cases e with
    | token t v hv =>
      obtain ⟨rfl, -⟩ := List.cons.inj h
      exact (hv.kind.2.1 ho).elim
    | grouping o' p' c' ho' hc' =>
      obtain ⟨rfl, rfl, rfl, rfl⟩ :=
        eq_of_enclosed (by simp [hc]) (by simp [hc']) (fun _ _ => ih p') h
      exact ⟨rfl, rfl⟩

theorem tokens_injective (d e : Derivation s) (h : d.tokens = e.tokens) : d = e := by
  have hnil : s.EndsAt [] := by
    cases s with
    | pipeline => exact ⟨rfl, nofun⟩
    | group => exact rfl
    | _ => trivial
  exact (eq_of_tokens_append d e hnil hnil (congrArg (· ++ []) h)).1

end Derivation

def Symbol.Spelled (n : Nat) (ts : List Token) : (s : Symbol) → s.Value → Prop
  | .action, a => SpellsAction n ts a
  | .pipeline, p => Spells (n + 1) ts (.pipeline p)
  | .group, g => Spells n ts (.group g)
  | .variable, v => Spells n ts (.variable v)

namespace Derivation

theorem value_group_ne_nil (g : Derivation .group) : (g.value : Group) ≠ [] := by
  cases g <;> exact List.cons_ne_nil _ _

theorem tokens_of_isSpace (v : Derivation .variable) (h : Variable.isSpace v.value = true) :
    ∃ t, v.tokens = [t] ∧ t.kind = .space := by
  cases v with
  | token t v hv => exact ⟨t, rfl, hv.kind.2.2.2 h⟩
  | grouping => cases h

theorem spells_variable_token {n : Nat} {t : Token} {v : Variable} (h : t.Denotes v) :
    Spells n [t] (.variable v) := by
  obtain h | ⟨hs, rfl⟩ := Token.denotes_iff.1 h
  · exact .token h
  · have hspell : Token.spelling [t] = t.text := List.append_nil t.text
    rw [← hspell]
    exact .space (List.cons_ne_nil t []) (List.forall_mem_singleton.2 hs)

theorem spelled {s : Symbol} (d : Derivation s) {n : Nat} (hd : Token.SpacesApart d.tokens)
    (hn : d.levels ≤ n) : s.Spelled n d.tokens d.value := by
  induction d generalizing n with
  | action o p c ho hc ih =>
    have hp : Token.SpacesApart p.tokens := (List.isChain_append.1 hd.tail).1
    exact ⟨o, c, p.tokens, p.value, ho, hc, ih hp hn, rfl, rfl⟩
  | stage g ih => exact .stage (ih hd hn) (value_group_ne_nil g)
  | piped g t p ht ihg ihp =>
    obtain ⟨hgs, hps, -⟩ := List.isChain_append.1 hd
    obtain ⟨hng, hnp⟩ := Nat.max_le.1 hn
    obtain ⟨m, rfl⟩ := Nat.exists_eq_add_of_le' (Nat.one_le_of_lt hnp)
    exact .piped (ihg hgs hng) (value_group_ne_nil g) ht (ihp hps.tail (Nat.le_of_succ_le_succ hnp))
  | last v ih =>
    have hv : Spells n v.tokens (.variable v.value) := ih hd hn
    have hg := Spells.cons hv .nil (by simp)
    rw [List.append_nil] at hg
    exact hg
  | more v g ihv ihg =>
    obtain ⟨hvs, hgs, hbetween⟩ := List.isChain_append.1 hd
    obtain ⟨hnv, hng⟩ := Nat.max_le.1 hn
    have hg : Spells n g.tokens (.group g.value) := ihg hgs hng
    refine .cons (ihv hvs hnv) hg fun hspace w hw => ?_
    obtain ⟨t, ht, hkind⟩ := tokens_of_isSpace v hspace
    obtain ⟨hnil, -⟩ | ⟨u, us, w', g', hu, heq, -, hiff⟩ := hg.group_head
    · exact (value_group_ne_nil g hnil).elim
    · have hu' : u.kind ≠ .space := hbetween t (by rw [ht]; rfl) u (by rw [hu]; rfl) hkind
      rw [heq] at hw
      cases hw
      exact Bool.eq_false_iff.2 fun hspaces => hu' (hiff.2 hspaces)
  | token t v h => exact spells_variable_token h
  | grouping o p c ho hc ih =>
    have hp : Token.SpacesApart p.tokens := (List.isChain_append.1 hd.tail).1
    obtain ⟨m, rfl⟩ := Nat.exists_eq_add_of_le' (Nat.one_le_of_lt hn)
    exact .grouping ho hc (ih hp (Nat.le_of_succ_le_succ hn))

end Derivation

def Phrase.Derived (n : Nat) (ts : List Token) : Phrase → Prop
  | .variable v => ∃ d : Derivation .variable, d.tokens = ts ∧ d.levels ≤ n ∧ d.value = v
  | .group g => g ≠ [] → ∃ d : Derivation .group, d.tokens = ts ∧ d.levels ≤ n ∧ d.value = g
  | .pipeline p => ∃ d : Derivation .pipeline, d.tokens = ts ∧ d.levels < n ∧ d.value = p

theorem Spells.derived {n : Nat} {ts : List Token} {x : Phrase} (h : Spells n ts x)
    (hts : Token.SpacesApart ts) : x.Derived n ts := by
  induction h with
  | @token n t v h =>
    exact ⟨.token t v (Token.denotes_iff.2 (.inl h)), rfl, Nat.zero_le n, rfl⟩
  | @space n ts hne h =>
    match ts, hne with
    | [t], _ =>
      have ht : t.kind = .space := h t List.mem_cons_self
      have hv : t.Denotes (.space (Token.spelling [t])) :=
        Token.denotes_iff.2 (.inr ⟨ht, congrArg _ (List.append_nil t.text)⟩)
      exact ⟨.token t _ hv, rfl, Nat.zero_le n, rfl⟩
    | t :: u :: ts, _ =>
      have hu : u.kind ≠ .space := (List.isChain_cons_cons.1 hts).1 (h t (by simp))
      exact (hu (h u (by simp))).elim
  | @grouping n o c ts p ho hc h ih =>
    obtain ⟨d, rfl, hn, rfl⟩ := ih (List.isChain_append.1 hts.tail).1
    exact ⟨.grouping o d c ho hc, rfl, hn, rfl⟩
  | nil => exact fun hne => (hne rfl).elim
  | @cons n ts us v g hv hg hs ihv ihg =>
    obtain ⟨hvs, hgs, -⟩ := List.isChain_append.1 hts
    obtain ⟨d, rfl, hnd, rfl⟩ := ihv hvs
    intro _
    by_cases hnil : g = []
    · subst hnil
      cases hg
      exact ⟨.last d, (List.append_nil _).symm, hnd, rfl⟩
    · obtain ⟨e, rfl, hne, rfl⟩ := ihg hgs hnil
      exact ⟨.more d e, rfl, Nat.max_le.2 ⟨hnd, hne⟩, rfl⟩
  | stage hg hne ih =>
    obtain ⟨d, rfl, hn, rfl⟩ := ih hts hne
    exact ⟨.stage d, rfl, Nat.lt_succ_of_le hn, rfl⟩
  | @piped n t ts us g p hg hne ht hp ihg ihp =>
    obtain ⟨hgs, hps, -⟩ := List.isChain_append.1 hts
    obtain ⟨d, rfl, hnd, rfl⟩ := ihg hgs hne
    obtain ⟨e, rfl, hn, rfl⟩ := ihp hps.tail
    exact ⟨.piped d t e ht, rfl, Nat.lt_succ_of_le (Nat.max_le.2 ⟨hnd, hn⟩), rfl⟩

theorem spellsAction_iff_derivation {limit : Nat} {ts : List Token} {a : Action}
    (hts : Token.SpacesApart ts) : SpellsAction limit ts a ↔
      ∃ d : Derivation .action, d.tokens = ts ∧ d.levels ≤ limit ∧ d.value = a := by
  constructor
  · rintro ⟨o, c, us, p, ho, hc, hp, rfl, rfl⟩
    obtain ⟨d, rfl, hn, rfl⟩ := hp.derived (List.isChain_append.1 hts.tail).1
    exact ⟨.action o d c ho hc, rfl, Nat.le_of_lt_succ hn, rfl⟩
  · rintro ⟨d, rfl, hn, rfl⟩
    exact d.spelled hts hn

/-- The tokens of an action source have one derivation at most, and they are accepted exactly if
they have one in which no group lies under more groupings and pipes than the limit allows. The
action is the value of that derivation. -/
theorem Action.ofTokens_tokenize_eq_ok_iff (limit : Nat) (source : Text) :
    (Subsingleton {d : Derivation .action // d.tokens = tokenize source}) ∧
      ∀ a, Action.ofTokens limit (tokenize source) = .ok a ↔
        ∃ d : Derivation .action, d.tokens = tokenize source ∧ d.levels ≤ limit ∧ d.value = a := by
  have happart := Token.spacesApart_of_lexed (lexed_tokenize source)
  constructor
  · refine ⟨fun ⟨d, hd⟩ ⟨e, he⟩ => Subtype.ext ?_⟩
    exact Derivation.tokens_injective d e (hd.trans he.symm)
  · exact fun a => Action.ofTokens_eq_ok.trans (spellsAction_iff_derivation happart)

end Stencil
