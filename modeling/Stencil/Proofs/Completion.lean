import Stencil.Proofs.ActionTokens
import Stencil.Proofs.Breaks

/-!
Syntax errors are found at the first token that no action can have there. The tokens up to it are
refused whatever comes after them, and those before it begin an action within the same limit: each
parenthesis that is open can be closed, and a pipeline that is due can be a word.
-/

namespace Stencil

namespace ErrorKind

/-- Whether the error is that a token stands where the grammar has none like it. -/
inductive IsSyntactic : ErrorKind → Prop
  | character (found : Text) : IsSyntactic (.unexpectedCharacter found)
  | token (expected found : Text) : IsSyntactic (.unexpectedToken expected found)

end ErrorKind

namespace Reader

variable {e : Text} {ts : List Token} {t : Token}

theorem unexpected_cons (e : Text) (t : Token) (rest more : List Token) :
    unexpected e (t :: more) = ⟨(unexpected e (t :: rest)).kind, t :: more⟩ := by
  by_cases ht : t.kind = .text
  · simp only [unexpected, if_pos ht]
  · simp only [unexpected, if_neg ht]

theorem exists_cons_of_unexpected (h : (unexpected e ts).kind.IsSyntactic) :
    ∃ t rest, ts = t :: rest := by
  cases ts with
  | nil => cases h
  | cons t rest => exact ⟨t, rest, rfl⟩

end Reader

theorem Breaks.of_cons {limit n : Nat} {s : Symbol} {us : List Token} {f : Failure}
    (h : Breaks limit s n us f) {t : Token} {rest : List Token} (hf : f.rest = t :: rest)
    (more : List Token) : Breaks limit s n us ⟨f.kind, t :: more⟩ := by
  induction h with
  | literal h =>
    cases hf
    exact .literal h
  | grouping ho h ih => exact .grouping ho (ih hf)
  | unclosed ho hp hrest hc =>
    rw [Reader.rest_unexpected] at hf
    subst hf
    rw [← Reader.unexpected_cons]
    exact .unclosed ho hp hrest hc
  | group hg h ih => exact .group hg (ih hf)
  | full =>
    cases hf
    exact .full
  | empty h =>
    rw [Reader.rest_unexpected] at hf
    subst hf
    rw [← Reader.unexpected_cons]
    exact .empty h
  | stage h ih => exact .stage (ih hf)
  | piped hg hne ht h ih => exact .piped hg hne ht (ih hf)
  | unopened ho =>
    rw [Reader.rest_unexpected] at hf
    subst hf
    rw [← Reader.unexpected_cons]
    exact .unopened ho
  | action ho h ih => exact .action ho (ih hf)
  | unended ho hp hrest hc =>
    rw [Reader.rest_unexpected] at hf
    subst hf
    rw [← Reader.unexpected_cons]
    exact .unended ho hp hrest hc
  | trailing ho hp hc =>
    cases hf
    exact .trailing ho hp hc

theorem Breaks.exists_cons {limit n : Nat} {s : Symbol} {us : List Token} {f : Failure}
    (h : Breaks limit s n us f) (hk : f.kind.IsSyntactic) : ∃ t rest, f.rest = t :: rest := by
  induction h with
  | literal | full | trailing => cases hk
  | unclosed | empty | unopened | unended =>
    rw [Reader.rest_unexpected]
    exact Reader.exists_cons_of_unexpected hk
  | grouping _ _ ih | group _ _ ih | stage _ ih | piped _ _ _ _ ih | action _ _ ih => exact ih hk

namespace Token

def filler : Token := ⟨.ident, ['x']⟩

def groupEnd : Token := ⟨.groupClose, [')']⟩

end Token

theorem spells_filler (n : Nat) : Spells (n + 1) [Token.filler] (.pipeline (.stage [.ident ['x']])) :=
  .stage (.cons (.token rfl) .nil nofun) (List.cons_ne_nil _ _)

/-- What it means for tokens to begin something that is read for a symbol. A variable that is begun
is no space, so that it can stand after any other. -/
def Symbol.Begun (n : Nat) (us : List Token) : Symbol → Prop
  | .variable => ∃ vs v, Spells n (us ++ vs) (.variable v) ∧ v.isSpace = false
  | .group => ∃ vs g, Spells n (us ++ vs) (.group g) ∧ g ≠ []
  | .pipeline => ∃ vs p, Spells n (us ++ vs) (.pipeline p)
  | .action => ∀ limit, n = limit + 1 → ∃ vs a, SpellsAction limit (us ++ vs) a

theorem Spells.group_concat {n : Nat} {ts us : List Token} {g : Group} {v : Variable}
    (hg : Spells n ts (.group g)) (hv : Spells n us (.variable v)) (hs : v.isSpace = false) :
    Spells n (ts ++ us) (.group (g ++ [v])) := by
  generalize hx : Phrase.group g = x at hg
  induction hg generalizing g with
  | nil =>
    cases hx
    have hone := Spells.cons hv .nil nofun
    rwa [List.append_nil] at hone
  | @cons n ts ws w g' hw hrest hspace _ ih =>
    cases hx
    rw [List.append_assoc, List.cons_append]
    refine .cons hw (ih hv rfl) fun hws u hu => ?_
    cases g' with
    | nil =>
      cases hu
      exact hs
    | cons u' g' => exact hspace hws u hu
  | _ => cases hx

/-- Where a token is not expected, the tokens before it have a completion. -/
theorem Breaks.begun {limit n : Nat} {s : Symbol} {us : List Token} {f : Failure}
    (h : Breaks limit s n us f) (hk : f.kind.IsSyntactic) : s.Begun n us := by
  induction h with
  | literal | full | trailing => cases hk
  | @grouping n o us f ho h ih =>
    obtain ⟨vs, p, hp⟩ := ih hk
    have hv := Spells.grouping (c := Token.groupEnd) ho rfl hp
    rw [List.append_assoc] at hv
    exact ⟨vs ++ [Token.groupEnd], _, hv, rfl⟩
  | @unclosed n o us rest p ho hp hrest hc =>
    exact ⟨[Token.groupEnd], _, .grouping ho rfl hp, rfl⟩
  | @group n us vs g f hg h ih =>
    obtain ⟨ws, v, hv, hs⟩ := ih hk
    refine ⟨ws, g ++ [v], ?_, by simp⟩
    rw [List.append_assoc]
    exact hg.group_concat hv hs
  | @empty n rest h => exact ⟨[Token.filler], _, spells_filler n⟩
  | stage h ih =>
    obtain ⟨vs, g, hg, hne⟩ := ih hk
    exact ⟨vs, _, .stage hg hne⟩
  | @piped n t us vs g f hg hne ht h ih =>
    obtain ⟨ws, p, hp⟩ := ih hk
    refine ⟨ws, .piped g p, ?_⟩
    rw [List.append_assoc, List.cons_append]
    exact .piped hg hne ht hp
  | @unopened n rest ho =>
    rintro limit rfl
    exact ⟨[Token.opening false, Token.filler, Token.closing false], _,
      spellsAction_delimited_iff.2 ⟨_, spells_filler limit, rfl⟩⟩
  | @action n o us f ho h ih =>
    rintro limit rfl
    obtain ⟨vs, p, hp⟩ := ih hk
    refine ⟨vs ++ [Token.closing false], _, o, Token.closing false, us ++ vs, p, ho, rfl, hp, ?_, rfl⟩
    rw [List.cons_append, List.append_assoc]
  | @unended n o us rest p ho hp hrest hc =>
    rintro limit rfl
    exact ⟨[Token.closing false], _, o, Token.closing false, us, p, ho, rfl, hp, rfl, rfl⟩

/-- A token that is not expected is refused there whatever follows it, and the tokens before it
begin an action of no more levels than the limit allows. -/
theorem Action.ofTokens_unexpected {limit : Nat} {ts : List Token} {f : Failure}
    (h : Action.ofTokens limit ts = .error f) (hk : f.kind.IsSyntactic) :
    ∃ us t rest, ts = us ++ t :: rest ∧ f.rest = t :: rest ∧
      (∀ more, Action.ofTokens limit (us ++ t :: more) = .error ⟨f.kind, t :: more⟩) ∧
      ∃ vs a, Action.ofTokens limit (us ++ vs) = .ok a := by
  obtain ⟨us, hts, hus⟩ := Action.ofTokens_eq_error.1 h
  obtain ⟨t, rest, hrest⟩ := hus.exists_cons hk
  obtain ⟨vs, a, ha⟩ := hus.begun hk limit rfl
  refine ⟨us, t, rest, hrest ▸ hts, hrest, fun more => ?_, vs, a, Action.ofTokens_eq_ok.2 ha⟩
  exact Action.ofTokens_eq_error.2 ⟨us, rfl, hus.of_cons hrest more⟩

theorem Action.ofTokens_unexpected_close : ∃ f us t,
    Action.ofTokens 3 (tokenize "\x7b\x7ba|(b|)\x7d\x7d".toList) = .error f ∧
      f.kind = .unexpectedToken "a pipeline".toList "')' \")\"".toList ∧
      tokenize "\x7b\x7ba|(b|)\x7d\x7d".toList = us ++ t :: [Token.closing false] ∧
      (∀ more, Action.ofTokens 3 (us ++ t :: more) = .error ⟨f.kind, t :: more⟩) ∧
      ∃ vs a, Action.ofTokens 3 (us ++ vs) = .ok a := by
  have hfailure : (Action.ofTokens 3 (tokenize "\x7b\x7ba|(b|)\x7d\x7d".toList)).map (fun _ => ()) =
      .error ⟨.unexpectedToken "a pipeline".toList "')' \")\"".toList,
        [Token.groupEnd, Token.closing false]⟩ := by decide +kernel
  cases h : Action.ofTokens 3 (tokenize "\x7b\x7ba|(b|)\x7d\x7d".toList) with
  | ok a =>
    rw [h] at hfailure
    cases hfailure
  | error f =>
    rw [h] at hfailure
    cases hfailure
    obtain ⟨us, t, rest, hts, hrest, hmore, hbegun⟩ := Action.ofTokens_unexpected h (.token _ _)
    cases hrest
    exact ⟨_, us, _, rfl, rfl, hts, hmore, hbegun⟩

end Stencil
