import Stencil.Literal
import Stencil.ParseError
import Stencil.Token
import Stencil.Tree

/-!
Actions from their tokens, by descent:

    action   := open pipeline close
    pipeline := variable+ (pipe pipeline)?
    variable := grouping | space+ | any other token that begins a variable
    grouping := groupOpen pipeline groupClose

Each pipe and each parenthesis opens a level, and the levels are limited.
-/

namespace Stencil

/-- How reading fails: the cause, and the tokens from the place that it is found at. -/
structure Failure where
  kind : ErrorKind
  rest : List Token
  deriving DecidableEq, Repr

/-- A way to read a value from the first tokens of a list, one at least, that leaves the others. -/
structure Reader (α : Type) where
  read : List Token → Except Failure (α × List Token)
  shorter {ts rest : List Token} {a : α} : read ts = .ok (a, rest) → rest.length < ts.length

namespace Token

def label (t : Token) : Text := t.kind.label ++ ' ' :: Text.shown t.text

def beginsVariable : List Token → Bool
  | [] => false
  | t :: _ => t.kind.beginsVariable

def toFloat? (s : Text) : Except LiteralFault Variable :=
  match Decimal.ofPositional? s with
  | none => .error .malformedNumber
  | some d =>
    let x := Double.ofDecimal false d
    if x.isFinite then .ok (.float x) else .error .floatTooLarge

def toInt? (s : Text) : Except LiteralFault Variable :=
  match Text.numeral? 10 s with
  | none => .error .malformedNumber
  | some n => if n < 2 ^ 63 then .ok (.int (Int64.ofNat n)) else .error .integerTooLarge

def toVariable? (t : Token) : Option (Except LiteralFault Variable) :=
  match t.kind with
  | .assignment => some (.ok (.assign t.text))
  | .range => some (.ok (.range t.text))
  | .ident => some (.ok (.ident t.text))
  | .keyword => some (.ok (.keyword t.text))
  | .literal => some ((Literal.rawValue t.text).map .literal)
  | .string => some ((Literal.stringValue t.text).map .string)
  | .rune => some ((Literal.runeValue t.text).map .rune)
  | .float => some (toFloat? t.text)
  | .int => some (toInt? t.text)
  | .comment => some (.ok (.comment t.text))
  | _ => none

end Token

namespace Reader

def unexpected (expected : Text) (ts : List Token) : Failure :=
  match ts with
  | [] => ⟨.endOfAction expected, []⟩
  | t :: rest =>
    if t.kind = .text then ⟨.unexpectedCharacter t.text, t :: rest⟩
    else ⟨.unexpectedToken expected t.label, t :: rest⟩

def expect (kind : TokenKind) (ts : List Token) : Except Failure (Token × List Token) :=
  match ts with
  | [] => .error (unexpected kind.label [])
  | t :: rest => if t.kind = kind then .ok (t, rest) else .error (unexpected kind.label (t :: rest))

def readSpace (ts : List Token) : Variable × List Token :=
  (.space (Token.spelling (ts.takeWhile (·.kind = .space))), ts.dropWhile (·.kind = .space))

def readGrouping (below : Reader Pipeline) (ts : List Token) :
    Except Failure (Variable × List Token) := do
  let (opener, ts) ← expect .groupOpen ts
  let (body, ts) ← below.read ts
  let (closer, ts) ← expect .groupClose ts
  return (.grouping opener.text body closer.text, ts)

def readVariable (below : Reader Pipeline) (ts : List Token) :
    Except Failure (Variable × List Token) :=
  match ts with
  | [] => .error (unexpected "a variable".toList [])
  | t :: rest =>
    if t.kind = .space then .ok (readSpace (t :: rest))
    else if t.kind = .groupOpen then readGrouping below (t :: rest)
    else match t.toVariable? with
      | some (.ok v) => .ok (v, rest)
      | some (.error fault) => .error ⟨.invalidLiteral t.text fault.message, t :: rest⟩
      | none => .error (unexpected "a variable".toList (t :: rest))

theorem bind_eq_ok {ε α β : Type} {x : Except ε α} {f : α → Except ε β} {b : β} :
    (x >>= f) = .ok b ↔ ∃ a, x = .ok a ∧ f a = .ok b := by
  cases x <;> simp [bind, Except.bind]

theorem length_of_expect {kind : TokenKind} {ts rest : List Token} {t : Token}
    (h : expect kind ts = .ok (t, rest)) : rest.length < ts.length := by
  unfold expect at h
  split at h
  · cases h
  · split at h
    · cases h; simp
    · cases h

theorem length_of_readGrouping {below : Reader Pipeline} {ts rest : List Token} {v : Variable}
    (h : readGrouping below ts = .ok (v, rest)) : rest.length < ts.length := by
  simp only [readGrouping, bind_eq_ok, pure, Except.pure, Except.ok.injEq, Prod.mk.injEq] at h
  obtain ⟨⟨_, _⟩, ho, ⟨_, _⟩, hb, ⟨_, _⟩, hc, -, rfl⟩ := h
  exact Nat.lt_trans (length_of_expect hc) (Nat.lt_trans (below.shorter hb) (length_of_expect ho))

theorem length_of_readVariable {below : Reader Pipeline} {ts rest : List Token} {v : Variable}
    (h : readVariable below ts = .ok (v, rest)) : rest.length < ts.length := by
  unfold readVariable at h
  split at h
  · cases h
  next t ts =>
    split at h
    next hs =>
      simp only [readSpace, Except.ok.injEq, Prod.mk.injEq] at h
      obtain ⟨-, rfl⟩ := h
      have := (List.dropWhile_sublist (fun t : Token => decide (t.kind = .space))
        (l := ts)).length_le
      simp only [List.dropWhile_cons, hs, decide_true, ↓reduceIte, List.length_cons]
      omega
    next =>
      split at h
      · exact length_of_readGrouping h
      · split at h <;> cases h
        simp

def readVariables (below : Reader Pipeline) (ts : List Token) :
    Except Failure (Group × List Token) :=
  if Token.beginsVariable ts then
    match _h : readVariable below ts with
    | .error f => .error f
    | .ok (v, rest) => (readVariables below rest).map (·.map (v :: ·) id)
  else .ok ([], ts)
termination_by ts.length
decreasing_by exact length_of_readVariable _h

def readGroup (below : Reader Pipeline) (ts : List Token) :
    Except Failure (Group × List Token) := do
  let (g, rest) ← readVariables below ts
  if g.isEmpty then .error (unexpected "a pipeline".toList rest) else .ok (g, rest)

/-- Reads a stage and, after a pipe, the stages that follow, these with `below`. -/
def readPipeline (below : Reader Pipeline) (ts : List Token) :
    Except Failure (Pipeline × List Token) := do
  let (g, rest) ← readGroup below ts
  match rest with
  | ⟨.pipe, _⟩ :: rest =>
    let (p, rest) ← below.read rest
    return (.piped g p, rest)
  | rest => return (.stage g, rest)

theorem length_of_readVariables {below : Reader Pipeline} {ts rest : List Token} {g : Group}
    (h : readVariables below ts = .ok (g, rest)) :
    rest.length ≤ ts.length ∧ (g ≠ [] → rest.length < ts.length) := by
  fun_induction readVariables below ts generalizing g rest with
  | case1 => cases h
  | case2 ts _ v rest' hv ih =>
    have := length_of_readVariable hv
    cases hg : readVariables below rest' with
    | error f => simp [hg, Except.map] at h
    | ok r =>
      simp only [hg, Except.map, Prod.map, id_eq, Except.ok.injEq, Prod.mk.injEq] at h
      have := (ih hg).1
      obtain ⟨-, rfl⟩ := h
      omega
  | case3 ts => cases h; simp

theorem length_of_readGroup {below : Reader Pipeline} {ts rest : List Token} {g : Group}
    (h : readGroup below ts = .ok (g, rest)) : rest.length < ts.length := by
  obtain ⟨⟨g', rest'⟩, hg, h⟩ := bind_eq_ok.1 h
  simp only at h
  split at h
  · cases h
  next hne =>
    cases h
    exact (length_of_readVariables hg).2 (by simpa using hne)

theorem length_of_readPipeline {below : Reader Pipeline} {ts rest : List Token} {p : Pipeline}
    (h : readPipeline below ts = .ok (p, rest)) : rest.length < ts.length := by
  obtain ⟨⟨g, rest'⟩, hg, h⟩ := bind_eq_ok.1 h
  have hlt := length_of_readGroup hg
  simp only at h
  split at h
  · obtain ⟨⟨q, rest''⟩, hb, h⟩ := bind_eq_ok.1 h
    cases h
    exact Nat.lt_trans (below.shorter hb) (Nat.lt_of_succ_lt hlt)
  · cases h
    exact hlt

def tooDeep (limit : Nat) : Reader Pipeline where
  read ts := .error ⟨.nestingTooDeep limit, ts⟩
  shorter h := by cases h

/-- Reads pipelines of at most so many levels, where `limit` is named if there are more. -/
def pipeline (limit : Nat) : Nat → Reader Pipeline
  | 0 => tooDeep limit
  | levels + 1 => ⟨fun ts => readPipeline (pipeline limit levels) ts, length_of_readPipeline⟩

def readPipelines (one : Reader Pipeline) (ts : List Token) :
    Except Failure (Pipelines × List Token) :=
  match _h : one.read ts with
  | .error f => .error f
  | .ok (p, rest) =>
    if Token.beginsVariable rest then (readPipelines one rest).map (·.map (p :: ·) id)
    else .ok ([p], rest)
termination_by ts.length
decreasing_by exact one.shorter _h

end Reader

/-- The action that the tokens spell, with at most `limit` levels inside the outermost pipeline. -/
def Action.ofTokens (limit : Nat) (ts : List Token) : Except Failure Action := do
  let (opener, ts) ← Reader.expect .statementOpen ts
  let (pipelines, ts) ← Reader.readPipelines (Reader.pipeline limit (limit + 1)) ts
  let (closer, ts) ← Reader.expect .statementClose ts
  match ts with
  | [] => return ⟨opener.text, pipelines, closer.text⟩
  | t :: rest => .error ⟨.trailingTokens t.label, t :: rest⟩

end Stencil
