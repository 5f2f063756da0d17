import Stencil.Tree.Reader

/-!
Actions parsed by the places of their tokens. A parse holds the place of the next token and the
number of levels that are open, and changes both as it goes. Its parts call one another and
themselves; how many calls there may be inside one another is given to them, the rounds of a loop
counted as calls, and where there would be more a part has no outcome.
-/

namespace Stencil

structure Cursor where
  pos : Nat := 0
  depth : Nat := 0
  /-- The depths that have been set, the last one first. No part of a parse reads them. -/
  record : List Nat := []
  deriving DecidableEq, Repr

namespace Cursor

def next (s : Cursor) : Cursor := { s with pos := s.pos + 1 }

def withDepth (s : Cursor) (d : Nat) : Cursor := { s with depth := d, record := d :: s.record }

def left (ts : List Token) (s : Cursor) : Nat := (ts.drop s.pos).length

end Cursor

inductive Halt where
  | refused (failure : Failure)
  /-- A level was to be left where none is open. -/
  | underflow
  deriving DecidableEq, Repr

/-- A part of a parse: from a cursor it gives a value or halts, at another cursor. -/
abbrev Descent (α : Type) := ExceptT Halt (StateT Cursor Option) α

namespace Descent

variable (ts : List Token) (limit : Nat)

def outOfCalls {α : Type} : Descent α := fun _ => none

def peek : Descent (Option Token) := return ts[(← get).pos]?

def advance : Descent Unit := modify Cursor.next

def refuse {α : Type} (failure : List Token → Failure) : Descent α := do
  throw (.refused (failure (ts.drop (← get).pos)))

def unexpected {α : Type} (expected : Text) : Descent α := refuse ts (Reader.unexpected expected)

def consume (kind : TokenKind) : Descent (Option Token) := do
  match ← peek ts with
  | none => return none
  | some w =>
    if w.kind = kind then
      advance
      return some w
    else return none

def expect (kind : TokenKind) : Descent Token := do
  match ← consume ts kind with
  | some w => return w
  | none => unexpected ts kind.label

/-- Opens a level, and refuses what is on it if it is one too many. -/
def enter : Descent Unit := do
  modify fun s => s.withDepth (s.depth + 1)
  if limit < (← get).depth then refuse ts (⟨.nestingTooDeep limit, ·⟩)

def leave : Descent Unit := do
  match (← get).depth with
  | 0 => throw .underflow
  | d + 1 => modify (·.withDepth d)

/-- What is parsed on a level of its own, which stays open where it halts. -/
def level {α : Type} (x : Descent α) : Descent α := do
  enter ts limit
  let a ← x
  leave
  return a

def parseSpaces : Nat → Descent Text
  | 0 => outOfCalls
  | calls + 1 => do
    match ← consume ts .space with
    | none => return []
    | some w => return w.text ++ (← parseSpaces calls)

def parseSpace (calls : Nat) : Descent Variable := return .space (← parseSpaces ts calls)

mutual

def parsePipeline : Nat → Descent Pipeline
  | 0 => outOfCalls
  | calls + 1 => do
    let g ← parseGroup calls
    if (← consume ts .pipe).isSome then
      let p ← level ts limit (parsePipeline calls)
      return .piped g p
    else return .stage g

def parseGroup : Nat → Descent Group
  | 0 => outOfCalls
  | calls + 1 => do
    let g ← parseVariables calls
    if g.isEmpty then unexpected ts "a pipeline".toList else return g

def parseVariables : Nat → Descent Group
  | 0 => outOfCalls
  | calls + 1 => do
    if (← peek ts).any (·.kind.beginsVariable) then
      let v ← parseVariable calls
      return v :: (← parseVariables calls)
    else return []

def parseVariable : Nat → Descent Variable
  | 0 => outOfCalls
  | calls + 1 => do
    match ← peek ts with
    | none => unexpected ts "a variable".toList
    | some w =>
      if w.kind = .space then parseSpace ts calls
      else if w.kind = .groupOpen then parseGrouping calls
      else match w.toVariable? with
        | some (.ok v) =>
          advance
          return v
        | some (.error fault) => refuse ts (⟨.invalidLiteral w.text fault.message, ·⟩)
        | none => unexpected ts "a variable".toList

def parseGrouping : Nat → Descent Variable
  | 0 => outOfCalls
  | calls + 1 => do
    let opener ← expect ts .groupOpen
    let body ← level ts limit (parsePipeline calls)
    let closer ← expect ts .groupClose
    return .grouping opener.text body closer.text

end

def parsePipelines : Nat → Descent Pipelines
  | 0 => outOfCalls
  | calls + 1 => do
    let p ← parsePipeline ts limit calls
    if (← peek ts).any (·.kind.beginsVariable) then return p :: (← parsePipelines calls)
    else return [p]

def parseAction (calls : Nat) : Descent Action := do
  let opener ← expect ts .statementOpen
  let pipelines ← parsePipelines ts limit calls
  let closer ← expect ts .statementClose
  match ← peek ts with
  | none => return ⟨opener.text, pipelines, closer.text⟩
  | some w => refuse ts (⟨.trailingTokens w.label, ·⟩)

variable {α β : Type} {ts limit} {s t : Cursor}

theorem bind_of_ok {x : Descent α} {f : α → Descent β} {a : α} (h : x s = some (.ok a, t)) :
    (x >>= f) s = f a t := by
  change Option.bind (x s) _ = _
  rw [h]
  rfl

theorem bind_of_error {x : Descent α} {f : α → Descent β} {e : Halt}
    (h : x s = some (.error e, t)) : (x >>= f) s = some (.error e, t) := by
  change Option.bind (x s) _ = _
  rw [h]
  rfl

theorem peek_eq : peek ts s = some (.ok (ts.drop s.pos).head?, s) := by
  rw [List.head?_drop]
  rfl

theorem any_beginsVariable (us : List Token) :
    us.head?.any (·.kind.beginsVariable) = Token.beginsVariable us := by
  cases us <;> rfl

section Steps
variable {kind : TokenKind} {w : Token} {rest : List Token}

theorem drop_next (h : ts.drop s.pos = w :: rest) : ts.drop s.next.pos = rest := by
  rw [Cursor.next, ← List.tail_drop, h]
  rfl

theorem left_next (h : ts.drop s.pos = w :: rest) : s.next.left ts < s.left ts := by
  rw [Cursor.left, Cursor.left, drop_next h, h]
  exact Nat.lt_succ_self _

theorem pos_lt_length (h : ts.drop s.pos = w :: rest) : s.pos < ts.length := by
  have := congrArg List.length h
  rw [List.length_drop, List.length_cons] at this
  omega

theorem consume_of_kind (h : ts.drop s.pos = w :: rest) (hw : w.kind = kind) :
    consume ts kind s = some (.ok (some w), s.next) := by
  rw [consume, bind_of_ok peek_eq, h]
  simp only [List.head?_cons, if_pos hw]
  rfl

theorem consume_of_ne (h : ∀ w ∈ (ts.drop s.pos).head?, w.kind ≠ kind) :
    consume ts kind s = some (.ok none, s) := by
  rw [consume, bind_of_ok peek_eq]
  cases hhead : (ts.drop s.pos).head? with
  | none => rfl
  | some w =>
    simp only [if_neg (h w hhead)]
    rfl

end Steps

theorem enter_of_lt (h : s.depth < limit) :
    enter ts limit s = some (.ok (), s.withDepth (s.depth + 1)) := by
  have hnot : ¬ limit < s.depth + 1 := by omega
  change (if limit < s.depth + 1 then refuse ts _ else pure () : Descent Unit) _ = _
  rw [if_neg hnot]
  rfl

theorem enter_of_le (h : limit ≤ s.depth) : enter ts limit s =
    some (.error (.refused ⟨.nestingTooDeep limit, ts.drop s.pos⟩),
      s.withDepth (s.depth + 1)) := by
  have hlt : limit < s.depth + 1 := by omega
  change (if limit < s.depth + 1 then refuse ts _ else pure () : Descent Unit) _ = _
  rw [if_pos hlt]
  rfl

theorem leave_of_eq {d : Nat} (h : s.depth = d + 1) : leave s = some (.ok (), s.withDepth d) := by
  change (match s.depth with
    | 0 => throw .underflow
    | d + 1 => modify (·.withDepth d) : Descent Unit) s = _
  rw [h]
  rfl

end Descent

end Stencil
