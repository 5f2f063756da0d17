import Stencil.Comment
import Stencil.Prune
import Stencil.Script
import Stencil.Tree.Json
import Stencil.Tree.Same

/-!
Sessions: a tree and the options to parse with, worked on step by step. A step that is refused
leaves both as they were.
-/

namespace Stencil

structure Session where
  tree : Tree := []
  options : Options := {}

namespace Session

inductive Step where
  | maxDepth (limit : Nat)
  | parse (text : Text)
  | reparse
  | removeComments
  | pruneComments
  | pruneGroups (min : Nat)
  | walk (stop : StopRule)
  | edit (script : EditScript)
  | push (branch : Branch)
  | insert (index : Nat) (branch : Branch)
  | remove (index : Nat)
  | swap (index index' : Nat)
  | append (text : Text)
  | upperText
  | setDelimiters (index : Nat) (opener closer : Text)
  | addPipeline (index : Nat) (pipeline : Pipeline)
  | pipeInto (index : Nat) (pipeline : Pipeline)
  | mergePipelines (index : Nat)
  | actions
  | dump
  | format
  | jsonRoundTrip

inductive Answer where
  | none
  | number (n : Nat)
  | equal (same : Bool)
  | text (text : Text)
  | texts (texts : List Text)
  | walk (report : WalkReport)
  | edit (report : EditReport)
  | trims (left right : Bool)
  | tree (tree : Tree)

inductive Refusal where
  | parseError (error : ParseError)
  | indexOutOfRange
  | notAnAction
  | unreadable

def upperCase (s : Text) : Text :=
  s.map fun c => if 'a' ≤ c ∧ c ≤ 'z' then Char.ofNat (c.toNat - 32) else c

/-- One stage of the first stages of all pipelines, its groupings marked by `<` and `>` inside their
parentheses. -/
def merge (ps : Pipelines) : Pipeline :=
  .stage <| ps.flatMap fun p => p.root.map fun
    | .grouping opener body closer => .grouping (opener ++ ['<']) body ('>' :: closer)
    | v => v

def onAction (t : Tree) (index : Nat) (change : Action → Except Refusal (Answer × Action)) :
    Except Refusal (Answer × Tree) :=
  match t[index]? with
  | none => .error .indexOutOfRange
  | some (.text _) => .error .notAnAction
  | some (.action a) => do
    let (answer, a) ← change a
    return (answer, t.set index (.action a))

def parseAs (file : String) (s : Text) (options : Options) : Except Refusal Tree :=
  (Stencil.parse file.toList s options).mapError .parseError

/-- What a step answers and the tree after it, for steps that leave the options alone. -/
def stepTree (t : Tree) (options : Options) : Step → Except Refusal (Answer × Tree)
  | .maxDepth limit => return (.number limit, t)
  | .parse s => return (.none, ← parseAs "s" s options)
  | .reparse => do
    let new ← parseAs "r" t.render options
    return (.equal (new.same t), new)
  | .removeComments => return (.none, ← parseAs "c" (Stencil.removeComments t.render) {})
  | .pruneComments => do
    let s ← (Stencil.pruneComments t.render).mapError .parseError
    return (.none, ← parseAs "p" s {})
  | .pruneGroups min =>
    let (t, removed) := Tree.pruneGroups min t
    return (.number removed, t)
  | .walk stop => return (.walk (stop.report fun visit => Tree.walk visit t), t)
  | .edit script =>
    let (t, report) :=
      script.run fun visit => Tree.editWalk visit (t.nesting + EditScript.maxGrowth) t
    return (.edit report, t)
  | .push b => return (.none, t ++ [b])
  | .insert index b =>
    if index ≤ t.length then return (.none, t.insertIdx index b) else .error .indexOutOfRange
  | .remove index =>
    match t[index]? with
    | some b => return (.text b.render, t.eraseIdx index)
    | none => .error .indexOutOfRange
  | .swap index index' =>
    match t[index]?, t[index']? with
    | some b, some b' => return (.none, (t.set index b').set index' b)
    | _, _ => .error .indexOutOfRange
  | .append s => return (.none, t ++ (← parseAs "a" s options))
  | .upperText =>
    return (.none, t.map fun
      | .text s => .text (upperCase s)
      | b => b)
  | .setDelimiters index opener closer =>
    onAction t index fun a =>
      let a := { a with opener, closer }
      return (.trims a.trimsBefore a.trimsAfter, a)
  | .addPipeline index p =>
    onAction t index fun a => return (.none, { a with pipelines := a.pipelines ++ [p] })
  | .pipeInto index next =>
    onAction t index fun a =>
      match a.pipelines with
      | [] => .error .indexOutOfRange
      | p :: ps =>
        let p := p.pipeInto next
        return (.number p.stageCount, { a with pipelines := p :: ps })
  | .mergePipelines index =>
    onAction t index fun a => return (.none, { a with pipelines := [merge a.pipelines] })
  | .actions => return (.texts (t.actions.map Action.render), t)
  | .dump => return (.tree t, t)
  | .format => return (.text t.format, t)
  | .jsonRoundTrip =>
    match Json.read? Json.toTree? t.toJson.render with
    | some new => return (.equal (new.same t), t)
    | none => .error .unreadable

def step (s : Session) (st : Step) : Except Refusal Answer × Session :=
  match stepTree s.tree s.options st with
  | .error refusal => (.error refusal, s)
  | .ok (answer, tree) =>
    let options := match st with
      | .maxDepth limit => ⟨limit⟩
      | _ => s.options
    (.ok answer, { tree, options })

def run (s : Session) : List Step → List (Except Refusal Answer × Tree)
  | [] => []
  | st :: sts =>
    let (answer, s) := s.step st
    (answer, s.tree) :: s.run sts

/-- Those of the steps that are not refused in their turn. -/
def accepted (s : Session) : List Step → List Step
  | [] => []
  | st :: sts =>
    if (s.step st).1.isOk then st :: (s.step st).2.accepted sts else (s.step st).2.accepted sts

theorem step_of_refused {s : Session} {st : Step} (h : ¬ (s.step st).1.isOk = true) :
    (s.step st).2 = s := by
  unfold step at h ⊢
  cases hstep : stepTree s.tree s.options st with
  | error refusal => rfl
  | ok r =>
    rw [hstep] at h
    exact (h rfl).elim

theorem run_cons (s : Session) (st : Step) (sts : List Step) : s.run (st :: sts) =
    ((s.step st).1, (s.step st).2.tree) :: (s.step st).2.run sts := rfl

/-- A step that is refused does nothing but give its answer: without such steps all others are
answered as they are with them, and leave the same trees. -/
theorem run_accepted (s : Session) (sts : List Step) :
    s.run (s.accepted sts) = (s.run sts).filter (·.1.isOk) := by
  induction sts generalizing s with
  | nil => rfl
  | cons st sts ih =>
    rw [accepted, run_cons, List.filter_cons]
    by_cases hok : (s.step st).1.isOk = true
    · rw [if_pos hok, if_pos hok, run_cons, ih]
    · rw [if_neg hok, if_neg hok, step_of_refused hok]
      exact ih s

end Session
end Stencil
