import Stencil.Tree.Groups

namespace Stencil

inductive Node where
  | tree (t : Tree)
  | branch (b : Branch)
  | action (a : Action)
  | pipelines (ps : Pipelines)
  | pipeline (p : Pipeline)
  | group (g : Group)
  | grouping (g : Grouping)

namespace Node

def groups : Node → List Group
  | tree t => t.groups
  | branch b => b.groups
  | action a => a.groups
  | pipelines ps => ps.groups
  | pipeline p => p.groups
  | group g => Group.groups g
  | grouping g => g.groups

def walk {m : Type → Type} [Monad m] (visit : Group → m Bool) : Node → m Bool
  | tree t => Tree.walk visit t
  | branch b => b.walk visit
  | action a => a.walk visit
  | pipelines ps => Pipelines.walk visit ps
  | pipeline p => p.walk visit
  | group g => Group.walk visit g
  | grouping g => g.walk visit

end Node

section Search
variable {m : Type → Type} [Monad m] {α β : Type}

theorem anyM_append [LawfulMonad m] (visit : α → m Bool) (as bs : List α) :
    (as ++ bs).anyM visit = (do if ← as.anyM visit then pure true else bs.anyM visit) := by
  induction as with
  | nil => simp
  | cons a as ih =>
    simp only [List.cons_append, List.anyM_cons, ih, bind_assoc]
    congr 1
    funext stopped
    cases stopped <;> simp

theorem anyM_flatMap [LawfulMonad m] (visit : β → m Bool) (f : α → List β) (as : List α) :
    (as.flatMap f).anyM visit = as.anyM fun a => (f a).anyM visit := by
  induction as with
  | nil => simp
  | cons a as ih => rw [List.flatMap_cons, anyM_append, ih, List.anyM_cons]

variable (visit : Group → m Bool)

mutual

theorem Variable.walk_eq_anyM [LawfulMonad m] :
    ∀ v : Variable, v.walk visit = v.groups.anyM visit
  | .grouping opener body closer => by
    rw [Variable.walk, Variable.groups, Pipeline.walk_eq_anyM body]
  | .assign _ | .range _ | .ident _ | .keyword _ | .literal _ | .string _ | .rune _ | .float _
  | .int _ | .space _ | .comment _ => by
    rw [Variable.walk, Variable.groups, List.anyM_nil] <;> exact nofun

theorem Group.walkInner_eq_anyM [LawfulMonad m] :
    ∀ g : Group, Group.walkInner visit g = (Group.inner g).anyM visit
  | [] => by rw [Group.walkInner, Group.inner, List.anyM_nil]
  | v :: g => by
    rw [Group.walkInner, Group.inner, anyM_append, Variable.walk_eq_anyM v,
      Group.walkInner_eq_anyM g]

theorem Pipeline.walk_eq_anyM [LawfulMonad m] :
    ∀ p : Pipeline, p.walk visit = p.groups.anyM visit
  | .stage g => by
    rw [Pipeline.walk, Pipeline.groups, List.anyM_cons, Group.walkInner_eq_anyM g]
  | .piped g p => by
    rw [Pipeline.walk, Pipeline.groups, List.cons_append, List.anyM_cons, anyM_append,
      Group.walkInner_eq_anyM g, Pipeline.walk_eq_anyM p]

end

theorem Pipelines.walk_eq_anyM [LawfulMonad m] (ps : Pipelines) :
    Pipelines.walk visit ps = ps.groups.anyM visit := by
  rw [Pipelines.walk, Pipelines.groups, anyM_flatMap]
  congr 1
  funext p
  exact p.walk_eq_anyM visit

theorem Branch.walk_eq_anyM [LawfulMonad m] (b : Branch) : b.walk visit = b.groups.anyM visit := by
  cases b with
  | text s => rw [Branch.walk, Branch.groups, List.anyM_nil]
  | action a => exact Pipelines.walk_eq_anyM visit a.pipelines

theorem Node.walk_eq_anyM [LawfulMonad m] (n : Node) : n.walk visit = n.groups.anyM visit := by
  cases n with
  | tree t =>
    rw [Node.walk, Node.groups, Tree.walk, Tree.groups, anyM_flatMap]
    congr 1
    funext b
    exact b.walk_eq_anyM visit
  | branch b => exact b.walk_eq_anyM visit
  | action a => exact Pipelines.walk_eq_anyM visit a.pipelines
  | pipelines ps => exact Pipelines.walk_eq_anyM visit ps
  | pipeline p => exact p.walk_eq_anyM visit
  | group g =>
    rw [Node.walk, Node.groups, Group.walk, Group.groups, List.anyM_cons, Group.walkInner_eq_anyM]
  | grouping g => exact g.body.walk_eq_anyM visit

end Search

section Visits
variable {σ : Type}

/-- `Visits visit s gs stopped seen s'`: from the state `s`, a visitor is handed the groups `seen`,
which are the groups `gs` in order up to and including the first at which it says to stop, or all
of them if it never does, and its last visit leaves the state `s'`. -/
inductive Visits (visit : Group → StateM σ Bool) :
    σ → List Group → Bool → List Group → σ → Prop
  | done (s : σ) : Visits visit s [] false [] s
  | stop {s s' : σ} {g : Group} (gs : List Group) (h : (visit g).run s = (true, s')) :
      Visits visit s (g :: gs) true [g] s'
  | pass {s t s' : σ} {g : Group} {gs seen : List Group} {stopped : Bool}
      (h : (visit g).run s = (false, t)) (hs : Visits visit t gs stopped seen s') :
      Visits visit s (g :: gs) stopped (g :: seen) s'

/-- The visitor, with a note of each group that it is handed. -/
def noted {α : Type} (visit : Group → StateM σ α) (g : Group) : StateM (List Group × σ) α := do
  let (seen, s) ← get
  let (a, s) := (visit g).run s
  set (seen ++ [g], s)
  return a

variable {visit : Group → StateM σ Bool} {s : σ}

theorem run_noted {α : Type} {visit : Group → StateM σ α} {s s' : σ} {g : Group} {a : α}
    (h : (visit g).run s = (a, s')) (seen : List Group) :
    (noted visit g).run (seen, s) = (a, seen ++ [g], s') := by
  have hrun : (noted visit g).run (seen, s) =
      (((visit g).run s).1, seen ++ [g], ((visit g).run s).2) := rfl
  rw [hrun, h]

theorem exists_visits (visit : Group → StateM σ Bool) (gs : List Group) (s : σ) :
    ∃ stopped seen s', Visits visit s gs stopped seen s' := by
  induction gs generalizing s with
  | nil => exact ⟨false, [], s, .done s⟩
  | cons g gs ih =>
    obtain ⟨⟨stop, t⟩, h⟩ : ∃ r, (visit g).run s = r := ⟨_, rfl⟩
    cases stop with
    | true => exact ⟨true, [g], t, .stop gs h⟩
    | false =>
      obtain ⟨stopped, seen, s', hvisits⟩ := ih t
      exact ⟨stopped, g :: seen, s', .pass h hvisits⟩

namespace Visits
variable {gs hs seen seen' : List Group} {stopped stopped' : Bool} {t s' : σ}

theorem seen_eq (h : Visits visit s gs false seen s') : seen = gs := by
  generalize hb : false = b at h
  induction h with
  | done => rfl
  | stop => cases hb
  | pass _ _ ih => rw [ih hb]

theorem append_of_stop (h : Visits visit s gs true seen s') (hs : List Group) :
    Visits visit s (gs ++ hs) true seen s' := by
  generalize hb : true = b at h ⊢
  induction h with
  | done => cases hb
  | stop gs h => exact .stop (gs ++ hs) h
  | pass h _ ih => exact .pass h (ih hb)

theorem append (h : Visits visit s gs false seen t) (h' : Visits visit t hs stopped seen' s') :
    Visits visit s (gs ++ hs) stopped (seen ++ seen') s' := by
  generalize hb : false = b at h
  induction h with
  | done => exact h'
  | stop => cases hb
  | pass h _ ih => exact .pass h (ih h' hb)

theorem unique (h : Visits visit s gs stopped seen s')
    (h' : Visits visit s gs stopped' seen' t) : stopped' = stopped ∧ seen' = seen ∧ t = s' := by
  induction h generalizing seen' with
  | done =>
    cases h'
    exact ⟨rfl, rfl, rfl⟩
  | stop gs h =>
    cases h' with
    | stop _ h' =>
      cases h.symm.trans h'
      exact ⟨rfl, rfl, rfl⟩
    | pass h' => cases h.symm.trans h'
  | pass h _ ih =>
    cases h' with
    | stop _ h' => cases h.symm.trans h'
    | pass h' hs' =>
      cases h.symm.trans h'
      obtain ⟨rfl, rfl, rfl⟩ := ih hs'
      exact ⟨rfl, rfl, rfl⟩

theorem run (h : Visits visit s gs stopped seen s') :
    (gs.anyM visit).run s = (stopped, s') := by
  induction h with
  | done s => rfl
  | stop gs h =>
    rw [List.anyM_cons, StateT.run_bind, h]
    rfl
  | pass h _ ih =>
    rw [List.anyM_cons, StateT.run_bind, h]
    exact ih

theorem noted (h : Visits visit s gs stopped seen s') (before : List Group) :
    Visits (Stencil.noted visit) (before, s) gs stopped seen (before ++ seen, s') := by
  induction h generalizing before with
  | done s =>
    rw [List.append_nil]
    exact .done (before, s)
  | stop gs h => exact .stop gs (run_noted h before)
  | @pass _ _ _ g _ seen _ h _ ih =>
    rw [List.append_cons before g seen]
    exact .pass (run_noted h before) (ih (before ++ [g]))

end Visits

/-- A walk hands its visitor the groups of the node in order, up to and including the first at
which the visitor says to stop, and tells whether there was one. -/
theorem Node.walk_visits (n : Node) (visit : Group → StateM σ Bool) (s : σ) :
    ∃ stopped seen s', Visits visit s n.groups stopped seen s' ∧
      (n.walk visit).run s = (stopped, s') ∧
      (n.walk (noted visit)).run ([], s) = (stopped, seen, s') := by
  obtain ⟨stopped, seen, s', hvisits⟩ := exists_visits visit n.groups s
  refine ⟨stopped, seen, s', hvisits, ?_, ?_⟩
  · rw [Node.walk_eq_anyM, hvisits.run]
  · rw [Node.walk_eq_anyM, (hvisits.noted []).run, List.nil_append]

end Visits

end Stencil
