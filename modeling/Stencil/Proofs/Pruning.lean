import Mathlib.Data.List.MinMax
import Stencil.Prune

namespace Stencil

/-- The group without its comments if it has more than `min` variables. -/
def Group.prunedAbove (min : Nat) (g : Group) : Group :=
  if g.length ≤ min then g else Group.pruneComments g

mutual

def Variable.pruned (min : Nat) : Variable → Variable
  | .grouping opener body closer => .grouping opener (body.pruned min) closer
  | v => v

def Group.prunedInner (min : Nat) : List Variable → List Variable
  | [] => []
  | v :: g => v.pruned min :: Group.prunedInner min g

def Pipeline.pruned (min : Nat) : Pipeline → Pipeline
  | .stage g => .stage (Group.prunedAbove min (Group.prunedInner min g))
  | .piped g p => .piped (Group.prunedAbove min (Group.prunedInner min g)) (p.pruned min)

end

def Group.pruned (min : Nat) (g : Group) : Group :=
  Group.prunedAbove min (Group.prunedInner min g)

def Action.pruned (min : Nat) (a : Action) : Action :=
  { a with pipelines := a.pipelines.map (Pipeline.pruned min) }

def Branch.pruned (min : Nat) : Branch → Branch
  | .text s => .text s
  | .action a => .action (a.pruned min)

def Tree.pruned (min : Nat) (t : Tree) : Tree := t.map (Branch.pruned min)

/-- Whether the computation gives the value from every state. -/
def Gives {σ α : Type} (x : StateM σ α) (a : α) : Prop := ∀ s, (x.run s).1 = a

namespace Gives

variable {σ α β : Type}

theorem pure (a : α) : Gives (Pure.pure a : StateM σ α) a := fun _ => rfl

theorem bind {x : StateM σ α} {f : α → StateM σ β} {a : α} {b : β} (hx : Gives x a)
    (hf : Gives (f a) b) : Gives (x >>= f) b := by
  intro s
  have hs := hx s
  have hnext := hf (x.run s).2
  rw [← hs] at hnext
  exact hnext

end Gives

section Walk

variable {min : Nat}

theorem Group.prunedInner_eq_map (g : Group) :
    Group.prunedInner min g = g.map (Variable.pruned min) := by
  induction g with
  | nil => rfl
  | cons v g ih => rw [Group.prunedInner, ih, List.map_cons]

theorem Variable.isComment_pruned (v : Variable) : (v.pruned min).isComment = v.isComment := by
  cases v <;> rfl

theorem Group.pruned_eq_map (g : Group) :
    Group.pruned min g = (Group.prunedAbove min g).map (Variable.pruned min) := by
  have hnot : (fun v : Variable => !v.isComment) ∘ Variable.pruned min = fun v => !v.isComment := by
    funext v
    simp [Variable.isComment_pruned]
  rw [Group.pruned, Group.prunedInner_eq_map, Group.prunedAbove, Group.prunedAbove, List.length_map]
  split
  · rfl
  · rw [Group.pruneComments, Group.pruneComments, List.filter_map, hnot]

theorem Group.prunedAbove_zero (g : Group) : Group.prunedAbove 0 g = Group.pruneComments g := by
  cases g <;> rfl

/-- In a group of two variables or more each comes or goes on its own. -/
theorem Group.prunedAbove_cons {v : Variable} {g : Group} (hmin : min ≤ 1) (hg : g ≠ []) :
    Group.prunedAbove min (v :: g) = Group.prunedAbove 0 [v] ++ Group.prunedAbove 0 g := by
  have hlength : ¬ (v :: g).length ≤ min := by
    have := List.length_pos_iff.2 hg
    simp only [List.length_cons]
    omega
  rw [Group.prunedAbove_zero, Group.prunedAbove_zero, Group.prunedAbove, if_neg hlength,
    Group.pruneComments, Group.pruneComments, Group.pruneComments, ← List.filter_append,
    List.singleton_append]

theorem gives_pruneAbove (g : Group) :
    Gives (Group.pruneAbove min g) (Group.prunedAbove min g, false) := by
  intro s
  unfold Group.pruneAbove Group.prunedAbove
  split <;> rfl

theorem gives_editUntil {σ α : Type} {edit : α → StateM σ (α × Bool)} {f : α → α} {as : List α}
    (h : ∀ a ∈ as, Gives (edit a) (f a, false)) : Gives (editUntil edit as) (as.map f, false) := by
  induction as with
  | nil => exact .pure _
  | cons a as ih =>
    rw [List.forall_mem_cons] at h
    exact .bind h.1 (.bind (ih h.2) (.pure _))

theorem Group.nesting_le_iff {n : Nat} {g : Group} :
    Group.nesting g ≤ n ↔ ∀ v ∈ g, v.nesting ≤ n := by
  induction g with
  | nil => simp [Group.nesting]
  | cons v g ih => simp [Group.nesting, ih]

theorem Group.nesting_prunedAbove {n : Nat} {g : Group} (h : Group.nesting g ≤ n) :
    Group.nesting (Group.prunedAbove min g) ≤ n := by
  unfold Group.prunedAbove
  split
  · exact h
  · exact Group.nesting_le_iff.2 fun v hv => Group.nesting_le_iff.1 h v (List.mem_filter.1 hv).1

theorem gives_pipeline_edit {levels : Nat} {edit : Group → StateM Nat (Group × Bool)}
    (h : ∀ g, Group.nesting g ≤ levels → Gives (edit g) (Group.pruned min g, false)) :
    ∀ p : Pipeline, p.nesting ≤ levels → Gives (p.edit edit) (p.pruned min, false)
  | .stage g, hp => .bind (h g hp) (.pure _)
  | .piped g p, hp => by
    rw [Pipeline.nesting, Nat.max_le] at hp
    exact .bind (h g hp.1) (.bind (gives_pipeline_edit h p (Nat.le_of_succ_le hp.2)) (.pure _))

/-- The walk prunes a group and all inside it if it goes down enough levels. -/
theorem gives_group_editWalk {levels : Nat} {g : Group} (h : Group.nesting g ≤ levels) :
    Gives (Group.editWalk (Group.pruneAbove min) levels g) (Group.pruned min g, false) := by
  rw [Group.pruned_eq_map]
  have hkept : ∀ v ∈ Group.prunedAbove min g, v.nesting ≤ levels :=
    Group.nesting_le_iff.1 (Group.nesting_prunedAbove h)
  induction levels generalizing g with
  | zero =>
    have hleaf : ∀ v ∈ Group.prunedAbove min g, v.pruned min = v := by
      intro v hv
      have hnesting := hkept v hv
      cases v with
      | grouping => simp [Variable.nesting] at hnesting
      | _ => rfl
    rw [List.map_congr_left hleaf, List.map_id']
    exact gives_pruneAbove g
  | succ levels ih =>
    refine .bind (gives_pruneAbove g) (gives_editUntil fun v hv => ?_)
    have hnesting := hkept v hv
    cases v with
    | grouping opener body closer =>
      refine .bind (gives_pipeline_edit (fun g hg => ?_) body (Nat.le_of_succ_le_succ hnesting))
        (.pure _)
      rw [Group.pruned_eq_map]
      exact ih hg (Group.nesting_le_iff.1 (Group.nesting_prunedAbove hg))
    | _ => exact .pure _

theorem gives_action_editWalk {levels : Nat} {a : Action} (h : a.nesting ≤ levels) :
    Gives (a.editWalk (Group.pruneAbove min) levels) (a.pruned min, false) := by
  refine .bind (gives_editUntil fun p hp => ?_) (.pure _)
  refine gives_pipeline_edit (fun g hg => gives_group_editWalk hg) p (Nat.le_trans ?_ h)
  exact List.le_max_of_le' 0 (List.mem_map_of_mem hp) (Nat.le_refl _)

theorem pruneGroups_fst (t : Tree) : (Tree.pruneGroups min t).1 = t.pruned min := by
  have hwalk : Gives (Tree.editWalk (Group.pruneAbove min) t.nesting t) (t.pruned min, false) := by
    refine gives_editUntil fun b hb => ?_
    have hnesting : b.nesting ≤ t.nesting :=
      List.le_max_of_le' 0 (List.mem_map_of_mem hb) (Nat.le_refl _)
    cases b with
    | text s => exact .pure _
    | action a => exact .bind (gives_action_editWalk hnesting) (.pure _)
  exact congrArg Prod.fst (hwalk 0)

end Walk
end Stencil
