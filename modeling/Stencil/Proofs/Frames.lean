import Stencil.Proofs.Walks

namespace Stencil

section Frame

mutual

/-- The groupings of a variable, one or none, with nothing but groupings left inside. -/
def Variable.frame : Variable → List Variable
  | .grouping opener body closer => [.grouping opener body.frame closer]
  | _ => []

def Group.frame : List Variable → List Variable
  | [] => []
  | v :: g => v.frame ++ Group.frame g

def Pipeline.frame : Pipeline → Pipeline
  | .stage g => .stage (Group.frame g)
  | .piped g p => .piped (Group.frame g) p.frame

end

def Grouping.frame (g : Grouping) : Grouping := { g with body := g.body.frame }

def Pipelines.frame (ps : Pipelines) : Pipelines := ps.map Pipeline.frame

def Action.frame (a : Action) : Action := { a with pipelines := Pipelines.frame a.pipelines }

def Branch.frame : Branch → Branch
  | .text s => .text s
  | .action a => .action a.frame

def Tree.frame (t : Tree) : Tree := t.map Branch.frame

/-- The variable as its own group sees it: a grouping without what is inside. -/
def Variable.hollow : Variable → Variable
  | .grouping opener _ closer => .grouping opener (.stage []) closer
  | v => v

def Group.hollow (g : Group) : Group := g.map Variable.hollow

def Group.groupings (g : Group) : List Grouping := g.filterMap Variable.grouping?

namespace Node

/-- The node with the texts, delimiters, pipes and groupings alone. -/
def frame : Node → Node
  | tree t => tree t.frame
  | branch b => branch b.frame
  | action a => action a.frame
  | pipelines ps => pipelines ps.frame
  | pipeline p => pipeline p.frame
  | group g => group (Group.frame g)
  | grouping g => grouping g.frame

end Node

end Frame

section Groupings

theorem Group.inner_eq_flatMap (g : Group) : Group.inner g = g.flatMap Variable.groups := by
  induction g with
  | nil => rfl
  | cons v g ih => rw [Group.inner, ih, List.flatMap_cons]

theorem Group.inner_eq (g : Group) : Group.inner g = (Group.groupings g).flatMap Grouping.groups := by
  induction g with
  | nil => rfl
  | cons v g ih =>
    rw [Group.inner, ih]
    cases v <;> rfl

theorem Group.frame_eq (g : Group) :
    Group.frame g = (Group.groupings g).map fun x => .ofGrouping x.frame := by
  induction g with
  | nil => rfl
  | cons v g ih =>
    rw [Group.frame, ih]
    cases v <;> rfl

theorem Group.frame_eq_flatMap (g : Group) : Group.frame g = g.flatMap Variable.frame := by
  induction g with
  | nil => rfl
  | cons v g ih => rw [Group.frame, ih, List.flatMap_cons]

theorem Variable.eq_of_grouping? {v : Variable} {x : Grouping} (h : v.grouping? = some x) :
    v = .ofGrouping x := by
  cases v <;> cases h
  rfl

theorem Variable.groups_of_leaf {v : Variable} (h : v.grouping? = none) : v.groups = [] := by
  cases v <;> first | rfl | cases h

theorem Group.forall_of_groupings {P : Variable → Prop} (hleaf : ∀ v, v.grouping? = none → P v)
    {g g' : Group} (h : Group.groupings g' = Group.groupings g) (hg : ∀ v ∈ g, P v) :
    ∀ v ∈ g', P v := by
  intro v hv
  cases hx : v.grouping? with
  | none => exact hleaf v hx
  | some x =>
    have hmem : x ∈ Group.groupings g := by
      rw [← h]
      exact List.mem_filterMap.2 ⟨v, hv, hx⟩
    obtain ⟨w, hw, hwx⟩ := List.mem_filterMap.1 hmem
    rw [Variable.eq_of_grouping? hx, ← Variable.eq_of_grouping? hwx]
    exact hg w hw

end Groupings

section Determined

mutual

theorem Variable.length_groups_frame :
    ∀ v : Variable, (Group.inner v.frame).length = v.groups.length
  | .grouping opener body closer => by
    simp only [Variable.frame, Group.inner, Variable.groups, List.append_nil,
      Pipeline.length_groups_frame body]
  | .assign _ | .range _ | .ident _ | .keyword _ | .literal _ | .string _ | .rune _ | .float _
  | .int _ | .space _ | .comment _ => rfl

theorem Group.length_inner_frame :
    ∀ g : Group, (Group.inner (Group.frame g)).length = (Group.inner g).length
  | [] => rfl
  | v :: g => by
    have hv := Variable.length_groups_frame v
    have hg := Group.length_inner_frame g
    rw [Group.inner_eq_flatMap] at hv hg ⊢
    rw [Group.frame, List.flatMap_append, List.length_append, hv, hg, Group.inner,
      List.length_append]

theorem Pipeline.length_groups_frame :
    ∀ p : Pipeline, p.frame.groups.length = p.groups.length
  | .stage g => by
    simp only [Pipeline.frame, Pipeline.groups, List.length_cons, Group.length_inner_frame g]
  | .piped g p => by
    simp only [Pipeline.frame, Pipeline.groups, List.cons_append, List.length_cons,
      List.length_append, Group.length_inner_frame g, Pipeline.length_groups_frame p]

end

/-- Whether a thing is determined by its frame and the own variables of its groups. -/
def Determined {α β : Type} (groups : α → List Group) (frame : α → β) : Prop :=
  ∀ x y, frame x = frame y → (groups x).length = (groups y).length ∧
    ((groups x).map Group.hollow = (groups y).map Group.hollow → x = y)

theorem Determined.list {α β : Type} {groups : α → List Group} {frame : α → β}
    (h : Determined groups frame) :
    Determined (List.flatMap groups) (List.map frame) := by
  intro xs ys hframe
  induction xs generalizing ys with
  | nil =>
    rw [List.map_nil, eq_comm, List.map_eq_nil_iff] at hframe
    rw [hframe]
    exact ⟨rfl, fun _ => rfl⟩
  | cons x xs ih =>
    cases ys with
    | nil => cases hframe
    | cons y ys =>
      rw [List.map_cons, List.map_cons, List.cons.injEq] at hframe
      obtain ⟨hx, heq⟩ := h x y hframe.1
      obtain ⟨hxs, heqs⟩ := ih ys hframe.2
      rw [List.flatMap_cons, List.flatMap_cons]
      refine ⟨by rw [List.length_append, List.length_append, hx, hxs], fun hgroups => ?_⟩
      rw [List.map_append, List.map_append] at hgroups
      have hlength : ((groups x).map Group.hollow).length = ((groups y).map Group.hollow).length := by
        rw [List.length_map, List.length_map, hx]
      obtain ⟨hhead, htail⟩ := List.append_inj hgroups hlength
      rw [heq hhead, heqs htail]

theorem Variable.hollow_of_leaf {v : Variable} (h : v.grouping? = none) : v.hollow = v := by
  cases v <;> first | rfl | cases h

theorem Variable.length_frame_hollow (v : Variable) : v.hollow.frame.length = v.frame.length := by
  cases v <;> rfl

theorem Variable.eq_of_hollow {v w : Variable} (hv : v.grouping? = none)
    (h : v.hollow = w.hollow) : v = w := by
  rw [hollow_of_leaf hv] at h
  cases w with
  | grouping =>
    rw [h] at hv
    cases hv
  | _ => exact h

-- The frames say how many groups each part has, and so where the groups of the parts are to be cut.
mutual

theorem Variable.ext_of_frame (v w : Variable) (hframe : v.frame = w.frame)
    (hhollow : v.hollow = w.hollow)
    (hgroups : v.groups.map Group.hollow = w.groups.map Group.hollow) : v = w := by
  cases v with
  | grouping opener body closer =>
    cases w with
    | grouping opener' body' closer' =>
      injection hhollow with hopener _ hcloser
      injection hframe with hframe
      injection hframe with _ hbody
      rw [hopener, hcloser, Pipeline.ext_of_frame body body' hbody hgroups]
    | _ => cases hhollow
  | _ => exact Variable.eq_of_hollow rfl hhollow

theorem Group.ext_of_frame (g h : List Variable) (hframe : Group.frame g = Group.frame h)
    (hhollow : Group.hollow g = Group.hollow h)
    (hgroups : (Group.inner g).map Group.hollow = (Group.inner h).map Group.hollow) : g = h := by
  cases g with
  | nil =>
    cases h with
    | nil => rfl
    | cons => cases hhollow
  | cons v g =>
    cases h with
    | nil => cases hhollow
    | cons w h =>
      rw [Group.hollow, List.map_cons, Group.hollow, List.map_cons, List.cons.injEq] at hhollow
      have hlength : v.frame.length = w.frame.length := by
        rw [← v.length_frame_hollow, hhollow.1, w.length_frame_hollow]
      obtain ⟨hv, hg⟩ := List.append_inj hframe hlength
      have hlength' : v.groups.length = w.groups.length := by
        rw [← v.length_groups_frame, hv, w.length_groups_frame]
      rw [Group.inner, Group.inner, List.map_append, List.map_append] at hgroups
      obtain ⟨hv', hg'⟩ := List.append_inj hgroups (by rw [List.length_map, List.length_map, hlength'])
      rw [Variable.ext_of_frame v w hv hhollow.1 hv', Group.ext_of_frame g h hg hhollow.2 hg']

theorem Pipeline.ext_of_frame (p q : Pipeline) (hframe : p.frame = q.frame)
    (hgroups : p.groups.map Group.hollow = q.groups.map Group.hollow) : p = q := by
  cases p with
  | stage g =>
    cases q with
    | stage h =>
      injection hframe with hframe
      rw [Pipeline.groups, Pipeline.groups, List.map_cons, List.map_cons, List.cons.injEq] at hgroups
      rw [Group.ext_of_frame g h hframe hgroups.1 hgroups.2]
    | piped => cases hframe
  | piped g p =>
    cases q with
    | stage => cases hframe
    | piped h q =>
      injection hframe with hg hp
      rw [Pipeline.groups, Pipeline.groups, List.cons_append, List.cons_append, List.map_cons,
        List.map_cons, List.cons.injEq, List.map_append, List.map_append] at hgroups
      have hlength : (Group.inner g).length = (Group.inner h).length := by
        rw [← Group.length_inner_frame, hg, Group.length_inner_frame]
      obtain ⟨hinner, hnext⟩ :=
        List.append_inj hgroups.2 (by rw [List.length_map, List.length_map, hlength])
      rw [Group.ext_of_frame g h hg hgroups.1 hinner, Pipeline.ext_of_frame p q hp hnext]

end

theorem determined_pipeline : Determined Pipeline.groups Pipeline.frame := by
  intro p q hframe
  refine ⟨?_, p.ext_of_frame q hframe⟩
  rw [← p.length_groups_frame, hframe, q.length_groups_frame]

theorem determined_group : Determined Group.groups Group.frame := by
  intro g h hframe
  have hlength : (Group.inner g).length = (Group.inner h).length := by
    rw [← Group.length_inner_frame, hframe, Group.length_inner_frame]
  refine ⟨congrArg (· + 1) hlength, fun hgroups => ?_⟩
  rw [Group.groups, Group.groups, List.map_cons, List.map_cons, List.cons.injEq] at hgroups
  exact Group.ext_of_frame g h hframe hgroups.1 hgroups.2

theorem determined_pipelines : Determined Pipelines.groups Pipelines.frame :=
  determined_pipeline.list

theorem determined_action : Determined Action.groups Action.frame := by
  rintro ⟨opener, ps, closer⟩ ⟨opener', qs, closer'⟩ hframe
  simp only [Action.frame, Action.mk.injEq] at hframe
  obtain ⟨rfl, hps, rfl⟩ := hframe
  exact (determined_pipelines ps qs hps).imp_right (congrArg (Action.mk opener · closer) ∘ ·)

theorem determined_branch : Determined Branch.groups Branch.frame := by
  intro b c hframe
  cases b with
  | text s =>
    cases c with
    | text => exact ⟨rfl, fun _ => hframe⟩
    | action => cases hframe
  | action a =>
    cases c with
    | text => cases hframe
    | action a' =>
      injection hframe with hframe
      exact (determined_action a a' hframe).imp_right (congrArg Branch.action ∘ ·)

theorem determined_tree : Determined Tree.groups Tree.frame := determined_branch.list

theorem determined_grouping : Determined Grouping.groups Grouping.frame := by
  rintro ⟨opener, p, closer⟩ ⟨opener', q, closer'⟩ hframe
  simp only [Grouping.frame, Grouping.mk.injEq] at hframe
  obtain ⟨rfl, hp, rfl⟩ := hframe
  exact (determined_pipeline p q hp).imp_right (congrArg (Grouping.mk opener · closer) ∘ ·)

theorem determined_node : Determined Node.groups Node.frame := by
  intro n m hframe
  cases n with
  | tree t =>
    cases m with
    | tree u =>
      injection hframe with h
      exact (determined_tree t u h).imp_right (congrArg Node.tree ∘ ·)
    | _ => cases hframe
  | branch b =>
    cases m with
    | branch c =>
      injection hframe with h
      exact (determined_branch b c h).imp_right (congrArg Node.branch ∘ ·)
    | _ => cases hframe
  | action a =>
    cases m with
    | action a' =>
      injection hframe with h
      exact (determined_action a a' h).imp_right (congrArg Node.action ∘ ·)
    | _ => cases hframe
  | pipelines ps =>
    cases m with
    | pipelines qs =>
      injection hframe with h
      exact (determined_pipelines ps qs h).imp_right (congrArg Node.pipelines ∘ ·)
    | _ => cases hframe
  | pipeline p =>
    cases m with
    | pipeline q =>
      injection hframe with h
      exact (determined_pipeline p q h).imp_right (congrArg Node.pipeline ∘ ·)
    | _ => cases hframe
  | group g =>
    cases m with
    | group g' =>
      injection hframe with h
      exact (determined_group g g' h).imp_right (congrArg Node.group ∘ ·)
    | _ => cases hframe
  | grouping g =>
    cases m with
    | grouping g' =>
      injection hframe with h
      exact (determined_grouping g g' h).imp_right (congrArg Node.grouping ∘ ·)
    | _ => cases hframe

end Determined

end Stencil
