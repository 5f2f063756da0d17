import Stencil.Proofs.Frames
import Stencil.Proofs.Pruning

namespace Stencil

namespace Node

def nesting : Node → Nat
  | tree t => t.nesting
  | branch b => b.nesting
  | action a => a.nesting
  | pipelines ps => ps.nesting
  | pipeline p => p.nesting
  | group g => Group.nesting g
  | grouping g => g.nesting

def editWalk {m : Type → Type} [Monad m] (visit : Group → m (Group × Bool)) (levels : Nat) :
    Node → m (Node × Bool)
  | tree t => do
    let (t, stopped) ← Tree.editWalk visit levels t
    return (tree t, stopped)
  | branch b => do
    let (b, stopped) ← b.editWalk visit levels
    return (branch b, stopped)
  | action a => do
    let (a, stopped) ← a.editWalk visit levels
    return (action a, stopped)
  | pipelines ps => do
    let (ps, stopped) ← Pipelines.editWalk visit levels ps
    return (pipelines ps, stopped)
  | pipeline p => do
    let (p, stopped) ← p.editWalk visit levels
    return (pipeline p, stopped)
  | group g => do
    let (g, stopped) ← Group.editWalk visit levels g
    return (group g, stopped)
  | grouping g => do
    let (g, stopped) ← g.editWalk visit levels
    return (grouping g, stopped)

end Node

section Walk
variable {σ α β γ δ : Type}

/-- A visitor that may change groups, as one that looks at them and notes what it would leave. -/
def leaving (visit : Group → StateM σ (Group × Bool)) (g : Group) :
    StateM (List Group × σ) Bool := do
  let (left, s) ← get
  let ((g, stopped), s) := (visit g).run s
  set (left ++ [g], s)
  return stopped

def KeepsGroupings (visit : Group → StateM σ (Group × Bool)) (g : Group) : Prop :=
  ∀ s, Group.groupings ((visit g).run s).1.1 = Group.groupings g

/-- `Refilled groups frame a left later a'`: `a'` is `a` with the own variables of its first groups
as in `left`, and with its other groups, `later`, as they were. -/
structure Refilled (groups : α → List Group) (frame : α → β) (a : α) (left later : List Group)
    (a' : α) : Prop where
  frame_eq : frame a' = frame a
  groups_eq : ∃ edited, groups a' = edited ++ later ∧
    edited.map Group.hollow = left.map Group.hollow

variable {visit : Group → StateM σ (Group × Bool)}

/-- Whether the computation visits the groups of `a` in order, up to the first stop, and leaves `a`
with what the visits left. -/
def Walks (visit : Group → StateM σ (Group × Bool)) (groups : α → List Group) (frame : α → β)
    (edit : α → StateM σ (α × Bool)) (a : α) : Prop :=
  ∀ s before, ∃ a' stopped seen left later s', (edit a).run s = ((a', stopped), s') ∧
    Visits (leaving visit) (before, s) (groups a) stopped seen (before ++ left, s') ∧
    groups a = seen ++ later ∧ Refilled groups frame a left later a'

theorem run_leaving {g g' : Group} {s s' : σ} {stopped : Bool}
    (h : (visit g).run s = ((g', stopped), s')) (left : List Group) :
    (leaving visit g).run (left, s) = (stopped, left ++ [g'], s') := by
  have hrun : (leaving visit g).run (left, s) =
      (((visit g).run s).1.2, left ++ [((visit g).run s).1.1], ((visit g).run s).2) := rfl
  rw [hrun, h]

theorem run_leaving_noted {g : Group} {s s' : σ} {left left' : List Group} {stopped : Bool}
    (h : (leaving visit g).run (left, s) = (stopped, left', s')) (before : List Group) :
    (leaving (noted visit) g).run (left, before, s) = (stopped, left', before ++ [g], s') := by
  cases hvisit : (visit g).run s with
  | mk r t =>
    rw [run_leaving hvisit] at h
    cases h
    exact run_leaving (run_noted hvisit before) left

theorem Visits.leaving_noted {s s' : σ} {gs seen left left' : List Group} {stopped : Bool}
    (h : Visits (leaving visit) (left, s) gs stopped seen (left', s')) (before : List Group) :
    Visits (leaving (Stencil.noted visit)) (left, before, s) gs stopped seen
      (left', before ++ seen, s') := by
  generalize hstart : (left, s) = start at h
  generalize hend : (left', s') = last at h
  induction h generalizing left s before with
  | done =>
    cases hstart
    cases hend
    rw [List.append_nil]
    exact .done _
  | stop gs h =>
    cases hstart
    cases hend
    exact .stop gs (run_leaving_noted h before)
  | @pass _ t _ g _ seen _ h _ ih =>
    cases hstart
    rw [List.append_cons before g seen]
    exact .pass (run_leaving_noted h before) (ih (before ++ [g]) rfl hend)

theorem Walks.done {groups : α → List Group} {frame : α → β} {edit : α → StateM σ (α × Bool)} {a : α}
    (hgroups : groups a = []) (hedit : edit a = pure (a, false)) :
    Walks visit groups frame edit a := by
  intro s before
  refine ⟨a, false, [], [], [], s, by rw [hedit]; rfl, ?_, hgroups, rfl, [], hgroups, rfl⟩
  rw [hgroups, List.append_nil]
  exact .done _

theorem Walks.wrap {ga : α → List Group} {fa : α → β} {ea : α → StateM σ (α × Bool)}
    {groups : γ → List Group} {frame : γ → δ} {edit : γ → StateM σ (γ × Bool)} {a : α} (w : α → γ)
    (hgroups : ∀ a, groups (w a) = ga a)
    (hframe : ∀ a a', fa a' = fa a → frame (w a') = frame (w a))
    (hedit : edit (w a) = do
      let (a, stopped) ← ea a
      return (w a, stopped))
    (h : Walks visit ga fa ea a) : Walks visit groups frame edit (w a) := by
  intro s before
  obtain ⟨a', stopped, seen, left, later, s', hrun, hvisits, hseen, hf, hg⟩ := h s before
  refine ⟨w a', stopped, seen, left, later, s', ?_, ?_, ?_, hframe a a' hf, ?_⟩
  · rw [hedit, StateT.run_bind, hrun]
    rfl
  · rwa [hgroups]
  · rwa [hgroups]
  · rwa [hgroups]

theorem Walks.both {ga : α → List Group} {fa : α → γ} {ea : α → StateM σ (α × Bool)}
    {gb : β → List Group} {fb : β → δ} {eb : β → StateM σ (β × Bool)} {ε ζ : Type}
    {groups : ε → List Group} {frame : ε → ζ} {edit : ε → StateM σ (ε × Bool)} {a : α} {b : β}
    (w : α → β → ε) (hgroups : ∀ a b, groups (w a b) = ga a ++ gb b)
    (hframe : ∀ a a' b b', fa a' = fa a → fb b' = fb b → frame (w a' b') = frame (w a b))
    (hedit : edit (w a b) = do
      let (a, stopped) ← ea a
      if stopped then return (w a b, true)
      let (b, stopped) ← eb b
      return (w a b, stopped))
    (ha : Walks visit ga fa ea a) (hb : Walks visit gb fb eb b) :
    Walks visit groups frame edit (w a b) := by
  intro s before
  obtain ⟨a', stopped, seen, left, later, t, hrun, hvisits, hseen, hf, edited, hedited, hhollow⟩ :=
    ha s before
  cases stopped with
  | true =>
    -- The second part is left as it is, and its groups come after the stop.
    refine ⟨w a' b, true, seen, left, later ++ gb b, t, ?_, ?_, ?_, hframe _ _ _ _ hf rfl,
      edited, ?_, hhollow⟩
    · rw [hedit, StateT.run_bind, hrun]
      rfl
    · rw [hgroups]
      exact hvisits.append_of_stop _
    · rw [hgroups, hseen, List.append_assoc]
    · rw [hgroups, hedited, List.append_assoc]
  | false =>
    have hlater : later = [] := by
      rw [hvisits.seen_eq] at hseen
      simpa using hseen
    subst hlater
    obtain ⟨b', stopped, seen', left', later, s', hrun', hvisits', hseen', hf', edited', hedited',
      hhollow'⟩ := hb t (before ++ left)
    refine ⟨w a' b', stopped, seen ++ seen', left ++ left', later, s', ?_, ?_, ?_,
      hframe _ _ _ _ hf hf', edited ++ edited', ?_, ?_⟩
    · rw [hedit, StateT.run_bind, hrun]
      change (eb b >>= _).run t = _
      rw [StateT.run_bind, hrun']
      rfl
    · rw [hgroups, ← List.append_assoc]
      exact hvisits.append hvisits'
    · rw [hgroups, hseen, hseen', List.append_nil, List.append_assoc]
    · rw [hgroups, hedited, hedited', List.append_nil, List.append_assoc]
    · rw [List.map_append, List.map_append, hhollow, hhollow']

theorem walks_editUntil {ga : α → List Group} {fa : α → β} {ea : α → StateM σ (α × Bool)}
    {as : List α} (h : ∀ a ∈ as, Walks visit ga fa ea a) :
    Walks visit (List.flatMap ga) (List.map fa) (editUntil ea) as := by
  induction as with
  | nil => exact .done rfl rfl
  | cons a as ih =>
    rw [List.forall_mem_cons] at h
    apply Walks.both (· :: ·) (fun _ _ => rfl) ?_ rfl h.1 (ih h.2)
    intro a a' as as' ha has
    rw [List.map_cons, List.map_cons, ha, has]

theorem walks_variable {edit : Pipeline → StateM σ (Pipeline × Bool)} {v : Variable}
    (h : ∀ body, v.grouping?.map Grouping.body = some body →
      Walks visit Pipeline.groups Pipeline.frame edit body) :
    Walks visit Variable.groups (fun v => (v.frame, v.hollow)) (Variable.edit edit) v := by
  cases v with
  | grouping opener body closer =>
    apply Walks.wrap (fun body => Variable.grouping opener body closer) (fun _ => rfl) ?_ rfl
      (h body rfl)
    intro p q hframe
    simp only [Variable.frame, Variable.hollow, hframe]
  | _ => exact .done rfl rfl

theorem walks_pipeline {edit : Group → StateM σ (Group × Bool)} {levels : Nat}
    (h : ∀ g, Group.nesting g ≤ levels → (∀ x ∈ Group.groups g, KeepsGroupings visit x) →
      Walks visit Group.groups Group.frame edit g) :
    ∀ p : Pipeline, p.nesting ≤ levels → (∀ x ∈ p.groups, KeepsGroupings visit x) →
      Walks visit Pipeline.groups Pipeline.frame (Pipeline.edit edit) p
  | .stage g, hnesting, hkeeps => by
    apply Walks.wrap Pipeline.stage (fun _ => rfl) ?_ rfl (h g hnesting hkeeps)
    intro g g' hframe
    rw [Pipeline.frame, Pipeline.frame, hframe]
  | .piped g p, hnesting, hkeeps => by
    rw [Pipeline.nesting, Nat.max_le] at hnesting
    have hgroups : (Pipeline.piped g p).groups = Group.groups g ++ p.groups := rfl
    rw [hgroups, List.forall_mem_append] at hkeeps
    apply Walks.both Pipeline.piped (fun _ _ => rfl) ?_ rfl (h g hnesting.1 hkeeps.1)
      (walks_pipeline h p (Nat.le_of_succ_le hnesting.2) hkeeps.2)
    intro g g' p p' hg hp
    rw [Pipeline.frame, Pipeline.frame, hg, hp]

theorem Group.inner_of_nesting {g : Group} (h : Group.nesting g ≤ 0) : Group.inner g = [] := by
  rw [Group.inner_eq_flatMap, List.flatMap_eq_nil_iff]
  intro v hv
  have hnesting := Group.nesting_le_iff.1 h v hv
  cases v with
  | grouping => simp [Variable.nesting] at hnesting
  | _ => rfl

theorem Group.frame_eq_of_hollow {g g' : Group}
    (h : g'.map (fun v => (v.frame, v.hollow)) = g.map fun v => (v.frame, v.hollow)) :
    Group.frame g' = Group.frame g ∧ Group.hollow g' = Group.hollow g := by
  have hframe := congrArg (List.map Prod.fst) h
  have hhollow := congrArg (List.map Prod.snd) h
  rw [List.map_map, List.map_map] at hframe hhollow
  refine ⟨?_, hhollow⟩
  rw [Group.frame_eq_flatMap, Group.frame_eq_flatMap, List.flatMap_def, List.flatMap_def]
  exact congrArg List.flatten hframe

theorem Variable.nesting_of_leaf {v : Variable} (h : v.grouping? = none) : v.nesting = 0 := by
  cases v <;> first | rfl | cases h

/-- A group is visited, and then the walk goes on into the groupings that the visit leaves, which
are those that the group had. -/
theorem Walks.visitFirst {edit rest : Group → StateM σ (Group × Bool)} {g : Group}
    (hkeeps : KeepsGroupings visit g)
    (hedit : edit g = do
      let (g, stopped) ← visit g
      if stopped then return (g, true)
      rest g)
    (hrest : ∀ g', Group.groupings g' = Group.groupings g →
      Walks visit Group.inner (List.map fun v => (v.frame, v.hollow)) rest g') :
    Walks visit Group.groups Group.frame edit g := by
  intro s before
  obtain ⟨⟨⟨g', stopped⟩, t⟩, hvisit⟩ : ∃ r, (visit g).run s = r := ⟨_, rfl⟩
  have hgroupings : Group.groupings g' = Group.groupings g := by
    have := hkeeps s
    rwa [hvisit] at this
  have hinner : Group.inner g' = Group.inner g := by
    rw [Group.inner_eq, Group.inner_eq, hgroupings]
  have hframe : Group.frame g' = Group.frame g := by
    rw [Group.frame_eq, Group.frame_eq, hgroupings]
  have hlook := run_leaving hvisit before
  cases stopped with
  | true =>
    refine ⟨g', true, [g], [g'], Group.inner g, t, ?_, .stop _ hlook, rfl, hframe, [g'], ?_, rfl⟩
    · rw [hedit, StateT.run_bind, hvisit]
      rfl
    · rw [Group.groups, hinner, List.singleton_append]
  | false =>
    obtain ⟨g'', stopped, seen, left, later, s', hrun, hvisits, hseen, hkept, edited, hedited,
      hhollow⟩ := hrest g' hgroupings t (before ++ [g'])
    obtain ⟨hframe', hhollow'⟩ := Group.frame_eq_of_hollow hkept
    rw [hinner] at hvisits hseen
    refine ⟨g'', stopped, g :: seen, g' :: left, later, s', ?_, ?_, ?_, hframe'.trans hframe,
      g'' :: edited, ?_, ?_⟩
    · rw [hedit, StateT.run_bind, hvisit]
      exact hrun
    · rw [List.append_cons before g' left]
      exact .pass hlook hvisits
    · rw [Group.groups, hseen, List.cons_append]
    · rw [Group.groups, hedited, List.cons_append]
    · rw [List.map_cons, List.map_cons, hhollow, hhollow']

theorem walks_group {levels : Nat} {g : Group} (hnesting : Group.nesting g ≤ levels)
    (hkeeps : ∀ x ∈ Group.groups g, KeepsGroupings visit x) :
    Walks visit Group.groups Group.frame (Group.editWalk visit levels) g := by
  -- What the visit leaves may hold new variables, but none with groups inside.
  induction levels generalizing g with
  | zero =>
    have hnone : ∀ g', Group.groupings g' = Group.groupings g →
        Walks visit Group.inner (List.map fun v => (v.frame, v.hollow))
          (fun g => pure (g, false)) g' := by
      intro g' hg'
      apply Walks.done _ rfl
      rw [Group.inner_eq, hg', ← Group.inner_eq, Group.inner_of_nesting hnesting]
    refine Walks.visitFirst (hkeeps g List.mem_cons_self) ?_ hnone
    change visit g = _
    conv_lhs => rw [← bind_pure (visit g)]
    congr 1
    funext ⟨g', stopped⟩
    cases stopped <;> rfl
  | succ levels ih =>
    rw [Group.groups, List.forall_mem_cons, Group.inner_eq_flatMap] at hkeeps
    apply Walks.visitFirst hkeeps.1 rfl
    intro g' hg'
    have hall : ∀ v ∈ g', v.nesting ≤ levels + 1 ∧ ∀ x ∈ v.groups, KeepsGroupings visit x := by
      refine Group.forall_of_groupings
        (P := fun v => v.nesting ≤ levels + 1 ∧ ∀ x ∈ v.groups, KeepsGroupings visit x)
        (fun v hv => ⟨?_, ?_⟩) hg' fun v hv => ⟨Group.nesting_le_iff.1 hnesting v hv, ?_⟩
      · rw [Variable.nesting_of_leaf hv]
        exact Nat.zero_le _
      · rw [Variable.groups_of_leaf hv]
        exact List.forall_mem_nil _
      · exact fun x hx => hkeeps.2 x (List.mem_flatMap.2 ⟨v, hv, hx⟩)
    rw [funext Group.inner_eq_flatMap]
    apply walks_editUntil
    intro v hv
    obtain ⟨hdeep, hkept⟩ := hall v hv
    apply walks_variable
    intro body hbody
    cases v with
    | grouping opener inside closer =>
      cases hbody
      exact walks_pipeline (fun _ => ih) inside (Nat.le_of_succ_le_succ hdeep) hkept
    | _ => cases hbody

theorem le_of_foldr_max_le {f : α → Nat} {as : List α} {n : Nat} (h : (as.map f).foldr max 0 ≤ n) :
    ∀ a ∈ as, f a ≤ n := fun _ ha =>
  Nat.le_trans (List.le_max_of_le' 0 (List.mem_map_of_mem ha) (Nat.le_refl _)) h

variable {levels : Nat}

theorem walks_pipelines {ps : Pipelines} (hnesting : ps.nesting ≤ levels)
    (hkeeps : ∀ g ∈ ps.groups, KeepsGroupings visit g) :
    Walks visit Pipelines.groups Pipelines.frame (Pipelines.editWalk visit levels) ps := by
  apply walks_editUntil
  intro p hp
  apply walks_pipeline (fun _ => walks_group) p (le_of_foldr_max_le hnesting p hp)
  exact fun g hg => hkeeps g (List.mem_flatMap.2 ⟨p, hp, hg⟩)

theorem walks_action {a : Action} (hnesting : a.nesting ≤ levels)
    (hkeeps : ∀ g ∈ a.groups, KeepsGroupings visit g) :
    Walks visit Action.groups Action.frame (Action.editWalk visit levels) a := by
  obtain ⟨opener, pipelines, closer⟩ := a
  apply Walks.wrap (Action.mk opener · closer) (fun _ => rfl) ?_ rfl
    (walks_pipelines hnesting hkeeps)
  intro ps ps' hframe
  rw [Action.frame, Action.frame, hframe]

theorem walks_branch {b : Branch} (hnesting : b.nesting ≤ levels)
    (hkeeps : ∀ g ∈ b.groups, KeepsGroupings visit g) :
    Walks visit Branch.groups Branch.frame (Branch.editWalk visit levels) b := by
  cases b with
  | text s => exact .done rfl rfl
  | action a =>
    exact .wrap Branch.action (fun _ => rfl) (fun _ _ => congrArg Branch.action) rfl
      (walks_action hnesting hkeeps)

theorem walks_tree {t : Tree} (hnesting : t.nesting ≤ levels)
    (hkeeps : ∀ g ∈ t.groups, KeepsGroupings visit g) :
    Walks visit Tree.groups Tree.frame (Tree.editWalk visit levels) t := by
  apply walks_editUntil
  intro b hb
  apply walks_branch (le_of_foldr_max_le hnesting b hb)
  exact fun g hg => hkeeps g (List.mem_flatMap.2 ⟨b, hb, hg⟩)

theorem walks_grouping {g : Grouping} (hnesting : g.nesting ≤ levels)
    (hkeeps : ∀ x ∈ g.groups, KeepsGroupings visit x) :
    Walks visit Grouping.groups Grouping.frame (Grouping.editWalk visit levels) g := by
  obtain ⟨opener, body, closer⟩ := g
  apply Walks.wrap (Grouping.mk opener · closer) (fun _ => rfl) ?_ rfl
    (walks_pipeline (fun _ => walks_group) body hnesting hkeeps)
  intro p p' hframe
  rw [Grouping.frame, Grouping.frame, hframe]

theorem walks_node {n : Node} (hnesting : n.nesting ≤ levels)
    (hkeeps : ∀ g ∈ n.groups, KeepsGroupings visit g) :
    Walks visit Node.groups Node.frame (Node.editWalk visit levels) n := by
  cases n with
  | tree t =>
    exact .wrap Node.tree (fun _ => rfl) (fun _ _ => congrArg Node.tree) rfl
      (walks_tree hnesting hkeeps)
  | branch b =>
    exact .wrap Node.branch (fun _ => rfl) (fun _ _ => congrArg Node.branch) rfl
      (walks_branch hnesting hkeeps)
  | action a =>
    exact .wrap Node.action (fun _ => rfl) (fun _ _ => congrArg Node.action) rfl
      (walks_action hnesting hkeeps)
  | pipelines ps =>
    exact .wrap Node.pipelines (fun _ => rfl) (fun _ _ => congrArg Node.pipelines) rfl
      (walks_pipelines hnesting hkeeps)
  | pipeline p =>
    exact .wrap Node.pipeline (fun _ => rfl) (fun _ _ => congrArg Node.pipeline) rfl
      (walks_pipeline (fun _ => walks_group) p hnesting hkeeps)
  | group g =>
    exact .wrap Node.group (fun _ => rfl) (fun _ _ => congrArg Node.group) rfl
      (walks_group hnesting hkeeps)
  | grouping g =>
    exact .wrap Node.grouping (fun _ => rfl) (fun _ _ => congrArg Node.grouping) rfl
      (walks_grouping hnesting hkeeps)

section Unique

theorem Refilled.unique {groups : α → List Group} {frame : α → β} {a a' a'' : α}
    {left later : List Group} (hdetermined : Determined groups frame)
    (h' : Refilled groups frame a left later a') (h'' : Refilled groups frame a left later a'') :
    a'' = a' := by
  obtain ⟨hframe', edited', hgroups', hhollow'⟩ := h'
  obtain ⟨hframe'', edited'', hgroups'', hhollow''⟩ := h''
  apply (hdetermined a'' a' (hframe''.trans hframe'.symm)).2
  rw [hgroups', hgroups'', List.map_append, List.map_append, hhollow', hhollow'']

/-- What a walk leaves, and in which state, is settled by what it visits. -/
theorem Walks.run_eq {groups : α → List Group} {frame : α → β} {edit : α → StateM σ (α × Bool)}
    {a a' : α} {s s' : σ} {stopped : Bool} {seen left later : List Group}
    (hwalks : Walks visit groups frame edit a) (hdetermined : Determined groups frame)
    (hvisits : Visits (leaving visit) ([], s) (groups a) stopped seen (left, s'))
    (hseen : groups a = seen ++ later) (hrefilled : Refilled groups frame a left later a') :
    (edit a).run s = ((a', stopped), s') := by
  obtain ⟨a'', stopped', seen', left', later', t, hrun, hvisits', hseen', hrefilled'⟩ :=
    hwalks s []
  obtain ⟨rfl, rfl, hlast⟩ := hvisits.unique hvisits'
  rw [List.nil_append, Prod.mk.injEq] at hlast
  obtain ⟨rfl, rfl⟩ := hlast
  rw [hseen', List.append_cancel_left_eq] at hseen
  rw [hseen] at hrefilled'
  rw [hrun, hrefilled.unique hdetermined hrefilled']

end Unique

end Walk

section Comments

theorem Group.groupings_pruneComments (g : Group) :
    Group.groupings (Group.pruneComments g) = Group.groupings g := by
  rw [Group.groupings, Group.pruneComments, List.filterMap_filter]
  apply List.filterMap_congr
  intro v _
  cases v <;> rfl

theorem keepsGroupings_pruneAbove (min : Nat) (g : Group) :
    KeepsGroupings (Group.pruneAbove min) g := by
  intro s
  rw [gives_pruneAbove g s, Group.prunedAbove]
  split
  · rfl
  · exact Group.groupings_pruneComments g

def pruneTwo (g : Group) : StateM Nat (Group × Bool) := do
  let (g, _) ← Group.pruneAbove 0 g
  return (g, 2 ≤ (← get))

def commentedPipeline : Pipeline :=
  .piped
    [.ident ['f'], .comment "/* a */".toList,
      .grouping ['('] (.stage [.ident ['g'], .comment "/* b */".toList]) [')']]
    (.stage [.ident ['h'], .comment "/* c */".toList])

def prunedPipeline : Pipeline :=
  .piped [.ident ['f'], .grouping ['('] (.stage [.ident ['g']]) [')']]
    (.stage [.ident ['h'], .comment "/* c */".toList])

end Comments

/-- A walk that changes groups, by a visitor that leaves their groupings as they are, hands the
visitor the groups that the node had before, in order, up to and including the first at which it
says to stop, and tells whether there was one: it visits as the walk that only looks does. What it
leaves, `n'`, is the one node that is `n` with the own variables of the visited groups as the
visits left them, and with all else as it was. It goes down as far as there are groupings, and
further levels change nothing. -/
theorem Node.editWalk_visits {σ : Type} (visit : Group → StateM σ (Group × Bool)) (n : Node)
    (hkeeps : ∀ g ∈ n.groups, KeepsGroupings visit g) (s : σ) :
    ∃ n' stopped seen left later s',
      Visits (leaving visit) ([], s) n.groups stopped seen (left, s') ∧
      n.groups = seen ++ later ∧
      (∀ u, Refilled Node.groups Node.frame n left later u ↔ u = n') ∧
      (n.walk (leaving visit)).run ([], s) = (stopped, left, s') ∧
      ∀ levels, n.nesting ≤ levels →
        (n.editWalk visit levels).run s = ((n', stopped), s') ∧
        (n.editWalk (noted visit) levels).run ([], s) = ((n', stopped), seen, s') := by
  obtain ⟨n', stopped, seen, left, later, s', -, hvisits, hseen, hrefilled⟩ :=
    walks_node (Nat.le_refl _) hkeeps s []
  rw [List.nil_append] at hvisits
  refine ⟨n', stopped, seen, left, later, s', hvisits, hseen, fun u => ⟨?_, ?_⟩, ?_, ?_⟩
  · exact hrefilled.unique determined_node
  · rintro rfl
    exact hrefilled
  · rw [Node.walk_eq_anyM, hvisits.run]
  · intro levels hlevels
    refine ⟨(walks_node hlevels hkeeps).run_eq determined_node hvisits hseen hrefilled, ?_⟩
    have hkeeps' : ∀ g ∈ n.groups, KeepsGroupings (noted visit) g := fun g hg t => hkeeps g hg t.2
    exact (walks_node hlevels hkeeps').run_eq determined_node (hvisits.leaving_noted []) hseen
      hrefilled

theorem Node.editWalk_pruneTwo :
    (∀ g ∈ (Node.pipeline commentedPipeline).groups, KeepsGroupings pruneTwo g) ∧
    ∀ levels, 1 ≤ levels →
      ((Node.pipeline commentedPipeline).editWalk pruneTwo levels).run 0 =
        ((.pipeline prunedPipeline, true), 2) ∧
      ((Node.pipeline commentedPipeline).editWalk (noted pruneTwo) levels).run ([], 0) =
        ((.pipeline prunedPipeline, true), commentedPipeline.groups.take 2, 2) := by
  have hkeeps : ∀ g ∈ (Node.pipeline commentedPipeline).groups, KeepsGroupings pruneTwo g :=
    fun g _ => keepsGroupings_pruneAbove 0 g
  refine ⟨hkeeps, ?_⟩
  obtain ⟨n', stopped, seen, left, later, s', -, -, -, -, hwalk⟩ :=
    Node.editWalk_visits pruneTwo (.pipeline commentedPipeline) hkeeps 0
  have hone : ((Node.pipeline commentedPipeline).editWalk (noted pruneTwo) 1).run ([], 0) =
      ((.pipeline prunedPipeline, true), commentedPipeline.groups.take 2, 2) := rfl
  cases (hwalk 1 (Nat.le_refl _)).2.symm.trans hone
  exact hwalk

end Stencil
