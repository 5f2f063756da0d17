import Mathlib.Algebra.GroupWithZero.Nat
import Stencil.Proofs.EditWalks

namespace Stencil

namespace Group

/-- The comments of a group, but for those inside its groupings. -/
def comments (g : Group) : List Variable := g.filter Variable.isComment

def lossAbove (min : Nat) (g : Group) : Nat := g.length - (prunedAbove min g).length

variable {min : Nat}

theorem isComment_comp_hollow : Variable.isComment ∘ Variable.hollow = Variable.isComment := by
  funext v
  cases v <;> rfl

theorem hollow_of_isComment {v : Variable} (h : v.isComment = true) : v.hollow = v := by
  cases v <;> first | rfl | cases h

theorem comments_hollow (g : Group) : comments (hollow g) = comments g := by
  rw [comments, hollow, List.filter_map, isComment_comp_hollow]
  refine (List.map_congr_left fun v hv => ?_).trans (List.map_id _)
  exact hollow_of_isComment (List.mem_filter.1 hv).2

theorem hollow_prunedAbove (g : Group) :
    hollow (prunedAbove min g) = prunedAbove min (hollow g) := by
  have hnot : (fun v : Variable => !v.isComment) ∘ Variable.hollow = fun v => !v.isComment := by
    funext v
    cases v <;> rfl
  have hlength : (hollow g).length = g.length := List.length_map ..
  unfold prunedAbove
  rw [hlength]
  split
  · rfl
  · rw [pruneComments, pruneComments, hollow, hollow, List.filter_map, hnot]

theorem comments_pruneComments (g : Group) : comments (pruneComments g) = [] := by
  rw [comments, pruneComments, List.filter_filter]
  simp

theorem pruneComments_pruneComments (g : Group) :
    pruneComments (pruneComments g) = pruneComments g := by
  rw [pruneComments, pruneComments, List.filter_filter]
  simp

theorem prunedAbove_prunedAbove (g : Group) :
    prunedAbove min (prunedAbove min g) = prunedAbove min g := by
  by_cases h : g.length ≤ min
  · have hsame : prunedAbove min g = g := if_pos h
    rw [hsame, hsame]
  · have hpruned : prunedAbove min g = pruneComments g := if_neg h
    rw [hpruned, prunedAbove, pruneComments_pruneComments, ite_self]

theorem lossAbove_add (min : Nat) (g : Group) :
    lossAbove min g + (comments (prunedAbove min g)).length = (comments g).length := by
  unfold lossAbove prunedAbove
  split
  · rw [Nat.sub_self, Nat.zero_add]
  · have hlength : g.length = (comments g).length + (pruneComments g).length :=
      List.length_eq_length_filter_add Variable.isComment
    rw [comments_pruneComments, List.length_nil, hlength]
    omega

end Group

def Tree.comments (t : Tree) : List Variable := t.groups.flatMap Group.comments

section Pruning

variable {min levels : Nat} {gs hs : List Group} {t u : Tree}

theorem flatMap_comments_of_hollow (h : gs.map Group.hollow = hs.map Group.hollow) :
    gs.flatMap Group.comments = hs.flatMap Group.comments := by
  have heq := congrArg (List.flatMap Group.comments) h
  rw [List.flatMap_map, List.flatMap_map] at heq
  simpa only [Group.comments_hollow] using heq

theorem sum_lossAbove_add (min : Nat) (gs : List Group) :
    (gs.map (Group.lossAbove min)).sum +
      ((gs.map (Group.prunedAbove min)).flatMap Group.comments).length =
      (gs.flatMap Group.comments).length := by
  induction gs with
  | nil => rfl
  | cons g gs ih =>
    have hg := Group.lossAbove_add min g
    simp only [List.map_cons, List.sum_cons, List.flatMap_cons, List.length_append]
    omega

theorem run_pruneAbove (min : Nat) (g : Group) (removed : Nat) :
    (Group.pruneAbove min g).run removed =
      ((Group.prunedAbove min g, false), removed + Group.lossAbove min g) := by
  unfold Group.pruneAbove Group.lossAbove Group.prunedAbove
  split
  · rw [Nat.sub_self]
    rfl
  · rfl

theorem visits_pruneAbove (min : Nat) (gs left : List Group) (removed : Nat) :
    Visits (leaving (Group.pruneAbove min)) (left, removed) gs false gs
      (left ++ gs.map (Group.prunedAbove min), removed + (gs.map (Group.lossAbove min)).sum) := by
  induction gs generalizing left removed with
  | nil =>
    rw [List.map_nil, List.append_nil]
    exact .done _
  | cons g gs ih =>
    have hrest := ih (left ++ [Group.prunedAbove min g]) (removed + Group.lossAbove min g)
    rw [List.append_assoc, List.singleton_append, Nat.add_assoc, ← List.map_cons] at hrest
    exact .pass (run_leaving (run_pruneAbove min g removed) left) hrest

/-- `Pruned min t u`: the groups of `t` with more than `min` variables have no comments in `u`, and
all else is in `u` as it is in `t`. -/
abbrev Pruned (min : Nat) (t u : Tree) : Prop :=
  Refilled Tree.groups Tree.frame t (t.groups.map (Group.prunedAbove min)) [] u

theorem exists_pruned (min : Nat) (t : Tree) : ∃ u, Pruned min t u ∧
    ∀ levels, t.nesting ≤ levels → (Tree.editWalk (Group.pruneAbove min) levels t).run 0 =
      ((u, false), (t.groups.map (Group.lossAbove min)).sum) := by
  have hkeeps : ∀ g ∈ t.groups, KeepsGroupings (Group.pruneAbove min) g :=
    fun g _ => keepsGroupings_pruneAbove min g
  have hvisits := visits_pruneAbove min t.groups [] 0
  rw [List.nil_append, Nat.zero_add] at hvisits
  obtain ⟨u, stopped, seen, left, later, s', -, hvisits', hseen, hrefilled⟩ :=
    walks_tree (Nat.le_refl _) hkeeps 0 []
  obtain ⟨rfl, rfl, hlast⟩ := hvisits.unique hvisits'
  rw [List.nil_append, Prod.mk.injEq] at hlast
  obtain ⟨rfl, -⟩ := hlast
  obtain rfl : later = [] := by simpa using hseen
  exact ⟨u, hrefilled, fun levels hlevels =>
    (walks_tree hlevels hkeeps).run_eq determined_tree hvisits hseen hrefilled⟩

namespace Pruned

variable (h : Pruned min t u)

include h

theorem run_eq (hlevels : t.nesting ≤ levels) :
    (Tree.editWalk (Group.pruneAbove min) levels t).run 0 =
      ((u, false), (t.groups.map (Group.lossAbove min)).sum) := by
  obtain ⟨v, hv, hrun⟩ := exists_pruned min t
  rw [hrun levels hlevels, hv.unique determined_tree h]

theorem pruneGroups_eq :
    Tree.pruneGroups min t = (u, (t.groups.map (Group.lossAbove min)).sum) := by
  rw [Tree.pruneGroups, h.run_eq (Nat.le_refl _)]

theorem map_hollow :
    u.groups.map Group.hollow = (t.groups.map Group.hollow).map (Group.prunedAbove min) := by
  obtain ⟨edited, hgroups, hhollow⟩ := h.groups_eq
  rw [hgroups, List.append_nil, hhollow, List.map_map, List.map_map]
  exact List.map_congr_left fun g _ => Group.hollow_prunedAbove g

theorem comments_eq :
    u.comments = (t.groups.map (Group.prunedAbove min)).flatMap Group.comments := by
  obtain ⟨edited, hgroups, hhollow⟩ := h.groups_eq
  rw [Tree.comments, hgroups, List.append_nil]
  exact flatMap_comments_of_hollow hhollow

theorem sum_add_length :
    (t.groups.map (Group.lossAbove min)).sum + u.comments.length = t.comments.length := by
  rw [h.comments_eq]
  exact sum_lossAbove_add min t.groups

theorem again : Pruned min u u := by
  refine ⟨rfl, u.groups, (List.append_nil _).symm, ?_⟩
  have hhollow : (u.groups.map (Group.prunedAbove min)).map Group.hollow =
      (u.groups.map Group.hollow).map (Group.prunedAbove min) := by
    rw [List.map_map, List.map_map]
    exact List.map_congr_left fun g _ => Group.hollow_prunedAbove g
  rw [hhollow, h.map_hollow, List.map_map (l := t.groups.map Group.hollow)]
  exact List.map_congr_left fun g _ => (Group.prunedAbove_prunedAbove g).symm

end Pruned

theorem Pruned.comments_eq_nil (h : Pruned 0 t u) : u.comments = [] := by
  rw [h.comments_eq, List.flatMap_map, List.flatMap_eq_nil_iff]
  intro g _
  rw [Group.prunedAbove_zero, Group.comments_pruneComments]

end Pruning

/-- Pruning above a threshold makes of a tree the one tree in which the groups that have more than
`min` variables before have lost their own comments, their other variables stand in order, and all
else is as it was. The walk is never stopped and goes down as far as there are groupings. What it
counts is how many comments the tree has less. Another such walk takes nothing away and changes
nothing, and one above 0 leaves no comment. -/
theorem pruneGroups_above (min : Nat) (t : Tree) :
    (∀ u, Pruned min t u ↔ u = (Tree.pruneGroups min t).1) ∧
    (∀ levels, t.nesting ≤ levels → (Tree.editWalk (Group.pruneAbove min) levels t).run 0 =
      (((Tree.pruneGroups min t).1, false), (Tree.pruneGroups min t).2)) ∧
    (Tree.pruneGroups min t).2 + (Tree.comments (Tree.pruneGroups min t).1).length =
      (Tree.comments t).length ∧
    Tree.pruneGroups min (Tree.pruneGroups min t).1 = ((Tree.pruneGroups min t).1, 0) ∧
    Tree.comments (Tree.pruneGroups 0 t).1 = [] := by
  obtain ⟨u, hu, -⟩ := exists_pruned min t
  obtain ⟨v, hv, -⟩ := exists_pruned 0 t
  -- The second walk has nothing to count, as the tree has as many comments after it as before.
  have hagain := hu.again.sum_add_length
  have hnone : (u.groups.map (Group.lossAbove min)).sum = 0 := by omega
  rw [hu.pruneGroups_eq, hu.again.pruneGroups_eq, hv.pruneGroups_eq, hnone]
  refine ⟨fun w => ⟨hu.unique determined_tree, ?_⟩, fun _ => hu.run_eq, hu.sum_add_length, rfl,
    hv.comments_eq_nil⟩
  rintro rfl
  exact hu

def commentedTree : Tree := [.action ⟨['{', '{'], [commentedPipeline], ['}', '}']⟩]

theorem pruneGroups_above_two :
    Tree.nesting commentedTree ≤ 4 ∧
    (Tree.editWalk (Group.pruneAbove 2) 4 commentedTree).run 0 =
      (([.action ⟨['{', '{'], [.piped
        [.ident ['f'], .grouping ['('] (.stage [.ident ['g'], .comment "/* b */".toList]) [')']]
        (.stage [.ident ['h'], .comment "/* c */".toList])], ['}', '}']⟩], false), 1) := by
  have hnesting : Tree.nesting commentedTree ≤ 4 := by decide
  obtain ⟨-, hwalk, -⟩ := pruneGroups_above 2 commentedTree
  refine ⟨hnesting, ?_⟩
  rw [hwalk 4 hnesting]
  rfl

end Stencil
