import Stencil.Proofs.CommentTokens

namespace Stencil

namespace Comment

namespace Trimmed

theorem text_sublist {t : Trimmed} {body : Text} (h : List.Sublist body t.body) :
    List.Sublist { t with body }.text t.text := by
  unfold text
  exact ((List.Sublist.refl _).append h).append (List.Sublist.refl _)

theorem sweep_body_text {t : Trimmed} (h : sweep t.body = t.body) :
    sweep (ofInner t.text).body = (ofInner t.text).body := by
  obtain ⟨left, body, right⟩ := t
  have hleft : sweep ((if left then ['-'] else []) ++ body) =
      (if left then ['-'] else []) ++ body := by
    cases left with
    | false => exact h
    | true => exact (sweep_cons (by decide)).trans (congrArg _ h)
  cases right with
  | false =>
    refine sweep_body ?_
    simpa [text] using hleft
  | true =>
    generalize hs : (if left then ['-'] else []) ++ body = s at hleft
    have htext : text ⟨left, body, true⟩ = s ++ ['-'] := by rw [← hs]; rfl
    rw [htext]
    cases s with
    | nil => decide +kernel
    | cons c s =>
      have hright := right_ofInner (List.cons_ne_nil c s)
      have hinner := text_ofInner (c :: s ++ ['-'])
      generalize ofInner (c :: s ++ ['-']) = u at hright hinner ⊢
      obtain ⟨left', body', right'⟩ := u
      cases hright
      have hbody : (if left' then ['-'] else []) ++ body' = c :: s :=
        List.append_cancel_right hinner
      rw [← hbody] at hleft
      cases left' with
      | false => exact hleft
      | true => exact (List.cons.inj ((sweep_cons (by decide)).symm.trans hleft)).2

end Trimmed

theorem tidy_of_sweep {inner : Text}
    (h : sweep (Trimmed.ofInner inner).body = (Trimmed.ofInner inner).body) : tidy inner = inner := by
  unfold tidy
  simp only [sweepAll_of_sweep h]
  split
  · rfl
  · exact Trimmed.text_ofInner inner

theorem tidy_tidy (inner : Text) : tidy (tidy inner) = tidy inner := by
  by_cases h : (sweepAll (Trimmed.ofInner inner).body).all Text.isBlank = true
  · have htidy : tidy inner = inner := if_pos h
    rw [htidy, htidy]
  · have htidy : tidy inner =
        { Trimmed.ofInner inner with body := sweepAll (Trimmed.ofInner inner).body }.text := if_neg h
    rw [htidy]
    exact tidy_of_sweep (Trimmed.sweep_body_text (sweep_sweepAll _))

theorem sweepAll_sublist (s : Text) : List.Sublist (sweepAll s) s := by
  fun_induction sweepAll s with
  | case1 s h ih => exact ih.trans (sweep_sublist s)
  | case2 s h => exact List.Sublist.refl s

theorem tidy_sublist (inner : Text) : List.Sublist (tidy inner) inner := by
  have h := Trimmed.text_sublist (sweepAll_sublist (Trimmed.ofInner inner).body)
  rw [Trimmed.text_ofInner] at h
  unfold tidy
  simp only
  split
  · exact List.Sublist.refl inner
  · exact h

end Comment

def Segment.tidied (g : Segment) : Segment := { g with inner := Comment.tidy g.inner }

theorem removeComments_eq (s : Text) : removeComments s =
    ((segments s).1.map Segment.tidied).flatMap (fun g => g.before ++ g.source) ++ (segments s).2 := by
  rw [List.flatMap_map]
  rfl

theorem eq_of_flatMap_eq {α β : Type} {l : List α} {f h : α → List β}
    (hs : ∀ a ∈ l, List.Sublist (f a) (h a)) (heq : l.flatMap f = l.flatMap h) :
    ∀ a ∈ l, f a = h a := by
  induction l with
  | nil => simp
  | cons a l ih =>
    rw [List.forall_mem_cons] at hs ⊢
    have hrest : List.Sublist (l.flatMap f) (l.flatMap h) := List.Sublist.flatMap_right l hs.2
    rw [List.flatMap_cons, List.flatMap_cons] at heq
    have hlen := congrArg List.length heq
    rw [List.length_append, List.length_append] at hlen
    have hle := hs.1.length_le
    have hle' := hrest.length_le
    have ha : f a = h a := hs.1.eq_of_length (by omega)
    rw [ha] at heq
    exact ⟨ha, ih hs.2 (List.append_cancel_left heq)⟩

theorem removeComments_eq_self_iff {s : Text} :
    removeComments s = s ↔ ∀ g ∈ (segments s).1, Comment.tidy g.inner = g.inner := by
  constructor
  · intro h
    have heq : (segments s).1.flatMap (fun g => g.before ++ g.tidied.source) =
        (segments s).1.flatMap (fun g => g.before ++ g.source) := by
      refine (List.append_left_inj (segments s).2).1 ?_
      rw [flatMap_segments]
      exact h
    have hsub : ∀ g ∈ (segments s).1,
        List.Sublist (g.before ++ g.tidied.source) (g.before ++ g.source) := fun g _ =>
      (List.Sublist.refl _).append
        ((((Comment.tidy_sublist g.inner).append (List.Sublist.refl _)).cons_cons '{').cons_cons '{')
    intro g hg
    have hsource := List.append_cancel_left (eq_of_flatMap_eq hsub heq g hg)
    simpa [Segment.source, Segment.tidied] using hsource
  · intro h
    have hmap : (segments s).1.map Segment.tidied = (segments s).1.map id :=
      List.map_congr_left fun g hg => by rw [Segment.tidied, h g hg, id]
    rw [removeComments_eq, hmap, List.map_id, flatMap_segments]

/-- Where the braces that end the actions are still the first ones without their comments, the same
actions are found. -/
theorem segments_removeComments {s : Text}
    (h : ∀ g ∈ (segments s).1, Skips '}' (some '}') (Comment.tidy g.inner)) :
    segments (removeComments s) = ((segments s).1.map Segment.tidied, (segments s).2) := by
  rw [removeComments_eq]
  refine segments_flatMap (fun u hu => ?_) (nextAction_ne_found_of_segments s)
  obtain ⟨g, hg, rfl⟩ := List.mem_map.1 hu
  exact ⟨(carved_of_segments g hg).before, h g hg⟩

theorem removeComments_removeComments_of_skips {s : Text}
    (h : ∀ g ∈ (segments s).1, Skips '}' (some '}') (Comment.tidy g.inner)) :
    removeComments (removeComments s) = removeComments s := by
  refine removeComments_eq_self_iff.2 fun u hu => ?_
  rw [segments_removeComments h] at hu
  obtain ⟨g, -, rfl⟩ := List.mem_map.1 hu
  exact Comment.tidy_tidy g.inner

theorem Segment.Holds.skips_tidy {limit : Nat} {g : Segment} {left right : Bool} {us : List Token}
    {p : Pipeline} (h : g.Holds limit left us right p) (hg : g.Carved) :
    Skips '}' (some '}') (Comment.tidy g.inner) := by
  have hus : ∀ t ∈ us.filter (·.kind != .comment), ∀ z, Skips '}' z t.text := fun t ht =>
    h.skips hg t (List.mem_of_mem_filter ht)
  unfold Comment.tidy
  simp only [h.trimmed, h.sweepAll]
  split
  · exact hg.inner
  · exact ((skips_marker left _).append (Token.skips_spelling hus _)).append (skips_marker right _)

theorem SpellsActions.skips_tidy {limit : Nat} {gs : List Segment} {as : List Action}
    (h : SpellsActions limit gs as) (hgs : ∀ g ∈ gs, g.Carved) :
    ∀ g ∈ gs, Skips '}' (some '}') (Comment.tidy g.inner) := by
  intro g hg
  obtain ⟨left, us, right, p, hholds⟩ := h.exists_holds hg
  exact hholds.skips_tidy (hgs g hg)

/-- Removing comments twice is the same as once exactly if the actions of the text without comments
have none, and so it is if no braces that end an action come together earlier in it, as in every
template that is accepted. -/
theorem removeComments_removeComments_iff (s : Text) :
    (removeComments (removeComments s) = removeComments s ↔
        ∀ g ∈ (segments (removeComments s)).1, Comment.tidy g.inner = g.inner) ∧
      ((∀ g ∈ (segments s).1, Skips '}' (some '}') (Comment.tidy g.inner)) →
        removeComments (removeComments s) = removeComments s) ∧
      (∀ file options t, parse file s options = .ok t →
        removeComments (removeComments s) = removeComments s) := by
  refine ⟨removeComments_eq_self_iff, removeComments_removeComments_of_skips, ?_⟩
  intro file options t h
  obtain ⟨-, as, has, -⟩ := parse_eq_ok.1 h
  exact removeComments_removeComments_of_skips (has.skips_tidy carved_of_segments)

/-- A comment between two closing braces, and then another. -/
theorem removeComments_removeComments_ne :
    removeComments (removeComments "\x7b\x7b \x7d/**/\x7d \"\x7b\x7b x /* d */ \x7d\x7d".toList) ≠
      removeComments "\x7b\x7b \x7d/**/\x7d \"\x7b\x7b x /* d */ \x7d\x7d".toList := by
  decide +kernel

theorem removeComments_removeComments_malformed :
    removeComments (removeComments "\x7b\x7b ) /* c */ \x7d\x7d \x7b\x7b".toList) =
      removeComments "\x7b\x7b ) /* c */ \x7d\x7d \x7b\x7b".toList := by
  obtain ⟨-, hskips, -⟩ :=
    removeComments_removeComments_iff "\x7b\x7b ) /* c */ \x7d\x7d \x7b\x7b".toList
  have hsegments : (segments "\x7b\x7b ) /* c */ \x7d\x7d \x7b\x7b".toList).1 =
      [⟨[], " ) /* c */ ".toList⟩] := by decide +kernel
  have htidy : Comment.tidy " ) /* c */ ".toList = " )  ".toList := by decide +kernel
  refine hskips fun g hg => ?_
  rw [hsegments, List.mem_singleton] at hg
  rw [hg, htidy]
  exact .of_notMem (by decide) (by decide)

end Stencil
