import Stencil.Segment

namespace Stencil

/-- `Skips d y s`: the search for two unescaped `d` in a row goes past the text, if `y` is the
character after it. -/
inductive Skips (d : Char) (y : Option Char) : Text → Prop
  | nil : Skips d y []
  | escaped {c : Char} {s : Text} (h : Skips d y s) : Skips d y ('\\' :: c :: s)
  | plain {c : Char} {s : Text} (hb : c ≠ '\\') (hd : c = d → (s ++ y.toList).head? ≠ some d)
      (h : Skips d y s) : Skips d y (c :: s)

namespace Skips

variable {d : Char} {y : Option Char} {s t : Text}

theorem append (hs : Skips d (t ++ y.toList).head? s) (ht : Skips d y t) : Skips d y (s ++ t) := by
  induction hs with
  | nil => exact ht
  | escaped _ ih => exact .escaped ih
  | @plain c s hb hd _ ih =>
    refine .plain hb (fun hc => ?_) ih
    have := hd hc
    cases s with
    | nil => cases t <;> cases y <;> exact this
    | cons e s => exact this

theorem of_notMem (hb : '\\' ∉ s) (hd : d ∉ s) : Skips d y s := by
  induction s with
  | nil => exact .nil
  | cons c s ih =>
    rw [List.mem_cons, not_or] at hb hd
    exact .plain (fun h => hb.1 h.symm) (fun h => (hd.1 h.symm).elim) (ih hb.2 hd.2)

theorem of_getLast? {z : Option Char} (h : Skips d y s) (hs : s.getLast? ≠ some d) : Skips d z s := by
  induction h with
  | nil => exact .nil
  | @escaped c s _ ih =>
    refine .escaped (ih fun hlast => hs ?_)
    rw [List.getLast?_cons_cons, List.getLast?_cons, hlast]
    rfl
  | @plain c s hb hd _ ih =>
    cases s with
    | nil => exact .plain hb (fun hc => (hs (by rw [hc]; rfl)).elim) .nil
    | cons e s =>
      rw [List.getLast?_cons_cons] at hs
      exact .plain hb hd (ih hs)

theorem of_append {a b : Text} (h : Skips d y (a ++ b)) (ha : a.getLast? ≠ some '\\') :
    Skips d (b ++ y.toList).head? a ∧ Skips d y b := by
  generalize hs : a ++ b = s at h
  induction h generalizing a with
  | nil =>
    obtain ⟨rfl, rfl⟩ := List.append_eq_nil_iff.1 hs
    exact ⟨.nil, .nil⟩
  | @escaped c s h ih =>
    match a with
    | [] => exact ⟨.nil, (show b = _ from hs) ▸ .escaped h⟩
    | [e] => exact (ha (by rw [(List.cons.inj hs).1]; rfl)).elim
    | e :: f :: a =>
      simp only [List.cons_append, List.cons.injEq] at hs
      obtain ⟨rfl, rfl, rfl⟩ := hs
      obtain ⟨hfirst, hsecond⟩ := ih (fun hlast => ha (by simp [List.getLast?_cons, hlast])) rfl
      exact ⟨.escaped hfirst, hsecond⟩
  | @plain c s hb hd h ih =>
    cases a with
    | nil => exact ⟨.nil, (show b = _ from hs) ▸ .plain hb hd h⟩
    | cons e a =>
      simp only [List.cons_append, List.cons.injEq] at hs
      obtain ⟨rfl, rfl⟩ := hs
      obtain ⟨hfirst, hsecond⟩ := ih (fun hlast => ha (by simp [List.getLast?_cons, hlast])) rfl
      refine ⟨.plain hb (fun he => ?_) hfirst, hsecond⟩
      have hnext := hd he
      cases a with
      | nil => cases b <;> cases y <;> exact hnext
      | cons f a => exact hnext

end Skips

theorem append_of_splitUnescaped {d : Char} {s before after : Text}
    (h : splitUnescaped d s = some (before, after)) : before ++ d :: d :: after = s := by
  fun_induction splitUnescaped d s generalizing before after with
  | case1 => cases h
  | case2 => cases h
  | case3 b s ih =>
    obtain ⟨⟨x, y⟩, hxy, heq⟩ := Option.map_eq_some_iff.1 h
    cases heq
    simp [ih hxy]
  | case4 a b s _ hd =>
    cases h
    rw [hd.1, hd.2]
    rfl
  | case5 a b s _ _ ih =>
    obtain ⟨⟨x, y⟩, hxy, heq⟩ := Option.map_eq_some_iff.1 h
    cases heq
    simp [ih hxy]

theorem splitUnescaped_append {d : Char} {s t : Text} (h : Skips d t.head? s) :
    splitUnescaped d (s ++ t) = (splitUnescaped d t).map (·.map (s ++ ·) id) := by
  induction h with
  | nil => simp [Prod.map]
  | @escaped c s _ ih =>
    rw [List.cons_append, List.cons_append, splitUnescaped, if_pos rfl, ih, Option.map_map]
    rfl
  | @plain c s hb hd _ ih =>
    have hnext : (s ++ t.head?.toList).head? = (s ++ t).head? := by
      cases s <;> cases t <;> rfl
    rw [hnext] at hd
    rw [List.cons_append]
    cases hst : s ++ t with
    | nil =>
      obtain ⟨rfl, rfl⟩ := List.append_eq_nil_iff.1 hst
      rfl
    | cons e w =>
      rw [hst] at hd ih
      have hpair : ¬ (c = d ∧ e = d) := by
        rintro ⟨rfl, rfl⟩
        exact hd rfl rfl
      rw [splitUnescaped, if_neg hb, if_neg hpair, ih, Option.map_map]
      rfl

theorem skips_of_splitUnescaped {d : Char} {s before after : Text}
    (h : splitUnescaped d s = some (before, after)) : Skips d (some d) before := by
  fun_induction splitUnescaped d s generalizing before after with
  | case1 => cases h
  | case2 => cases h
  | case3 b s ih =>
    obtain ⟨⟨x, y⟩, hxy, heq⟩ := Option.map_eq_some_iff.1 h
    cases heq
    exact .escaped (ih hxy)
  | case4 a b s _ hd =>
    cases h
    exact .nil
  | case5 a b s hb hd ih =>
    obtain ⟨⟨x, y⟩, hxy, heq⟩ := Option.map_eq_some_iff.1 h
    cases heq
    refine .plain hb (fun hc hhead => hd ⟨hc, ?_⟩) (ih hxy)
    have hs := append_of_splitUnescaped hxy
    cases x with
    | nil => exact (List.cons.inj hs).1.symm
    | cons e x =>
      rw [← (List.cons.inj hs).1]
      exact Option.some.inj hhead

theorem splitUnescaped_eq_some_iff {d : Char} {s before after : Text} (hd : d ≠ '\\') :
    splitUnescaped d s = some (before, after) ↔
      s = before ++ d :: d :: after ∧ Skips d (some d) before := by
  constructor
  · exact fun h => ⟨(append_of_splitUnescaped h).symm, skips_of_splitUnescaped h⟩
  · rintro ⟨rfl, h⟩
    have hpair : splitUnescaped d (d :: d :: after) = some ([], after) := by
      rw [splitUnescaped, if_neg hd, if_pos ⟨rfl, rfl⟩]
    have hs : Skips d (d :: d :: after).head? before := h
    rw [splitUnescaped_append hs, hpair]
    simp [Prod.map]

/-- Whether the braces of the segment are those that a search finds. -/
structure Segment.Carved (g : Segment) : Prop where
  before : Skips '{' (some '{') g.before
  inner : Skips '}' (some '}') g.inner

theorem nextAction_eq_found_iff {s rest : Text} {g : Segment} :
    nextAction s = .found g rest ↔ s = g.before ++ g.source ++ rest ∧ g.Carved := by
  constructor
  · intro h
    unfold nextAction at h
    split at h
    · cases h
    next before after hs =>
      split at h
      · cases h
      next inner after' hr =>
        cases h
        obtain ⟨rfl, hbefore⟩ := (splitUnescaped_eq_some_iff (by decide)).1 hs
        obtain ⟨rfl, hinner⟩ := (splitUnescaped_eq_some_iff (by decide)).1 hr
        exact ⟨by simp [Segment.source], hbefore, hinner⟩
  · rintro ⟨rfl, hbefore, hinner⟩
    have hs : splitUnescaped '{' (g.before ++ g.source ++ rest) =
        some (g.before, g.inner ++ '}' :: '}' :: rest) :=
      (splitUnescaped_eq_some_iff (by decide)).2 ⟨by simp [Segment.source], hbefore⟩
    have hr : splitUnescaped '}' (g.inner ++ '}' :: '}' :: rest) = some (g.inner, rest) :=
      (splitUnescaped_eq_some_iff (by decide)).2 ⟨rfl, hinner⟩
    simp only [nextAction, hs, hr]

theorem nextAction_eq_unclosed_iff {s before : Text} :
    nextAction s = .unclosed before ↔ ∃ rest, s = before ++ '{' :: '{' :: rest ∧
      Skips '{' (some '{') before ∧ splitUnescaped '}' rest = none := by
  constructor
  · intro h
    unfold nextAction at h
    split at h
    · cases h
    next before' rest hs =>
      split at h
      next hr =>
        cases h
        obtain ⟨rfl, hbefore⟩ := (splitUnescaped_eq_some_iff (by decide)).1 hs
        exact ⟨rest, rfl, hbefore, hr⟩
      · cases h
  · rintro ⟨rest, rfl, hbefore, hr⟩
    have hs : splitUnescaped '{' (before ++ '{' :: '{' :: rest) = some (before, rest) :=
      (splitUnescaped_eq_some_iff (by decide)).2 ⟨rfl, hbefore⟩
    simp only [nextAction, hs, hr]

theorem segments_of_found {s rest : Text} {g : Segment} (h : nextAction s = .found g rest) :
    segments s = (segments rest).map (g :: ·) id := by
  rw [segments]
  split
  next g' rest' h' =>
    rw [h] at h'
    cases h'
    rfl
  next hn => exact (hn g rest h).elim

theorem segments_of_not_found {s : Text} (h : ∀ g rest, nextAction s ≠ .found g rest) :
    segments s = ([], s) := by
  rw [segments]
  split
  next g rest h' => exact (h g rest h').elim
  · rfl

theorem carved_of_segments {s : Text} : ∀ g ∈ (segments s).1, g.Carved := by
  fun_induction segments s with
  | case1 s g rest h ih => exact List.forall_mem_cons.2 ⟨(nextAction_eq_found_iff.1 h).2, ih⟩
  | case2 s h => simp

theorem nextAction_ne_found_of_segments (s : Text) (g : Segment) (rest : Text) :
    nextAction (segments s).2 ≠ .found g rest := by
  fun_induction segments s with
  | case1 s g' rest' h ih => exact ih
  | case2 s h =>
    intro hf
    exact h g rest hf

theorem flatMap_segments (s : Text) :
    (segments s).1.flatMap (fun g => g.before ++ g.source) ++ (segments s).2 = s := by
  fun_induction segments s with
  | case1 s g rest h ih =>
    obtain ⟨hs, -⟩ := nextAction_eq_found_iff.1 h
    simp only [Prod.map, id_eq, List.flatMap_cons]
    rw [List.append_assoc, ih, ← hs]
  | case2 s h => rfl

/-- Segments whose braces a search finds are found again in the text that they make up. -/
theorem segments_flatMap {gs : List Segment} {tail : Text} (hgs : ∀ g ∈ gs, g.Carved)
    (ht : ∀ g rest, nextAction tail ≠ .found g rest) :
    segments (gs.flatMap (fun g => g.before ++ g.source) ++ tail) = (gs, tail) := by
  induction gs with
  | nil => exact segments_of_not_found ht
  | cons g gs ih =>
    obtain ⟨hg, hgs⟩ := List.forall_mem_cons.1 hgs
    rw [List.flatMap_cons, List.append_assoc,
      segments_of_found (nextAction_eq_found_iff.2 ⟨rfl, hg⟩), ih hgs]
    rfl

end Stencil
