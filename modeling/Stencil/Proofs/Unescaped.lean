import Stencil.Proofs.Carving

namespace Stencil

section Trailing

variable {α : Type} [DecidableEq α]

def trailing (x : α) (s : List α) : Nat := (s.reverse.takeWhile (· = x)).length

theorem trailing_le_length (x : α) (s : List α) : trailing x s ≤ s.length := by
  have := (List.takeWhile_prefix (· = x) (l := s.reverse)).length_le
  rwa [List.length_reverse] at this

theorem trailing_cons (x c : α) (s : List α) : trailing x (c :: s) =
    if c = x ∧ trailing x s = s.length then s.length + 1 else trailing x s := by
  simp only [trailing, List.reverse_cons, List.takeWhile_append, List.length_reverse]
  by_cases hall : (s.reverse.takeWhile (· = x)).length = s.length
  · by_cases hc : c = x <;> simp [hall, hc]
  · simp [hall]

theorem trailing_cons_of_ne {x c : α} (h : c ≠ x) (s : List α) :
    trailing x (c :: s) = trailing x s := by
  rw [trailing_cons, if_neg fun hc => h hc.1]

theorem trailing_cons_cons (x c : α) (s : List α) :
    trailing x (x :: c :: s) % 2 = trailing x s % 2 := by
  have hle := trailing_le_length x s
  rw [trailing_cons, trailing_cons, List.length_cons]
  by_cases hc : c = x ∧ trailing x s = s.length
  · rw [if_pos hc, if_pos ⟨rfl, rfl⟩]
    omega
  · rw [if_neg hc, if_neg (by omega)]

theorem trailing_append {x : α} {s : List α} (hs : s.getLast? ≠ some x) (t : List α) :
    trailing x (s ++ t) = trailing x t := by
  have hnone : s.reverse.takeWhile (· = x) = [] := by
    rw [← List.head?_reverse] at hs
    cases hr : s.reverse with
    | nil => rfl
    | cons c r =>
      rw [hr] at hs
      have hc : c ≠ x := fun h => hs (congrArg some h)
      simp [hc]
  simp only [trailing, List.reverse_append, List.takeWhile_append, hnone]
  split
  next h => rw [List.append_nil, h]
  · rfl

end Trailing

namespace Text

def trailingBackslashes (s : Text) : Nat := trailing '\\' s

/-- Whether two `d` in a row stand in the text without a backslash that escapes the first. -/
def HasUnescaped (d : Char) (s : Text) : Prop :=
  ∃ a b : Text, s = a ++ d :: d :: b ∧ a.trailingBackslashes % 2 = 0

theorem trailingBackslashes_cons {c : Char} (h : c ≠ '\\') (s : Text) :
    trailingBackslashes (c :: s) = s.trailingBackslashes :=
  trailing_cons_of_ne h s

theorem trailingBackslashes_escaped (c : Char) (s : Text) :
    trailingBackslashes ('\\' :: c :: s) % 2 = s.trailingBackslashes % 2 :=
  trailing_cons_cons '\\' c s

theorem trailingBackslashes_append {s : Text} (hs : s.getLast? ≠ some '\\') (t : Text) :
    trailingBackslashes (s ++ t) = trailingBackslashes t :=
  trailing_append hs t

end Text

theorem Skips.trailingBackslashes {d : Char} {y : Option Char} {s : Text} (h : Skips d y s) :
    s.trailingBackslashes % 2 = 0 := by
  induction h with
  | nil => rfl
  | escaped _ ih => rw [Text.trailingBackslashes_escaped, ih]
  | plain hb _ _ ih => rw [Text.trailingBackslashes_cons hb, ih]

theorem exists_splitUnescaped {d : Char} {s : Text} (hd : d ≠ '\\') (h : s.HasUnescaped d) :
    ∃ r, splitUnescaped d s = some r := by
  fun_induction splitUnescaped d s with
  | case1 =>
    obtain ⟨a, b, hs, -⟩ := h
    cases a <;> cases hs
  | case2 c =>
    obtain ⟨a, b, hs, -⟩ := h
    have hlength := congrArg List.length hs
    simp only [List.length_append, List.length_cons, List.length_nil] at hlength
    omega
  | case3 c s ih =>
    have hs : Text.HasUnescaped d s := by
      obtain ⟨a, b, hs, heven⟩ := h
      obtain _ | ⟨e, _ | ⟨f, a⟩⟩ := a
      · exact (hd (List.cons.inj hs).1.symm).elim
      · obtain rfl := (List.cons.inj hs).1
        cases heven
      · simp only [List.cons_append, List.cons.injEq] at hs
        obtain ⟨rfl, rfl, rfl⟩ := hs
        exact ⟨a, b, rfl, (Text.trailingBackslashes_escaped _ a).symm.trans heven⟩
    obtain ⟨r, hr⟩ := ih hs
    exact ⟨_, Option.map_eq_some_iff.2 ⟨r, hr, rfl⟩⟩
  | case4 => exact ⟨_, rfl⟩
  | case5 a b s hb hpair ih =>
    have hs : Text.HasUnescaped d (b :: s) := by
      obtain ⟨p, q, hs, heven⟩ := h
      cases p with
      | nil =>
        simp only [List.nil_append, List.cons.injEq] at hs
        exact (hpair ⟨hs.1, hs.2.1⟩).elim
      | cons e p =>
        obtain ⟨rfl, htail⟩ := List.cons.inj hs
        refine ⟨p, q, htail, ?_⟩
        rwa [Text.trailingBackslashes_cons hb] at heven
    obtain ⟨r, hr⟩ := ih hs
    exact ⟨_, Option.map_eq_some_iff.2 ⟨r, hr, rfl⟩⟩

/-- A search finds nothing exactly where all is escaped. -/
theorem splitUnescaped_eq_none_iff {d : Char} {s : Text} (hd : d ≠ '\\') :
    splitUnescaped d s = none ↔ ¬ s.HasUnescaped d := by
  constructor
  · intro hnone h
    obtain ⟨r, hr⟩ := exists_splitUnescaped hd h
    rw [hnone] at hr
    cases hr
  · intro h
    cases hs : splitUnescaped d s with
    | none => rfl
    | some r =>
      obtain ⟨before, after⟩ := r
      obtain ⟨rfl, hskips⟩ := (splitUnescaped_eq_some_iff hd).1 hs
      exact (h ⟨before, after, rfl, hskips.trailingBackslashes⟩).elim

theorem Skips.splitUnescaped {d : Char} {y : Option Char} {s : Text} (h : Skips d y s) :
    splitUnescaped d s = none := by
  have hend : Skips d none s := by
    induction h with
    | nil => exact .nil
    | escaped _ ih => exact .escaped ih
    | @plain c s hb hd _ ih =>
      refine .plain hb (fun hc => ?_) ih
      have hnext := hd hc
      cases s with
      | nil => nofun
      | cons e s => exact hnext
  have hsplit := splitUnescaped_append (t := []) hend
  rwa [List.append_nil] at hsplit

end Stencil
