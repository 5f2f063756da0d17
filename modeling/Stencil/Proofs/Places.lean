import Mathlib.Data.List.DropRight
import Stencil.Text

namespace Stencil

namespace Text

/-- The place that a text leads to: one line more than there are line breaks in it, and one column
more than there are characters after the last of them. -/
def place (s : Text) : Position where
  line := 1 + s.count '\n'
  column := 1 + (s.rtakeWhile (· ≠ '\n')).length

theorem place_concat (s : Text) (c : Char) : (s ++ [c]).place = s.place.next c := by
  by_cases hc : c = '\n'
  · subst hc
    have hlast : (s ++ ['\n']).rtakeWhile (· ≠ '\n') = [] :=
      List.rtakeWhile_concat_neg _ _ _ (by simp)
    simp only [place, hlast, Position.next, if_pos, List.count_append, List.count_singleton_self,
      List.length_nil, Nat.add_assoc]
  · have hlast : (s ++ [c]).rtakeWhile (· ≠ '\n') = s.rtakeWhile (· ≠ '\n') ++ [c] :=
      List.rtakeWhile_concat_pos _ _ _ (by simpa using hc)
    have hcount : List.count '\n' [c] = 0 := List.count_eq_zero_of_not_mem (by simpa using Ne.symm hc)
    simp only [place, hlast, Position.next, if_neg hc, List.count_append, hcount, List.length_append,
      List.length_singleton, Nat.add_zero, Nat.add_assoc]

end Text

namespace Position

theorem after_concat (p : Position) (s : Text) (c : Char) :
    p.after (s ++ [c]) = (p.after s).next c := by
  rw [after_append]
  rfl

theorem after_start (s : Text) : ({} : Position).after s = s.place := by
  induction s using List.reverseRecOn with
  | nil => rfl
  | append_singleton s c ih => rw [after_concat, Text.place_concat, ih]

theorem after_place (s t : Text) : s.place.after t = (s ++ t).place := by
  rw [← after_start, ← after_start, after_append]

instance : LE Position where
  le p q := p.line < q.line ∨ p.line = q.line ∧ p.column ≤ q.column

theorem le_iff {p q : Position} :
    p ≤ q ↔ p.line < q.line ∨ p.line = q.line ∧ p.column ≤ q.column := Iff.rfl

theorem le_next (p : Position) (c : Char) : p ≤ p.next c := by
  rw [le_iff, next]
  split
  · exact .inl (Nat.lt_succ_self p.line)
  · exact .inr ⟨rfl, Nat.le_succ p.column⟩

theorem le_trans {p q r : Position} (hpq : p ≤ q) (hqr : q ≤ r) : p ≤ r := by
  rw [le_iff] at hpq hqr ⊢
  omega

theorem le_after (p : Position) (s : Text) : p ≤ p.after s := by
  induction s using List.reverseRecOn with
  | nil => exact .inr ⟨rfl, Nat.le_refl p.column⟩
  | append_singleton s c ih =>
    rw [after_concat]
    exact le_trans ih (le_next (p.after s) c)

/-- A place of a text as a place of `s` with that text after it. -/
def behind (s : Text) (p : Position) : Position where
  line := p.line + s.count '\n'
  column := if 1 < p.line then p.column else p.column + (s.rtakeWhile (· ≠ '\n')).length

theorem next_behind (s : Text) {p : Position} (hp : 0 < p.line) (c : Char) :
    (p.next c).behind s = (p.behind s).next c := by
  by_cases hc : c = '\n'
  · have hlater : 1 < p.line + 1 := Nat.succ_lt_succ hp
    simp only [behind, next, if_pos hc, if_pos hlater, Nat.add_right_comm]
  · by_cases hl : 1 < p.line
    · simp only [behind, next, if_neg hc, if_pos hl]
    · simp only [behind, next, if_neg hc, if_neg hl, Nat.add_right_comm]

end Position

namespace Text

theorem place_le_of_prefix {s t : Text} (h : s <+: t) : s.place ≤ t.place := by
  obtain ⟨u, rfl⟩ := h
  rw [← Position.after_place]
  exact Position.le_after s.place u

theorem place_append (s t : Text) : (s ++ t).place = t.place.behind s := by
  induction t using List.reverseRecOn with
  | nil =>
    rw [List.append_nil]
    simp only [place, Position.behind, List.count_nil, List.rtakeWhile_nil, List.length_nil,
      Nat.add_zero, Nat.lt_irrefl, if_false]
  | append_singleton t c ih =>
    have hline : 0 < (place t).line := Nat.add_pos_left Nat.one_pos _
    rw [← List.append_assoc, place_concat, place_concat, ih, Position.next_behind s hline]

end Text

end Stencil
