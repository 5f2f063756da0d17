import Mathlib.Logic.Function.Iterate
import Stencil.Proofs.Carving
import Stencil.Proofs.Sweeping

namespace Stencil

namespace Comment

/-- What is left of a body of which comments are deleted until a scan comes to none. -/
structure Strips (body stripped : Text) : Prop where
  deletions : Relation.ReflTransGen Deletes body stripped
  clean : ∀ t, ¬ Deletes stripped t
  rounds : ∃ n ≤ body.length, sweep^[n] body = stripped

theorem strips_sweepAll (body : Text) : Strips body (sweepAll body) := by
  fun_induction sweepAll body with
  | case1 s h ih =>
    obtain ⟨n, hn, hrounds⟩ := ih.rounds
    have hsweep : Relation.ReflTransGen Deletes s (sweep s) := Passes.nil.deletes_sweep
    exact ⟨hsweep.trans ih.deletions, ih.clean, n + 1, by omega, hrounds⟩
  | case2 s h =>
    have hfixed := sweep_eq_of_length (Nat.le_of_not_lt h)
    exact ⟨.refl, sweep_eq_self_iff.1 hfixed, 0, Nat.zero_le _, rfl⟩

/-- `Markers inner t`: the body of `t` between its markers is the inside of an action. A `-` at an
end of it is a marker, unless it is all that there is. -/
structure Markers (inner : Text) (t : Trimmed) : Prop where
  text : t.text = inner
  left : t.left = true ↔ 1 < inner.length ∧ inner.head? = some '-'
  right : t.right = true ↔ 1 < inner.length ∧ inner.getLast? = some '-'

theorem markers_ofInner (inner : Text) : Markers inner (Trimmed.ofInner inner) := by
  have hdropLast : 1 < inner.length → inner.dropLast.head? = inner.head? := by
    intro h
    obtain _ | ⟨c, _ | ⟨d, rest⟩⟩ := inner
    · cases h
    · exact (Nat.lt_irrefl 1 h).elim
    · rfl
  refine ⟨Trimmed.text_ofInner inner, ?_, ?_⟩ <;> unfold Trimmed.ofInner <;> split
  next h => simp [Nat.not_lt.2 h]
  next h =>
    have hlength := Nat.lt_of_not_le h
    by_cases hlast : inner.getLast? = some '-' <;> simp [hlast, hlength, hdropLast hlength]
  next h => simp [Nat.not_lt.2 h]
  next h => simp [Nat.lt_of_not_le h]

theorem tidy_lone_dash : tidy ['-'] = ['-'] := by decide +kernel

theorem dashes_tidy (inner : Text) :
    (inner.head? = some '-' → (tidy inner).head? = some '-') ∧
      (inner.getLast? = some '-' → (tidy inner).getLast? = some '-') := by
  obtain ⟨-, hleft, hright⟩ := markers_ofInner inner
  by_cases hlength : 1 < inner.length
  · unfold tidy
    simp only
    split
    · exact ⟨id, id⟩
    · refine ⟨fun h => ?_, fun h => ?_⟩
      · simp [Trimmed.text, hleft.2 ⟨hlength, h⟩]
      · simp [Trimmed.text, hright.2 ⟨hlength, h⟩]
  · obtain _ | ⟨c, _ | ⟨d, rest⟩⟩ := inner
    · constructor <;> intro h <;> cases h
    · -- The first character is the last one too, and no marker.
      have hlone : some c = some '-' → tidy [c] = ['-'] := by
        intro h
        rw [Option.some.inj h]
        exact tidy_lone_dash
      refine ⟨fun h => ?_, fun h => ?_⟩
      · rw [hlone h]
        rfl
      · rw [hlone h]
        rfl
    · exact (hlength (by simp)).elim

end Comment

open Comment

/-- The removal of comments from any text. It leaves all outside of the actions as it is, and of an
action its markers; what is between them loses, one after the other, comments that a scan comes to,
until there are none. If no more than white space would be left, the action keeps them all. -/
theorem removeComments_deletes (s : Text) :
    ((segments s).1.flatMap (fun g => g.before ++ g.source) ++ (segments s).2 = s ∧
      (∀ g ∈ (segments s).1, g.Carved) ∧
      (∀ g rest, nextAction (segments s).2 ≠ .found g rest) ∧
      removeComments s = (segments s).1.flatMap
        (fun g => g.before ++ { g with inner := tidy g.inner }.source) ++ (segments s).2) ∧
    ∀ inner, Markers inner (Trimmed.ofInner inner) ∧
      Strips (Trimmed.ofInner inner).body (sweepAll (Trimmed.ofInner inner).body) ∧
      (tidy inner = if (sweepAll (Trimmed.ofInner inner).body).all Text.isBlank then inner else
        { Trimmed.ofInner inner with body := sweepAll (Trimmed.ofInner inner).body }.text) ∧
      (inner.head? = some '-' → (tidy inner).head? = some '-') ∧
      (inner.getLast? = some '-' → (tidy inner).getLast? = some '-') := by
  refine ⟨⟨flatMap_segments s, carved_of_segments, nextAction_ne_found_of_segments s, rfl⟩, ?_⟩
  exact fun inner => ⟨markers_ofInner inner, strips_sweepAll _, rfl, dashes_tidy inner⟩

theorem removeComments_deletes_joined :
    removeComments "a \x7b\x7b- \"/**/\" //* b */* c */ -\x7d\x7d".toList =
      "a \x7b\x7b- \"/**/\"  -\x7d\x7d".toList ∧
    Strips " \"/**/\" //* b */* c */ ".toList " \"/**/\"  ".toList ∧
    (tidy "- \"/**/\" //* b */* c */ -".toList).head? = some '-' ∧
    (tidy "- \"/**/\" //* b */* c */ -".toList).getLast? = some '-' := by
  obtain ⟨-, hinner⟩ :=
    removeComments_deletes "a \x7b\x7b- \"/**/\" //* b */* c */ -\x7d\x7d".toList
  obtain ⟨-, hstrips, -, hhead, hlast⟩ := hinner "- \"/**/\" //* b */* c */ -".toList
  have hbody : (Trimmed.ofInner "- \"/**/\" //* b */* c */ -".toList).body =
      " \"/**/\" //* b */* c */ ".toList := by decide
  have hstripped : sweepAll " \"/**/\" //* b */* c */ ".toList = " \"/**/\"  ".toList := by
    decide +kernel
  rw [hbody, hstripped] at hstrips
  exact ⟨by decide +kernel, hstrips, hhead rfl, hlast rfl⟩

end Stencil
