import Stencil.Pattern

namespace Stencil.Pattern

theorem matches_empty_iff {s : Text} : Matches .empty s ↔ s = [] := by
  constructor
  · rintro ⟨⟩
    rfl
  · rintro rfl
    exact .empty

theorem matches_one_iff {accepts : Char → Bool} {s : Text} :
    Matches (.one accepts) s ↔ ∃ c, s = [c] ∧ accepts c = true := by
  constructor
  · intro h
    cases h with
    | one h => exact ⟨_, rfl, h⟩
  · rintro ⟨c, rfl, h⟩
    exact .one h

theorem matches_seq_iff {p q : Pattern} {s : Text} :
    Matches (.seq p q) s ↔ ∃ a b, s = a ++ b ∧ Matches p a ∧ Matches q b := by
  constructor
  · intro h
    cases h with
    | seq hp hq => exact ⟨_, _, rfl, hp, hq⟩
  · rintro ⟨a, b, rfl, hp, hq⟩
    exact .seq hp hq

theorem matches_alt_iff {p q : Pattern} {s : Text} :
    Matches (.alt p q) s ↔ Matches p s ∨ Matches q s := by
  constructor
  · intro h
    cases h with
    | altLeft h => exact .inl h
    | altRight h => exact .inr h
  · rintro (h | h)
    · exact .altLeft h
    · exact .altRight h

theorem not_matches_nothing {s : Text} : ¬ Matches .nothing s := nofun

theorem matches_char_iff {c : Char} {s : Text} : Matches (char c) s ↔ s = [c] := by
  simp [char, matches_one_iff]

theorem matches_optional_iff {p : Pattern} {s : Text} :
    Matches (optional p) s ↔ Matches p s ∨ s = [] := by
  rw [optional, matches_alt_iff, matches_empty_iff]

theorem matches_chain_cons_iff {p q : Pattern} {ps : List Pattern} {s : Text} :
    Matches (chain (p :: q :: ps)) s ↔
      ∃ a b, s = a ++ b ∧ Matches p a ∧ Matches (chain (q :: ps)) b :=
  matches_seq_iff

theorem matches_many_iff {accepts : Char → Bool} {s : Text} :
    Matches (.many (.one accepts)) s ↔ ∀ c ∈ s, accepts c = true := by
  constructor
  · generalize hp : Pattern.many (.one accepts) = p
    intro h
    induction h with
    | manyNil => simp
    | manyCons hb _ _ ih =>
      cases hp
      obtain ⟨c, rfl, hc⟩ := matches_one_iff.1 hb
      simpa [hc] using ih rfl
    | _ => cases hp
  · intro h
    induction s with
    | nil => exact .manyNil
    | cons c s ih =>
      have hs := ih fun d hd => h d (List.mem_cons_of_mem c hd)
      exact .manyCons (.one (h c List.mem_cons_self)) hs

theorem Matches.many_cons {p : Pattern} {c : Char} {s : Text} (h : Matches (.many p) (c :: s)) :
    ∃ a b, s = a ++ b ∧ Matches p (c :: a) ∧ Matches (.many p) b := by
  generalize hq : Pattern.many p = q at h
  generalize ht : c :: s = t at h
  induction h with
  | @manyCons p' a b ha hb _ ih =>
    cases hq
    cases a with
    | nil => exact ih rfl ht
    | cons d a =>
      cases ht
      exact ⟨a, b, rfl, ha, hb⟩
  | manyNil => cases ht
  | _ => cases hq

theorem nullable_iff {p : Pattern} : p.nullable = true ↔ Matches p [] := by
  induction p with
  | nothing => simp [nullable, not_matches_nothing]
  | empty => simp [nullable, matches_empty_iff]
  | one accepts => simp [nullable, matches_one_iff]
  | seq p q ihp ihq =>
    rw [nullable, Bool.and_eq_true, ihp, ihq, matches_seq_iff]
    constructor
    · rintro ⟨hp, hq⟩
      exact ⟨[], [], rfl, hp, hq⟩
    · rintro ⟨a, b, hab, hp, hq⟩
      obtain ⟨rfl, rfl⟩ := List.append_eq_nil_iff.1 hab.symm
      exact ⟨hp, hq⟩
  | alt p q ihp ihq => rw [nullable, Bool.or_eq_true, ihp, ihq, matches_alt_iff]
  | many p => exact ⟨fun _ => .manyNil, fun _ => rfl⟩

theorem eq_nothing_of_isNothing {p : Pattern} (h : p.isNothing = true) : p = .nothing := by
  cases p <;> simp_all [isNothing]

theorem matches_andThen {p q : Pattern} {s : Text} :
    Matches (andThen p q) s ↔ Matches (.seq p q) s := by
  unfold andThen
  split
  · simp [matches_seq_iff, not_matches_nothing]
  · constructor
    · intro h
      exact matches_seq_iff.2 ⟨[], s, rfl, .empty, h⟩
    · intro h
      obtain ⟨a, b, rfl, ha, hb⟩ := matches_seq_iff.1 h
      rwa [matches_empty_iff.1 ha]
  · split
    next h =>
      rw [eq_nothing_of_isNothing h]
      simp [matches_seq_iff, not_matches_nothing]
    · rfl

theorem matches_orElse {p q : Pattern} {s : Text} :
    Matches (orElse p q) s ↔ Matches (.alt p q) s := by
  unfold orElse
  split
  · simp [matches_alt_iff, not_matches_nothing]
  · split
    next h =>
      rw [eq_nothing_of_isNothing h]
      simp [matches_alt_iff, not_matches_nothing]
    · rfl

theorem matches_seq_cons_iff {p q : Pattern} {c : Char} {s : Text} :
    Matches (.seq p q) (c :: s) ↔
      (∃ a b, s = a ++ b ∧ Matches p (c :: a) ∧ Matches q b) ∨
        Matches p [] ∧ Matches q (c :: s) := by
  rw [matches_seq_iff]
  constructor
  · rintro ⟨a, b, hab, hp, hq⟩
    cases a with
    | nil =>
      obtain rfl : c :: s = b := hab
      exact .inr ⟨hp, hq⟩
    | cons d a =>
      obtain ⟨rfl, rfl⟩ := List.cons.inj hab
      exact .inl ⟨a, b, rfl, hp, hq⟩
  · rintro (⟨a, b, rfl, hp, hq⟩ | ⟨hp, hq⟩)
    · exact ⟨c :: a, b, rfl, hp, hq⟩
    · exact ⟨[], c :: s, rfl, hp, hq⟩

theorem matches_deriv {p : Pattern} {c : Char} {s : Text} :
    Matches (p.deriv c) s ↔ Matches p (c :: s) := by
  induction p generalizing s with
  | nothing => simp [deriv, not_matches_nothing]
  | empty => simp [deriv, not_matches_nothing, matches_empty_iff]
  | one accepts =>
    by_cases h : accepts c = true
    · rw [deriv, if_pos h, matches_empty_iff]
      constructor
      · rintro rfl
        exact .one h
      · intro hc
        cases hc
        rfl
    · rw [deriv, if_neg h]
      constructor
      · exact fun h => (not_matches_nothing h).elim
      · intro hc
        cases hc
        contradiction
  | seq p q ihp ihq =>
    have first : Matches (andThen (p.deriv c) q) s ↔
        ∃ a b, s = a ++ b ∧ Matches p (c :: a) ∧ Matches q b := by
      rw [matches_andThen, matches_seq_iff]
      simp only [ihp]
    rw [deriv, matches_seq_cons_iff]
    by_cases h : p.nullable = true
    · rw [if_pos h, matches_orElse, matches_alt_iff, first, ihq]
      simp [nullable_iff.1 h]
    · rw [if_neg h, first]
      simp [mt nullable_iff.2 h]
  | alt p q ihp ihq => rw [deriv, matches_orElse, matches_alt_iff, matches_alt_iff, ihp, ihq]
  | many p ih =>
    rw [deriv, matches_andThen, matches_seq_iff]
    constructor
    · rintro ⟨a, b, rfl, ha, hb⟩
      exact .manyCons (ih.1 ha) hb
    · intro h
      obtain ⟨a, b, rfl, ha, hb⟩ := h.many_cons
      exact ⟨a, b, rfl, ih.2 ha, hb⟩

theorem longest_nothing (s : Text) : nothing.longest s = none := by
  cases s <;> rfl

theorem shortest_nothing (s : Text) : nothing.shortest s = none := by
  cases s <;> rfl

/-- One step of the search, without the check that only saves time. -/
theorem longest_cons (p : Pattern) (c : Char) (s : Text) :
    p.longest (c :: s) =
      match (p.deriv c).longest s with
      | some (m, rest) => some (c :: m, rest)
      | none => if p.nullable then some ([], c :: s) else none := by
  rw [longest]
  split
  next h =>
    rw [eq_nothing_of_isNothing h, deriv, longest_nothing]
    rfl
  · rfl

theorem shortest_cons (p : Pattern) (c : Char) (s : Text) :
    p.shortest (c :: s) =
      if p.nullable then some ([], c :: s)
      else ((p.deriv c).shortest s).map (·.map (c :: ·) id) := by
  rw [shortest]
  split
  next h =>
    rw [eq_nothing_of_isNothing h, deriv, shortest_nothing]
    rfl
  · split
    · rfl
    · cases (p.deriv c).shortest s <;> rfl

theorem matches_of_longest {p : Pattern} {s m rest : Text} (h : p.longest s = some (m, rest)) :
    Matches p m := by
  induction s generalizing p m with
  | nil =>
    rw [longest] at h
    split at h
    next hn =>
      cases h
      exact nullable_iff.1 hn
    · cases h
  | cons c s ih =>
    rw [longest_cons] at h
    split at h
    next m' rest' hd =>
      cases h
      exact matches_deriv.1 (ih hd)
    · split at h
      next hn =>
        cases h
        exact nullable_iff.1 hn
      · cases h

/-- A text with a prefix in the language is split, and no such prefix is longer than the one that
the search takes. -/
theorem exists_longest {p : Pattern} {s m : Text} (hm : m <+: s) (h : Matches p m) :
    ∃ t rest, p.longest s = some (t, rest) ∧ m.length ≤ t.length := by
  induction s generalizing p m with
  | nil =>
    obtain rfl := List.prefix_nil.1 hm
    exact ⟨[], [], by rw [longest, if_pos (nullable_iff.2 h)], Nat.le_refl _⟩
  | cons c s ih =>
    rw [longest_cons]
    cases m with
    | nil =>
      rw [if_pos (nullable_iff.2 h)]
      split
      · exact ⟨_, _, rfl, Nat.zero_le _⟩
      · exact ⟨_, _, rfl, Nat.zero_le _⟩
    | cons d m =>
      obtain ⟨rfl, hms⟩ := List.cons_prefix_cons.1 hm
      obtain ⟨t, rest, ht, hle⟩ := ih hms (matches_deriv.2 h)
      rw [ht]
      exact ⟨d :: t, rest, rfl, Nat.succ_le_succ hle⟩

theorem longest_eq_none_iff {p : Pattern} {s : Text} :
    p.longest s = none ↔ ∀ m, m <+: s → ¬ Matches p m := by
  constructor
  · intro h m hm hp
    obtain ⟨t, rest, ht, -⟩ := exists_longest hm hp
    rw [h] at ht
    cases ht
  · intro h
    cases hl : p.longest s with
    | none => rfl
    | some r =>
      have hm : r.1 <+: s := ⟨r.2, append_of_longest hl⟩
      exact (h r.1 hm (matches_of_longest hl)).elim

theorem longest_eq_some_iff {p : Pattern} {s m rest : Text} :
    p.longest s = some (m, rest) ↔
      m ++ rest = s ∧ Matches p m ∧ ∀ t, t <+: s → Matches p t → t.length ≤ m.length := by
  constructor
  · intro h
    refine ⟨append_of_longest h, matches_of_longest h, fun t ht hp => ?_⟩
    obtain ⟨u, rest', hu, hle⟩ := exists_longest ht hp
    rw [h] at hu
    cases hu
    exact hle
  · rintro ⟨rfl, hm, hmax⟩
    obtain ⟨t, rest', ht, hle⟩ := exists_longest (List.prefix_append m rest) hm
    have hts := append_of_longest ht
    have hlen := hmax t ⟨rest', hts⟩ (matches_of_longest ht)
    obtain ⟨rfl, rfl⟩ := List.append_inj hts (Nat.le_antisymm hlen hle)
    exact ht

theorem matches_of_shortest {p : Pattern} {s m rest : Text} (h : p.shortest s = some (m, rest)) :
    Matches p m := by
  induction s generalizing p m with
  | nil =>
    rw [shortest] at h
    split at h
    next hn =>
      cases h
      exact nullable_iff.1 hn
    · cases h
  | cons c s ih =>
    rw [shortest_cons] at h
    split at h
    next hn =>
      cases h
      exact nullable_iff.1 hn
    · obtain ⟨⟨m', rest'⟩, hd, hmap⟩ := Option.map_eq_some_iff.1 h
      cases hmap
      exact matches_deriv.1 (ih hd)

theorem exists_shortest {p : Pattern} {s m : Text} (hm : m <+: s) (h : Matches p m) :
    ∃ t rest, p.shortest s = some (t, rest) ∧ t.length ≤ m.length := by
  induction s generalizing p m with
  | nil =>
    obtain rfl := List.prefix_nil.1 hm
    exact ⟨[], [], by rw [shortest, if_pos (nullable_iff.2 h)], Nat.le_refl _⟩
  | cons c s ih =>
    rw [shortest_cons]
    split
    · exact ⟨[], c :: s, rfl, Nat.zero_le _⟩
    next hn =>
      cases m with
      | nil => exact (hn (nullable_iff.2 h)).elim
      | cons d m =>
        obtain ⟨rfl, hms⟩ := List.cons_prefix_cons.1 hm
        obtain ⟨t, rest, ht, hle⟩ := ih hms (matches_deriv.2 h)
        rw [ht]
        exact ⟨d :: t, rest, rfl, Nat.succ_le_succ hle⟩

theorem shortest_eq_none_iff {p : Pattern} {s : Text} :
    p.shortest s = none ↔ ∀ m, m <+: s → ¬ Matches p m := by
  constructor
  · intro h m hm hp
    obtain ⟨t, rest, ht, -⟩ := exists_shortest hm hp
    rw [h] at ht
    cases ht
  · intro h
    cases hs : p.shortest s with
    | none => rfl
    | some r =>
      have hm : r.1 <+: s := ⟨r.2, append_of_shortest hs⟩
      exact (h r.1 hm (matches_of_shortest hs)).elim

theorem shortest_eq_some_iff {p : Pattern} {s m rest : Text} :
    p.shortest s = some (m, rest) ↔
      m ++ rest = s ∧ Matches p m ∧ ∀ t, t <+: s → Matches p t → m.length ≤ t.length := by
  constructor
  · intro h
    refine ⟨append_of_shortest h, matches_of_shortest h, fun t ht hp => ?_⟩
    obtain ⟨u, rest', hu, hle⟩ := exists_shortest ht hp
    rw [h] at hu
    cases hu
    exact hle
  · rintro ⟨rfl, hm, hmin⟩
    obtain ⟨t, rest', ht, hle⟩ := exists_shortest (List.prefix_append m rest) hm
    have hts := append_of_shortest ht
    have hlen := hmin t ⟨rest', hts⟩ (matches_of_shortest ht)
    obtain ⟨rfl, rfl⟩ := List.append_inj hts (Nat.le_antisymm hle hlen)
    exact ht

end Stencil.Pattern
