import Stencil.Proofs.PatternLanguage
import Stencil.Token

namespace Stencil

namespace Pattern

def begins (c : Char) : Pattern → Bool
  | nothing => false
  | empty => false
  | one accepts => accepts c
  | seq p q => begins c p || (p.nullable && begins c q)
  | alt p q => begins c p || begins c q
  | many p => begins c p

theorem Matches.begins {p : Pattern} {c : Char} {s : Text} (h : Matches p (c :: s)) :
    p.begins c = true := by
  induction p generalizing s with
  | nothing => cases h
  | empty => cases h
  | one accepts =>
    cases h
    assumption
  | seq p q ihp ihq =>
    rw [Pattern.begins, Bool.or_eq_true, Bool.and_eq_true, nullable_iff]
    obtain ⟨a, b, -, ha, -⟩ | ⟨hp, hq⟩ := matches_seq_cons_iff.1 h
    · exact .inl (ihp ha)
    · exact .inr ⟨hp, ihq hq⟩
  | alt p q ihp ihq =>
    rw [Pattern.begins, Bool.or_eq_true]
    exact (matches_alt_iff.1 h).imp ihp ihq
  | many p ih =>
    obtain ⟨a, b, -, ha, -⟩ := h.many_cons
    exact ih ha

end Pattern

namespace Lexer

variable {κ : Type}

def Rule.take (r : Rule κ) (s : Text) : Option (Lexeme κ × Text) :=
  match r.split s with
  | some (c :: m, rest) => some (⟨r.kind, c :: m⟩, rest)
  | _ => none

theorem first_eq_findSome (rules : List (Rule κ)) (s : Text) :
    first rules s = rules.findSome? (·.take s) := rfl

theorem Rule.take_eq_some_iff {r : Rule κ} {s rest : Text} {l : Lexeme κ} :
    r.take s = some (l, rest) ↔ l.kind = r.kind ∧ l.text ≠ [] ∧ r.split s = some (l.text, rest) := by
  obtain ⟨kind, text⟩ := l
  unfold Rule.take
  constructor
  · intro h
    split at h
    next hs =>
      cases h
      exact ⟨rfl, by simp, hs⟩
    · cases h
  · rintro ⟨rfl, hne, hs⟩
    obtain ⟨c, m, rfl⟩ := List.exists_cons_of_ne_nil hne
    rw [hs]

theorem Rule.matches_of_take {r : Rule κ} {s rest : Text} {l : Lexeme κ}
    (h : r.take s = some (l, rest)) : l.text ++ rest = s ∧ r.pattern.Matches l.text := by
  obtain ⟨-, -, hs⟩ := Rule.take_eq_some_iff.1 h
  refine ⟨Rule.append_of_split hs, ?_⟩
  unfold Rule.split at hs
  split at hs
  · exact Pattern.matches_of_longest hs
  · exact Pattern.matches_of_shortest hs

theorem Rule.take_eq_none_iff {r : Rule κ} {s : Text} :
    r.take s = none ↔
      (r.reach = .shortest ∧ r.pattern.Matches []) ∨ ∀ m, m <+: s → r.pattern.Matches m → m = [] := by
  have split_none : r.take s = none ↔ ∀ m rest, r.split s = some (m, rest) → m = [] := by
    unfold Rule.take
    split
    next hs =>
      rw [hs]
      simp
    next hs =>
      simp only [true_iff]
      intro m rest hm
      cases m with
      | nil => rfl
      | cons c m => exact (hs c m rest hm).elim
  rw [split_none, Rule.split]
  cases hr : r.reach with
  | longest =>
    simp only [reduceCtorEq, false_and, false_or]
    constructor
    · intro h m hm hp
      obtain ⟨t, rest, ht, hle⟩ := Pattern.exists_longest hm hp
      rw [h t rest ht] at hle
      exact List.eq_nil_of_length_eq_zero (Nat.le_zero.1 hle)
    · intro h m rest hm
      exact h m ⟨rest, Pattern.append_of_longest hm⟩ (Pattern.matches_of_longest hm)
  | shortest =>
    simp only [true_and]
    constructor
    · intro h
      by_cases hn : r.pattern.Matches []
      · exact .inl hn
      · refine .inr fun m hm hp => ?_
        obtain ⟨t, rest, ht, -⟩ := Pattern.exists_shortest hm hp
        rw [h t rest ht] at ht
        exact (hn (Pattern.matches_of_shortest ht)).elim
    · rintro (hn | h) m rest hm
      · obtain ⟨-, -, hmin⟩ := Pattern.shortest_eq_some_iff.1 hm
        exact List.eq_nil_of_length_eq_zero (Nat.le_zero.1 (hmin [] List.nil_prefix hn))
      · exact h m ⟨rest, Pattern.append_of_shortest hm⟩ (Pattern.matches_of_shortest hm)

theorem Rule.take_ne_none {r : Rule κ} {s m : Text} (hn : ¬ r.pattern.Matches []) (hm : m <+: s)
    (h : r.pattern.Matches m) : r.take s ≠ none := by
  intro hr
  obtain ⟨-, he⟩ | he := Rule.take_eq_none_iff.1 hr
  · exact hn he
  · exact hn (he m hm h ▸ h)

theorem Rule.take_of_not_begins {r : Rule κ} {c : Char} {s : Text}
    (h : r.pattern.begins c = false) : r.take (c :: s) = none := by
  refine Rule.take_eq_none_iff.2 (.inr fun m hm hp => ?_)
  cases m with
  | nil => rfl
  | cons d m =>
    obtain ⟨rfl, -⟩ := List.cons_prefix_cons.1 hm
    rw [hp.begins] at h
    cases h

theorem Rule.take_append_of_longest {r : Rule κ} {m x : Text} (hr : r.reach = .longest)
    (hne : m ≠ []) (hm : r.pattern.Matches m)
    (hmax : ∀ y, y <+: x → r.pattern.Matches (m ++ y) → y = []) :
    r.take (m ++ x) = some (⟨r.kind, m⟩, x) := by
  refine Rule.take_eq_some_iff.2 ⟨rfl, hne, ?_⟩
  rw [Rule.split, hr]
  refine Pattern.longest_eq_some_iff.2 ⟨rfl, hm, fun t ht hp => ?_⟩
  obtain hle | hlt := Nat.le_total t.length m.length
  · exact hle
  · obtain ⟨y, rfl⟩ := List.prefix_of_prefix_length_le (List.prefix_append m x) ht hlt
    have hnil : y = [] := hmax y ((List.prefix_append_right_inj m).1 ht) hp
    exact Nat.le_of_eq (by rw [hnil, List.append_nil])

theorem Rule.take_append_of_shortest {r : Rule κ} {m x : Text} (hr : r.reach = .shortest)
    (hne : m ≠ []) (hm : r.pattern.Matches m)
    (hmin : ∀ t, t <+: m → r.pattern.Matches t → t = m) :
    r.take (m ++ x) = some (⟨r.kind, m⟩, x) := by
  refine Rule.take_eq_some_iff.2 ⟨rfl, hne, ?_⟩
  rw [Rule.split, hr]
  refine Pattern.shortest_eq_some_iff.2 ⟨rfl, hm, fun t ht hp => ?_⟩
  obtain hle | hlt := Nat.le_total m.length t.length
  · exact hle
  · have htm := List.prefix_of_prefix_length_le ht (List.prefix_append m x) hlt
    exact Nat.le_of_eq (congrArg List.length (hmin t htm hp).symm)

theorem first_eq_some_iff {rules : List (Rule κ)} {s : Text} {b : Lexeme κ × Text} :
    first rules s = some b ↔
      ∃ before r after, rules = before ++ r :: after ∧ r.take s = some b ∧
        ∀ q ∈ before, q.take s = none := by
  rw [first_eq_findSome, List.findSome?_eq_some_iff]

/-- Only the rules that can begin with the first character matter. -/
theorem first_cons (rules : List (Rule κ)) (c : Char) (s : Text) :
    first rules (c :: s) = first (rules.filter (·.pattern.begins c)) (c :: s) := by
  rw [first_eq_findSome, first_eq_findSome]
  induction rules with
  | nil => rfl
  | cons r rules ih =>
    cases hb : r.pattern.begins c with
    | true => simp only [List.filter_cons, hb, ↓reduceIte, List.findSome?_cons, ih]
    | false =>
      simp only [List.filter_cons, hb, Bool.false_eq_true, ↓reduceIte, List.findSome?_cons,
        Rule.take_of_not_begins hb, ih]

theorem first_of_take_after {rules before after : List (Rule κ)} {r : Rule κ} {c : Char} {s : Text}
    {b : Lexeme κ × Text} (hr : rules.filter (·.pattern.begins c) = before ++ r :: after)
    (hn : ∀ q ∈ before, q.take (c :: s) = none) (h : r.take (c :: s) = some b) :
    first rules (c :: s) = some b := by
  rw [first_cons]
  exact first_eq_some_iff.2 ⟨before, r, after, hr, h, hn⟩

theorem first_of_take {rules after : List (Rule κ)} {r : Rule κ} {c : Char} {s : Text}
    {b : Lexeme κ × Text} (hr : rules.filter (·.pattern.begins c) = r :: after)
    (h : r.take (c :: s) = some b) : first rules (c :: s) = some b :=
  first_of_take_after (hr.trans (List.nil_append _).symm) (by simp) h

theorem exists_rule_of_first {rules : List (Rule κ)} {s rest : Text} {l : Lexeme κ}
    (h : first rules s = some (l, rest)) :
    ∃ r ∈ rules, r.kind = l.kind ∧ r.take s = some (l, rest) := by
  obtain ⟨before, r, after, rfl, hr, -⟩ := first_eq_some_iff.1 h
  exact ⟨r, by simp, (Rule.take_eq_some_iff.1 hr).1.symm, hr⟩

theorem first_nil (rules : List (Rule κ)) : first rules [] = none := by
  cases h : first rules [] with
  | none => rfl
  | some b =>
    obtain ⟨hne, he⟩ := first_eq_some h
    exact (hne (List.append_eq_nil_iff.1 he).1).elim

theorem scan_of_none {rules : List (Rule κ)} {s : Text} (h : first rules s = none) :
    scan rules s = ([], s) := by
  rw [scan]
  split
  · rfl
  next hs =>
    rw [h] at hs
    cases hs

theorem scan_of_some {rules : List (Rule κ)} {s rest : Text} {l : Lexeme κ}
    (h : first rules s = some (l, rest)) : scan rules s = (scan rules rest).map (l :: ·) id := by
  rw [scan]
  split
  next hs =>
    rw [h] at hs
    cases hs
  next l' rest' hs =>
    rw [h] at hs
    cases hs
    rfl

theorem spelling_scan (rules : List (Rule κ)) (s : Text) :
    (scan rules s).1.flatMap (·.text) ++ (scan rules s).2 = s := by
  fun_induction scan rules s with
  | case1 s h => rfl
  | case2 s l rest h ih =>
    obtain ⟨-, hs⟩ := first_eq_some h
    simp only [Prod.map, id_eq, List.flatMap_cons, List.append_assoc]
    rw [ih, hs]

/-- Each lexeme of the list is the one that the rules find where it begins, if the list is spelled
out and the text `tail` follows. -/
def Lexed (rules : List (Rule κ)) (tail : Text) : List (Lexeme κ) → Prop
  | [] => True
  | l :: ls =>
    first rules (l.text ++ (ls.flatMap (·.text) ++ tail)) = some (l, ls.flatMap (·.text) ++ tail) ∧
      Lexed rules tail ls

theorem lexed_scan (rules : List (Rule κ)) (s : Text) :
    Lexed rules (scan rules s).2 (scan rules s).1 := by
  fun_induction scan rules s with
  | case1 s h => trivial
  | case2 s l rest h ih =>
    obtain ⟨-, hs⟩ := first_eq_some h
    refine ⟨?_, ih⟩
    simp only [Prod.map, id_eq]
    rw [spelling_scan, hs]
    exact h

theorem Lexed.of_append_right {rules : List (Rule κ)} {tail : Text} {ls ms : List (Lexeme κ)}
    (h : Lexed rules tail (ls ++ ms)) : Lexed rules tail ms := by
  induction ls with
  | nil => exact h
  | cons l ls ih => exact ih h.2

theorem scan_of_lexed {rules : List (Rule κ)} {tail : Text} {ls : List (Lexeme κ)}
    (h : Lexed rules tail ls) :
    scan rules (ls.flatMap (·.text) ++ tail) = (scan rules tail).map (ls ++ ·) id := by
  induction ls with
  | nil => rfl
  | cons l ls ih =>
    obtain ⟨hl, hls⟩ := h
    rw [List.flatMap_cons, List.append_assoc, scan_of_some hl, ih hls]
    rfl

end Lexer
end Stencil
