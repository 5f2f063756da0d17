import Mathlib.Data.List.Basic
import Stencil.Proofs.Lexing

/-!
Backtracking search by patterns. A search tries the left side of an alternative before the right
one, and one more round of a repetition before its end, or after it. What it comes upon first need
not be the longest or the shortest match, but it is where the matches come in the order of their
lengths.
-/

namespace Stencil

namespace Pattern

def arrange (order : Lexer.Reach) (more : List Text) (s : Text) : List Text :=
  match order with
  | .longest => more ++ [s]
  | .shortest => s :: more

/-- What a repetition of so many rounds may leave of a text; each round has to take something. -/
def rounds (order : Lexer.Reach) (body : Text → List Text) : Nat → Text → List Text
  | 0, s => [s]
  | n + 1, s =>
    arrange order (((body s).filter (·.length < s.length)).flatMap (rounds order body n)) s

/-- What the matches of a pattern at the start of a text leave of it, in the order that a
backtracking search comes upon them. -/
def rests (order : Lexer.Reach) : Pattern → Text → List Text
  | nothing, _ => []
  | empty, s => [s]
  | one _, [] => []
  | one accepts, c :: s => if accepts c then [s] else []
  | seq p q, s => (rests order p s).flatMap (rests order q)
  | alt p q, s => rests order p s ++ rests order q s
  | many p, s => rounds order (rests order p) s.length s

/-- Whether a search for long or for short matches should come upon the rest `r` before `r'`. -/
def Ahead (order : Lexer.Reach) (r r' : Text) : Prop :=
  match order with
  | .longest => r.length < r'.length
  | .shortest => r'.length < r.length

/-- Whether a search comes upon the matches of the pattern in the order of their lengths. -/
def Ordered (order : Lexer.Reach) (p : Pattern) : Prop :=
  ∀ s, (p.rests order s).Pairwise (Ahead order)

variable {order : Lexer.Reach} {p q : Pattern} {s r r' : Text}

theorem mem_arrange {more : List Text} : r ∈ arrange order more s ↔ r ∈ more ∨ r = s := by
  cases order with
  | longest => simp [arrange]
  | shortest => simp [arrange, or_comm]

theorem pairwise_arrange {more : List Text} (h : more.Pairwise (Ahead order))
    (hs : ∀ r ∈ more, r.length < s.length) : (arrange order more s).Pairwise (Ahead order) := by
  cases order with
  | longest =>
    refine List.pairwise_append.2 ⟨h, List.pairwise_singleton _ _, ?_⟩
    intro r hr t ht
    rw [List.mem_singleton.1 ht]
    exact hs r hr
  | shortest => exact List.pairwise_cons.2 ⟨hs, h⟩

theorem rounds_eq {body : Text → List Text} {m n : Nat} (hm : s.length ≤ m) (hn : s.length ≤ n) :
    rounds order body m s = rounds order body n s := by
  have rounds_nil : ∀ n, rounds order body n [] = [[]] := by
    intro n
    cases n with
    | zero => rfl
    | succ n => cases order <;> simp [rounds, arrange]
  induction m generalizing n s with
  | zero =>
    rw [List.eq_nil_of_length_eq_zero (Nat.le_zero.1 hm), rounds_nil, rounds_nil]
  | succ m ih =>
    cases n with
    | zero =>
      rw [List.eq_nil_of_length_eq_zero (Nat.le_zero.1 hn), rounds_nil, rounds_nil]
    | succ n =>
      rw [rounds, rounds]
      congr 1
      apply List.flatMap_congr
      intro r hr
      have hlt : r.length < s.length := by simpa using (List.mem_filter.1 hr).2
      apply ih
      · omega
      · omega

theorem rests_many : (many p).rests order s =
    arrange order
      (((p.rests order s).filter (·.length < s.length)).flatMap ((many p).rests order)) s := by
  rw [rests, rounds_eq (Nat.le_refl _) (Nat.le_succ _), rounds]
  congr 1
  apply List.flatMap_congr
  intro r hr
  have hlt : r.length < s.length := by simpa using (List.mem_filter.1 hr).2
  exact rounds_eq (Nat.le_of_lt hlt) (Nat.le_refl _)

/-- A search comes upon all matches and upon nothing else. -/
theorem mem_rests_iff : r ∈ p.rests order s ↔ ∃ m, m ++ r = s ∧ Matches p m := by
  induction p generalizing s r with
  | nothing => simp [rests, not_matches_nothing]
  | empty => simp [rests, matches_empty_iff]
  | one accepts =>
    simp only [matches_one_iff]
    constructor
    · intro h
      cases s with
      | nil => simp [rests] at h
      | cons c s =>
        rw [rests] at h
        split at h
        next hc =>
          rw [List.mem_singleton.1 h]
          exact ⟨[c], rfl, c, rfl, hc⟩
        · simp at h
    · rintro ⟨m, rfl, c, rfl, hc⟩
      simp [rests, hc]
  | seq p q ihp ihq =>
    rw [rests, List.mem_flatMap]
    constructor
    · rintro ⟨t, ht, hr⟩
      obtain ⟨a, rfl, ha⟩ := ihp.1 ht
      obtain ⟨b, rfl, hb⟩ := ihq.1 hr
      exact ⟨a ++ b, List.append_assoc a b r, .seq ha hb⟩
    · rintro ⟨m, rfl, hm⟩
      obtain ⟨a, b, rfl, ha, hb⟩ := matches_seq_iff.1 hm
      exact ⟨b ++ r, ihp.2 ⟨a, (List.append_assoc a b r).symm, ha⟩, ihq.2 ⟨b, rfl, hb⟩⟩
  | alt p q ihp ihq =>
    rw [rests, List.mem_append, ihp, ihq, ← exists_or]
    simp only [← and_or_left, matches_alt_iff]
  | many p ih =>
    -- A round has to take something, so the induction inside is on the length of the text.
    generalize hn : s.length = n
    induction n using Nat.strongRecOn generalizing s r with
    | ind n ihn =>
    subst hn
    rw [rests_many, mem_arrange, List.mem_flatMap]
    constructor
    · rintro (⟨t, ht, hr⟩ | rfl)
      · obtain ⟨ht, hlt⟩ := List.mem_filter.1 ht
        obtain ⟨a, rfl, ha⟩ := ih.1 ht
        obtain ⟨b, rfl, hb⟩ := (ihn _ (by simpa using hlt) rfl).1 hr
        exact ⟨a ++ b, List.append_assoc a b r, .manyCons ha hb⟩
      · exact ⟨[], rfl, .manyNil⟩
    · rintro ⟨m, rfl, hm⟩
      cases m with
      | nil => exact .inr rfl
      | cons c m =>
        obtain ⟨a, b, rfl, ha, hb⟩ := hm.many_cons
        have hlt : (b ++ r).length < ((c :: (a ++ b)) ++ r).length := by
          simp only [List.length_append, List.length_cons]
          omega
        refine .inl ⟨b ++ r, List.mem_filter.2 ⟨ih.2 ⟨c :: a, by simp, ha⟩, decide_eq_true hlt⟩, ?_⟩
        exact (ihn _ hlt rfl).2 ⟨b, rfl, hb⟩

theorem length_le_of_mem_rests (h : r ∈ p.rests order s) : r.length ≤ s.length := by
  obtain ⟨m, rfl, -⟩ := mem_rests_iff.1 h
  simp

theorem ordered_one (accepts : Char → Bool) : Ordered order (one accepts) := by
  intro s
  cases s with
  | nil => exact .nil
  | cons c s =>
    rw [rests]
    split
    · exact List.pairwise_singleton _ _
    · exact .nil

theorem not_ahead_of_length {n : Nat} (hp : ∀ m, Matches p m → m.length = n)
    (hr : r ∈ p.rests order s) (hr' : r' ∈ p.rests order s) : ¬ Ahead order r r' := by
  obtain ⟨m, rfl, hm⟩ := mem_rests_iff.1 hr
  obtain ⟨m', heq, hm'⟩ := mem_rests_iff.1 hr'
  have hlength := congrArg List.length heq
  simp only [List.length_append, hp m hm, hp m' hm'] at hlength
  cases order <;> simp only [Ahead] <;> omega

theorem length_of_matches_one {accepts : Char → Bool} (m : Text) (h : Matches (one accepts) m) :
    m.length = 1 := by
  obtain ⟨c, rfl, -⟩ := matches_one_iff.1 h
  rfl

theorem ordered_seq (hp : Ordered order p) (hq : Ordered order q)
    (h : ∀ s r r', r ∈ p.rests order s → r' ∈ p.rests order s → Ahead order r r' →
      ∀ x ∈ q.rests order r, ∀ x' ∈ q.rests order r', Ahead order x x') :
    Ordered order (seq p q) := by
  intro s
  rw [rests, List.pairwise_flatMap]
  refine ⟨fun r _ => hq r, ?_⟩
  exact (hp s).imp_of_mem fun hr hr' hahead => h s _ _ hr hr' hahead

theorem ordered_one_seq {accepts : Char → Bool} (hq : Ordered order q) :
    Ordered order (seq (one accepts) q) :=
  ordered_seq (ordered_one accepts) hq fun _ _ _ hr hr' h =>
    (not_ahead_of_length length_of_matches_one hr hr' h).elim

theorem ordered_seq_of_length {n : Nat} (hp : Ordered order p) (hq : Ordered order q)
    (hn : ∀ m, Matches q m → m.length = n) : Ordered order (seq p q) := by
  refine ordered_seq hp hq fun s r r' _ _ h x hx x' hx' => ?_
  obtain ⟨m, rfl, hm⟩ := mem_rests_iff.1 hx
  obtain ⟨m', rfl, hm'⟩ := mem_rests_iff.1 hx'
  cases order <;> simp only [Ahead, List.length_append, hn m hm, hn m' hm'] at h ⊢ <;> omega

/-- Where a match could have gone on with some character, nothing that begins with it follows. -/
def Yields (p q : Pattern) : Prop :=
  ∀ a d y, Matches p a → Matches p (a ++ d :: y) → q.begins d = false

theorem Yields.ahead (h : Yields p q) (hr : r ∈ p.rests .longest s) (hr' : r' ∈ p.rests .longest s)
    (hahead : Ahead .longest r r') {x x' : Text} (hx : x ∈ q.rests .longest r)
    (hx' : x' ∈ q.rests .longest r') : Ahead .longest x x' := by
  obtain ⟨m, rfl, hm⟩ := mem_rests_iff.1 hr
  obtain ⟨m', heq, hm'⟩ := mem_rests_iff.1 hr'
  obtain ⟨w, rfl, hw⟩ := mem_rests_iff.1 hx'
  -- `d :: y` is what the longer match has more; if `q` took any of it, it would begin with `d`.
  obtain ⟨y, hy⟩ : r <:+ w ++ x' :=
    List.suffix_of_suffix_length_le ⟨m, rfl⟩ ⟨m', heq⟩ (Nat.le_of_lt hahead)
  have hne : y ≠ [] := by
    rintro rfl
    rw [← hy] at hahead
    exact Nat.lt_irrefl _ hahead
  obtain ⟨d, y, rfl⟩ := List.exists_cons_of_ne_nil hne
  have hlonger : m = m' ++ d :: y := by
    rw [← hy, ← List.append_assoc] at heq
    exact (List.append_cancel_right heq).symm
  rw [hlonger] at hm
  cases w with
  | nil => exact Nat.lt_of_le_of_lt (length_le_of_mem_rests hx) hahead
  | cons e w =>
    obtain ⟨rfl, -⟩ := List.cons.inj hy
    have hbegins := hw.begins
    rw [h m' d y hm' hm] at hbegins
    cases hbegins

theorem ordered_seq_of_yields (hp : Ordered .longest p) (hq : Ordered .longest q)
    (h : Yields p q) : Ordered .longest (seq p q) :=
  ordered_seq hp hq fun _ _ _ hr hr' hahead _ hx _ hx' => h.ahead hr hr' hahead hx hx'

theorem ordered_many (hp : Ordered order p)
    (h : ∀ s r r', r ∈ p.rests order s → r' ∈ p.rests order s → Ahead order r r' →
      ∀ x ∈ (many p).rests order r, ∀ x' ∈ (many p).rests order r', Ahead order x x') :
    Ordered order (many p) := by
  intro s
  generalize hn : s.length = n
  induction n using Nat.strongRecOn generalizing s with
  | ind n ih =>
  subst hn
  have hshorter : ∀ r ∈ (p.rests order s).filter (·.length < s.length), r.length < s.length :=
    fun r hr => by simpa using (List.mem_filter.1 hr).2
  rw [rests_many]
  apply pairwise_arrange
  · rw [List.pairwise_flatMap]
    refine ⟨fun r hr => ih _ (hshorter r hr) r rfl, ?_⟩
    refine ((hp s).filter _).imp_of_mem fun hr hr' hahead => ?_
    exact h s _ _ (List.mem_filter.1 hr).1 (List.mem_filter.1 hr').1 hahead
  · intro x hx
    obtain ⟨r, hr, hx⟩ := List.mem_flatMap.1 hx
    exact Nat.lt_of_le_of_lt (length_le_of_mem_rests hx) (hshorter r hr)

theorem ordered_many_one (accepts : Char → Bool) : Ordered order (many (one accepts)) :=
  ordered_many (ordered_one accepts) fun _ _ _ hr hr' h =>
    (not_ahead_of_length length_of_matches_one hr hr' h).elim

theorem ordered_oneOrMore_one (accepts : Char → Bool) : Ordered order (oneOrMore (one accepts)) :=
  ordered_one_seq (ordered_many_one accepts)

theorem ordered_many_of_yields (hp : Ordered .longest p) (h : Yields p p) :
    Ordered .longest (many p) :=
  ordered_many hp fun _ _ _ hr hr' hahead _ hx _ hx' =>
    Yields.ahead (q := many p) h hr hr' hahead hx hx'

theorem ordered_optional (hp : Ordered .longest p) (hn : ¬ Matches p []) :
    Ordered .longest (Pattern.optional p) := by
  intro s
  have hlast : ∀ r ∈ p.rests .longest s, r.length < s.length := by
    intro r hr
    obtain ⟨m, rfl, hm⟩ := mem_rests_iff.1 hr
    cases m with
    | nil => exact (hn hm).elim
    | cons c m =>
      simp only [List.length_append, List.length_cons]
      omega
  exact pairwise_arrange (hp s) hlast

end Pattern

namespace Lexer

open Pattern

variable {κ : Type} {r : Rule κ}

/-- The match that a backtracking search by the rule comes upon first, and what comes after it. -/
def Rule.firstMatch (r : Rule κ) (s : Text) : Option (Text × Text) :=
  (r.pattern.rests r.reach s).head?.map fun rest => (s.take (s.length - rest.length), rest)

theorem Rule.firstMatch_eq_none_iff {s : Text} :
    r.firstMatch s = none ↔ ∀ m, m <+: s → ¬ r.pattern.Matches m := by
  rw [Rule.firstMatch, Option.map_eq_none_iff, List.head?_eq_none_iff, List.eq_nil_iff_forall_not_mem]
  simp only [mem_rests_iff, not_exists, not_and]
  constructor
  · rintro h m ⟨x, rfl⟩
    exact h x m rfl
  · rintro h x m rfl
    exact h m ⟨x, rfl⟩

theorem Rule.firstMatch_eq_split
    (h : ∀ s x xs, r.pattern.rests r.reach s = x :: xs → ∀ y ∈ xs, ¬ Ahead r.reach y x) (s : Text) :
    r.firstMatch s = r.split s := by
  cases hrests : r.pattern.rests r.reach s with
  | nil =>
    have hnone : r.firstMatch s = none := by rw [Rule.firstMatch, hrests]; rfl
    rw [hnone]
    have hno := Rule.firstMatch_eq_none_iff.1 hnone
    unfold Rule.split
    split
    · exact (longest_eq_none_iff.2 hno).symm
    · exact (shortest_eq_none_iff.2 hno).symm
  | cons x xs =>
    have hx : x ∈ r.pattern.rests r.reach s := by rw [hrests]; exact List.mem_cons_self
    have hfirst : ∀ y ∈ r.pattern.rests r.reach s, ¬ Ahead r.reach y x := by
      rw [hrests, List.forall_mem_cons]
      refine ⟨?_, h s x xs hrests⟩
      cases r.reach <;> exact Nat.lt_irrefl _
    obtain ⟨m, rfl, hm⟩ := mem_rests_iff.1 hx
    have htake : r.firstMatch (m ++ x) = some (m, x) := by
      rw [Rule.firstMatch, hrests]
      simp
    have hothers : ∀ t, t <+: m ++ x → r.pattern.Matches t →
        ∃ y, ¬ Ahead r.reach y x ∧ t.length + y.length = m.length + x.length := by
      rintro t ⟨y, hy⟩ ht
      refine ⟨y, hfirst y (mem_rests_iff.2 ⟨t, hy, ht⟩), ?_⟩
      rw [← List.length_append, hy, List.length_append]
    rw [htake]
    unfold Rule.split
    split
    next hreach =>
      refine (longest_eq_some_iff.2 ⟨rfl, hm, fun t ht hp => ?_⟩).symm
      obtain ⟨y, hle, hlength⟩ := hothers t ht hp
      simp only [hreach, Ahead] at hle
      omega
    next hreach =>
      refine (shortest_eq_some_iff.2 ⟨rfl, hm, fun t ht hp => ?_⟩).symm
      obtain ⟨y, hle, hlength⟩ := hothers t ht hp
      simp only [hreach, Ahead] at hle
      omega

theorem Rule.firstMatch_eq_split_of_ordered (h : Ordered r.reach r.pattern) (s : Text) :
    r.firstMatch s = r.split s := by
  apply Rule.firstMatch_eq_split
  intro s x xs hrests y hy hahead
  have hpairwise := h s
  rw [hrests] at hpairwise
  have hxy := (List.pairwise_cons.1 hpairwise).1 y hy
  revert hahead hxy
  cases r.reach <;> exact fun hyx hxy => Nat.lt_asymm hyx hxy

theorem Rule.firstMatch_eq_split_of_unique
    (h : ∀ m y, r.pattern.Matches m → r.pattern.Matches (m ++ y) → y = []) (s : Text) :
    r.firstMatch s = r.split s := by
  apply Rule.firstMatch_eq_split
  intro s x xs hrests y hy hahead
  obtain ⟨m, rfl, hm⟩ := mem_rests_iff.1 (hrests ▸ List.mem_cons_self : x ∈ r.pattern.rests r.reach s)
  obtain ⟨m', heq, hm'⟩ := mem_rests_iff.1 (hrests ▸ List.mem_cons_of_mem x hy)
  have hsame : m' = m := by
    obtain ⟨z, hz⟩ | ⟨z, hz⟩ := List.prefix_or_prefix_of_prefix ⟨y, heq⟩ (List.prefix_append m x)
    · rw [← hz] at hm
      rw [← hz, h m' z hm' hm, List.append_nil]
    · rw [← hz] at hm'
      rw [← hz, h m z hm hm', List.append_nil]
  rw [hsame] at heq
  rw [List.append_cancel_left heq] at hahead
  revert hahead
  cases r.reach <;> exact Nat.lt_irrefl _

end Lexer

end Stencil
