import Stencil.Tree.Reader

namespace Stencil

theorem Except.map_eq_ok {ε α β : Type} {x : Except ε α} {f : α → β} {b : β} :
    x.map f = .ok b ↔ ∃ a, x = .ok a ∧ f a = b := by
  cases x <;> simp [Except.map]

theorem Except.ite_eq_ok {ε α : Type} {p : Prop} [Decidable p] {e : ε} {a b : α} :
    (if p then .ok a else .error e) = (.ok b : Except ε α) ↔ p ∧ b = a := by
  split
  next hp => simp [hp, eq_comm]
  next hp => simp [hp]

namespace Literal

theorem inside_eq_ok {q : Char} {s body : Text} :
    inside q s = .ok body ↔ s = q :: (body ++ [q]) := by
  cases s with
  | nil => simp [inside]
  | cons c rest =>
    rw [inside]
    constructor
    · intro h
      split at h
      next hc =>
        cases h
        obtain ⟨rfl, hlast⟩ := hc
        obtain ⟨body, rfl⟩ := List.getLast?_eq_some_iff.1 hlast
        rw [List.dropLast_concat]
      · cases h
    · intro h
      obtain ⟨rfl, rfl⟩ := List.cons.inj h
      rw [if_pos ⟨rfl, by simp⟩, List.dropLast_concat]

theorem stringValue_eq_ok {s value : Text} : stringValue s = .ok value ↔
    ∃ body, s = '"' :: (body ++ ['"']) ∧ decode '"' body = .ok value := by
  simp only [stringValue, Reader.bind_eq_ok, inside_eq_ok]

theorem runeValue_eq_ok {s : Text} {c : Char} : runeValue s = .ok c ↔
    ∃ body, s = '\'' :: (body ++ ['\'']) ∧ decode '\'' body = .ok [c] := by
  simp only [runeValue, Reader.bind_eq_ok, inside_eq_ok]
  refine exists_congr fun body => and_congr_right fun _ => ⟨?_, fun h => ⟨[c], h, rfl⟩⟩
  rintro ⟨_ | ⟨d, _ | _⟩, hdecode, hone⟩ <;> cases hone
  exact hdecode

end Literal

namespace Token

theorem toFloat?_eq_ok {s : Text} {v : Variable} : toFloat? s = .ok v ↔
    ∃ d, Decimal.ofPositional? s = some d ∧ (Double.ofDecimal false d).isFinite = true ∧
      v = .float (Double.ofDecimal false d) := by
  unfold toFloat?
  cases Decimal.ofPositional? s with
  | none => simp
  | some d =>
    simp only [Option.some.injEq, exists_eq_left']
    exact Except.ite_eq_ok

theorem toInt?_eq_ok {s : Text} {v : Variable} : toInt? s = .ok v ↔
    ∃ n, Text.numeral? 10 s = some n ∧ n < 2 ^ 63 ∧ v = .int (.ofNat n) := by
  unfold toInt?
  cases Text.numeral? 10 s with
  | none => simp
  | some n =>
    simp only [Option.some.injEq, exists_eq_left']
    exact Except.ite_eq_ok

/-- `Denotes t v`: the token alone stands for the variable. A string and a rune are unescaped, the
rune to one character, an integer fits 64 bits with a sign, and a float is finite. -/
inductive Denotes : Token → Variable → Prop
  | assign (s : Text) : Denotes ⟨.assignment, s⟩ (.assign s)
  | range (s : Text) : Denotes ⟨.range, s⟩ (.range s)
  | ident (s : Text) : Denotes ⟨.ident, s⟩ (.ident s)
  | keyword (s : Text) : Denotes ⟨.keyword, s⟩ (.keyword s)
  | literal (s : Text) : Denotes ⟨.literal, '`' :: (s ++ ['`'])⟩ (.literal s)
  | string {body value : Text} (h : Literal.decode '"' body = .ok value) :
      Denotes ⟨.string, '"' :: (body ++ ['"'])⟩ (.string value)
  | rune {body : Text} {c : Char} (h : Literal.decode '\'' body = .ok [c]) :
      Denotes ⟨.rune, '\'' :: (body ++ ['\''])⟩ (.rune c)
  | float {s : Text} {d : Decimal} (h : Decimal.ofPositional? s = some d)
      (hfinite : (Double.ofDecimal false d).isFinite = true) :
      Denotes ⟨.float, s⟩ (.float (Double.ofDecimal false d))
  | int {s : Text} {n : Nat} (h : Text.numeral? 10 s = some n) (hn : n < 2 ^ 63) :
      Denotes ⟨.int, s⟩ (.int (.ofNat n))
  | space (s : Text) : Denotes ⟨.space, s⟩ (.space s)
  | comment (s : Text) : Denotes ⟨.comment, s⟩ (.comment s)

theorem denotes_iff {t : Token} {v : Variable} :
    t.Denotes v ↔ t.toVariable? = some (.ok v) ∨ (t.kind = .space ∧ v = .space t.text) := by
  constructor
  · intro h
    cases h with
    | literal body =>
      exact .inl (congrArg some (Except.map_eq_ok.2 ⟨body, Literal.inside_eq_ok.2 rfl, rfl⟩))
    | string h =>
      have hvalue := Literal.stringValue_eq_ok.2 ⟨_, rfl, h⟩
      exact .inl (congrArg some (Except.map_eq_ok.2 ⟨_, hvalue, rfl⟩))
    | rune h =>
      have hvalue := Literal.runeValue_eq_ok.2 ⟨_, rfl, h⟩
      exact .inl (congrArg some (Except.map_eq_ok.2 ⟨_, hvalue, rfl⟩))
    | float h hfinite => exact .inl (congrArg some (toFloat?_eq_ok.2 ⟨_, h, hfinite, rfl⟩))
    | int h hn => exact .inl (congrArg some (toInt?_eq_ok.2 ⟨_, h, hn, rfl⟩))
    | space s => exact .inr ⟨rfl, rfl⟩
    | _ => exact .inl rfl
  · obtain ⟨kind, s⟩ := t
    rintro (h | ⟨rfl, rfl⟩)
    · cases kind with
      | literal =>
        obtain ⟨body, hbody, rfl⟩ := Except.map_eq_ok.1 (Option.some.inj h)
        obtain rfl := Literal.inside_eq_ok.1 hbody
        exact .literal body
      | string =>
        obtain ⟨value, hvalue, rfl⟩ := Except.map_eq_ok.1 (Option.some.inj h)
        obtain ⟨body, rfl, hdecode⟩ := Literal.stringValue_eq_ok.1 hvalue
        exact .string hdecode
      | rune =>
        obtain ⟨c, hvalue, rfl⟩ := Except.map_eq_ok.1 (Option.some.inj h)
        obtain ⟨body, rfl, hdecode⟩ := Literal.runeValue_eq_ok.1 hvalue
        exact .rune hdecode
      | float =>
        obtain ⟨d, hd, hfinite, rfl⟩ := toFloat?_eq_ok.1 (Option.some.inj h)
        exact .float hd hfinite
      | int =>
        obtain ⟨n, hn, hlt, rfl⟩ := toInt?_eq_ok.1 (Option.some.inj h)
        exact .int hn hlt
      | assignment | range | ident | keyword | comment =>
        cases h
        constructor
      | _ => cases h
    · exact .space s

theorem denotes_of_toVariable? {t : Token} {v : Variable} (h : t.toVariable? = some (.ok v)) :
    t.Denotes v :=
  denotes_iff.2 (.inl h)

theorem Denotes.kind {t : Token} {v : Variable} (h : t.Denotes v) :
    t.kind.beginsVariable = true ∧ t.kind ≠ .groupOpen ∧
      (t.kind = .space ↔ v.isSpace = true) := by
  cases h <;> exact ⟨rfl, nofun, by simp [Variable.isSpace]⟩

theorem exists_toVariable?_iff {t : Token} : (∃ r, t.toVariable? = some r) ↔
    t.kind.beginsVariable = true ∧ t.kind ≠ .space ∧ t.kind ≠ .groupOpen := by
  obtain ⟨kind, s⟩ := t
  cases kind <;> simp [toVariable?, TokenKind.beginsVariable]

theorem kind_of_toVariable? {t : Token} {r : Except LiteralFault Variable}
    (h : t.toVariable? = some r) :
    t.kind.beginsVariable = true ∧ t.kind ≠ .space ∧ t.kind ≠ .groupOpen :=
  exists_toVariable?_iff.1 ⟨r, h⟩

theorem toVariable?_of_kind {t : Token}
    (h : t.kind.beginsVariable = false ∨ t.kind = .space ∨ t.kind = .groupOpen) :
    t.toVariable? = none := by
  cases hr : t.toVariable? with
  | none => rfl
  | some r =>
    obtain ⟨hb, hs, hg⟩ := kind_of_toVariable? hr
    obtain h | h | h := h
    · rw [h] at hb
      cases hb
    · exact (hs h).elim
    · exact (hg h).elim

theorem isSpace_of_toVariable? {t : Token} {v : Variable} (h : t.toVariable? = some (.ok v)) :
    v.isSpace = false := by
  cases denotes_of_toVariable? h with
  | space => cases h
  | _ => rfl

theorem Denotes.unique {t : Token} {v w : Variable} (hv : t.Denotes v) (hw : t.Denotes w) :
    v = w := by
  obtain hv | ⟨hs, rfl⟩ := denotes_iff.1 hv
  · obtain hw | ⟨hs, -⟩ := denotes_iff.1 hw
    · rw [hv] at hw
      cases hw
      rfl
    · exact ((kind_of_toVariable? hv).2.1 hs).elim
  · obtain hw | ⟨-, rfl⟩ := denotes_iff.1 hw
    · exact ((kind_of_toVariable? hw).2.1 hs).elim
    · rfl

end Token
end Stencil
