import Stencil.Proofs.Scan

namespace Stencil

open Text

def openBraces : List UInt8 := utf8 ['{', '{']

def closeBraces : List UInt8 := utf8 ['}', '}']

/-- An action with the text before and after it, and where its braces open. -/
structure Carve where
  before : Text
  inner : Text
  after : Text
  openAt : Nat
  deriving DecidableEq, Repr

inductive Scan where
  | found (c : Carve)
  | unclosed (openAt : Nat)
  | notFound
  deriving DecidableEq, Repr

def carve (s : Text) : Option Scan :=
  match findUnescaped openBraces s.utf8 0 with
  | none => some .notFound
  | some openAt =>
    match findUnescaped closeBraces s.utf8 (openAt + 2) with
    | none => some (.unclosed openAt)
    | some closeAt => do
      let before ← s.slice? 0 openAt
      let inner ← s.slice? (openAt + 2) closeAt
      let after ← s.slice? (closeAt + 2) s.utf8Length
      return .found ⟨before, inner, after, openAt⟩

namespace Scan

def ofNext : NextAction → Scan
  | .found g after => .found ⟨g.before, g.inner, after, g.before.utf8Length⟩
  | .unclosed before => .unclosed before.utf8Length
  | .absent => .notFound

/-- Whether the first unescaped braces in the bytes of the text say that this is to be found. -/
def Follows (s : Text) : Scan → Prop
  | .notFound => FirstUnescaped openBraces s.utf8 0 none
  | .unclosed openAt =>
    FirstUnescaped openBraces s.utf8 0 (some openAt) ∧
      FirstUnescaped closeBraces s.utf8 (openAt + 2) none
  | .found c =>
    FirstUnescaped openBraces s.utf8 0 (some c.openAt) ∧
      FirstUnescaped closeBraces s.utf8 (c.openAt + 2)
        (some (c.openAt + 2 + c.inner.utf8Length)) ∧
      c.before.utf8Length = c.openAt ∧
      c.before ++ ['{', '{'] ++ c.inner ++ ['}', '}'] ++ c.after = s

end Scan

theorem utf8Length_open : utf8Length ['{', '{'] = 2 := rfl

theorem utf8Length_close : utf8Length ['}', '}'] = 2 := rfl

section Carving

variable {s before rest : Text} {d : Char} {i : Nat} {r : Option Nat}

theorem ascii_of_brace (hd : d ∈ ['{', '}']) : d.toNat < 0x80 ∧ d ≠ '\\' := by
  simp only [List.mem_cons, List.not_mem_nil, or_false] at hd
  obtain rfl | rfl := hd <;> decide

theorem findUnescaped_braces_iff (hd : d ∈ ['{', '}']) :
    findUnescaped (utf8 [d, d]) s.utf8 i = r ↔ FirstUnescaped (utf8 [d, d]) s.utf8 i r := by
  obtain ⟨hlt, hne⟩ := ascii_of_brace hd
  rw [utf8_pair hlt]
  exact findUnescaped_eq_iff (byte_ne_backslash hlt hne)

theorem findUnescaped_braces (hd : d ∈ ['{', '}']) (a : Text) :
    findUnescaped (utf8 [d, d]) (a ++ s).utf8 a.utf8Length =
      (splitUnescaped d s).map fun r => a.utf8Length + r.1.utf8Length := by
  obtain ⟨hlt, hne⟩ := ascii_of_brace hd
  exact findUnescaped_eq_splitUnescaped hlt hne drop_utf8_append

theorem isBoundary_of_findUnescaped (hd : d ∈ ['{', '}']) (hs : s.IsBoundary i) {j : Nat}
    (h : findUnescaped (utf8 [d, d]) s.utf8 i = some j) : s.IsBoundary j := by
  obtain ⟨a, t, rfl, rfl⟩ := hs
  rw [findUnescaped_braces hd, Option.map_eq_some_iff] at h
  obtain ⟨⟨x, y⟩, hxy, rfl⟩ := h
  refine ⟨a ++ x, d :: d :: y, ?_, utf8Length_append a x⟩
  rw [← append_of_splitUnescaped hxy, List.append_assoc]

theorem findUnescaped_open (s : Text) : findUnescaped openBraces s.utf8 0 =
    (splitUnescaped '{' s).map fun r => r.1.utf8Length := by
  have h := findUnescaped_braces (s := s) (d := '{') (by decide) []
  simpa only [openBraces, List.nil_append, utf8Length_nil, Nat.zero_add] using h

theorem findUnescaped_close (h : s = before ++ '{' :: '{' :: rest) :
    findUnescaped closeBraces s.utf8 (before.utf8Length + 2) =
      (splitUnescaped '}' rest).map fun r => before.utf8Length + 2 + r.1.utf8Length := by
  have hlength : (before ++ ['{', '{']).utf8Length = before.utf8Length + 2 := by
    rw [utf8Length_append, utf8Length_open]
  have hs : s = before ++ ['{', '{'] ++ rest := by
    rw [h, List.append_assoc]
    rfl
  rw [hs, ← hlength]
  exact findUnescaped_braces (by decide) _

theorem slices_of_braces {before inner after : Text}
    (h : before ++ ['{', '{'] ++ inner ++ ['}', '}'] ++ after = s) :
    s.slice? 0 before.utf8Length = some before ∧
    s.slice? (before.utf8Length + 2) (before.utf8Length + 2 + inner.utf8Length) = some inner ∧
    s.slice? (before.utf8Length + 2 + inner.utf8Length + 2) s.utf8Length = some after := by
  subst h
  simp only [slice?_eq_some_iff]
  refine ⟨⟨[], ['{', '{'] ++ inner ++ ['}', '}'] ++ after, ?_, rfl, rfl⟩,
    ⟨before ++ ['{', '{'], ['}', '}'] ++ after, ?_, ?_, ?_⟩,
    ⟨before ++ ['{', '{'] ++ inner ++ ['}', '}'], [], ?_, ?_, rfl⟩⟩
  · simp only [List.nil_append, List.append_assoc]
  · simp only [List.append_assoc]
  · rw [utf8Length_append, utf8Length_open]
  · rw [utf8Length_append, utf8Length_append, utf8Length_open]
  · rw [List.append_nil]
  · simp only [utf8Length_append, utf8Length_open, utf8Length_close]

/-- Carving by offsets has a result, and it is that of the search among the characters. -/
theorem carve_spec (s : Text) :
    carve s = some (.ofNext (nextAction s)) ∧ (Scan.ofNext (nextAction s)).Follows s := by
  have hopen := findUnescaped_open s
  have hfirst : ∀ {r}, findUnescaped openBraces s.utf8 0 = r →
      FirstUnescaped openBraces s.utf8 0 r := (findUnescaped_braces_iff (by decide)).1
  have hsecond : ∀ {i r}, findUnescaped closeBraces s.utf8 i = r →
      FirstUnescaped closeBraces s.utf8 i r := (findUnescaped_braces_iff (by decide)).1
  cases hs : splitUnescaped '{' s with
  | none =>
    rw [hs] at hopen
    rw [carve, hopen, nextAction, hs]
    exact ⟨rfl, hfirst hopen⟩
  | some r =>
    obtain ⟨before, rest⟩ := r
    rw [hs] at hopen
    have htext := (append_of_splitUnescaped hs).symm
    have hclose := findUnescaped_close htext
    cases hr : splitUnescaped '}' rest with
    | none =>
      rw [hr] at hclose
      simp only [carve, hopen, Option.map_some, hclose, Option.map_none, nextAction, hs, hr]
      exact ⟨rfl, hfirst hopen, hsecond hclose⟩
    | some r =>
      obtain ⟨inner, after⟩ := r
      rw [hr] at hclose
      have hbraces : before ++ ['{', '{'] ++ inner ++ ['}', '}'] ++ after = s := by
        rw [htext, ← append_of_splitUnescaped hr]
        simp only [List.append_assoc]
        rfl
      obtain ⟨hbefore, hinner, hafter⟩ := slices_of_braces hbraces
      simp only [carve, hopen, Option.map_some, hclose, nextAction, hs, hr, hbefore, hinner, hafter]
      exact ⟨rfl, hfirst hopen, hsecond hclose, rfl, hbraces⟩

end Carving

end Stencil
