import Stencil.Text

namespace Stencil.Text

def utf8 (s : Text) : List UInt8 := s.flatMap String.utf8EncodeChar

/-- Whether the offset is that of a character of the text or of its end. -/
def IsBoundary (s : Text) (i : Nat) : Prop := ∃ a b, s = a ++ b ∧ a.utf8Length = i

/-- The text before an offset and the text after it. There is no cut inside a character. -/
def cut? : Text → Nat → Option (Text × Text)
  | s, 0 => some ([], s)
  | [], _ + 1 => none
  | c :: s, n + 1 =>
    if c.utf8Size ≤ n + 1 then (cut? s (n + 1 - c.utf8Size)).map (·.map (c :: ·) id) else none

def slice? (s : Text) (i j : Nat) : Option Text :=
  if i ≤ j then do
    let (_, rest) ← s.cut? i
    let (w, _) ← rest.cut? (j - i)
    return w
  else none

variable {a b s t w : Text} {c d : Char} {i j : Nat}

theorem utf8_cons : utf8 (c :: s) = String.utf8EncodeChar c ++ utf8 s := List.flatMap_cons

theorem utf8_append : utf8 (s ++ t) = utf8 s ++ utf8 t := List.flatMap_append

@[simp] theorem length_utf8 : (utf8 s).length = s.utf8Length := by
  induction s with
  | nil => rfl
  | cons c s ih => rw [utf8_cons, List.length_append, String.length_utf8EncodeChar, ih, utf8Length]

theorem drop_utf8_append : (utf8 (a ++ b)).drop a.utf8Length = utf8 b := by
  rw [utf8_append, ← length_utf8, List.drop_left]

theorem cut?_eq_some_iff : s.cut? i = some (a, b) ↔ s = a ++ b ∧ a.utf8Length = i := by
  fun_induction cut? s i generalizing a with
  | case1 s =>
    rw [Option.some.injEq, Prod.mk.injEq]
    constructor
    · rintro ⟨rfl, rfl⟩
      exact ⟨rfl, rfl⟩
    · rintro ⟨rfl, h⟩
      cases a with
      | nil => exact ⟨rfl, rfl⟩
      | cons c a =>
        have := c.utf8Size_pos
        rw [utf8Length] at h
        omega
  | case2 n =>
    constructor
    · intro h
      cases h
    · rintro ⟨h, hlength⟩
      obtain ⟨rfl, rfl⟩ := List.append_eq_nil_iff.1 h.symm
      cases hlength
  | case3 c s n hle ih =>
    simp only [Option.map_eq_some_iff, Prod.exists, Prod.map, id_eq, Prod.mk.injEq]
    constructor
    · rintro ⟨x, y, hxy, rfl, rfl⟩
      obtain ⟨rfl, hx⟩ := ih.1 hxy
      refine ⟨rfl, ?_⟩
      rw [utf8Length, hx]
      omega
    · rintro ⟨hs, hlength⟩
      cases a with
      | nil => cases hlength
      | cons e a =>
        obtain ⟨rfl, rfl⟩ := List.cons.inj hs
        rw [utf8Length] at hlength
        exact ⟨a, b, ih.2 ⟨rfl, by omega⟩, rfl, rfl⟩
  | case4 c s n hlt =>
    constructor
    · intro h
      cases h
    · rintro ⟨hs, hlength⟩
      cases a with
      | nil => cases hlength
      | cons e a =>
        obtain ⟨rfl, rfl⟩ := List.cons.inj hs
        rw [utf8Length] at hlength
        omega

theorem slice?_eq_some_iff : s.slice? i j = some w ↔
    ∃ a b, s = a ++ w ++ b ∧ a.utf8Length = i ∧ (a ++ w).utf8Length = j := by
  simp only [slice?, Option.ite_none_right_eq_some, Option.bind_eq_bind, Option.bind_eq_some_iff,
    Prod.exists, cut?_eq_some_iff, Option.pure_def, Option.some.injEq, utf8Length_append]
  constructor
  · rintro ⟨hle, a, _, ⟨rfl, ha⟩, w, b, ⟨rfl, hw⟩, rfl⟩
    exact ⟨a, b, (List.append_assoc ..).symm, ha, by omega⟩
  · rintro ⟨a, b, rfl, rfl, rfl⟩
    exact ⟨Nat.le_add_right _ _, a, w ++ b, ⟨List.append_assoc .., rfl⟩, w, b,
      ⟨rfl, by omega⟩, rfl⟩

theorem slice?_append (a w b : Text) :
    (a ++ w ++ b).slice? a.utf8Length (a ++ w).utf8Length = some w :=
  slice?_eq_some_iff.2 ⟨a, b, rfl, rfl, rfl⟩

/-- Only offsets in range and between characters have a slice from the one to the other. -/
theorem exists_slice?_iff : (∃ w, s.slice? i j = some w) ↔
    i ≤ j ∧ s.IsBoundary i ∧ s.IsBoundary j := by
  simp only [slice?_eq_some_iff]
  constructor
  · rintro ⟨w, a, b, rfl, rfl, rfl⟩
    rw [utf8Length_append]
    exact ⟨Nat.le_add_right _ _, ⟨a, w ++ b, List.append_assoc .., rfl⟩,
      ⟨a ++ w, b, rfl, utf8Length_append a w⟩⟩
  · rintro ⟨hle, ⟨a, b, rfl, rfl⟩, ⟨x, y, hxy, rfl⟩⟩
    obtain ⟨w, rfl, rfl⟩ | ⟨w, rfl, rfl⟩ := List.append_eq_append_iff.1 hxy
    · exact ⟨w, a, y, (List.append_assoc ..).symm, rfl, rfl⟩
    · refine ⟨[], x ++ w, b, by simp, rfl, ?_⟩
      rw [utf8Length_append] at hle
      rw [List.append_nil, utf8Length_append]
      omega

theorem utf8EncodeChar_ascii (h : c.toNat < 0x80) :
    String.utf8EncodeChar c = [UInt8.ofNat c.toNat] := by
  have hle : c.val.toNat ≤ 127 := Nat.le_of_lt_succ h
  simp only [String.utf8EncodeChar, if_pos hle]
  rfl

theorem le_of_mem_utf8EncodeChar (h : 0x80 ≤ c.toNat) :
    ∀ x ∈ String.utf8EncodeChar c, 0x80 ≤ x.toNat := by
  have hhigh : ∀ n, 0x80 ≤ n → n < 0x100 → 0x80 ≤ (UInt8.ofNat n).toNat := by
    intro n hn hlt
    rwa [UInt8.toNat_ofNat_of_lt' hlt]
  have hnot : ¬ c.val.toNat ≤ 127 := Nat.not_le.2 h
  intro x hx
  simp only [String.utf8EncodeChar, if_neg hnot] at hx
  split at hx
  · simp only [List.mem_cons, List.not_mem_nil, or_false] at hx
    obtain rfl | rfl := hx <;> exact hhigh _ (by omega) (by omega)
  · split at hx
    · simp only [List.mem_cons, List.not_mem_nil, or_false] at hx
      obtain rfl | rfl | rfl := hx <;> exact hhigh _ (by omega) (by omega)
    · simp only [List.mem_cons, List.not_mem_nil, or_false] at hx
      obtain rfl | rfl | rfl | rfl := hx <;> exact hhigh _ (by omega) (by omega)

theorem exists_utf8EncodeChar (c : Char) :
    ∃ x xs, String.utf8EncodeChar c = x :: xs ∧ ∀ y ∈ xs, 0x80 ≤ y.toNat := by
  by_cases hc : c.toNat < 0x80
  · exact ⟨_, [], utf8EncodeChar_ascii hc, nofun⟩
  · have hlength : 0 < (String.utf8EncodeChar c).length := by
      rw [String.length_utf8EncodeChar]
      exact c.utf8Size_pos
    obtain ⟨x, xs, hbytes⟩ := List.exists_cons_of_length_pos hlength
    refine ⟨x, xs, hbytes, fun y hy => le_of_mem_utf8EncodeChar (Nat.le_of_not_lt hc) y ?_⟩
    rw [hbytes]
    exact List.mem_cons_of_mem x hy

theorem toNat_byte (h : c.toNat < 0x80) : (UInt8.ofNat c.toNat).toNat = c.toNat :=
  UInt8.toNat_ofNat_of_lt' (Nat.lt_trans h (by decide))

theorem utf8_cons_eq_cons {bytes : List UInt8} (hd : d.toNat < 0x80)
    (h : utf8 (c :: s) = UInt8.ofNat d.toNat :: bytes) : c = d ∧ utf8 s = bytes := by
  rw [utf8_cons] at h
  by_cases hc : c.toNat < 0x80
  · rw [utf8EncodeChar_ascii hc] at h
    obtain ⟨hbyte, hs⟩ := List.cons.inj h
    have htoNat := congrArg UInt8.toNat hbyte
    rw [toNat_byte hc, toNat_byte hd] at htoNat
    exact ⟨Char.toNat_inj.1 htoNat, hs⟩
  · obtain ⟨x, xs, hbytes, -⟩ := exists_utf8EncodeChar c
    have hwide : 0x80 ≤ x.toNat := by
      apply le_of_mem_utf8EncodeChar (Nat.le_of_not_lt hc)
      rw [hbytes]
      exact List.mem_cons_self
    rw [hbytes] at h
    rw [(List.cons.inj h).1, toNat_byte hd] at hwide
    exact (Nat.not_lt.2 hwide hd).elim

end Stencil.Text
