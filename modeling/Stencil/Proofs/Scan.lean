import Mathlib.Order.Bounds.Basic
import Stencil.Proofs.Unescaped
import Stencil.Proofs.Utf8

namespace Stencil

def backslash : UInt8 := 0x5c

def findUnescaped (needle bytes : List UInt8) (i : Nat) : Option Nat :=
  if i < bytes.length then
    if (bytes.drop i).head? = some backslash then findUnescaped needle bytes (i + 2)
    else if needle.isPrefixOf (bytes.drop i) then some i
    else findUnescaped needle bytes (i + 1)
  else none
termination_by bytes.length - i

/-- Whether the needle stands at `i` after an even number of backslashes, none of them before
`start`. -/
def UnescapedAt (needle bytes : List UInt8) (start i : Nat) : Prop :=
  start ≤ i ∧ needle <+: bytes.drop i ∧ trailing backslash (bytes.extract start i) % 2 = 0

/-- What the first place of the needle from `start` on is, or that there is none. -/
def FirstUnescaped (needle bytes : List UInt8) (start : Nat) : Option Nat → Prop
  | none => ∀ i, ¬ UnescapedAt needle bytes start i
  | some i => IsLeast {i | UnescapedAt needle bytes start i} i

theorem FirstUnescaped.unique {needle bytes : List UInt8} {start : Nat} {r r' : Option Nat}
    (h : FirstUnescaped needle bytes start r) (h' : FirstUnescaped needle bytes start r') :
    r = r' := by
  cases r with
  | none =>
    cases r' with
    | none => rfl
    | some i => exact (h i h'.1).elim
  | some i =>
    cases r' with
    | none => exact (h' i h.1).elim
    | some j => rw [IsLeast.unique h h']

section Law

variable {x : UInt8} {needle bytes : List UInt8} {i j : Nat}

theorem lt_of_prefix_drop (h : x :: needle <+: bytes.drop i) : i < bytes.length := by
  have := h.length_le
  rw [List.length_cons, List.length_drop] at this
  omega

theorem head?_of_prefix_drop (h : x :: needle <+: bytes.drop i) :
    (bytes.drop i).head? = some x := by
  obtain ⟨rest, hrest⟩ := h
  rw [← hrest]
  rfl

theorem head?_drop_eq_some_iff (hi : i < bytes.length) :
    (bytes.drop i).head? = some x ↔ bytes[i] = x := by
  rw [List.head?_drop, List.getElem?_eq_getElem hi, Option.some.injEq]

theorem extract_cons (hlt : i < j) (hi : i < bytes.length) :
    bytes.extract i j = bytes[i] :: bytes.extract (i + 1) j := by
  have hcount : j - i = j - (i + 1) + 1 := by omega
  rw [List.extract_eq_take_drop, List.drop_eq_getElem_cons hi, hcount, List.take_succ_cons,
    ← List.extract_eq_take_drop]

theorem trailing_extract_escape (h : (bytes.drop i).head? = some backslash) (hij : i + 2 ≤ j)
    (hj : j < bytes.length) : trailing backslash (bytes.extract i j) % 2 =
      trailing backslash (bytes.extract (i + 2) j) % 2 := by
  have hi : i < bytes.length := by omega
  rw [extract_cons (by omega) hi, (head?_drop_eq_some_iff hi).1 h,
    extract_cons (by omega) (by omega), trailing_cons_cons]

theorem trailing_extract_next (h : (bytes.drop i).head? ≠ some backslash) (hij : i < j)
    (hj : j < bytes.length) : trailing backslash (bytes.extract i j) =
      trailing backslash (bytes.extract (i + 1) j) := by
  have hi : i < bytes.length := by omega
  rw [Ne, head?_drop_eq_some_iff hi] at h
  rw [extract_cons hij hi, trailing_cons_of_ne h]

theorem unescapedAt_escape (hx : x ≠ backslash) (h : (bytes.drop i).head? = some backslash) :
    UnescapedAt (x :: needle) bytes i j ↔ UnescapedAt (x :: needle) bytes (i + 2) j := by
  constructor
  · rintro ⟨hle, hneedle, heven⟩
    have hj := lt_of_prefix_drop hneedle
    have hfirst : i ≠ j := by
      rintro rfl
      rw [head?_of_prefix_drop hneedle] at h
      exact hx (Option.some.inj h)
    -- right after the backslash there is one before the needle, and none before that counts
    have hsecond : i + 1 ≠ j := by
      rintro rfl
      have hi : i < bytes.length := by omega
      rw [extract_cons (Nat.lt_succ_self i) hi, (head?_drop_eq_some_iff hi).1 h,
        List.extract_eq_take_drop, Nat.sub_self] at heven
      cases heven
    have hij : i + 2 ≤ j := by omega
    rw [trailing_extract_escape h hij hj] at heven
    exact ⟨hij, hneedle, heven⟩
  · rintro ⟨hle, hneedle, heven⟩
    rw [← trailing_extract_escape h hle (lt_of_prefix_drop hneedle)] at heven
    exact ⟨by omega, hneedle, heven⟩

theorem unescapedAt_next (h : (bytes.drop i).head? ≠ some backslash)
    (hi : ¬ x :: needle <+: bytes.drop i) :
    UnescapedAt (x :: needle) bytes i j ↔ UnescapedAt (x :: needle) bytes (i + 1) j := by
  constructor
  · rintro ⟨hle, hneedle, heven⟩
    have hne : i ≠ j := by
      rintro rfl
      exact hi hneedle
    have hij : i < j := by omega
    rw [trailing_extract_next h hij (lt_of_prefix_drop hneedle)] at heven
    exact ⟨hij, hneedle, heven⟩
  · rintro ⟨hle, hneedle, heven⟩
    rw [← trailing_extract_next h hle (lt_of_prefix_drop hneedle)] at heven
    exact ⟨by omega, hneedle, heven⟩

theorem firstUnescaped_congr {k : Nat} {r : Option Nat} (h : ∀ j, UnescapedAt needle bytes i j ↔
    UnescapedAt needle bytes k j) : FirstUnescaped needle bytes i r ↔
      FirstUnescaped needle bytes k r := by
  cases r <;> simp only [FirstUnescaped, h]

theorem firstUnescaped_self (h : needle <+: bytes.drop i) :
    FirstUnescaped needle bytes i (some i) := by
  refine ⟨⟨Nat.le_refl i, h, ?_⟩, fun j hj => hj.1⟩
  rw [List.extract_eq_take_drop, Nat.sub_self]
  rfl

theorem firstUnescaped_findUnescaped (hx : x ≠ backslash) :
    FirstUnescaped (x :: needle) bytes i (findUnescaped (x :: needle) bytes i) := by
  fun_induction findUnescaped (x :: needle) bytes i with
  | case1 i _ hb ih => exact (firstUnescaped_congr fun _ => unescapedAt_escape hx hb).2 ih
  | case2 i _ _ hneedle => exact firstUnescaped_self (List.isPrefixOf_iff_prefix.1 hneedle)
  | case3 i _ hb hneedle ih =>
    rw [List.isPrefixOf_iff_prefix] at hneedle
    exact (firstUnescaped_congr fun _ => unescapedAt_next hb hneedle).2 ih
  | case4 i hi =>
    rintro j ⟨hle, hneedle, -⟩
    exact hi (Nat.lt_of_le_of_lt hle (lt_of_prefix_drop hneedle))

/-- What the search finds is the first place that is not escaped. -/
theorem findUnescaped_eq_iff (hx : x ≠ backslash) {r : Option Nat} :
    findUnescaped (x :: needle) bytes i = r ↔ FirstUnescaped (x :: needle) bytes i r := by
  constructor
  · rintro rfl
    exact firstUnescaped_findUnescaped hx
  · exact (firstUnescaped_findUnescaped hx).unique

end Law

section Characters

open Text

variable {x y : UInt8} {needle bytes rest w : List UInt8} {i : Nat} {c d : Char} {s t : Text}

theorem findUnescaped_of_drop_nil (h : bytes.drop i = []) :
    findUnescaped needle bytes i = none := by
  rw [List.drop_eq_nil_iff] at h
  rw [findUnescaped, if_neg (Nat.not_lt.2 h)]

theorem lt_of_drop_cons (h : bytes.drop i = y :: rest) : i < bytes.length := by
  have hne : bytes.drop i ≠ [] := by
    rw [h]
    nofun
  rwa [Ne, List.drop_eq_nil_iff, Nat.not_le] at hne

theorem drop_add_of_append (h : bytes.drop i = w ++ rest) : bytes.drop (i + w.length) = rest := by
  rw [← List.drop_drop, h, List.drop_left]

theorem findUnescaped_of_drop_backslash (h : bytes.drop i = backslash :: rest) :
    findUnescaped needle bytes i = findUnescaped needle bytes (i + 2) := by
  rw [findUnescaped, if_pos (lt_of_drop_cons h), h, List.head?_cons, if_pos rfl]

theorem findUnescaped_of_drop_needle (hx : x ≠ backslash)
    (h : bytes.drop i = x :: (needle ++ rest)) :
    findUnescaped (x :: needle) bytes i = some i := by
  have hneedle : (x :: needle).isPrefixOf (bytes.drop i) = true := by
    rw [h, List.isPrefixOf_iff_prefix]
    exact List.prefix_append (x :: needle) rest
  have hhead : (bytes.drop i).head? ≠ some backslash := by
    rw [h]
    exact fun heq => hx (Option.some.inj heq)
  rw [findUnescaped, if_pos (lt_of_drop_cons h), if_neg hhead, if_pos hneedle]

theorem findUnescaped_of_drop_cons (hy : y ≠ backslash) (hneedle : ¬ needle <+: y :: rest)
    (h : bytes.drop i = y :: rest) :
    findUnescaped needle bytes i = findUnescaped needle bytes (i + 1) := by
  have hhead : (bytes.drop i).head? ≠ some backslash := by
    rw [h]
    exact fun heq => hy (Option.some.inj heq)
  rw [← h, ← List.isPrefixOf_iff_prefix] at hneedle
  rw [findUnescaped, if_pos (lt_of_drop_cons h), if_neg hhead, if_neg hneedle]

theorem findUnescaped_of_drop_wide (hx : x.toNat < 0x80) (hw : ∀ y ∈ w, 0x80 ≤ y.toNat)
    (h : bytes.drop i = w ++ rest) : findUnescaped (x :: needle) bytes i =
      findUnescaped (x :: needle) bytes (i + w.length) := by
  induction w generalizing i with
  | nil => rfl
  | cons y w ih =>
    obtain ⟨hy, hw⟩ := List.forall_mem_cons.1 hw
    have hbackslash : y ≠ backslash := by
      rintro rfl
      cases Nat.not_lt.2 hy (by decide)
    have hneedle : ¬ x :: needle <+: y :: (w ++ rest) := by
      rw [List.cons_prefix_cons]
      rintro ⟨rfl, -⟩
      exact Nat.not_lt.2 hy hx
    have hrest : bytes.drop (i + 1) = w ++ rest := drop_add_of_append (w := [y]) h
    rw [findUnescaped_of_drop_cons hbackslash hneedle h, ih hw hrest, List.length_cons,
      Nat.add_assoc, Nat.add_comm 1]

theorem byte_ne_backslash (h : c.toNat < 0x80) (hc : c ≠ '\\') :
    UInt8.ofNat c.toNat ≠ backslash := by
  intro hbyte
  have htoNat := congrArg UInt8.toNat hbyte
  rw [toNat_byte h] at htoNat
  exact hc (Char.toNat_inj.1 htoNat)

theorem findUnescaped_of_drop_char (hx : x.toNat < 0x80) (hc : c ≠ '\\')
    (hneedle : ¬ x :: needle <+: utf8 (c :: s)) (h : bytes.drop i = utf8 (c :: s)) :
    findUnescaped (x :: needle) bytes i = findUnescaped (x :: needle) bytes (i + c.utf8Size) := by
  rw [← String.length_utf8EncodeChar]
  by_cases hascii : c.toNat < 0x80
  · rw [utf8_cons, utf8EncodeChar_ascii hascii] at h hneedle
    rw [utf8EncodeChar_ascii hascii]
    exact findUnescaped_of_drop_cons (byte_ne_backslash hascii hc) hneedle h
  · rw [utf8_cons] at h
    exact findUnescaped_of_drop_wide hx (le_of_mem_utf8EncodeChar (Nat.le_of_not_lt hascii)) h

theorem utf8_pair (hd : d.toNat < 0x80) :
    utf8 [d, d] = [UInt8.ofNat d.toNat, UInt8.ofNat d.toNat] := by
  simp only [utf8_cons, utf8EncodeChar_ascii hd]
  rfl

theorem eq_of_pair_prefix (hd : d.toNat < 0x80) (h : utf8 [d, d] <+: utf8 s) :
    ∃ t, s = d :: d :: t := by
  obtain ⟨rest, hrest⟩ := h
  rw [utf8_pair hd] at hrest
  obtain _ | ⟨a, _ | ⟨b, t⟩⟩ := s
  · cases hrest
  · obtain ⟨-, hnil⟩ := utf8_cons_eq_cons hd hrest.symm
    cases hnil
  · obtain ⟨rfl, hsecond⟩ := utf8_cons_eq_cons hd hrest.symm
    obtain ⟨rfl, -⟩ := utf8_cons_eq_cons hd hsecond
    exact ⟨t, rfl⟩

theorem findUnescaped_of_drop_pair (hd : d.toNat < 0x80) (hne : d ≠ '\\')
    (h : bytes.drop i = utf8 (d :: d :: s)) : findUnescaped (utf8 [d, d]) bytes i = some i := by
  have hcons : utf8 (d :: d :: s) = utf8 [d, d] ++ utf8 s := utf8_append (s := [d, d])
  rw [hcons, utf8_pair hd] at h
  rw [utf8_pair hd]
  exact findUnescaped_of_drop_needle (byte_ne_backslash hd hne) h

theorem findUnescaped_of_drop_other (hd : d.toNat < 0x80) (hc : c ≠ '\\')
    (hpair : ∀ t, c :: s ≠ d :: d :: t) (h : bytes.drop i = utf8 (c :: s)) :
    findUnescaped (utf8 [d, d]) bytes i =
      findUnescaped (utf8 [d, d]) bytes (i + c.utf8Size) := by
  have hneedle : ¬ utf8 [d, d] <+: utf8 (c :: s) := by
    intro hprefix
    obtain ⟨t, ht⟩ := eq_of_pair_prefix hd hprefix
    exact hpair t ht
  rw [utf8_pair hd] at hneedle ⊢
  exact findUnescaped_of_drop_char (by rwa [toNat_byte hd]) hc hneedle h

theorem findUnescaped_of_drop_escape (hd : d.toNat < 0x80)
    (h : bytes.drop i = utf8 ('\\' :: c :: s)) : findUnescaped (utf8 [d, d]) bytes i =
      findUnescaped (utf8 [d, d]) bytes (i + utf8Length ['\\', c]) := by
  obtain ⟨y, ys, hbytes, hwide⟩ := exists_utf8EncodeChar c
  have hcons : utf8 ('\\' :: c :: s) = backslash :: y :: (ys ++ utf8 s) := by
    rw [utf8_cons, utf8_cons, hbytes]
    rfl
  have hlength : utf8Length ['\\', c] = 2 + ys.length := by
    have hsize := String.length_utf8EncodeChar c
    rw [hbytes, List.length_cons] at hsize
    have hone : '\\'.utf8Size = 1 := rfl
    rw [utf8Length, utf8Length, utf8Length, hone, ← hsize]
    omega
  rw [hcons] at h
  have hrest : bytes.drop (i + 2) = ys ++ utf8 s := drop_add_of_append (w := [backslash, y]) h
  rw [findUnescaped_of_drop_backslash h, utf8_pair hd,
    findUnescaped_of_drop_wide (by rwa [toNat_byte hd]) hwide hrest, hlength, Nat.add_assoc]

theorem drop_of_drop_append (h : bytes.drop i = utf8 (t ++ s)) :
    bytes.drop (i + t.utf8Length) = utf8 s := by
  rw [utf8_append] at h
  rw [← length_utf8]
  exact drop_add_of_append h

theorem map_add_offset (r : Option (Text × Text)) :
    r.map (fun r => i + t.utf8Length + r.1.utf8Length) =
      (r.map (·.map (t ++ ·) id)).map fun r => i + r.1.utf8Length := by
  cases r with
  | none => rfl
  | some r => simp only [Option.map_some, Prod.map_fst, utf8Length_append, Nat.add_assoc]

/-- Among the bytes the search finds what it finds among the characters. -/
theorem findUnescaped_eq_splitUnescaped (hd : d.toNat < 0x80) (hne : d ≠ '\\')
    (h : bytes.drop i = utf8 s) : findUnescaped (utf8 [d, d]) bytes i =
      (splitUnescaped d s).map fun r => i + r.1.utf8Length := by
  fun_induction splitUnescaped d s generalizing i with
  | case1 => exact findUnescaped_of_drop_nil h
  | case2 c =>
    have hend : bytes.drop (i + utf8Length [c]) = [] := drop_of_drop_append (s := []) h
    by_cases hc : c = '\\'
    · subst hc
      have hskip : bytes.drop (i + 2) = [] := by
        rw [List.drop_eq_nil_iff] at hend ⊢
        exact Nat.le_succ_of_le hend
      rw [findUnescaped_of_drop_backslash h, findUnescaped_of_drop_nil hskip]
      rfl
    · have hother : ∀ t, [c] ≠ d :: d :: t := by
        intro t ht
        cases ht
      rw [findUnescaped_of_drop_other hd hc hother h]
      exact findUnescaped_of_drop_nil hend
  | case3 b s ih =>
    rw [findUnescaped_of_drop_escape hd h, ih (drop_of_drop_append (t := ['\\', b]) h),
      map_add_offset]
    rfl
  | case4 a b s _ hpair =>
    obtain ⟨rfl, rfl⟩ := hpair
    exact findUnescaped_of_drop_pair hd hne h
  | case5 a b s hb hpair ih =>
    have hother : ∀ t, a :: b :: s ≠ d :: d :: t := by
      intro t ht
      cases ht
      exact hpair ⟨rfl, rfl⟩
    rw [findUnescaped_of_drop_other hd hb hother h]
    exact (ih (drop_of_drop_append (t := [a]) h)).trans (map_add_offset (t := [a]) _)

end Characters

end Stencil
