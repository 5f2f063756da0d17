import Stencil.Json.Number
import Stencil.Json.Reader
import Stencil.Proofs.Numerals
import Stencil.Proofs.Quoting

namespace Stencil.Json

open Text Pattern

section Strings

theorem readEscape_letter {c letter : Char} (h : (c, letter) ∈ letterEscapes) (s : Text) :
    readEscape (letter :: s) = some (c, s) := by
  simp only [letterEscapes, List.mem_cons, List.not_mem_nil, or_false, Prod.mk.injEq] at h
  obtain ⟨rfl, rfl⟩ | ⟨rfl, rfl⟩ | ⟨rfl, rfl⟩ | ⟨rfl, rfl⟩ | ⟨rfl, rfl⟩ | ⟨rfl, rfl⟩ | ⟨rfl, rfl⟩ := h
  all_goals rfl

theorem readEscape_control {c : Char} (h : c.toNat < 0x20) (s : Text) :
    readEscape ('u' :: (paddedHex 4 c.toNat ++ s)) = some (c, s) := by
  have hdigits : readDigits 16 4 (paddedHex 4 c.toNat ++ s) = some (c.toNat, s) :=
    readDigits_append (readDigits_paddedHex_four c.toNat (by omega)) s
  have hsurrogate : ¬ (0xd800 ≤ c.toNat ∧ c.toNat < 0xdc00) := by omega
  have hvalid : c.toNat.isValidChar := c.valid
  simp only [readEscape, readUnit, hdigits, Option.bind_eq_bind, Option.bind_some,
    if_neg hsurrogate, if_pos hvalid, Char.ofNat_toNat, Option.pure_def]

theorem decode?_backslash {v : Char} {s rest : Text} (h : readEscape s = some (v, rest)) :
    decode? ('\\' :: s) = (decode? rest).map (v :: ·) := by
  rw [decode?, if_pos rfl]
  split
  next hnone =>
    rw [h] at hnone
    cases hnone
  next w rest' hsome =>
    rw [h] at hsome
    cases hsome
    rfl

theorem decode?_plain {c : Char} (hc : c ≠ '\\') (s : Text) :
    decode? (c :: s) = (decode? s).map (c :: ·) := by
  rw [decode?, if_neg hc]

theorem escape_spec (c : Char) :
    (∃ letter, (c, letter) ∈ letterEscapes ∧ escape c = ['\\', letter]) ∨
      (c.toNat < 0x20 ∧ escape c = '\\' :: 'u' :: paddedHex 4 c.toNat) ∨
      (0x20 ≤ c.toNat ∧ c ≠ '"' ∧ c ≠ '\\' ∧ escape c = [c]) := by
  unfold escape
  split
  next letter h =>
    obtain ⟨before, after, heq, -⟩ := List.lookup_eq_some_iff.1 h
    refine .inl ⟨letter, ?_, rfl⟩
    rw [heq]
    simp
  next h =>
    split
    next hc => exact .inr (.inl ⟨hc, rfl⟩)
    next hc =>
      refine .inr (.inr ⟨Nat.le_of_not_lt hc, ?_, ?_, rfl⟩)
      all_goals
        rintro rfl
        cases h

theorem decode?_escape_append (c : Char) (s : Text) :
    decode? (escape c ++ s) = (decode? s).map (c :: ·) := by
  obtain ⟨letter, hmem, heq⟩ | ⟨hc, heq⟩ | ⟨-, -, hc, heq⟩ := escape_spec c
  · rw [heq]
    exact decode?_backslash (readEscape_letter hmem s)
  · rw [heq]
    exact decode?_backslash (readEscape_control hc s)
  · rw [heq]
    exact decode?_plain hc s

@[simp] theorem text?_ofText (s : Text) : (ofText s).text? = some s := by
  change decode? (s.flatMap escape) = some s
  induction s with
  | nil => rw [List.flatMap_nil, decode?]
  | cons c s ih => rw [List.flatMap_cons, decode?_escape_append, ih, Option.map_some]

@[simp] theorem char?_ofText (c : Char) : (ofText [c]).char? = some c := by
  rw [char?, text?_ofText]

theorem hexDigits_paddedHex : ∀ n < 0x20, ∃ a b c d, paddedHex 4 n = [a, b, c, d] ∧
    ∀ x ∈ [a, b, c, d], (digitValue? 16 x).isSome = true := by
  have hall : ∀ n < 0x20, (paddedHex 4 n).length = 4 ∧
      (paddedHex 4 n).all (fun x => (digitValue? 16 x).isSome) = true := by
    decide +kernel
  intro n hn
  match paddedHex 4 n, hall n hn with
  | [a, b, c, d], ⟨_, hdigits⟩ => exact ⟨a, b, c, d, rfl, List.all_eq_true.1 hdigits⟩

theorem matches_escape (c : Char) : Matches Symbol.stringItem (escape c) := by
  obtain ⟨letter, hmem, heq⟩ | ⟨hc, heq⟩ | ⟨hc, hquote, hbackslash, heq⟩ := escape_spec c
  · have hletters : ∀ p ∈ letterEscapes, p.2 ∈ ['"', '\\', '/', 'b', 'f', 'n', 'r', 't'] := by
      decide
    rw [heq]
    exact .altRight (.seq (matches_char_iff.2 rfl)
      (.altLeft (.one (decide_eq_true (hletters _ hmem)))))
  · obtain ⟨x₁, x₂, x₃, x₄, hnumber, hdigits⟩ := hexDigits_paddedHex c.toNat hc
    simp only [List.forall_mem_cons] at hdigits
    obtain ⟨h₁, h₂, h₃, h₄, -⟩ := hdigits
    rw [heq, hnumber]
    exact .altRight (.seq (matches_char_iff.2 rfl) (.altRight (.seq (matches_char_iff.2 rfl)
      (.seq (.one h₁) (.seq (.one h₂) (.seq (.one h₃) (.one h₄)))))))
  · rw [heq]
    refine .altLeft (.one ?_)
    simp [hc, hquote, hbackslash]

theorem matches_flatMap_escape (s : Text) :
    Matches (.many Symbol.stringItem) (s.flatMap escape) := by
  induction s with
  | nil => exact .manyNil
  | cons c s ih =>
    rw [List.flatMap_cons]
    exact .manyCons (matches_escape c) ih

end Strings

section Numbers

theorem exists_cons_decimal {n : Nat} (hn : 0 < n) :
    ∃ c s, decimal n = c :: s ∧ ('1' ≤ c && c ≤ '9') = true := by
  induction n using Nat.strongRecOn with
  | ind n ih =>
    rw [decimal]
    by_cases hlt : n < 10
    · have hdigit : ∀ n < 10, 0 < n → ('1' ≤ n.digitChar && n.digitChar ≤ '9') = true := by decide
      rw [Nat.toDigits_of_lt_base hlt]
      exact ⟨_, [], rfl, hdigit n hlt hn⟩
    · obtain ⟨c, s, heq, hc⟩ := ih (n / 10) (by omega) (by omega)
      rw [decimal] at heq
      rw [Nat.toDigits_of_base_le (by decide) (by omega), heq]
      exact ⟨c, _, rfl, hc⟩

theorem matches_number {sign : Text} (hsign : Matches (optional (char '-')) sign) (n : Nat) :
    Matches Symbol.number (sign ++ decimal n) := by
  have hrest : Matches (chain [optional (.seq (char '.') (oneOrMore Symbol.digit)),
      optional (chain [.one fun c => c == 'e' || c == 'E',
        optional (.one fun c => c == '+' || c == '-'), oneOrMore Symbol.digit])]) ([] ++ []) :=
    .seq (.altRight .empty) (.altRight .empty)
  have hwhole : Matches (.alt (char '0') (.seq (.one fun c => '1' ≤ c && c ≤ '9')
      (.many Symbol.digit))) (decimal n) := by
    obtain rfl | hn := Nat.eq_zero_or_pos n
    · exact .altLeft (matches_char_iff.2 rfl)
    · obtain ⟨c, s, heq, hc⟩ := exists_cons_decimal hn
      have hdigits : ∀ d ∈ s, ('0' ≤ d && d ≤ '9') = true := by
        intro d hd
        have hdigit : d.isDigit = true := isDigit_of_mem_decimal d (heq ▸ List.mem_cons_of_mem c hd)
        simpa [Char.isDigit, Char.le_def] using hdigit
      rw [heq]
      exact .altRight (.seq (.one hc) (matches_many_iff.2 hdigits))
  have hnumber := Matches.seq hsign (.seq hwhole hrest)
  rw [List.append_nil, List.append_nil] at hnumber
  exact hnumber

theorem matches_decimal (n : Nat) : Matches Symbol.number (decimal n) :=
  matches_number (.altRight .empty) n

theorem matches_signedDecimal (n : Int) : Matches Symbol.number (signedDecimal n) := by
  cases n with
  | ofNat n => exact matches_decimal n
  | negSucc n => exact matches_number (.altLeft (matches_char_iff.2 rfl)) (n + 1)

theorem int?_decimal (n : Nat) : (number (decimal n)).int? = some n := by
  have hdash : '-' ∉ decimal n := fun h => by
    have hdigit := isDigit_of_mem_decimal '-' h
    cases hdigit
  have hvalue := numeral?_decimal n
  generalize decimal n = ds at hdash hvalue
  unfold int?
  split
  next ds' heq =>
    cases heq
    exact (hdash List.mem_cons_self).elim
  next ds' _ heq =>
    cases heq
    rw [hvalue]
    rfl
  next hnone => exact (hnone ds rfl).elim

@[simp] theorem int?_ofInt (n : Int) : (ofInt n).int? = some n := by
  cases n with
  | ofNat n => exact int?_decimal n
  | negSucc n =>
    rw [ofInt, signedDecimal, int?, numeral?_decimal]
    rfl

theorem int64?_of_int? {j : Json} {n : Int64} (h : j.int? = some n.toInt) :
    j.int64? = some n := by
  have hrange : -2 ^ 63 ≤ n.toInt ∧ n.toInt < 2 ^ 63 := ⟨n.le_toInt, n.toInt_lt⟩
  rw [int64?, h, Option.bind_eq_bind, Option.bind_some, if_pos hrange, Int64.ofInt_toInt,
    Option.pure_def]

@[simp] theorem int64?_ofInt (n : Int64) : (ofInt n.toInt).int64? = some n :=
  int64?_of_int? (int?_ofInt n.toInt)

theorem nat64?_of_int? {j : Json} {n : Nat} (h : j.int? = some (n : Int)) (hn : n < 2 ^ 64) :
    j.nat64? = some n := by
  have hrange : (0 : Int) ≤ n ∧ (n : Int) < 2 ^ 64 := by omega
  rw [nat64?, h, Option.bind_eq_bind, Option.bind_some, if_pos hrange, Int.toNat_natCast,
    Option.pure_def]

theorem nat64?_ofNat {n : Nat} (hn : n < 2 ^ 64) : (ofNat n).nat64? = some n :=
  nat64?_of_int? (int?_decimal n) hn

end Numbers

def Plain (s : Text) : Prop := ∀ c ∈ s, (0x20 ≤ c.toNat && c != '"' && c != '\\') = true

instance (s : Text) : Decidable (Plain s) :=
  decidable_of_iff (s.all fun c => 0x20 ≤ c.toNat && c != '"' && c != '\\') List.all_eq_true

theorem Plain.matches {s : Text} (h : Plain s) : Matches (.many Symbol.stringItem) s := by
  induction s with
  | nil => exact .manyNil
  | cons c s ih =>
    obtain ⟨hc, hs⟩ := List.forall_mem_cons.1 h
    exact .manyCons (s := [c]) (.altLeft (.one hc)) (ih hs)

theorem Plain.decode? {s : Text} (h : Plain s) : decode? s = some s := by
  induction s with
  | nil => rw [Json.decode?]
  | cons c s ih =>
    obtain ⟨hc, hs⟩ := List.forall_mem_cons.1 h
    have hne : c ≠ '\\' := by
      rintro rfl
      cases hc
    rw [decode?_plain hne, ih hs, Option.map_some]

section Records

variable {fields : List (Text × Json)}

theorem mapM_decode? (h : ∀ f ∈ fields, Plain f.1) :
    fields.mapM (fun (key, v) => (decode? key).map (·, v)) = some fields := by
  induction fields with
  | nil => rfl
  | cons f fields ih =>
    obtain ⟨hf, hfields⟩ := List.forall_mem_cons.1 h
    obtain ⟨key, v⟩ := f
    have hkey : decode? key = some key := Plain.decode? hf
    simp only [List.mapM_cons, hkey, Option.map_some, ih hfields, Option.bind_eq_bind,
      Option.bind_some, Option.pure_def]

theorem filter_key (h : (fields.map (·.1)).Nodup) (name : Text) :
    fields.filter (·.1 == name) = ((fields.lookup name).map (name, ·)).toList := by
  induction fields with
  | nil => rfl
  | cons f fields ih =>
    obtain ⟨key, v⟩ := f
    rw [List.map_cons, List.nodup_cons] at h
    by_cases hkey : key = name
    · subst hkey
      have hnone : fields.filter (·.1 == key) = [] := by
        rw [List.filter_eq_nil_iff]
        rintro ⟨k, w⟩ hmem heq
        obtain rfl := eq_of_beq heq
        exact h.1 (List.mem_map_of_mem (f := (·.1)) hmem)
      simp [hnone]
    · have hname : (name == key) = false := beq_false_of_ne (Ne.symm hkey)
      have hfirst : ((key, v).1 == name) = false := beq_false_of_ne hkey
      rw [List.filter_cons, hfirst, List.lookup_cons, hname]
      exact ih h.2

theorem record?_object (names : List Text) (hplain : ∀ f ∈ fields, Plain f.1)
    (hnodup : (fields.map (·.1)).Nodup) :
    record? names (.object fields) = some (names.map fun name => fields.lookup name) := by
  rw [record?, mapM_decode? hplain, Option.bind_eq_bind, Option.bind_some]
  induction names with
  | nil => rfl
  | cons name names ih =>
    rw [List.mapM_cons, ih, filter_key hnodup, List.map_cons]
    cases fields.lookup name <;> simp

theorem map_fst_zip_sublist (names : List Text) (values : List Json) :
    ((names.zip values).map (·.1)).Sublist names := by
  induction names generalizing values with
  | nil => exact List.Sublist.slnil
  | cons name names ih =>
    cases values with
    | nil => exact List.nil_sublist _
    | cons v values => exact (ih values).cons_cons name

theorem map_lookup_zip {names : List Text} {values : List Json} (hnodup : names.Nodup)
    (hlength : values.length ≤ names.length) :
    names.map (fun name => (names.zip values).lookup name) =
      (values.map some).rightpad names.length none := by
  induction names generalizing values with
  | nil =>
    obtain rfl := List.eq_nil_of_length_eq_zero (Nat.le_zero.1 hlength)
    rfl
  | cons name names ih =>
    obtain ⟨hname, hnames⟩ := List.nodup_cons.1 hnodup
    cases values with
    | nil => simp [List.rightpad, List.replicate_succ, List.map_const']
    | cons v values =>
      have hrest : names.map (fun n => ((name, v) :: names.zip values).lookup n) =
          names.map fun n => (names.zip values).lookup n := by
        refine List.map_congr_left fun n hn => ?_
        have hne : (n == name) = false := beq_false_of_ne fun heq => hname (heq ▸ hn)
        rw [List.lookup_cons, hne]
      rw [List.zip_cons_cons, List.map_cons, hrest, ih hnames (Nat.le_of_succ_le_succ hlength)]
      simp [List.rightpad]

/-- A record written with its fields in order, perhaps without the last ones, is read as their
values in order. -/
theorem record?_zip (names : List Text) (values : List Json)
    (hplain : ∀ name ∈ names, Plain name) (hnodup : names.Nodup)
    (hlength : values.length ≤ names.length) :
    record? names (.object (names.zip values)) =
      some ((values.map some).rightpad names.length none) := by
  rw [record?_object names, map_lookup_zip hnodup hlength]
  · exact fun f hf => hplain f.1 (List.of_mem_zip hf).1
  · exact hnodup.sublist (map_fst_zip_sublist names values)

theorem variant?_object {key : Text} (h : Plain key) (v : Json) :
    variant? (.object [(key, v)]) = some (key, some v) := by
  rw [variant?, h.decode?, Option.map_some]

@[simp] theorem variant?_ofText (s : Text) : variant? (.ofText s) = some (s, none) :=
  congrArg (Option.map (·, none)) (text?_ofText s)

end Records

end Stencil.Json
