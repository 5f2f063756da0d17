import Stencil.Proofs.Lexing

namespace Stencil

/-- What holds of all in a list is decided by a walk through the list, whatever the type. -/
theorem forall_mem_of_all {α : Type} {P : α → Prop} [DecidablePred P] {l : List α}
    (h : l.all (decide <| P ·) = true) : ∀ a ∈ l, P a := by
  simpa using h

namespace Pattern

def mentions (c : Char) : Pattern → Bool
  | nothing => false
  | empty => false
  | one accepts => accepts c
  | seq p q => mentions c p || mentions c q
  | alt p q => mentions c p || mentions c q
  | many p => mentions c p

theorem Matches.mentions {p : Pattern} {c : Char} {s : Text} (h : Matches p s) (hc : c ∈ s) :
    p.mentions c = true := by
  induction h with
  | empty => cases hc
  | one h =>
    obtain rfl := List.mem_singleton.1 hc
    exact h
  | seq _ _ ihp ihq =>
    rw [Pattern.mentions, Bool.or_eq_true]
    exact (List.mem_append.1 hc).imp ihp ihq
  | altLeft _ ih =>
    rw [Pattern.mentions, ih hc, Bool.true_or]
  | altRight _ ih =>
    rw [Pattern.mentions, ih hc, Bool.or_true]
  | manyNil => cases hc
  | manyCons _ _ ihp ihq => exact (List.mem_append.1 hc).elim ihp ihq

theorem Matches.notMem {p : Pattern} {c : Char} {s : Text} (h : Matches p s)
    (hc : p.mentions c = false) : c ∉ s := fun hm => by
  rw [h.mentions hm] at hc
  cases hc

theorem matches_chain_append_iff {p q : Pattern} (ps : List Pattern) {s : Text} :
    Matches (chain (p :: (ps ++ [q]))) s ↔
      ∃ a b, s = a ++ b ∧ Matches (chain (p :: ps)) a ∧ Matches q b := by
  induction ps generalizing p s with
  | nil => exact matches_chain_cons_iff
  | cons r ps ih =>
    constructor
    · intro h
      obtain ⟨a, b, rfl, ha, hb⟩ := matches_chain_cons_iff.1 h
      obtain ⟨b, d, rfl, hb, hd⟩ := ih.1 hb
      exact ⟨a ++ b, d, by simp, matches_chain_cons_iff.2 ⟨a, b, rfl, ha, hb⟩, hd⟩
    · rintro ⟨m, d, rfl, hm, hd⟩
      obtain ⟨a, b, rfl, ha, hb⟩ := matches_chain_cons_iff.1 hm
      exact matches_chain_cons_iff.2 ⟨a, b ++ d, by simp, ha, ih.2 ⟨b, d, rfl, hb, hd⟩⟩

theorem matches_word_iff {w s : Text} : Matches (word w) s ↔ s = w := by
  induction w generalizing s with
  | nil => exact matches_empty_iff
  | cons c w ih =>
    cases w with
    | nil => exact matches_char_iff
    | cons d w =>
      change Matches (.seq (char c) (word (d :: w))) s ↔ _
      rw [matches_seq_iff]
      constructor
      · rintro ⟨a, b, rfl, ha, hb⟩
        rw [matches_char_iff.1 ha, ih.1 hb]
        rfl
      · rintro rfl
        exact ⟨[c], d :: w, rfl, matches_char_iff.2 rfl, ih.2 rfl⟩

end Pattern

theorem append_cons_inj_of_notMem {c : Char} {a b x y : Text} (ha : c ∉ a) (hb : c ∉ b)
    (h : a ++ c :: x = b ++ c :: y) : a = b ∧ x = y := by
  induction a generalizing b with
  | nil =>
    cases b with
    | nil => exact ⟨rfl, (List.cons.inj h).2⟩
    | cons d b =>
      obtain ⟨rfl, -⟩ := List.cons.inj h
      exact (hb List.mem_cons_self).elim
  | cons d a ih =>
    cases b with
    | nil =>
      obtain ⟨rfl, -⟩ := List.cons.inj h
      exact (ha List.mem_cons_self).elim
    | cons e b =>
      obtain ⟨rfl, htail⟩ := List.cons.inj h
      obtain ⟨rfl, rfl⟩ := ih (fun hc => ha (List.mem_cons_of_mem d hc))
        (fun hc => hb (List.mem_cons_of_mem d hc)) htail
      exact ⟨rfl, rfl⟩

theorem eq_nil_of_terminated {c : Char} {a b w y : Text} (ha : c ∉ a) (hb : c ∉ b)
    (h : a ++ c :: w ++ y = b ++ c :: w) : y = [] := by
  rw [List.append_assoc, List.cons_append] at h
  obtain ⟨-, hw⟩ := append_cons_inj_of_notMem ha hb h
  simpa using hw

/-- `Body q s`: the text can stand between two quotes `q`, which are in it only after a
backslash. -/
inductive Body (q : Char) : Text → Prop
  | nil : Body q []
  | escaped {c : Char} {s : Text} (h : Body q s) : Body q ('\\' :: c :: s)
  | plain {c : Char} {s : Text} (hq : c ≠ q) (hb : c ≠ '\\') (h : Body q s) : Body q (c :: s)

namespace Body

variable {q : Char} {a b x y : Text}

theorem append (ha : Body q a) (hb : Body q b) : Body q (a ++ b) := by
  induction ha with
  | nil => exact hb
  | escaped _ ih => exact .escaped ih
  | plain hq hs _ ih => exact .plain hq hs ih

theorem of_notMem {s : Text} (hq : q ∉ s) (hb : '\\' ∉ s) : Body q s := by
  induction s with
  | nil => exact .nil
  | cons c s ih =>
    rw [List.mem_cons, not_or] at hq hb
    exact .plain (Ne.symm hq.1) (Ne.symm hb.1) (ih hq.2 hb.2)

theorem unique (hq : q ≠ '\\') (ha : Body q a) (hb : Body q b) (h : a ++ q :: x = b ++ q :: y) :
    a = b ∧ x = y := by
  induction ha generalizing b with
  | nil =>
    cases hb with
    | nil => exact ⟨rfl, (List.cons.inj h).2⟩
    | escaped _ => exact (hq (List.cons.inj h).1).elim
    | plain hc _ _ => exact (hc (List.cons.inj h).1.symm).elim
  | @escaped c a _ ih =>
    cases hb with
    | nil => exact (hq (List.cons.inj h).1.symm).elim
    | escaped hb =>
      simp only [List.cons_append, List.cons.injEq, true_and] at h
      obtain ⟨rfl, h⟩ := h
      obtain ⟨rfl, rfl⟩ := ih hb h
      exact ⟨rfl, rfl⟩
    | plain _ hc _ => exact (hc (List.cons.inj h).1.symm).elim
  | @plain c a hc hs _ ih =>
    cases hb with
    | nil => exact (hc (List.cons.inj h).1).elim
    | escaped _ => exact (hs (List.cons.inj h).1).elim
    | plain _ _ hb =>
      obtain ⟨rfl, htail⟩ := List.cons.inj h
      obtain ⟨rfl, rfl⟩ := ih hb htail
      exact ⟨rfl, rfl⟩

end Body

namespace Pattern

/-- The items between two quotes, where only characters with the property `P` may stand. -/
theorem matches_items_iff {q : Char} {f g : Char → Bool} {P : Char → Prop} (hback : P '\\')
    (hf : ∀ c, f c = true ↔ P c) (hg : ∀ c, g c = true ↔ c ≠ q ∧ c ≠ '\\' ∧ P c) {s : Text} :
    Matches (.many (.alt (.seq (char '\\') (.one f)) (.one g))) s ↔ Body q s ∧ ∀ c ∈ s, P c := by
  constructor
  · generalize hp : Pattern.many (.alt (.seq (char '\\') (.one f)) (.one g)) = p
    intro h
    induction h with
    | manyNil => exact ⟨.nil, by simp⟩
    | manyCons ha _ _ ih =>
      cases hp
      obtain ⟨hbody, hall⟩ := ih rfl
      obtain he | hone := matches_alt_iff.1 ha
      · obtain ⟨b, d, rfl, hb, hd⟩ := matches_seq_iff.1 he
        obtain rfl := matches_char_iff.1 hb
        obtain ⟨c, rfl, hc⟩ := matches_one_iff.1 hd
        refine ⟨.escaped hbody, ?_⟩
        simp only [List.cons_append, List.nil_append, List.forall_mem_cons]
        exact ⟨hback, (hf c).1 hc, hall⟩
      · obtain ⟨c, rfl, hc⟩ := matches_one_iff.1 hone
        obtain ⟨hq, hs, hP⟩ := (hg c).1 hc
        refine ⟨.plain hq hs hbody, ?_⟩
        simp only [List.cons_append, List.nil_append, List.forall_mem_cons]
        exact ⟨hP, hall⟩
    | _ => cases hp
  · rintro ⟨hbody, hall⟩
    induction hbody with
    | nil => exact .manyNil
    | @escaped c s _ ih =>
      simp only [List.forall_mem_cons] at hall
      have he : Matches (.seq (char '\\') (.one f)) (['\\'] ++ [c]) :=
        .seq (matches_char_iff.2 rfl) (.one ((hf c).2 hall.2.1))
      exact .manyCons (.altLeft he) (ih hall.2.2)
    | @plain c s hq hs _ ih =>
      simp only [List.forall_mem_cons] at hall
      exact .manyCons (.altRight (.one ((hg c).2 ⟨hq, hs, hall.1⟩))) (ih hall.2)

theorem matches_quotedItem_iff {q : Char} {s : Text} :
    Matches (.many (Token.quotedItem q)) s ↔ Body q s ∧ '\n' ∉ s := by
  rw [Token.quotedItem, anyBut,
    matches_items_iff (q := q) (P := fun c => c ≠ '\n') (by decide) (by simp) (by simp [and_assoc])]
  simp only [ne_eq, and_congr_right_iff]
  intro _
  constructor
  · exact fun h hm => h _ hm rfl
  · rintro h c hc rfl
    exact h hc

end Pattern

namespace Token

open Pattern

def isWord (c : Char) : Bool := c == '_' || isLetter c || isDigit c

/-- `NameTail s`: the text can continue a dotted name. -/
inductive NameTail : Text → Prop
  | nil : NameTail []
  | word {c : Char} {s : Text} (hc : isWord c = true) (h : NameTail s) : NameTail (c :: s)
  | dot {c : Char} {s : Text} (hc : isLetter c = true) (h : NameTail s) : NameTail ('.' :: c :: s)

/-- What a name would take more of: a character of a word, or a dot and a letter. -/
def nameMore : Pattern := .alt (.one isWord) (.seq (char '.') (.one isLetter))

namespace NameTail

theorem of_words {w : Text} (hw : ∀ c ∈ w, isWord c = true) : NameTail w := by
  induction w with
  | nil => exact .nil
  | cons c w ih =>
    rw [List.forall_mem_cons] at hw
    exact .word hw.1 (ih hw.2)

theorem append {a b : Text} (ha : NameTail a) (hb : NameTail b) : NameTail (a ++ b) := by
  induction ha with
  | nil => exact hb
  | word hc _ ih => exact .word hc ih
  | dot hc _ ih => exact .dot hc ih

theorem of_nameMore {m : Text} (h : Matches nameMore m) : NameTail m := by
  obtain h | h := matches_alt_iff.1 h
  · obtain ⟨c, rfl, hc⟩ := matches_one_iff.1 h
    exact .word hc .nil
  · obtain ⟨a, b, rfl, ha, hb⟩ := matches_seq_iff.1 h
    obtain rfl := matches_char_iff.1 ha
    obtain ⟨c, rfl, hc⟩ := matches_one_iff.1 hb
    exact .dot hc .nil

theorem exists_nameMore {a y : Text} (h : NameTail (a ++ y)) (hy : y ≠ []) :
    ∃ m, m <+: y ∧ Matches nameMore m := by
  generalize hs : a ++ y = s at h
  induction h generalizing a with
  | nil => exact (hy (List.append_eq_nil_iff.1 hs).2).elim
  | @word c s hc h ih =>
    cases a with
    | nil =>
      obtain rfl : y = c :: s := hs
      exact ⟨[c], ⟨s, rfl⟩, .altLeft (.one hc)⟩
    | cons d a => exact ih (List.cons.inj hs).2
  | @dot c s hc h ih =>
    cases a with
    | nil =>
      obtain rfl : y = '.' :: c :: s := hs
      have hm : Matches (.seq (char '.') (.one isLetter)) (['.'] ++ [c]) :=
        .seq (matches_char_iff.2 rfl) (.one hc)
      exact ⟨['.', c], ⟨s, rfl⟩, .altRight hm⟩
    | cons d a =>
      obtain ⟨rfl, htail⟩ := List.cons.inj hs
      cases a with
      | nil =>
        obtain rfl : y = c :: s := htail
        exact ⟨[c], ⟨s, rfl⟩, .altLeft (.one (by simp [isWord, hc]))⟩
      | cons e a => exact ih (List.cons.inj htail).2

theorem tail_head {a y : Text} {d : Char} (h : NameTail (a ++ d :: y)) :
    isWord d = true ∨ d = '.' := by
  obtain ⟨m, hm, hmatch⟩ := exists_nameMore h (by simp)
  obtain h1 | h2 := matches_alt_iff.1 hmatch
  · obtain ⟨c, rfl, hc⟩ := matches_one_iff.1 h1
    obtain ⟨rfl, -⟩ := List.cons_prefix_cons.1 hm
    exact .inl hc
  · obtain ⟨b, e, rfl, hb, he⟩ := matches_seq_iff.1 h2
    obtain rfl := matches_char_iff.1 hb
    obtain ⟨rfl, -⟩ := List.cons_prefix_cons.1 hm
    exact .inr rfl

end NameTail

theorem matches_name_iff {s : Text} :
    Matches dottedName.name s ↔ ∃ c w, s = c :: w ∧ isLetter c = true ∧ ∀ d ∈ w, isWord d = true := by
  rw [dottedName.name, matches_seq_iff]
  constructor
  · rintro ⟨a, w, rfl, ha, hw⟩
    obtain ⟨c, rfl, hc⟩ := matches_one_iff.1 ha
    exact ⟨c, w, rfl, hc, matches_many_iff.1 hw⟩
  · rintro ⟨c, w, rfl, hc, hw⟩
    exact ⟨[c], w, rfl, .one hc, matches_many_iff.2 hw⟩

theorem nameTail_of_matches {s : Text} (h : Matches (.many (.seq (char '.') dottedName.name)) s) :
    NameTail s := by
  generalize hp : Pattern.many (.seq (char '.') dottedName.name) = p at h
  induction h with
  | manyNil => exact .nil
  | manyCons ha _ _ ih =>
    cases hp
    obtain ⟨b, n, rfl, hb, hn⟩ := matches_seq_iff.1 ha
    obtain rfl := matches_char_iff.1 hb
    obtain ⟨c, w, rfl, hc, hw⟩ := matches_name_iff.1 hn
    exact .dot hc ((NameTail.of_words hw).append (ih rfl))
  | _ => cases hp

theorem matches_of_nameTail {s : Text} (h : NameTail s) :
    ∃ w rest, s = w ++ rest ∧ (∀ d ∈ w, isWord d = true) ∧
      Matches (.many (.seq (char '.') dottedName.name)) rest := by
  induction h with
  | nil => exact ⟨[], [], rfl, by simp, .manyNil⟩
  | @word c s hc h ih =>
    obtain ⟨w, rest, rfl, hw, hrest⟩ := ih
    exact ⟨c :: w, rest, rfl, List.forall_mem_cons.2 ⟨hc, hw⟩, hrest⟩
  | @dot c s hc h ih =>
    obtain ⟨w, rest, rfl, hw, hrest⟩ := ih
    have hn : Matches dottedName.name (c :: w) := matches_name_iff.2 ⟨c, w, rfl, hc, hw⟩
    have hd : Matches (.seq (char '.') dottedName.name) (['.'] ++ c :: w) :=
      .seq (matches_char_iff.2 rfl) hn
    exact ⟨[], '.' :: c :: (w ++ rest), rfl, by simp, .manyCons hd hrest⟩

theorem matches_dottedName_iff {s : Text} :
    Matches dottedName s ↔ ∃ c t, s = c :: t ∧ isLetter c = true ∧ NameTail t := by
  rw [dottedName, matches_seq_iff]
  constructor
  · rintro ⟨a, b, rfl, ha, hb⟩
    obtain ⟨c, w, rfl, hc, hw⟩ := matches_name_iff.1 ha
    exact ⟨c, w ++ b, rfl, hc, (NameTail.of_words hw).append (nameTail_of_matches hb)⟩
  · rintro ⟨c, t, rfl, hc, ht⟩
    obtain ⟨w, rest, rfl, hw, hrest⟩ := matches_of_nameTail ht
    exact ⟨c :: w, rest, rfl, matches_name_iff.2 ⟨c, w, rfl, hc, hw⟩, hrest⟩

def rule (k : TokenKind) : Lexer.Rule TokenKind :=
  (rules.find? (·.kind == k)).getD ⟨k, .nothing, .longest⟩

theorem rule_of_mem {r : Lexer.Rule TokenKind} (h : r ∈ rules) : rule r.kind = r := by
  simp only [rules, List.mem_cons, List.not_mem_nil, or_false] at h
  obtain rfl | rfl | rfl | rfl | rfl | rfl | rfl | rfl | rfl | rfl | rfl | rfl | rfl | rfl | rfl |
    rfl | rfl := h
  all_goals rfl

theorem rule_kind (k : TokenKind) : (rule k).kind = k := by
  cases k <;> rfl

theorem rule_mem (k : TokenKind) : rule k ∈ rules := by
  cases k <;> simp [rule, rules]

abbrev pattern (k : TokenKind) : Pattern := (rule k).pattern

def headerTail : Pattern :=
  chain [spaces1, char '$', dottedName,
    optional (chain [spaces, char ',', spaces, char '$', dottedName]), spaces1, word [':', '=']]

def assignTail : Pattern := chain [spaces1, optional (char ':'), char '=']

section Forms

variable {s : Text}

theorem matches_range_iff :
    Matches (pattern .range) s ↔ ∃ t, s = "range".toList ++ t ∧ Matches headerTail t := by
  change Matches (.seq (word "range".toList) headerTail) s ↔ _
  rw [matches_seq_iff]
  constructor
  · rintro ⟨a, t, rfl, ha, ht⟩
    exact ⟨t, by rw [matches_word_iff.1 ha], ht⟩
  · rintro ⟨t, rfl, ht⟩
    exact ⟨_, t, rfl, matches_word_iff.2 rfl, ht⟩

theorem matches_assignment_iff :
    Matches (pattern .assignment) s ↔
      ∃ n t, s = '$' :: (n ++ t) ∧ Matches dottedName n ∧ Matches assignTail t := by
  change Matches (.seq (char '$') (.seq dottedName assignTail)) s ↔ _
  rw [matches_seq_iff]
  constructor
  · rintro ⟨a, b, rfl, ha, hb⟩
    obtain ⟨n, t, rfl, hn, ht⟩ := matches_seq_iff.1 hb
    exact ⟨n, t, by rw [matches_char_iff.1 ha]; rfl, hn, ht⟩
  · rintro ⟨n, t, rfl, hn, ht⟩
    exact ⟨['$'], n ++ t, rfl, matches_char_iff.2 rfl, .seq hn ht⟩

theorem matches_ident_iff :
    Matches (pattern .ident) s ↔
      ∃ c w, s = c :: w ∧ (c = '_' ∨ isLetter c = true) ∧ ∀ d ∈ w, isWord d = true := by
  change Matches (.seq (.one fun c => c == '_' || isLetter c) (.many (.one isWord))) s ↔ _
  rw [matches_seq_iff]
  constructor
  · rintro ⟨a, w, rfl, ha, hw⟩
    obtain ⟨c, rfl, hc⟩ := matches_one_iff.1 ha
    exact ⟨c, w, rfl, by simpa using hc, matches_many_iff.1 hw⟩
  · rintro ⟨c, w, rfl, hc, hw⟩
    exact ⟨[c], w, rfl, .one (by simpa using hc), matches_many_iff.2 hw⟩

theorem matches_keyword_iff :
    Matches (pattern .keyword) s ↔
      ∃ c n, s = c :: n ∧ (c = '.' ∨ c = '$') ∧ (Matches dottedName n ∨ n = []) := by
  change Matches (.seq (.one fun c => c == '.' || c == '$') (optional dottedName)) s ↔ _
  rw [matches_seq_iff]
  constructor
  · rintro ⟨a, n, rfl, ha, hn⟩
    obtain ⟨c, rfl, hc⟩ := matches_one_iff.1 ha
    exact ⟨c, n, rfl, by simpa using hc, matches_optional_iff.1 hn⟩
  · rintro ⟨c, n, rfl, hc, hn⟩
    exact ⟨[c], n, rfl, .one (by simpa using hc), matches_optional_iff.2 hn⟩

theorem matches_enclosed_iff {a b : Char} {p : Pattern} :
    Matches (chain [char a, p, char b]) s ↔ ∃ m, s = a :: (m ++ [b]) ∧ Matches p m := by
  rw [matches_chain_cons_iff]
  constructor
  · rintro ⟨x, y, rfl, hx, hy⟩
    obtain ⟨m, z, rfl, hm, hz⟩ := matches_chain_cons_iff.1 hy
    have hz : z = [b] := matches_char_iff.1 hz
    exact ⟨m, by rw [matches_char_iff.1 hx, hz]; rfl, hm⟩
  · rintro ⟨m, rfl, hm⟩
    have hb : Matches (chain [char b]) [b] := matches_char_iff.2 rfl
    exact ⟨[a], m ++ [b], rfl, matches_char_iff.2 rfl,
      matches_chain_cons_iff.2 ⟨m, [b], rfl, hm, hb⟩⟩

theorem matches_raw_iff :
    Matches (pattern .literal) s ↔ ∃ m, s = '`' :: (m ++ ['`']) ∧ '`' ∉ m := by
  refine matches_enclosed_iff.trans (exists_congr fun m => and_congr_right fun _ => ?_)
  rw [anyBut, matches_many_iff]
  simp only [bne_iff_ne, ne_eq]
  constructor
  · exact fun h hm => h _ hm rfl
  · rintro h c hc rfl
    exact h hc

theorem matches_string_iff :
    Matches (pattern .string) s ↔ ∃ m, s = '"' :: (m ++ ['"']) ∧ Body '"' m ∧ '\n' ∉ m :=
  matches_enclosed_iff.trans (exists_congr fun _ => and_congr_right fun _ => matches_quotedItem_iff)

theorem matches_rune_iff :
    Matches (pattern .rune) s ↔
      ∃ m, s = '\'' :: (m ++ ['\'']) ∧ m ≠ [] ∧ Body '\'' m ∧ '\n' ∉ m := by
  refine matches_enclosed_iff.trans (exists_congr fun m => and_congr_right fun _ => ?_)
  rw [← matches_quotedItem_iff, oneOrMore, matches_seq_iff]
  constructor
  · rintro ⟨a, b, rfl, ha, hb⟩
    have hne : a ≠ [] := by
      rintro rfl
      exact absurd (nullable_iff.2 ha) (by decide)
    exact ⟨fun h => hne (List.append_eq_nil_iff.1 h).1, .manyCons ha hb⟩
  · rintro ⟨hne, h⟩
    obtain ⟨c, t, rfl⟩ := List.exists_cons_of_ne_nil hne
    obtain ⟨a, b, rfl, ha, hb⟩ := h.many_cons
    exact ⟨c :: a, b, rfl, ha, hb⟩

theorem matches_oneOrMore_iff {f : Char → Bool} :
    Matches (oneOrMore (.one f)) s ↔ s ≠ [] ∧ ∀ c ∈ s, f c = true := by
  rw [oneOrMore, matches_seq_iff]
  constructor
  · rintro ⟨a, b, rfl, ha, hb⟩
    obtain ⟨c, rfl, hc⟩ := matches_one_iff.1 ha
    exact ⟨by simp, List.forall_mem_cons.2 ⟨hc, matches_many_iff.1 hb⟩⟩
  · rintro ⟨hne, hall⟩
    obtain ⟨c, t, rfl⟩ := List.exists_cons_of_ne_nil hne
    rw [List.forall_mem_cons] at hall
    exact ⟨[c], t, rfl, .one hall.1, matches_many_iff.2 hall.2⟩

theorem matches_digits_iff : Matches digits s ↔ s ≠ [] ∧ ∀ c ∈ s, isDigit c = true :=
  matches_oneOrMore_iff

theorem matches_float_iff :
    Matches (pattern .float) s ↔
      ∃ a b, s = a ++ '.' :: b ∧ Matches digits a ∧ Matches digits b := by
  change Matches (chain [digits, char '.', digits]) s ↔ _
  rw [matches_chain_cons_iff]
  constructor
  · rintro ⟨a, b, rfl, ha, hb⟩
    obtain ⟨x, b, rfl, hx, hb⟩ := matches_chain_cons_iff.1 hb
    exact ⟨a, b, by rw [matches_char_iff.1 hx]; rfl, ha, hb⟩
  · rintro ⟨a, b, rfl, ha, hb⟩
    exact ⟨a, '.' :: b, rfl, ha,
      matches_chain_cons_iff.2 ⟨['.'], b, rfl, matches_char_iff.2 rfl, hb⟩⟩

theorem matches_int_iff : Matches (pattern .int) s ↔ s ≠ [] ∧ ∀ c ∈ s, isDigit c = true :=
  matches_oneOrMore_iff

theorem matches_space_iff : Matches (pattern .space) s ↔ s ≠ [] ∧ ∀ c ∈ s, isSpace c = true :=
  matches_oneOrMore_iff

theorem matches_comment_iff :
    Matches (pattern .comment) s ↔ ∃ m, s = '/' :: '*' :: (m ++ ['*', '/']) := by
  change Matches (.seq (char '/') (.seq (char '*') (.seq (.many any) (word ['*', '/'])))) s ↔ _
  constructor
  · intro h
    obtain ⟨a, t, rfl, ha, ht⟩ := matches_seq_iff.1 h
    obtain ⟨b, t, rfl, hb, ht⟩ := matches_seq_iff.1 ht
    obtain ⟨m, w, rfl, -, hw⟩ := matches_seq_iff.1 ht
    rw [matches_char_iff.1 ha, matches_char_iff.1 hb, matches_word_iff.1 hw]
    exact ⟨m, rfl⟩
  · rintro ⟨m, rfl⟩
    have hm : Matches (.seq (.many any) (word ['*', '/'])) (m ++ ['*', '/']) :=
      .seq (matches_many_iff.2 fun _ _ => rfl) (matches_word_iff.2 rfl)
    have hstar : Matches (.seq (char '*') (.seq (.many any) (word ['*', '/'])))
        (['*'] ++ (m ++ ['*', '/'])) := .seq (matches_char_iff.2 rfl) hm
    exact matches_seq_iff.2 ⟨['/'], _, rfl, matches_char_iff.2 rfl, hstar⟩

theorem matches_statementOpen_iff :
    Matches (pattern .statementOpen) s ↔ s = ['{', '{'] ∨ s = ['{', '{', '-'] := by
  change Matches (.seq (char '{') (.seq (char '{') (optional (char '-')))) s ↔ _
  simp only [matches_seq_iff, matches_optional_iff, matches_char_iff]
  constructor
  · rintro ⟨a, _, rfl, rfl, b, _, rfl, rfl, rfl | rfl⟩
    · exact .inr rfl
    · exact .inl rfl
  · rintro (rfl | rfl)
    · exact ⟨['{'], ['{'], rfl, rfl, ['{'], [], rfl, rfl, .inr rfl⟩
    · exact ⟨['{'], ['{', '-'], rfl, rfl, ['{'], ['-'], rfl, rfl, .inl rfl⟩

theorem matches_statementClose_iff :
    Matches (pattern .statementClose) s ↔ s = ['}', '}'] ∨ s = ['-', '}', '}'] := by
  change Matches (.seq (optional (char '-')) (.seq (char '}') (char '}'))) s ↔ _
  simp only [matches_seq_iff, matches_optional_iff, matches_char_iff]
  constructor
  · rintro ⟨_, _, rfl, rfl | rfl, _, _, rfl, rfl, rfl⟩
    · exact .inr rfl
    · exact .inl rfl
  · rintro (rfl | rfl)
    · exact ⟨[], ['}', '}'], rfl, .inr rfl, ['}'], ['}'], rfl, rfl, rfl⟩
    · exact ⟨['-'], ['}', '}'], rfl, .inl rfl, ['}'], ['}'], rfl, rfl, rfl⟩

end Forms

end Token

end Stencil
