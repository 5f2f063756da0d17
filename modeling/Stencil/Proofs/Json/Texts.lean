import Stencil.Json.Writer
import Stencil.Proofs.Json.Symbols
import Stencil.Proofs.TokenText

namespace Stencil.Json

open Pattern Lexer

/-- Whether the strings and the numbers in the value are spelled as JSON has it. -/
inductive Spelled : Json → Prop
  | null : Spelled .null
  | bool (b : Bool) : Spelled (.bool b)
  | number {s : Text} (h : Matches Symbol.number s) : Spelled (.number s)
  | string {s : Text} (h : Matches (.many Symbol.stringItem) s) : Spelled (.string s)
  | array {items : List Json} (h : ∀ v ∈ items, Spelled v) : Spelled (.array items)
  | object {fields : List (Text × Json)}
      (hkeys : ∀ f ∈ fields, Matches (.many Symbol.stringItem) f.1)
      (h : ∀ f ∈ fields, Spelled f.2) : Spelled (.object fields)

def isSpace (c : Char) : Bool := c ∈ [' ', '\t', '\n', '\r']

/-- Whether a number that stands before the text ends there. -/
def Ends (rest : Text) : Prop := ∀ c ∈ rest.head?, c ∈ [',', ']', '}', '\n']

section Lexemes

variable {k : SymbolKind} {c : Char} {after : List (Rule SymbolKind)}

theorem first_word {w : Text} (hr : Symbol.rules.filter (·.pattern.begins c) =
    ⟨k, word (c :: w), .longest⟩ :: after) (rest : Text) :
    first Symbol.rules (c :: w ++ rest) = some (⟨k, c :: w⟩, rest) := by
  have htake : Rule.take ⟨k, word (c :: w), .longest⟩ (c :: w ++ rest) =
      some (⟨k, c :: w⟩, rest) := by
    refine Rule.take_append_of_longest rfl (List.cons_ne_nil c w) (matches_word_iff.2 rfl)
      fun y _ hy => ?_
    exact List.append_right_eq_self.1 (matches_word_iff.1 hy)
  exact first_of_take hr htake

theorem body_of_stringItem {s : Text} (h : Matches Symbol.stringItem s) : Body '"' s := by
  obtain hplain | hescape := matches_alt_iff.1 h
  · obtain ⟨c, rfl, hc⟩ := matches_one_iff.1 hplain
    simp only [Bool.and_eq_true, bne_iff_ne] at hc
    exact .plain hc.1.2 hc.2 .nil
  · obtain ⟨b, e, rfl, hb, he⟩ := matches_seq_iff.1 hescape
    obtain rfl := matches_char_iff.1 hb
    obtain hletter | hnumber := matches_alt_iff.1 he
    · obtain ⟨c, rfl, -⟩ := matches_one_iff.1 hletter
      exact .escaped .nil
    · obtain ⟨u, t, rfl, hu, ht⟩ := matches_chain_cons_iff.1 hnumber
      obtain rfl := matches_char_iff.1 hu
      exact .escaped (.of_notMem (ht.notMem rfl) (ht.notMem rfl))

theorem body_of_stringItems {s : Text} (h : Matches (.many Symbol.stringItem) s) : Body '"' s := by
  generalize hp : Pattern.many Symbol.stringItem = p at h
  induction h with
  | manyNil => exact .nil
  | manyCons hitem _ _ ih =>
    cases hp
    exact (body_of_stringItem hitem).append (ih rfl)
  | _ => cases hp

theorem first_quoted {s : Text} (h : Matches (.many Symbol.stringItem) s) (rest : Text) :
    first Symbol.rules (quoted s ++ rest) = some (⟨.string, quoted s⟩, rest) := by
  have htake : Rule.take ⟨SymbolKind.string, chain [char '"', .many Symbol.stringItem, char '"'],
      .longest⟩ (quoted s ++ rest) = some (⟨.string, quoted s⟩, rest) := by
    refine Rule.take_append_of_longest rfl (by simp [quoted])
      (Token.matches_enclosed_iff.2 ⟨s, rfl, h⟩) fun y _ hy => ?_
    obtain ⟨t, heq, ht⟩ := Token.matches_enclosed_iff.1 hy
    simp only [quoted, List.cons_append, List.append_assoc, List.cons.injEq, true_and] at heq
    exact ((body_of_stringItems h).unique (by decide) (body_of_stringItems ht) heq).2
  have hr : Symbol.rules.filter (·.pattern.begins '"') =
      [⟨.string, chain [char '"', .many Symbol.stringItem, char '"'], .longest⟩] := rfl
  exact first_of_take hr htake

theorem mem_of_begins {q : Rule SymbolKind} (hq : q ∈ Symbol.rules.take 9) {c : Char}
    (h : q.pattern.begins c = true) : c ∈ "\x7b\x7d[]:,ntf".toList := by
  simp only [Symbol.rules, List.take, List.mem_cons, List.not_mem_nil, or_false] at hq
  obtain rfl | rfl | rfl | rfl | rfl | rfl | rfl | rfl | rfl := hq
  all_goals simp_all [char, word, chain, begins, nullable]

theorem first_number {s rest : Text} (h : Matches Symbol.number s) (hrest : Ends rest) :
    first Symbol.rules (s ++ rest) = some (⟨.number, s⟩, rest) := by
  have hnone : ¬ Matches Symbol.number [] := fun hnil => by
    have hnull := nullable_iff.2 hnil
    cases hnull
  obtain ⟨c, s, rfl⟩ := List.exists_cons_of_ne_nil (fun hnil => hnone (hnil ▸ h) : s ≠ [])
  have hothers : ∀ q ∈ Symbol.rules.take 9, q.take (c :: s ++ rest) = none := by
    intro q hq
    refine Rule.take_of_not_begins (Bool.eq_false_iff.2 fun hc => ?_)
    have hnot : ∀ d ∈ "\x7b\x7d[]:,ntf".toList, Symbol.number.begins d = false :=
      forall_mem_of_all (by decide)
    have hbegins := h.begins
    rw [hnot c (mem_of_begins hq hc)] at hbegins
    cases hbegins
  have htake : Rule.take ⟨SymbolKind.number, Symbol.number, .longest⟩ (c :: s ++ rest) =
      some (⟨.number, c :: s⟩, rest) := by
    refine Rule.take_append_of_longest rfl (List.cons_ne_nil c s) h fun y hy hmore => ?_
    cases y with
    | nil => rfl
    | cons d y =>
      -- What ends a number is not in any.
      have hd : d ∈ [',', ']', '}', '\n'] := hrest d (by
        obtain ⟨x, rfl⟩ := hy
        rfl)
      have hends : ∀ d ∈ [',', ']', '}', '\n'], Symbol.number.mentions d = false :=
        forall_mem_of_all (by decide)
      exact (hmore.notMem (hends d hd) (by simp)).elim
  exact first_eq_some_iff.2 ⟨_, _, Symbol.rules.drop 10, rfl, htake, hothers⟩

theorem first_space {s rest : Text} (hne : s ≠ []) (hs : ∀ c ∈ s, isSpace c = true)
    (hrest : ∀ c ∈ rest.head?, isSpace c = false) :
    first Symbol.rules (s ++ rest) = some (⟨.space, s⟩, rest) := by
  obtain ⟨c, s, rfl⟩ := List.exists_cons_of_ne_nil hne
  have hr : ∀ d ∈ [' ', '\t', '\n', '\r'], Symbol.rules.filter (·.pattern.begins d) =
      [⟨.space, oneOrMore (.one isSpace), .longest⟩] := by
    simp only [List.forall_mem_cons]
    exact ⟨rfl, rfl, rfl, rfl, nofun⟩
  have hc : c ∈ [' ', '\t', '\n', '\r'] := by simpa [isSpace] using hs c List.mem_cons_self
  have htake : Rule.take ⟨SymbolKind.space, oneOrMore (.one isSpace), .longest⟩ (c :: s ++ rest) =
      some (⟨.space, c :: s⟩, rest) := by
    refine Rule.take_append_of_longest rfl hne (Token.matches_oneOrMore_iff.2 ⟨hne, hs⟩)
      fun y hy hmore => ?_
    cases y with
    | nil => rfl
    | cons d y =>
      obtain ⟨x, rfl⟩ := hy
      have hd := (Token.matches_oneOrMore_iff.1 hmore).2 d (by simp)
      rw [hrest d rfl] at hd
      cases hd
  exact first_of_take (hr c hc) htake

end Lexemes

section Symbols

theorem Ends.append {s : Text} (h : Ends s) (hne : s ≠ []) (rest : Text) : Ends (s ++ rest) := by
  obtain ⟨c, s, rfl⟩ := List.exists_cons_of_ne_nil hne
  exact h

theorem ofText?_of_first {s rest : Text} {l : Lexeme SymbolKind}
    (h : first Symbol.rules s = some (l, rest)) :
    Symbol.ofText? s = (Symbol.ofText? rest).map ((Symbol.ofLexeme? l).toList ++ ·) := by
  rw [Symbol.ofText?, Symbol.ofText?, scan_of_some h]
  obtain ⟨ls, tail⟩ := scan Symbol.rules rest
  cases tail with
  | nil => cases hl : Symbol.ofLexeme? l <;> simp [hl]
  | cons c tail => rfl

theorem ofText?_dropWhile (s : Text) : Symbol.ofText? (s.dropWhile isSpace) = Symbol.ofText? s := by
  have hs := List.takeWhile_append_dropWhile (p := isSpace) (l := s)
  by_cases hne : s.takeWhile isSpace = []
  · rw [hne, List.nil_append] at hs
    rw [hs]
  · have hspace : ∀ c ∈ s.takeWhile isSpace, isSpace c = true := 
      List.all_eq_true.1 List.all_takeWhile
    have hrest : ∀ c ∈ (s.dropWhile isSpace).head?, isSpace c = false := by
      have hhead := List.head?_dropWhile_not isSpace s
      intro c hc
      rw [Option.mem_def.1 hc] at hhead
      exact hhead
    have hfirst := first_space hne hspace hrest
    rw [hs] at hfirst
    rw [ofText?_of_first hfirst]
    cases Symbol.ofText? (s.dropWhile isSpace) <;> rfl

theorem ofText?_space_append {gap : Text} (hgap : ∀ c ∈ gap, isSpace c = true) (s : Text) :
    Symbol.ofText? (gap ++ s) = Symbol.ofText? s := by
  rw [← ofText?_dropWhile, List.dropWhile_append_of_pos hgap, ofText?_dropWhile]

def Marks (s : Text) (sym : Symbol) : Prop :=
  ∀ rest, Symbol.ofText? (s ++ rest) = (Symbol.ofText? rest).map (sym :: ·)

/-- Whether the text has the symbols, also where it ends before another text. -/
def Lexes (s : Text) (ss : List Symbol) : Prop :=
  ∀ rest, Ends rest → Symbol.ofText? (s ++ rest) = (Symbol.ofText? rest).map (ss ++ ·)

theorem marks_of_first {s : Text} {l : Lexeme SymbolKind} {sym : Symbol}
    (h : ∀ rest, first Symbol.rules (s ++ rest) = some (l, rest))
    (hl : Symbol.ofLexeme? l = some sym) : Marks s sym := fun rest => by
  rw [ofText?_of_first (h rest), hl]
  rfl

theorem marks_word {k : SymbolKind} {c : Char} {w : Text} {sym : Symbol}
    {after : List (Rule SymbolKind)} (hr : Symbol.rules.filter (·.pattern.begins c) =
      ⟨k, word (c :: w), .longest⟩ :: after)
    (hl : Symbol.ofLexeme? ⟨k, c :: w⟩ = some sym) : Marks (c :: w) sym :=
  marks_of_first (first_word hr) hl

theorem marks_quoted {s : Text} (h : Matches (.many Symbol.stringItem) s) :
    Marks (quoted s) (.scalar (.string s)) := by
  have hstring : Symbol.ofLexeme? ⟨.string, quoted s⟩ = some (.scalar (.string s)) := by
    simp [Symbol.ofLexeme?, quoted]
  exact marks_of_first (first_quoted h) hstring

theorem Marks.lexes {s : Text} {sym : Symbol} (h : Marks s sym) : Lexes s [sym] :=
  fun rest _ => h rest

theorem lexes_number {s : Text} (h : Matches Symbol.number s) :
    Lexes s [.scalar (.number s)] := fun rest hrest => by
  rw [ofText?_of_first (first_number h hrest)]
  rfl

theorem lexes_nil : Lexes [] [] := fun rest _ => by simp

theorem Lexes.ofText? {s : Text} {ss : List Symbol} (h : Lexes s ss) :
    Symbol.ofText? s = some ss := by
  have hs := h [] nofun
  have hnil : Symbol.ofText? [] = some [] := by rw [Symbol.ofText?, scan_of_none (first_nil _)]; rfl
  rw [List.append_nil, hnil, Option.map_some, List.append_nil] at hs
  exact hs

theorem Lexes.space_append {gap s : Text} {ss : List Symbol} (hgap : ∀ c ∈ gap, isSpace c = true)
    (h : Lexes s ss) : Lexes (gap ++ s) ss := fun rest hrest => by
  rw [List.append_assoc, ofText?_space_append hgap, h rest hrest]

theorem Marks.append {s t : Text} {sym : Symbol} {ts : List Symbol} (hs : Marks s sym)
    (ht : Lexes t ts) : Lexes (s ++ t) (sym :: ts) := fun rest hrest => by
  rw [List.append_assoc, hs, ht rest hrest, Option.map_map]
  rfl

theorem Lexes.append {s t : Text} {ss ts : List Symbol} (hs : Lexes s ss) (ht : Lexes t ts)
    (hends : Ends t) (hne : t ≠ []) : Lexes (s ++ t) (ss ++ ts) := fun rest hrest => by
  rw [List.append_assoc, hs _ (hends.append hne rest), ht rest hrest, Option.map_map]
  congr 1
  funext us
  exact (List.append_assoc ss ts us).symm

end Symbols

section Members

variable {α : Type} {text : α → Text} {symbols : α → List Symbol} {items : List α}

theorem lexes_members (h : ∀ v ∈ items, Lexes (text v) (symbols v)) :
    Lexes (List.intercalate [','] (items.map text))
      (List.intercalate [Symbol.comma] (items.map symbols)) := by
  have hcomma : Marks [','] .comma := marks_word rfl rfl
  induction items with
  | nil => exact lexes_nil
  | cons v items ih =>
    obtain ⟨hv, hitems⟩ := List.forall_mem_cons.1 h
    cases items with
    | nil =>
      rw [List.map_singleton, List.map_singleton, List.intercalate_singleton,
        List.intercalate_singleton]
      exact hv
    | cons w items =>
      have hends : Ends (',' :: List.intercalate [','] ((w :: items).map text)) := by
        rintro _ ⟨⟩
        decide
      have hrest := hcomma.append (ih hitems)
      rw [List.map_cons, List.map_cons, List.map_cons, List.map_cons, List.intercalate_cons_cons,
        List.intercalate_cons_cons, List.append_assoc, List.append_assoc]
      exact hv.append hrest hends (List.cons_ne_nil _ _)

theorem lexes_enclosed {o c : Char} {opening closing : Symbol} (ho : Marks [o] opening)
    (hc : Marks [c] closing) {gap last : Text} (hgap : ∀ c ∈ gap, isSpace c = true)
    (hlast : ∀ c ∈ last, isSpace c = true) (hends : Ends (last ++ [c]))
    (h : ∀ v ∈ items, Lexes (text v) (symbols v)) :
    Lexes (o :: (List.intercalate [','] (items.map (gap ++ text ·)) ++ (last ++ [c])))
      (opening :: (List.intercalate [Symbol.comma] (items.map symbols) ++ [closing])) := by
  have hmembers := lexes_members fun v hv => (h v hv).space_append hgap
  have hclosing : Lexes (last ++ [c]) [closing] := hc.lexes.space_append hlast
  exact ho.append (hmembers.append hclosing hends (by simp))

theorem lexes_block {o c : Char} {opening closing : Symbol} (ho : Marks [o] opening)
    (hc : Marks [c] closing) (n : Nat)
    (h : ∀ v ∈ items, Lexes (text v) (symbols v)) :
    Lexes (block o c n (items.map text))
      (opening :: (List.intercalate [Symbol.comma] (items.map symbols) ++ [closing])) := by
  have hline (n : Nat) : ∀ c ∈ '\n' :: List.replicate n ' ', isSpace c = true := by
    intro c hc
    obtain rfl | hc := List.mem_cons.1 hc
    · rfl
    · rw [List.eq_of_mem_replicate hc]
      rfl
  cases items with
  | nil => exact ho.append hc.lexes
  | cons v items =>
    have hends : Ends ('\n' :: List.replicate n ' ' ++ [c]) := by
      rintro _ ⟨⟩
      decide
    have hlexes := lexes_enclosed ho hc (hline (n + 2)) (hline n) hends h
    rw [block, List.map_map]
    exact hlexes

end Members

section Values

theorem renderItems_eq (items : List Json) : renderItems items = items.map render := by
  induction items with
  | nil => rfl
  | cons v items ih => rw [renderItems, ih, List.map_cons]

theorem renderFields_eq (fields : List (Text × Json)) :
    renderFields fields = fields.map fun f => quoted f.1 ++ ':' :: f.2.render := by
  induction fields with
  | nil => rfl
  | cons f fields ih => rw [renderFields, ih, List.map_cons]

theorem prettyItems_eq (n : Nat) (items : List Json) :
    prettyItems n items = items.map (prettyFrom n) := by
  induction items with
  | nil => rfl
  | cons v items ih => rw [prettyItems, ih, List.map_cons]

theorem prettyFields_eq (n : Nat) (fields : List (Text × Json)) :
    prettyFields n fields = fields.map fun f => quoted f.1 ++ ':' :: ' ' :: f.2.prettyFrom n := by
  induction fields with
  | nil => rfl
  | cons f fields ih => rw [prettyFields, ih, List.map_cons]

theorem itemSymbols_eq (items : List Json) : itemSymbols items = items.map symbols := by
  induction items with
  | nil => rfl
  | cons v items ih => rw [itemSymbols, ih, List.map_cons]

theorem fieldSymbols_eq (fields : List (Text × Json)) :
    fieldSymbols fields =
      fields.map fun f => .scalar (.string f.1) :: .colon :: f.2.symbols := by
  induction fields with
  | nil => rfl
  | cons f fields ih => rw [fieldSymbols, ih, List.map_cons]

theorem lexes_field {key gap v : Text} {ss : List Symbol}
    (hkey : Matches (.many Symbol.stringItem) key) (hgap : ∀ c ∈ gap, isSpace c = true)
    (hv : Lexes v ss) :
    Lexes (quoted key ++ ':' :: (gap ++ v)) (.scalar (.string key) :: .colon :: ss) := by
  have hcolon : Marks [':'] .colon := marks_word rfl rfl
  exact (marks_quoted hkey).append (hcolon.append (hv.space_append hgap))

theorem isSpace_nil : ∀ c ∈ ([] : Text), isSpace c = true := nofun

theorem Spelled.lexes_render {j : Json} (h : j.Spelled) : Lexes j.render j.symbols := by
  induction h with
  | null => exact (marks_word rfl rfl).lexes
  | bool b => cases b <;> exact (marks_word rfl rfl).lexes
  | number h => exact lexes_number h
  | string h => exact (marks_quoted h).lexes
  | array _ ih =>
    rw [render, symbols, renderItems_eq, itemSymbols_eq]
    exact lexes_enclosed (marks_word rfl rfl) (marks_word rfl rfl) isSpace_nil isSpace_nil
      (by rintro _ ⟨⟩; decide) ih
  | object hkeys _ ih =>
    have hfields := fun f hf => lexes_field (hkeys f hf) isSpace_nil (ih f hf)
    rw [render, symbols, renderFields_eq, fieldSymbols_eq]
    exact lexes_enclosed (marks_word rfl rfl) (marks_word rfl rfl) isSpace_nil isSpace_nil
      (by rintro _ ⟨⟩; decide) hfields

/-- The text with lines has the same symbols, from whatever margin on. -/
theorem Spelled.lexes_prettyFrom {j : Json} (h : j.Spelled) (n : Nat) :
    Lexes (j.prettyFrom n) j.symbols := by
  induction h generalizing n with
  | null => exact (marks_word rfl rfl).lexes
  | bool b => cases b <;> exact (marks_word rfl rfl).lexes
  | number h => exact lexes_number h
  | string h => exact (marks_quoted h).lexes
  | array _ ih =>
    have hitems := fun v hv => ih v hv (n + 2)
    rw [prettyFrom, symbols, prettyItems_eq, itemSymbols_eq]
    exact lexes_block (marks_word rfl rfl) (marks_word rfl rfl) n hitems
  | object hkeys _ ih =>
    have hgap : ∀ c ∈ [' '], isSpace c = true := forall_mem_of_all (by decide)
    have hfields := fun f hf => lexes_field (hkeys f hf) hgap (ih f hf (n + 2))
    rw [prettyFrom, symbols, prettyFields_eq, fieldSymbols_eq]
    exact lexes_block (marks_word rfl rfl) (marks_word rfl rfl) n hfields

theorem Spelled.parse?_render {j : Json} (h : j.Spelled) : parse? j.render = some j :=
  parse?_of_symbols h.lexes_render.ofText?

theorem Spelled.parse?_pretty {j : Json} (h : j.Spelled) : parse? j.pretty = some j :=
  parse?_of_symbols (h.lexes_prettyFrom 0).ofText?

end Values

end Stencil.Json
