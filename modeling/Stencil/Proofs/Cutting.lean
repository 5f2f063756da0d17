import Stencil.Proofs.RuleTable
import Stencil.Proofs.TokenEdges
import Stencil.Proofs.Utf8

namespace Stencil

namespace Lexer

variable {κ : Type} {rules : List (Rule κ)} {r : Rule κ} {l : Lexeme κ} {s t x y tail : Text}

theorem Rule.take_eq_none_of_isPrefix (ht : t <+: s) (h : r.take s = none) : r.take t = none := by
  obtain hnull | hnone := Rule.take_eq_none_iff.1 h
  · exact Rule.take_eq_none_iff.2 (.inl hnull)
  · exact Rule.take_eq_none_iff.2 (.inr fun m hm => hnone m (hm.trans ht))

theorem Rule.take_of_isPrefix (hy : y <+: x) (h : r.take (l.text ++ x) = some (l, x)) :
    r.take (l.text ++ y) = some (l, y) := by
  have hends : l.text ++ y <+: l.text ++ x := (List.prefix_append_right_inj l.text).2 hy
  obtain ⟨hkind, hne, hsplit⟩ := Rule.take_eq_some_iff.1 h
  refine Rule.take_eq_some_iff.2 ⟨hkind, hne, ?_⟩
  unfold Rule.split at hsplit ⊢
  cases hr : r.reach with
  | longest =>
    rw [hr] at hsplit
    obtain ⟨-, hm, hmax⟩ := Pattern.longest_eq_some_iff.1 hsplit
    exact Pattern.longest_eq_some_iff.2 ⟨rfl, hm, fun t ht => hmax t (ht.trans hends)⟩
  | shortest =>
    rw [hr] at hsplit
    obtain ⟨-, hm, hmin⟩ := Pattern.shortest_eq_some_iff.1 hsplit
    exact Pattern.shortest_eq_some_iff.2 ⟨rfl, hm, fun t ht => hmin t (ht.trans hends)⟩

theorem first_of_isPrefix (hy : y <+: x) (h : first rules (l.text ++ x) = some (l, x)) :
    first rules (l.text ++ y) = some (l, y) := by
  obtain ⟨before, r, after, hrules, hr, hnone⟩ := first_eq_some_iff.1 h
  have hends : l.text ++ y <+: l.text ++ x := (List.prefix_append_right_inj l.text).2 hy
  exact first_eq_some_iff.2 ⟨before, r, after, hrules, Rule.take_of_isPrefix hy hr,
    fun q hq => Rule.take_eq_none_of_isPrefix hends (hnone q hq)⟩

theorem Lexed.of_append_left {ls ms : List (Lexeme κ)} (h : Lexed rules tail (ls ++ ms))
    (hy : y <+: ms.flatMap (·.text) ++ tail) : Lexed rules y ls := by
  induction ls with
  | nil => trivial
  | cons l ls ih =>
    rw [List.cons_append] at h
    obtain ⟨hl, hls⟩ := h
    rw [List.flatMap_append, List.append_assoc] at hl
    exact ⟨first_of_isPrefix ((List.prefix_append_right_inj _).2 hy) hl, ih hls⟩

end Lexer

namespace Token

/-- Whether a token of the text starts or ends at the offset. -/
def IsEdge (s : Text) (b : Nat) : Prop :=
  ∃ t offset, (t, offset) ∈ located 0 (tokenize s) ∧ (b = offset ∨ b = offset + t.text.utf8Length)

def shifted (b : Nat) (ts : List (Token × Nat)) : List (Token × Nat) :=
  ts.map fun (t, offset) => (t, offset + b)

variable {s : Text} {b start : Nat} {t : Token} {ts us : List Token}

theorem located_append (start : Nat) (ts us : List Token) :
    located start (ts ++ us) =
      located start ts ++ located (start + (spelling ts).utf8Length) us := by
  induction ts generalizing start with
  | nil => rfl
  | cons t ts ih =>
    have hlength : (spelling (t :: ts)).utf8Length =
        t.text.utf8Length + (spelling ts).utf8Length := Text.utf8Length_append ..
    rw [List.cons_append, located, located, ih, hlength, Nat.add_assoc, List.cons_append]

theorem shifted_located (b start : Nat) (ts : List Token) :
    shifted b (located start ts) = located (start + b) ts := by
  induction ts generalizing start with
  | nil => rfl
  | cons t ts ih =>
    have htail := ih (start + t.text.utf8Length)
    rw [Nat.add_right_comm] at htail
    rw [located, located, ← htail]
    rfl

theorem map_fst_located (start : Nat) (ts : List Token) : (located start ts).map Prod.fst = ts := by
  induction ts generalizing start with
  | nil => rfl
  | cons t ts ih => rw [located, List.map_cons, ih]

theorem tokenize_of_append (h : tokenize s = ts ++ us) :
    tokenize (spelling ts) = ts ∧ tokenize (spelling us) = us := by
  have hlexed := lexed_tokenize s
  rw [h] at hlexed
  exact ⟨tokenize_of_lexed (hlexed.of_append_left List.nil_prefix),
    tokenize_of_lexed hlexed.of_append_right⟩

theorem tokenize_of_mem (ht : t ∈ tokenize s) : tokenize t.text = [t] := by
  obtain ⟨ts, us, h⟩ := List.append_of_mem ht
  obtain ⟨-, htail⟩ := tokenize_of_append h
  rw [← List.singleton_append] at htail
  obtain ⟨hone, -⟩ := tokenize_of_append htail
  rwa [spelling, List.flatMap_singleton] at hone

theorem exists_append_of_isEdge (h : IsEdge s b) :
    ∃ ts us, tokenize s = ts ++ us ∧ (spelling ts).utf8Length = b := by
  obtain ⟨t, offset, hmem, hb⟩ := h
  obtain ⟨before, after, hlocated⟩ := List.append_of_mem hmem
  obtain ⟨ts, us, htokens, -, rfl⟩ := exists_of_located hlocated
  rw [Nat.zero_add] at hb
  obtain rfl | rfl := hb
  · exact ⟨ts, t :: us, htokens, rfl⟩
  · refine ⟨ts ++ [t], us, by simp [htokens], ?_⟩
    rw [spelling_append, Text.utf8Length_append, spelling, spelling, List.flatMap_singleton]

theorem isEdge_of_append (h : tokenize s = ts ++ us) (hne : ts ≠ []) :
    IsEdge s (spelling ts).utf8Length := by
  obtain ⟨init, t, rfl⟩ := List.eq_nil_or_concat ts |>.resolve_left hne
  rw [List.concat_eq_append] at h ⊢
  refine ⟨t, (spelling init).utf8Length, ?_, .inr ?_⟩
  · rw [h, List.append_assoc, located_append, Nat.zero_add]
    exact List.mem_append_right _ List.mem_cons_self
  · rw [spelling_append, Text.utf8Length_append, spelling, spelling, List.flatMap_singleton]

end Token

/-- A text can be cut where a token starts or ends, and nowhere else but before all of it: there its
tokens are those of the text before the cut and those of the text after it, which stand as much
later as the former takes up. A token by itself is its own and only token. -/
theorem tokenize_cut (s : Text) :
    (∀ b, Token.IsEdge s b ∨ b = 0 ↔ ∃ s₁ s₂, s.cut? b = some (s₁, s₂) ∧
      Token.located 0 (tokenize s) =
        Token.located 0 (tokenize s₁) ++ Token.shifted b (Token.located 0 (tokenize s₂))) ∧
    ∀ t ∈ tokenize s, tokenize t.text = [t] := by
  refine ⟨fun b => ⟨fun h => ?_, ?_⟩, fun t => Token.tokenize_of_mem⟩
  · obtain ⟨ts, us, htokens, rfl⟩ : ∃ ts us, tokenize s = ts ++ us ∧
        (Token.spelling ts).utf8Length = b := by
      obtain hedge | rfl := h
      · exact Token.exists_append_of_isEdge hedge
      · exact ⟨[], tokenize s, rfl, rfl⟩
    obtain ⟨hts, hus⟩ := Token.tokenize_of_append htokens
    refine ⟨Token.spelling ts, Token.spelling us, Text.cut?_eq_some_iff.2 ⟨?_, rfl⟩, ?_⟩
    · rw [← Token.spelling_append, ← htokens, spelling_tokenize]
    · rw [htokens, hts, hus, Token.located_append, Token.shifted_located]
  · rintro ⟨s₁, s₂, hcut, htokens⟩
    obtain ⟨rfl, rfl⟩ := Text.cut?_eq_some_iff.1 hcut
    rw [Token.shifted_located, Nat.zero_add] at htokens
    have happend := congrArg (List.map Prod.fst) htokens
    rw [List.map_append, Token.map_fst_located, Token.map_fst_located,
      Token.map_fst_located] at happend
    by_cases hnil : tokenize s₁ = []
    · right
      rw [← spelling_tokenize s₁, hnil]
      rfl
    · left
      have hedge := Token.isEdge_of_append happend hnil
      rwa [spelling_tokenize] at hedge

theorem tokenize_cut_comment :
    Token.IsEdge "é/* a */*/".toList 9 ∧
    (∃ s₁ s₂, Text.cut? "é/* a */*/".toList 9 = some (s₁, s₂) ∧
      Token.located 0 (tokenize "é/* a */*/".toList) =
        Token.located 0 (tokenize s₁) ++ Token.shifted 9 (Token.located 0 (tokenize s₂))) ∧
    ⟨.comment, "/* a */".toList⟩ ∈ tokenize "é/* a */*/".toList ∧
    tokenize "/* a */".toList = [⟨.comment, "/* a */".toList⟩] := by
  have hedge : Token.IsEdge "é/* a */*/".toList 9 :=
    ⟨⟨.comment, "/* a */".toList⟩, 2, by decide +kernel, .inr rfl⟩
  have hmem : ⟨.comment, "/* a */".toList⟩ ∈ tokenize "é/* a */*/".toList := by decide +kernel
  obtain ⟨hcut, htoken⟩ := tokenize_cut "é/* a */*/".toList
  exact ⟨hedge, (hcut 9).1 (.inl hedge), hmem, htoken _ hmem⟩

-- What is cut inside a token can be other tokens.
example : tokenize "range $i :=".toList = [⟨.range, "range $i :=".toList⟩] ∧
    (tokenize "range $i :".toList).map (·.kind) = [.ident, .space, .keyword, .space, .text] := by
  decide +kernel

end Stencil
