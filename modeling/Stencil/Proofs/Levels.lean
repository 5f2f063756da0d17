import Stencil.Proofs.Limits

namespace Stencil

namespace Token

/-- The levels of the pipelines that are open, the innermost first, after one more token. -/
def levels (t : Token) : List Nat → List Nat
  | [] => []
  | l :: ls => match t.kind with
    | .groupOpen => (l + 1) :: l :: ls
    | .pipe => (l + 1) :: ls
    | .groupClose => ls
    | _ => l :: ls

def levelsAfter (ls : List Nat) (ts : List Token) : List Nat := ts.foldl (fun ls t => t.levels ls) ls

/-- Whether tokens stay above the level `n`, and all those that are the first of them do. -/
def Above (n : Nat) (ls : List Nat) (ts : List Token) : Prop :=
  ∀ us, us <+: ts → (levelsAfter ls us).headD 0 < n

/-- Whether the last of the tokens is the first that opens the level `n`. -/
def Opens (n : Nat) (ls : List Nat) (ts : List Token) : Prop :=
  ∃ us o, ts = us ++ [o] ∧ o.kind ∈ [.groupOpen, .pipe] ∧
    (levelsAfter ls ts).headD 0 = n ∧ Above n ls us

variable {n l : Nat} {ls : List Nat} {t : Token} {ts us : List Token}

theorem levels_groupOpen (h : t.kind = .groupOpen) : t.levels (l :: ls) = (l + 1) :: l :: ls := by
  rw [levels, h]

theorem levels_pipe (h : t.kind = .pipe) : t.levels (l :: ls) = (l + 1) :: ls := by
  rw [levels, h]

theorem levels_groupClose (h : t.kind = .groupClose) : t.levels (l :: ls) = ls := by
  rw [levels, h]

theorem levels_of_kind (h : t.kind ∉ [.groupOpen, .pipe, .groupClose]) : t.levels ls = ls := by
  cases ls with
  | nil => rfl
  | cons l ls => cases hk : t.kind <;> simp_all [levels]

theorem levelsAfter_append : levelsAfter ls (ts ++ us) = levelsAfter (levelsAfter ls ts) us :=
  List.foldl_append

theorem levelsAfter_cons : levelsAfter ls (t :: ts) = levelsAfter (t.levels ls) ts := rfl

theorem levelsAfter_of_kind (h : ∀ t ∈ ts, t.kind ∉ [.groupOpen, .pipe, .groupClose]) :
    levelsAfter ls ts = ls := by
  induction ts with
  | nil => rfl
  | cons t ts ih =>
    obtain ⟨ht, hts⟩ := List.forall_mem_cons.1 h
    rw [levelsAfter_cons, levels_of_kind ht, ih hts]

theorem kind_of_value {v : Variable} (h : t.toVariable? = some (.ok v)) :
    ∀ u ∈ [t], u.kind ∉ [.groupOpen, .pipe, .groupClose] := by
  obtain ⟨hb, -, hg⟩ := kind_of_toVariable? h
  rw [List.forall_mem_singleton]
  intro hk
  simp only [List.mem_cons, List.not_mem_nil, or_false] at hk
  obtain hk | hk | hk := hk
  · exact hg hk
  all_goals
    rw [hk] at hb
    cases hb

theorem above_nil : Above n (l :: ls) [] ↔ l < n := by
  simp [Above, levelsAfter]

theorem above_cons :
    Above n (l :: ls) (t :: ts) ↔ l < n ∧ Above n (t.levels (l :: ls)) ts := by
  simp only [Above, List.prefix_cons_iff]
  constructor
  · intro h
    exact ⟨h [] (.inl rfl), fun us hus => h (t :: us) (.inr ⟨us, rfl, hus⟩)⟩
  · rintro ⟨hl, hts⟩ us (rfl | ⟨us, rfl, hus⟩)
    · exact hl
    · exact hts us hus

theorem above_append :
    Above n ls (ts ++ us) ↔ Above n ls ts ∧ Above n (levelsAfter ls ts) us := by
  constructor
  · intro h
    refine ⟨fun vs hvs => h vs (hvs.trans (List.prefix_append ..)), fun vs hvs => ?_⟩
    rw [← levelsAfter_append]
    exact h _ ((List.prefix_append_right_inj ts).2 hvs)
  · rintro ⟨hts, hus⟩ vs hvs
    obtain hle | ⟨ws, rfl⟩ := List.prefix_or_prefix_of_prefix hvs (List.prefix_append ts us)
    · exact hts vs hle
    · rw [levelsAfter_append]
      exact hus ws ((List.prefix_append_right_inj ts).1 hvs)

theorem above_of_kind (h : ∀ t ∈ ts, t.kind ∉ [.groupOpen, .pipe, .groupClose]) (hl : l < n) :
    Above n (l :: ls) ts := by
  intro us hus
  rw [levelsAfter_of_kind fun t ht => h t (hus.subset ht)]
  exact hl

theorem Opens.cons {m : Nat} {ms : List Nat} (ht : t.kind ∈ [.groupOpen, .pipe])
    (hlevels : t.levels (l :: ls) = m :: ms) (hl : l < n)
    (hts : (ts = [] ∧ m = n) ∨ Opens n (m :: ms) ts) : Opens n (l :: ls) (t :: ts) := by
  obtain ⟨rfl, rfl⟩ | ⟨us, o, rfl, ho, hn, hus⟩ := hts
  · refine ⟨[], t, rfl, ht, ?_, above_nil.2 hl⟩
    rw [levelsAfter_cons, hlevels]
    rfl
  · refine ⟨t :: us, o, rfl, ho, ?_, above_cons.2 ⟨hl, hlevels ▸ hus⟩⟩
    rwa [levelsAfter_cons, hlevels]

theorem Opens.append (hus : Opens n (levelsAfter ls ts) us) (hts : Above n ls ts) :
    Opens n ls (ts ++ us) := by
  obtain ⟨vs, o, rfl, ho, hn, hvs⟩ := hus
  refine ⟨ts ++ vs, o, (List.append_assoc ..).symm, ho, ?_, above_append.2 ⟨hts, hvs⟩⟩
  rwa [levelsAfter_append]

end Token

def Pipeline.pipes : Pipeline → Nat
  | .stage _ => 0
  | .piped _ p => p.pipes + 1

def Phrase.pipes : Phrase → Nat
  | .variable _ | .group _ => 0
  | .pipeline p => p.pipes

/-- The first pipelines in a symbol are so many levels below it. -/
def Symbol.descent : Symbol → Nat
  | .action | .pipeline => 0
  | .group | .variable => 1

namespace Spells

variable {bound l n : Nat} {ts : List Token} {x : Phrase}

theorem levelsAfter_eq (h : Spells n ts x) (l : Nat) (ls : List Nat) :
    Token.levelsAfter (l :: ls) ts = (l + x.pipes) :: ls := by
  induction h generalizing l ls with
  | token h => exact Token.levelsAfter_of_kind (Token.kind_of_value h)
  | space hne h => exact Token.levelsAfter_of_kind fun t ht => by rw [h t ht]; decide
  | grouping ho hc h ih =>
    rw [Token.levelsAfter_cons, Token.levels_groupOpen ho, Token.levelsAfter_append, ih,
      Token.levelsAfter_cons, Token.levels_groupClose hc]
    rfl
  | nil => rfl
  | cons hv hg hs ihv ihg =>
    rw [Token.levelsAfter_append, ihv]
    exact ihg l ls
  | stage hg hne ih => exact ih l ls
  | @piped n t ts us g p hg hne ht hp ihg ihp =>
    rw [Token.levelsAfter_append, ihg, Token.levelsAfter_cons]
    simp only [Phrase.pipes, Nat.add_zero, Token.levels_pipe ht, ihp, Pipeline.pipes]
    rw [Nat.add_assoc, Nat.add_comm 1]

theorem above (h : Spells n ts x) {ls : List Nat} (hb : l + n + x.symbol.descent ≤ bound) :
    Token.Above bound (l :: ls) ts := by
  induction h generalizing l ls with
  | @token n t v h =>
    have hl : l < bound := (Nat.le_add_right l n).trans_lt hb
    exact Token.above_of_kind (Token.kind_of_value h) hl
  | @space n ts hne h =>
    have hl : l < bound := (Nat.le_add_right l n).trans_lt hb
    exact Token.above_of_kind (fun t ht => by rw [h t ht]; decide) hl
  | @grouping n o c ts p ho hc h ih =>
    have hl : l < bound := (Nat.le_add_right l n).trans_lt hb
    have hbody : Token.Above bound ((l + 1) :: l :: ls) ts := by
      refine ih ?_
      rw [Nat.succ_add]
      exact hb
    have hend := hbody ts ts.prefix_rfl
    rw [h.levelsAfter_eq] at hend
    refine Token.above_cons.2 ⟨hl, ?_⟩
    rw [Token.levels_groupOpen ho]
    refine Token.above_append.2 ⟨hbody, ?_⟩
    rw [h.levelsAfter_eq]
    refine Token.above_cons.2 ⟨hend, ?_⟩
    rw [Token.levels_groupClose hc]
    exact Token.above_nil.2 hl
  | @nil n => exact Token.above_nil.2 ((Nat.le_add_right l n).trans_lt hb)
  | cons hv hg hs ihv ihg =>
    refine Token.above_append.2 ⟨ihv hb, ?_⟩
    rw [hv.levelsAfter_eq]
    exact ihg hb
  | stage hg hne ih => exact ih hb
  | @piped n t ts us g p hg hne ht hp ihg ihp =>
    have hl : l < bound := (Nat.le_add_right l n).trans_lt hb
    refine Token.above_append.2 ⟨ihg hb, ?_⟩
    rw [hg.levelsAfter_eq]
    refine Token.above_cons.2 ⟨hl, ?_⟩
    rw [Token.levels_pipe ht]
    refine ihp ?_
    rw [Nat.succ_add]
    exact hb

end Spells

theorem Reader.kind_unexpected_ne (e : Text) (ts : List Token) (k : Nat) :
    (unexpected e ts).kind ≠ .nestingTooDeep k := by
  unfold unexpected
  split
  · nofun
  · split <;> nofun

namespace Breaks

variable {limit bound k n : Nat} {us : List Token} {f : Failure}

/-- Where the reader runs out of levels it has just read what opens the one that is too many, unless
it begins there. -/
theorem opens {s : Symbol} (h : Breaks limit s n us f) (hs : s ≠ .action)
    (hk : f.kind = .nestingTooDeep k) (l : Nat) (ls : List Nat) (hb : l + n + s.descent = bound) :
    k = limit ∧ ((us = [] ∧ l = bound) ∨ Token.Opens bound (l :: ls) us) := by
  induction h generalizing l ls with
  | literal h => cases hk
  | unclosed | empty => exact (Reader.kind_unexpected_ne _ _ k hk).elim
  | unopened | action | unended | trailing => exact (hs rfl).elim
  | @grouping n o us f ho h ih =>
    have hl : l < bound := hb ▸ Nat.lt_succ_of_le (Nat.le_add_right l n)
    have hbody : l + 1 + n = bound := by
      rw [Nat.succ_add]
      exact hb
    obtain ⟨rfl, hopens⟩ := ih nofun hk (l + 1) (l :: ls) hbody
    exact ⟨rfl, .inr (.cons (by simp [ho]) (Token.levels_groupOpen ho) hl hopens)⟩
  | @group n us vs g f hg h ih =>
    have hl : l < bound := hb ▸ Nat.lt_succ_of_le (Nat.le_add_right l n)
    obtain ⟨rfl, ⟨-, rfl⟩ | hopens⟩ := ih nofun hk l ls hb
    · exact (Nat.lt_irrefl l hl).elim
    · refine ⟨rfl, .inr (.append ?_ (hg.above hb.le))⟩
      rw [hg.levelsAfter_eq]
      exact hopens
  | full =>
    cases hk
    exact ⟨rfl, .inl ⟨rfl, hb⟩⟩
  | stage h ih => exact ih nofun hk l ls hb
  | @piped n t us vs g f hg hne ht h ih =>
    have hl : l < bound := hb ▸ Nat.lt_succ_of_le (Nat.le_add_right l n)
    have hnext : l + 1 + n = bound := by
      rw [Nat.succ_add]
      exact hb
    obtain ⟨rfl, hopens⟩ := ih nofun hk (l + 1) ls hnext
    refine ⟨rfl, .inr (.append ?_ (hg.above hb.le))⟩
    rw [hg.levelsAfter_eq]
    exact .cons (by simp [ht]) (Token.levels_pipe ht) hl hopens

theorem opens_of_action (h : Breaks limit .action (n + 1) us f)
    (hk : f.kind = .nestingTooDeep k) : k = limit ∧ Token.Opens (n + 1) [0] us := by
  cases h with
  | unopened | unended => exact (Reader.kind_unexpected_ne _ _ k hk).elim
  | trailing => cases hk
  | @action _ o us _ ho h =>
    obtain ⟨rfl, ⟨-, hzero⟩ | hopens⟩ := h.opens nofun hk 0 [] (Nat.zero_add _)
    · cases hzero
    · have hstart : ∀ t ∈ [o], t.kind ∉ [.groupOpen, .pipe, .groupClose] := by simp [ho]
      have hrest : Token.Opens (n + 1) (Token.levelsAfter [0] [o]) us := by
        rw [Token.levelsAfter_of_kind hstart]
        exact hopens
      exact ⟨rfl, hrest.append (Token.above_of_kind hstart n.succ_pos)⟩

end Breaks

end Stencil
