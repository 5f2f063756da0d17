import Stencil.Proofs.Acceptance
import Stencil.Proofs.Braces
import Stencil.Proofs.Relexing

namespace Stencil

/-- Whether the token stands for a string that has two closing braces in a row. -/
def Token.Breaks (t : Token) : Prop :=
  ∃ v, t.toVariable? = some (.ok (.string v)) ∧ ['}', '}'] <:+: v

theorem Token.Breaks.kind_notMem {t : Token} (h : t.Breaks) :
    t.kind ∉ [.comment, .statementOpen, .statementClose] := by
  obtain ⟨v, hv, -⟩ := h
  intro hk
  simp only [List.mem_cons, List.not_mem_nil, or_false] at hk
  obtain hk | hk | hk := hk <;> simp [Token.toVariable?, hk] at hv

/-- The segment with the tokens as its action, delimiters included, in canonical spelling. -/
def Segment.withTokens (g : Segment) (ts : List Token) : Segment :=
  { g with inner := ((ts.flatMap Token.canonical).drop 2).dropLast.dropLast }

theorem Token.respelled_opening (left : Bool) : (opening left).respelled = opening left :=
  respelled_of_kind (by simp [opening])

theorem Token.respelled_closing (right : Bool) : (closing right).respelled = closing right :=
  respelled_of_kind (by simp [closing])

section Delimited

variable {left right : Bool} {vs : List Token} {g : Segment}

theorem Token.flatMap_canonical_delimited :
    (opening left :: (vs ++ [closing right])).flatMap canonical =
      '{' :: '{' :: ((if left then ['-'] else []) ++ vs.flatMap canonical ++
        (if right then ['-'] else [])) ++ ['}', '}'] := by
  rw [flatMap_canonical_enclosed (by simp [opening]) (by simp [closing])]
  simp [opening, closing]

theorem Segment.inner_withTokens :
    (g.withTokens (Token.opening left :: (vs ++ [Token.closing right]))).inner =
      (if left then ['-'] else []) ++ vs.flatMap Token.canonical ++
        (if right then ['-'] else []) := by
  rw [withTokens, Token.flatMap_canonical_delimited]
  simp

theorem Segment.source_withTokens :
    (g.withTokens (Token.opening left :: (vs ++ [Token.closing right]))).source =
      (Token.opening left :: (vs ++ [Token.closing right])).flatMap Token.canonical := by
  rw [Token.flatMap_canonical_delimited, Segment.source, inner_withTokens]

end Delimited

namespace Segment.Holds

variable {limit : Nat} {g : Segment} {left right : Bool} {us : List Token} {p : Pipeline}
  (h : g.Holds limit left us right p) (hg : g.Carved)

include h hg

theorem skips_flatMap_canonical {ts : List Token} (hts : ∀ t ∈ ts, t ∈ us)
    (hclean : ∀ t ∈ ts, ¬ t.Breaks) (y : Option Char) :
    Skips '}' y (ts.flatMap Token.canonical) := by
  rw [← Token.spelling_map_respelled]
  refine Token.skips_spelling (fun t ht => ?_) y
  obtain ⟨u, hu, rfl⟩ := List.mem_map.1 ht
  have hmem := hts u hu
  exact Token.skips_canonical (h.wellFormed u hmem) (h.spells.hasValue u hmem) (h.skips hg u hmem)
    fun v hv hbraces => hclean u hu ⟨v, hv, hbraces⟩

variable {vs : List Token} (hvs : ∀ t ∈ vs, t ∈ us)

include hvs

theorem carved_withTokens (hclean : ∀ t ∈ vs, ¬ t.Breaks) :
    (g.withTokens (Token.opening left :: (vs ++ [Token.closing right]))).Carved := by
  refine ⟨hg.before, ?_⟩
  rw [inner_withTokens]
  exact ((skips_marker left _).append
    (h.skips_flatMap_canonical hg hvs hclean _)).append (skips_marker right _)

/-- An action with braces in a string ends there, in the middle of the string. -/
theorem exists_cut {pre post : List Token} {t : Token} (hsplit : vs = pre ++ t :: post)
    (hclean : ∀ u ∈ pre, ¬ u.Breaks) (ht : t.Breaks) :
    ∃ (c : Segment) (rest : Text),
      g.before ++ (Token.opening left :: (vs ++ [Token.closing right])).flatMap Token.canonical =
        c.before ++ c.source ++ rest ∧
      c.Carved ∧ ∀ a, ¬ SpellsAction limit (tokenize c.source) a := by
  obtain ⟨v, hv, hbraces⟩ := ht
  obtain ⟨w, x, hbody⟩ := Literal.exists_split_of_infix (q := '"') (.inl rfl) hbraces
  have hcanonical : t.canonical = Literal.spellString v := (Token.canonical_of_toVariable? hv).symm
  have hpre : ∀ u ∈ pre, u ∈ us := fun u hu => hvs u (by simp [hsplit, hu])
  have hw : ∀ u ∈ pre.map Token.respelled, u.WellFormed := by
    rw [List.forall_mem_map]
    exact fun u hu => Token.wellFormed_respelled (h.wellFormed u (hpre u hu))
      (h.spells.hasValue u (hpre u hu))
  have hk : ∀ u ∈ pre.map Token.respelled, u.kind ∉ [.statementOpen, .statementClose, .text] := by
    rw [List.forall_mem_map]
    exact fun u hu => h.inner_kind u (hpre u hu)
  let c : Segment := ⟨g.before, (if left then ['-'] else []) ++
    (pre.flatMap Token.canonical ++ '"' :: w)⟩
  refine ⟨c, x ++ '"' :: (post.flatMap Token.canonical ++ (if right then ['-'] else []) ++
    ['}', '}']), ?_, ⟨hg.before, ?_⟩, fun a ha => ?_⟩
  · rw [Token.flatMap_canonical_delimited, hsplit, List.flatMap_append, List.flatMap_cons,
      hcanonical, Literal.spellString, Literal.spell, ← append_of_splitUnescaped hbody]
    simp [c, Segment.source]
  · refine (skips_marker left _).append ((h.skips_flatMap_canonical hg hpre hclean _).append ?_)
    exact .plain (by decide) (fun h => absurd h (by decide)) (skips_of_splitUnescaped hbody)
  · have hsource : c.source = (Token.opening left).text ++
        (Token.spelling (pre.map Token.respelled) ++ '"' :: (w ++ ['}', '}'])) := by
      simp [c, Segment.source, Token.spelling_map_respelled, Token.opening]
    have hquote : ∀ d ∈ ('"' :: (w ++ ['}', '}'])).head?, d ∈ Token.stops := by
      rintro _ ⟨⟩
      decide
    obtain ⟨ws, hws, -⟩ := Token.exists_relexed hw hk hquote
    have hdash : ('"' :: (w ++ ['}', '}'])).head? ≠ some '-' := by
      rintro ⟨⟩
    rw [hsource, Token.tokenize_opening hw hk (.inr hdash), hws,
      Token.tokenize_of_first (Token.first_quote hbody)] at ha
    exact ha.kind_ne_text ⟨.text, ['"']⟩ (by simp) rfl

end Segment.Holds

theorem exists_first {α : Type} {P : α → Prop} {l : List α} (h : ∃ a ∈ l, P a) :
    ∃ l₁ a l₂, l = l₁ ++ a :: l₂ ∧ (∀ b ∈ l₁, ¬ P b) ∧ P a := by
  induction l with
  | nil => simp at h
  | cons b l ih =>
    by_cases hb : P b
    · exact ⟨[], b, l, rfl, by simp, hb⟩
    · obtain ⟨a, ha, hP⟩ := h
      obtain rfl | ha := List.mem_cons.1 ha
      · exact (hb hP).elim
      · obtain ⟨l₁, c, l₂, rfl, hl₁, hc⟩ := ih ⟨a, ha, hP⟩
        exact ⟨b :: l₁, c, l₂, rfl, List.forall_mem_cons.2 ⟨hb, hl₁⟩, hc⟩

def Segment.Breaks (g : Segment) : Prop := ∃ t ∈ tokenize g.source, t.Breaks

/-- Whether the function takes nothing but comments from between delimiters. -/
def TakesComments (f : List Token → List Token) : Prop :=
  ∀ left us right, ∃ vs,
    f (Token.opening left :: (us ++ [Token.closing right])) =
      Token.opening left :: (vs ++ [Token.closing right]) ∧
    (∀ t ∈ vs, t ∈ us) ∧ ∀ t ∈ us, t.kind ≠ .comment → t ∈ vs

theorem takesComments_id : TakesComments id :=
  fun _ us _ => ⟨us, rfl, fun _ => id, fun _ ht _ => ht⟩

section Template

variable {f : List Token → List Token} (hf : TakesComments f) {limit : Nat} {gs : List Segment}
  {as : List Action} (h : SpellsActions limit gs as) (hgs : ∀ g ∈ gs, g.Carved)

include hf

theorem Segment.Holds.exists_taken {g : Segment} {left right : Bool} {us : List Token}
    {p : Pipeline} (h : g.Holds limit left us right p) : ∃ vs,
    f (tokenize g.source) = Token.opening left :: (vs ++ [Token.closing right]) ∧
      (∀ t ∈ vs, t ∈ us) ∧ ((∃ t ∈ vs, t.Breaks) ↔ g.Breaks) := by
  obtain ⟨vs, heq, hvs, hus⟩ := hf left us right
  refine ⟨vs, by rw [h.tokens, heq], hvs, ?_, ?_⟩
  · rintro ⟨t, ht, hb⟩
    exact ⟨t, by rw [h.tokens]; simp [hvs t ht], hb⟩
  · rintro ⟨t, ht, hb⟩
    have hk := hb.kind_notMem
    rw [h.tokens, List.mem_cons, List.mem_append, List.mem_singleton] at ht
    obtain rfl | ht | rfl := ht
    · simp [Token.opening] at hk
    · exact ⟨t, hus t ht fun hc => by simp [hc] at hk, hb⟩
    · simp [Token.closing] at hk

include h hgs

/-- Actions without braces in their strings are the actions of the text that their tokens make up in
canonical spelling. -/
theorem segments_withTokens (hclean : ∀ g ∈ gs, ¬ g.Breaks) {tail : Text}
    (htail : ∀ g rest, nextAction tail ≠ .found g rest) :
    segments (gs.flatMap (fun g => g.before ++ (f (tokenize g.source)).flatMap Token.canonical) ++
        tail) = (gs.map (fun g => g.withTokens (f (tokenize g.source))), tail) := by
  have hfound : ∀ g ∈ gs, (g.withTokens (f (tokenize g.source))).source =
      (f (tokenize g.source)).flatMap Token.canonical ∧
        (g.withTokens (f (tokenize g.source))).Carved := by
    intro g hg
    obtain ⟨left, us, right, p, hholds⟩ := h.exists_holds hg
    obtain ⟨vs, heq, hvs, hbreaks⟩ := hholds.exists_taken hf
    rw [heq]
    refine ⟨Segment.source_withTokens, hholds.carved_withTokens (hgs g hg) hvs fun t ht hb => ?_⟩
    exact hclean g hg (hbreaks.1 ⟨t, ht, hb⟩)
  have hflat : gs.flatMap (fun g => g.before ++ (f (tokenize g.source)).flatMap Token.canonical) =
      (gs.map fun g => g.withTokens (f (tokenize g.source))).flatMap
        (fun g => g.before ++ g.source) := by
    rw [List.flatMap_map]
    refine List.flatMap_congr fun g hg => ?_
    rw [(hfound g hg).1]
    rfl
  rw [hflat]
  refine segments_flatMap (fun g hg => ?_) htail
  obtain ⟨g, hmem, rfl⟩ := List.mem_map.1 hg
  exact (hfound g hmem).2

theorem exists_refused_withTokens (hbreaks : ∃ g ∈ gs, g.Breaks) (tail : Text) :
    ∃ c ∈ (segments (gs.flatMap
      (fun g => g.before ++ (f (tokenize g.source)).flatMap Token.canonical) ++ tail)).1,
      ∀ a, ¬ SpellsAction limit (tokenize c.source) a := by
  induction h with
  | nil => simp at hbreaks
  | @cons g a gs as ha has ih =>
    rw [List.forall_mem_cons] at hgs
    obtain ⟨left, us, right, p, hholds, -⟩ := spellsAction_iff.1 ha
    obtain ⟨vs, heq, hvs, hiff⟩ := hholds.exists_taken hf
    rw [List.flatMap_cons, List.append_assoc, heq]
    by_cases hg : g.Breaks
    · obtain ⟨pre, t, post, hsplit, hpre, hb⟩ := exists_first (hiff.2 hg)
      obtain ⟨c, rest, hcut, hc, hrefused⟩ := hholds.exists_cut hgs.1 hvs hsplit hpre hb
      refine ⟨c, ?_, hrefused⟩
      rw [hcut, List.append_assoc, segments_of_found (nextAction_eq_found_iff.2 ⟨rfl, hc⟩)]
      exact List.mem_cons_self
    · have hcarved := hholds.carved_withTokens hgs.1 hvs fun t ht hb => hg (hiff.1 ⟨t, ht, hb⟩)
      obtain ⟨g', hg', hb⟩ := hbreaks
      obtain rfl | hg' := List.mem_cons.1 hg'
      · exact (hg hb).elim
      · obtain ⟨c, hc, hrefused⟩ := ih hgs.2 ⟨g', hg', hb⟩
        refine ⟨c, ?_, hrefused⟩
        rw [← Segment.source_withTokens (g := g)]
        have hbefore : g.before =
          (g.withTokens (Token.opening left :: (vs ++ [Token.closing right]))).before := rfl
        rw [hbefore, segments_of_found (nextAction_eq_found_iff.2 ⟨rfl, hcarved⟩)]
        exact List.mem_cons_of_mem _ hc

end Template

end Stencil
