import Stencil.Proofs.Relexing
import Stencil.Proofs.RespelledCuts

namespace Stencil

/-- Whether tokens of the kind say something: spaces and comments do not. -/
def TokenKind.isEssential : TokenKind → Bool
  | space | comment => false
  | _ => true

namespace Token

open Pattern

instance (t : Token) (x : Text) : Decidable (t.EndsAt x) :=
  decidable_of_iff (t.reach.longest x = none) longest_eq_none_iff

/-- Whether no token but spaces would take something of the text of those after it. -/
def Parted : List Token → Prop
  | [] => True
  | t :: ts => (t.kind ≠ .space → t.EndsAt (spelling ts)) ∧ Parted ts

instance decidableParted : DecidablePred Parted
  | [] => isTrue trivial
  | _ :: ts => @instDecidableAnd _ _ inferInstance (decidableParted ts)

theorem tokenize_nil : tokenize [] = [] := by
  rw [tokenize, Lexer.scan_of_none (Lexer.first_nil _)]

theorem exists_spaces (x : Text) : ∃ r y, x = r ++ y ∧ (∀ c ∈ r, isSpace c = true) ∧
    ∀ c ∈ y.head?, isSpace c = false := by
  refine ⟨x.takeWhile isSpace, x.dropWhile isSpace, List.takeWhile_append_dropWhile.symm,
    List.all_eq_true.1 List.all_takeWhile, fun c hc => ?_⟩
  have hnot := List.head?_dropWhile_not isSpace x
  rw [Option.mem_def.1 hc] at hnot
  exact hnot

theorem tokenize_spaces {r y : Text} (hne : r ≠ []) (hr : ∀ c ∈ r, isSpace c = true)
    (hy : ∀ c ∈ y.head?, isSpace c = false) :
    tokenize (r ++ y) = ⟨.space, r⟩ :: tokenize y := by
  have hw : WellFormed ⟨.space, r⟩ := ⟨matches_space_iff.2 ⟨hne, hr⟩, nofun⟩
  have he : EndsAt ⟨.space, r⟩ y := by
    rintro m ⟨z, rfl⟩ hreach
    obtain ⟨c, rfl, hc⟩ := matches_one_iff.1 hreach
    rw [hy c rfl] at hc
    cases hc
  exact tokenize_of_first (first_of_endsAt (t := ⟨.space, r⟩) nofun hw he)

theorem filter_tokenize_space {t : Token} (hw : t.WellFormed) (hk : t.kind = .space) (x : Text) :
    (tokenize (t.text ++ x)).filter (·.kind != .space) =
      (tokenize x).filter (·.kind != .space) := by
  have hs := hw.matches'
  rw [hk] at hs
  obtain ⟨hne, hspace⟩ := matches_space_iff.1 hs
  obtain ⟨r, y, rfl, hr, hy⟩ := exists_spaces x
  have hall : ∀ c ∈ t.text ++ r, isSpace c = true := List.forall_mem_append.2 ⟨hspace, hr⟩
  rw [← List.append_assoc, tokenize_spaces (by simp [hne]) hall hy]
  by_cases hrne : r = []
  · subst hrne
    rfl
  · rw [tokenize_spaces hrne hr hy]
    rfl

theorem filter_tokenize_of_parted {ts : List Token} (hw : ∀ t ∈ ts, t.WellFormed)
    (hk : ∀ t ∈ ts, t.kind ≠ .text) (h : Parted ts) :
    (tokenize (spelling ts)).filter (·.kind != .space) = ts.filter (·.kind != .space) := by
  induction ts with
  | nil => rw [spelling, List.flatMap_nil, tokenize_nil]
  | cons t ts ih =>
    rw [List.forall_mem_cons] at hw hk
    rw [spelling_cons]
    by_cases hs : t.kind = .space
    · rw [filter_tokenize_space hw.1 hs, ih hw.2 hk.2 h.2]
      simp [hs]
    · rw [tokenize_of_first (first_of_endsAt hk.1 hw.1 (h.1 hs)), List.filter_cons,
        List.filter_cons, ih hw.2 hk.2 h.2]

theorem filter_isEssential (ts : List Token) : ts.filter (·.kind.isEssential) =
    (ts.filter (·.kind != .space)).filter (·.kind.isEssential) := by
  rw [List.filter_filter]
  refine List.filter_congr fun t _ => ?_
  cases t.kind <;> rfl

theorem eq_or_earlier (j k : TokenKind) : j = k ∨ j ∈ earlier k ∨ k ∈ earlier j := by
  have hmem : ∀ k : TokenKind, k ∈ kinds := fun k => by cases k <;> decide
  have hall : ∀ j ∈ kinds, ∀ k ∈ kinds, j = k ∨ j ∈ earlier k ∨ k ∈ earlier j := by decide
  exact hall j (hmem j) k (hmem k)

section Longer

variable {t u : Token} {x y : Text} (h : Lexer.first rules (t.text ++ x) = some (u, y))
  (hw : t.WellFormed)

include h

theorem eq_of_first : t.text ++ x = u.text ++ y := (Lexer.first_eq_some h).2.symm

theorem first_of_eq : Lexer.first rules (u.text ++ y) = some (u, y) := by
  rw [← eq_of_first h, h]

include hw

theorem kind_of_first (hk : t.kind ≠ .text) : u.kind = t.kind ∨
    (u.kind, t.kind) ∈ [(.range, .ident), (.assignment, .keyword), (.float, .int)] := by
  have hfirst := first_of_eq h
  obtain heq | hearlier | hlater := eq_or_earlier u.kind t.kind
  · exact .inl heq
  · obtain ⟨c, s, hs⟩ := List.exists_cons_of_ne_nil (text_ne_nil hw)
    obtain ⟨d, s', hs'⟩ := List.exists_cons_of_ne_nil (text_ne_nil (wellFormed_of_first hfirst))
    have heq := eq_of_first h
    rw [hs, hs'] at heq
    obtain rfl := (List.cons.inj heq).1
    exact .inr (heads_earlier (heads_of_wellFormed hw hs) hk _ hearlier
      (heads_of_wellFormed (wellFormed_of_first hfirst) hs'))
  · have hnone := take_earlier_of_first hfirst _ hlater
    rw [← eq_of_first h] at hnone
    exact (not_matches_of_take hnone (List.prefix_append _ _) hw.matches').elim

theorem exists_append_of_first (hkind : u.kind = t.kind) (hc : t.kind ≠ .comment) (hne : u ≠ t) :
    ∃ z, z ≠ [] ∧ u.text = t.text ++ z ∧ x = z ++ y := by
  have hsame : u.text = t.text → u = t := by
    obtain ⟨k, s⟩ := u
    obtain ⟨k', s'⟩ := t
    rintro rfl
    cases hkind
    rfl
  obtain ⟨z, hz, hx⟩ | ⟨m, hm, hy⟩ := List.append_eq_append_iff.1 (eq_of_first h)
  · refine ⟨z, ?_, hz, hx⟩
    rintro rfl
    exact hne (hsame (by rw [hz, List.append_nil]))
  · have hmatches := hw.matches'
    rw [hm, ← hkind] at hmatches
    refine (not_matches_longer (first_of_eq h) (hkind ▸ hc) ⟨x, hy.symm⟩ ?_ hmatches).elim
    rintro rfl
    exact hne (hsame (by rw [hm, List.append_nil]))

end Longer

theorem kind_of_isDigit {t : Token} {x s : Text} {c : Char} (hw : t.WellFormed)
    (hk : t.kind ≠ .text) (h : t.text ++ x = c :: s) (hc : isDigit c = true) :
    t.kind = .float ∨ t.kind = .int := by
  obtain ⟨d, m, hd⟩ := List.exists_cons_of_ne_nil (text_ne_nil hw)
  rw [hd] at h
  obtain rfl := (List.cons.inj h).1
  have hheads := heads_of_wellFormed hw hd
  have hint : heads d .int = true := hc
  obtain hkind | hearlier | hlater := eq_or_earlier t.kind .int
  · exact .inr hkind
  · have hpair := heads_earlier hint nofun _ hearlier hheads
    exact .inl (by simpa using hpair)
  · have hpair := heads_earlier hheads hk _ hlater hint
    simp at hpair

theorem exists_append_of_digits {a x z y : Text} (h : a ++ x = z ++ y)
    (ha : ∀ c ∈ a, isDigit c = true) (hy : ∀ c ∈ y.head?, isDigit c = false) :
    ∃ w, z = a ++ w ∧ x = w ++ y := by
  obtain ⟨w, hw, hx⟩ | ⟨w, hw, hyw⟩ := List.append_eq_append_iff.1 h
  · exact ⟨w, hw, hx⟩
  · cases w with
    | nil => exact ⟨[], by simpa using hw.symm, hyw.symm⟩
    | cons c w =>
      have hdigit := ha c (by simp [hw])
      rw [hy c (by simp [hyw])] at hdigit
      cases hdigit

/-- Digits at the start of tokens are integers of their own, or end before the point of a float. -/
theorem exists_ints_of_digits {ts : List Token} (hw : ∀ t ∈ ts, t.WellFormed)
    (hk : ∀ t ∈ ts, t.kind ≠ .text) {z y : Text} (hts : spelling ts = z ++ y)
    (hz : ∀ c ∈ z, isDigit c = true) (hy : ∀ c ∈ y.head?, isDigit c = false) :
    (∃ ints rest, ts = ints ++ rest ∧ (∀ t ∈ ints, t.kind = .int) ∧ spelling ints = z ∧
      spelling rest = y) ∨ ∃ d m, y = '.' :: d :: m ∧ isDigit d = true := by
  induction ts generalizing z with
  | nil =>
    obtain ⟨rfl, rfl⟩ := List.append_eq_nil_iff.1 hts.symm
    exact .inl ⟨[], [], rfl, by simp, rfl, rfl⟩
  | cons t ts ih =>
    rw [List.forall_mem_cons] at hw hk
    cases z with
    | nil => exact .inl ⟨[], t :: ts, rfl, by simp, rfl, hts⟩
    | cons c z =>
      have hs := hw.1.matches'
      obtain hfloat | hint := kind_of_isDigit hw.1 hk.1 hts (hz c List.mem_cons_self)
      · rw [hfloat] at hs
        obtain ⟨a, b, htext, ha, hb⟩ := matches_float_iff.1 hs
        obtain ⟨d, b, rfl⟩ := List.exists_cons_of_ne_nil (matches_digits_iff.1 hb).1
        rw [spelling_cons, htext, List.append_assoc] at hts
        obtain ⟨w, hw', hrest⟩ := exists_append_of_digits hts (matches_digits_iff.1 ha).2 hy
        cases w with
        | nil =>
          exact .inr ⟨d, b ++ spelling ts, hrest.symm,
            (matches_digits_iff.1 hb).2 d List.mem_cons_self⟩
        | cons e w =>
          obtain rfl := (List.cons.inj hrest).1
          exact absurd (hz '.' (by simp [hw'])) (by decide)
      · rw [hint] at hs
        obtain ⟨w, hw', hrest⟩ := exists_append_of_digits hts (matches_int_iff.1 hs).2 hy
        have hwdigits : ∀ c ∈ w, isDigit c = true := fun c hc => hz c (by simp [hw', hc])
        obtain ⟨ints, rest, rfl, hints, hspell, hrest⟩ | hpoint := ih hw.2 hk.2 hrest hwdigits
        · refine .inl ⟨t :: ints, rest, rfl, List.forall_mem_cons.2 ⟨hint, hints⟩, ?_, hrest⟩
          rw [spelling_cons, hspell, hw']
        · exact .inr hpoint

theorem isDigit_of_endsAt {u : Token} {y : Text} (h : u.EndsAt y)
    (hk : u.kind = .float ∨ u.kind = .int) : ∀ c ∈ y.head?, isDigit c = false := by
  intro c hc
  obtain ⟨y, rfl⟩ := List.head?_eq_some_iff.1 hc
  rw [← Bool.not_eq_true]
  intro hd
  refine h [c] ⟨y, rfl⟩ ?_
  obtain ⟨kind, s⟩ := u
  obtain rfl | rfl := hk
  · exact .one hd
  · exact .altLeft (.one hd)

theorem not_point_of_endsAt {u : Token} {d : Char} {m : Text} (h : u.EndsAt ('.' :: d :: m))
    (hk : u.kind = .int) : isDigit d = false := by
  rw [← Bool.not_eq_true]
  intro hd
  have hpoint : Matches (.seq (char '.') (.one isDigit)) (['.'] ++ [d]) :=
    .seq (matches_char_iff.2 rfl) (.one hd)
  refine h ['.', d] ⟨m, rfl⟩ ?_
  obtain ⟨kind, s⟩ := u
  cases hk
  exact .altRight hpoint

theorem isDigit_of_append {t u : Token} {z : Text} (hw : t.WellFormed) (hw' : u.WellFormed)
    (hkind : u.kind = t.kind) (hk : t.kind = .float ∨ t.kind = .int) (h : u.text = t.text ++ z) :
    ∀ c ∈ z, isDigit c = true := by
  have hs := hw.matches'
  have hs' := hw'.matches'
  rw [hkind, h] at hs'
  obtain hk | hk := hk <;> rw [hk] at hs hs'
  · obtain ⟨a, b, htext, ha, hb⟩ := matches_float_iff.1 hs
    obtain ⟨a', b', htext', ha', hb'⟩ := matches_float_iff.1 hs'
    have hpoint : ∀ {m}, Matches digits m → '.' ∉ m := fun hm hdot =>
      absurd ((matches_digits_iff.1 hm).2 _ hdot) (by decide)
    rw [htext, List.append_assoc] at htext'
    obtain ⟨-, rfl⟩ := append_cons_inj_of_notMem (hpoint ha) (hpoint ha') htext'
    exact fun c hc => (matches_digits_iff.1 hb').2 c (List.mem_append_right _ hc)
  · exact fun c hc => (matches_int_iff.1 hs').2 c (List.mem_append_right _ hc)

/-- A number that is longer than one of the tokens takes integers after it too, or a float does and
then takes the next one up to its point. -/
theorem exists_taken {t u : Token} {ts : List Token} {y : Text}
    (h : Lexer.first rules (t.text ++ spelling ts) = some (u, y)) (hw : ∀ v ∈ t :: ts, v.WellFormed)
    (hk : ∀ v ∈ t :: ts, v.kind ≠ .text) (hkind : u.kind = t.kind)
    (hnumber : t.kind = .float ∨ t.kind = .int) (hne : u ≠ t) :
    (∃ ints rest, ts = ints ++ rest ∧ ints ≠ [] ∧ (∀ v ∈ ints, v.kind = .int) ∧
      spelling rest = y) ∨
      (t.kind = .float ∧ (∃ v us, ts = v :: us ∧ (v.kind = .float ∨ v.kind = .int)) ∧
        ∃ d m, y = '.' :: d :: m ∧ isDigit d = true) := by
  rw [List.forall_mem_cons] at hw hk
  have hfirst := first_of_eq h
  have hc : t.kind ≠ .comment := fun hc => by simp [hc] at hnumber
  obtain ⟨z, hz, htext, hts⟩ := exists_append_of_first h hw.1 hkind hc hne
  have hdigits := isDigit_of_append hw.1 (wellFormed_of_first hfirst) hkind hnumber htext
  have he := endsAt_of_first hfirst
  obtain ⟨ints, rest, rfl, hints, hspell, hrest⟩ | ⟨d, m, hy, hd⟩ :=
    exists_ints_of_digits hw.2 hk.2 hts hdigits (isDigit_of_endsAt he (hkind ▸ hnumber))
  · refine .inl ⟨ints, rest, rfl, ?_, hints, hrest⟩
    rintro rfl
    exact hz hspell.symm
  · refine .inr ⟨?_, ?_, d, m, hy, hd⟩
    · refine hnumber.resolve_right fun hint => ?_
      rw [hy] at he
      rw [not_point_of_endsAt he (hkind.trans hint)] at hd
      cases hd
    · obtain ⟨c, z, rfl⟩ := List.exists_cons_of_ne_nil hz
      cases ts with
      | nil => cases hts
      | cons v us =>
        rw [List.forall_mem_cons] at hw hk
        exact ⟨v, us, rfl, kind_of_isDigit hw.2.1 hk.2.1 hts (hdigits c List.mem_cons_self)⟩

theorem tokenize_point {d : Char} {m : Text} (hd : isDigit d = true) :
    tokenize ('.' :: d :: m) = ⟨.keyword, ['.']⟩ :: tokenize (d :: m) := by
  have hw : WellFormed ⟨.keyword, ['.']⟩ :=
    ⟨matches_keyword_iff.2 ⟨'.', [], rfl, .inl rfl, .inr rfl⟩, nofun⟩
  have he : EndsAt ⟨.keyword, ['.']⟩ (d :: m) := by
    rintro n ⟨x, hx⟩ hreach
    obtain ⟨c, rfl, hc⟩ := matches_one_iff.1 hreach
    obtain rfl := (List.cons.inj hx).1
    exact notMem_literalHeads_of_isLetter hc (mem_literalHeads_of_isDigit hd)
  exact tokenize_of_first (first_of_endsAt (t := ⟨.keyword, ['.']⟩) nofun hw he)

theorem endsAt_of_kind {t : Token}
    (hk : t.kind ∉ [.ident, .keyword, .float, .int, .space, .statementOpen]) (x : Text) :
    t.EndsAt x := by
  refine endsAt_of_reach ?_ x
  obtain ⟨kind, s⟩ := t
  cases kind <;> first | rfl | simp at hk

theorem exists_first_of_not_endsAt {t : Token} {x : Text} (hw : t.WellFormed) (he : ¬ t.EndsAt x) :
    ∃ u y, Lexer.first rules (t.text ++ x) = some (u, y) ∧ u ≠ t := by
  obtain ⟨c, s, hs⟩ := List.exists_cons_of_ne_nil (text_ne_nil hw)
  obtain ⟨u, y, hfirst⟩ := exists_first_of_cons c (s ++ x)
  rw [← List.cons_append, ← hs] at hfirst
  refine ⟨u, y, hfirst, ?_⟩
  rintro rfl
  have hy := List.append_cancel_left (eq_of_first hfirst)
  exact he (endsAt_of_first (by rwa [← hy] at hfirst))

section Debt

variable {t : Token} {ts debt : List Token} (hw : ∀ v ∈ t :: ts, v.WellFormed)
  (hk : ∀ v ∈ t :: ts, v.kind ≠ .text) (hdebt : ∀ v ∈ debt, v.kind = .int)
  (h : ((tokenize (t.text ++ spelling ts)).filter (·.kind.isEssential)).map respelled =
    debt ++ (t :: ts).filter (·.kind.isEssential))

include hw hk hdebt h

theorem exists_longer_number (hspace : t.kind ≠ .space) (he : ¬ t.EndsAt (spelling ts)) :
    ∃ u y owed, Lexer.first rules (t.text ++ spelling ts) = some (u, y) ∧ u ≠ t ∧
      u.kind = t.kind ∧ (t.kind = .float ∨ t.kind = .int) ∧ (∀ v ∈ owed, v.kind = .int) ∧
      (t.kind = .float → owed = []) ∧
      ((tokenize y).filter (·.kind.isEssential)).map respelled =
        owed ++ ts.filter (·.kind.isEssential) := by
  rw [List.forall_mem_cons] at hw hk
  obtain ⟨u, y, hfirst, hne⟩ := exists_first_of_not_endsAt hw.1 he
  have hkinds := kind_of_first hfirst hw.1 hk.1
  have hreach : t.kind ∈ [.ident, .keyword, .float, .int, .space, .statementOpen] := by
    apply Classical.byContradiction
    exact fun hkind => he (endsAt_of_kind hkind _)
  have hessential : t.kind.isEssential = true := by
    revert hreach hspace
    cases t.kind <;> decide
  have hessential' : u.kind.isEssential = true := by
    obtain hkind | hpair := hkinds
    · rw [hkind, hessential]
    · simp only [List.mem_cons, Prod.mk.injEq, List.not_mem_nil, or_false] at hpair
      obtain ⟨hu, -⟩ | ⟨hu, -⟩ | ⟨hu, -⟩ := hpair <;> rw [hu] <;> rfl
  rw [tokenize_of_first hfirst, List.filter_cons, if_pos hessential', List.filter_cons,
    if_pos hessential, List.map_cons] at h
  cases debt with
  | nil =>
    obtain ⟨hu, hrest⟩ := List.cons.inj h
    have hkind : u.kind = t.kind := congrArg (·.kind) hu
    refine ⟨u, y, [], hfirst, hne, hkind, ?_, by simp, fun _ => rfl, hrest⟩
    apply Classical.byContradiction
    intro hnumber
    refine hne ((respelled_of_kind ?_).symm.trans hu)
    rw [hkind]
    revert hreach hnumber
    cases t.kind <;> decide
  | cons d debt =>
    rw [List.forall_mem_cons] at hdebt
    obtain ⟨rfl, hrest⟩ := List.cons.inj h
    have hint : u.kind = .int := hdebt.1
    have hkind : u.kind = t.kind := by
      refine hkinds.resolve_right fun hpair => ?_
      simp [hint] at hpair
    have ht : t.kind = .int := hkind.symm.trans hint
    refine ⟨u, y, debt ++ [t], hfirst, hne, hkind, by simp [ht], ?_, by simp [ht], ?_⟩
    · simpa [or_imp, forall_and, ht] using hdebt.2
    · rw [hrest, List.append_assoc]
      rfl

theorem exists_debt (hspace : t.kind ≠ .space) (he : ¬ t.EndsAt (spelling ts)) :
    ∃ ints rest owed, ts = ints ++ rest ∧ ints ≠ [] ∧ (∀ v ∈ owed ++ ints, v.kind = .int) ∧
      ((tokenize (spelling rest)).filter (·.kind.isEssential)).map respelled =
        owed ++ ints ++ rest.filter (·.kind.isEssential) := by
  obtain ⟨u, y, owed, hfirst, hne, hkind, hnumber, howed, hfloat, hrest⟩ :=
    exists_longer_number hw hk hdebt h hspace he
  obtain ⟨ints, rest, rfl, hints, hall, rfl⟩ | ⟨hf, ⟨v, us, rfl, hv⟩, d, m, rfl, hd⟩ :=
    exists_taken hfirst hw hk hkind hnumber hne
  · refine ⟨ints, rest, owed, rfl, hints, List.forall_mem_append.2 ⟨howed, hall⟩, ?_⟩
    have hfilter : ints.filter (·.kind.isEssential) = ints :=
      List.filter_eq_self.2 fun v hv => by rw [hall v hv]; rfl
    rw [hrest, List.filter_append, hfilter, List.append_assoc]
  · have hessential : v.kind.isEssential = true := by
      revert hv
      cases v.kind <;> decide
    have hpoint : (⟨.keyword, ['.']⟩ : Token).kind.isEssential = true := rfl
    rw [hfloat hf, tokenize_point hd, List.nil_append, List.filter_cons, if_pos hpoint,
      List.filter_cons, if_pos hessential, List.map_cons] at hrest
    have hkeyword : TokenKind.keyword = v.kind := congrArg (·.kind) (List.cons.inj hrest).1
    rw [← hkeyword] at hv
    simp at hv

theorem exists_owed (hfound : t.kind = .space ∨ t.EndsAt (spelling ts)) :
    ∃ owed, (owed = [] → debt = []) ∧ (∀ v ∈ owed, v.kind = .int) ∧
      ((tokenize (spelling ts)).filter (·.kind.isEssential)).map respelled =
        owed ++ ts.filter (·.kind.isEssential) := by
  rw [List.forall_mem_cons] at hw hk
  cases hessential : t.kind.isEssential with
  | false =>
    refine ⟨debt, id, hdebt, ?_⟩
    rw [List.filter_cons_of_neg (by simp [hessential])] at h
    rw [← h]
    obtain hspace | he := hfound
    · rw [filter_isEssential (tokenize (t.text ++ spelling ts)),
        filter_tokenize_space hw.1 hspace, ← filter_isEssential]
    · rw [tokenize_of_first (first_of_endsAt hk.1 hw.1 he),
        List.filter_cons_of_neg (by simp [hessential])]
  | true =>
    have he : t.EndsAt (spelling ts) := by
      refine hfound.resolve_left fun hspace => ?_
      rw [hspace] at hessential
      cases hessential
    rw [tokenize_of_first (first_of_endsAt hk.1 hw.1 he), List.filter_cons, if_pos hessential,
      List.filter_cons, if_pos hessential, List.map_cons] at h
    cases debt with
    | nil => exact ⟨[], id, hdebt, (List.cons.inj h).2⟩
    | cons d debt =>
      rw [List.forall_mem_cons] at hdebt
      obtain ⟨rfl, hrest⟩ := List.cons.inj h
      have hint : t.kind = .int := hdebt.1
      refine ⟨debt ++ [t], by simp, ?_, by rw [hrest, List.append_assoc]; rfl⟩
      simpa [or_imp, forall_and, hint] using hdebt.2

end Debt

/-- Tokens from which others of the same canonical spelling are found, spaces and comments aside,
end where they do. Where a number has taken integers after it, these are still to be found (`debt`),
but nothing gives back what was taken. -/
theorem parted_of_filter_tokenize {ts debt : List Token} (hw : ∀ t ∈ ts, t.WellFormed)
    (hk : ∀ t ∈ ts, t.kind ≠ .text) (hdebt : ∀ d ∈ debt, d.kind = .int)
    (h : ((tokenize (spelling ts)).filter (·.kind.isEssential)).map respelled =
      debt ++ ts.filter (·.kind.isEssential)) : debt = [] ∧ Parted ts := by
  -- A number that takes integers leaves them behind, so the induction skips more than one token.
  induction hn : ts.length using Nat.strongRecOn generalizing ts debt with
  | ind n ih =>
    cases ts with
    | nil =>
      rw [spelling, List.flatMap_nil, tokenize_nil] at h
      exact ⟨(List.append_eq_nil_iff.1 h.symm).1, trivial⟩
    | cons t ts =>
      have hwts := (List.forall_mem_cons.1 hw).2
      have hkts := (List.forall_mem_cons.1 hk).2
      rw [List.length_cons] at hn
      rw [spelling_cons] at h
      by_cases hfound : t.kind = .space ∨ t.EndsAt (spelling ts)
      · obtain ⟨owed, hnone, howed, hrest⟩ := exists_owed hw hk hdebt h hfound
        obtain ⟨hnil, hparted⟩ := ih ts.length (by omega) hwts hkts howed hrest rfl
        exact ⟨hnone hnil, hfound.resolve_left, hparted⟩
      · rw [not_or] at hfound
        obtain ⟨ints, rest, owed, rfl, hints, hall, hrest⟩ :=
          exists_debt hw hk hdebt h hfound.1 hfound.2
        have hlength : (ints ++ rest).length = ints.length + rest.length := List.length_append
        obtain ⟨hnil, -⟩ := ih rest.length (by omega) (List.forall_mem_append.1 hwts).2
          (List.forall_mem_append.1 hkts).2 hall hrest rfl
        exact (hints (List.append_eq_nil_iff.1 hnil).2).elim

end Token
end Stencil
