import Stencil.Comment
import Stencil.Parse
import Stencil.Proofs.Offsets

namespace Stencil

open Text

theorem Segment.utf8Length_source (g : Segment) :
    g.source.utf8Length = 2 + g.inner.utf8Length + 2 := by
  have hsource : g.source = ['{', '{'] ++ g.inner ++ ['}', '}'] := rfl
  rw [hsource, utf8Length_append, utf8Length_append, utf8Length_open, utf8Length_close]

theorem append_of_found {s rest : Text} {g : Segment} (h : nextAction s = .found g rest)
    (a : Text) : a ++ s = a ++ g.before ++ g.source ++ rest := by
  rw [(nextAction_eq_found_iff.1 h).1]
  simp only [List.append_assoc]

theorem add_four_le_of_nextAction {s rest : Text} {g : Segment}
    (h : nextAction s = .found g rest) : rest.utf8Length + 4 ≤ s.utf8Length := by
  rw [(nextAction_eq_found_iff.1 h).1]
  simp only [utf8Length_append, Segment.utf8Length_source]
  omega

/-- A round ends with a result, or with a piece of the result and a state for the next round. -/
inductive Round (Result Piece State : Type) where
  | done (result : Result)
  | next (piece : Piece) (state : State)

def Text.upTo : Text → Nat → Text
  | [], _ => []
  | c :: s, n => if n = 0 then [] else c :: upTo s (n - c.utf8Size)

def Text.positionAt (s : Text) (i : Nat) : Position := Position.after {} (s.upTo i)

namespace Parse

variable (limit : Nat) (file input : Text)

def round (consumed : Nat) : Option (Round (Except ParseError Tree) Tree Nat) := do
  let rest ← input.slice? consumed input.utf8Length
  match ← carve rest with
  | .found c =>
    let start := consumed + c.openAt
    let finish := start + 2 + c.inner.utf8Length + 2
    let source ← input.slice? start finish
    match action limit file (input.positionAt start) source with
    | .error e => return .done (.error e)
    | .ok a => return .next (textBranch c.before ++ [.action a]) finish
  | .unclosed openAt =>
    return .done (.error ⟨file, input.positionAt (consumed + openAt), [], .unbalancedDelimiter⟩)
  | .notFound => return .done (.ok [.text rest])

variable {limit file input}

theorem add_four_le_of_round {consumed n : Nat} {bs : Tree}
    (h : round limit file input consumed = some (.next bs n)) : consumed + 4 ≤ n := by
  simp only [round, Option.bind_eq_bind, Option.bind_eq_some_iff] at h
  obtain ⟨rest, -, scan, -, h⟩ := h
  cases scan with
  | found c =>
    simp only [Option.bind_eq_some_iff] at h
    obtain ⟨source, -, h⟩ := h
    split at h
    · cases h
    · cases h
      omega
  | unclosed openAt => cases h
  | notFound => cases h

variable (limit file input)

def rounds (consumed : Nat) : Option (Except ParseError Tree) :=
  if consumed < input.utf8Length then
    match _h : round limit file input consumed with
    | none => none
    | some (.done r) => some r
    | some (.next bs n) => (rounds n).map (·.map (bs ++ ·))
  else some (.ok [])
termination_by input.utf8Length - consumed
decreasing_by
  have := add_four_le_of_round _h
  omega

end Parse

def removalRound (rest : Text) : Option (Round Text Text Text) := do
  match ← carve rest with
  | .found c =>
    return .next (c.before ++ ['{', '{'] ++ Comment.tidy c.inner ++ ['}', '}']) c.after
  | _ => return .done rest

theorem removalRound_eq (s : Text) : removalRound s =
    match nextAction s with
    | .found g after =>
      some (.next (g.before ++ { g with inner := Comment.tidy g.inner }.source) after)
    | _ => some (.done s) := by
  rw [removalRound, (carve_spec s).1]
  cases nextAction s with
  | found g after =>
    simp only [Scan.ofNext, Option.bind_eq_bind, Option.bind_some, Segment.source,
      List.append_assoc]
    rfl
  | unclosed before => rfl
  | absent => rfl

theorem add_four_le_of_removalRound {rest piece after : Text}
    (h : removalRound rest = some (.next piece after)) :
    after.utf8Length + 4 ≤ rest.utf8Length := by
  rw [removalRound_eq] at h
  split at h
  next g after' hfound =>
    cases h
    exact add_four_le_of_nextAction hfound
  · cases h

theorem exists_removalRound (rest : Text) : ∃ r, removalRound rest = some r ∧
    ∀ piece after, r = .next piece after → after.utf8Length + 4 ≤ rest.utf8Length := by
  have hresult : ∃ r, removalRound rest = some r := by
    rw [removalRound_eq]
    cases nextAction rest <;> exact ⟨_, rfl⟩
  obtain ⟨r, hr⟩ := hresult
  refine ⟨r, hr, ?_⟩
  rintro piece after rfl
  exact add_four_le_of_removalRound hr

def removalRounds (rest : Text) : Option Text :=
  match _h : removalRound rest with
  | none => none
  | some (.done s) => some s
  | some (.next piece after) => (removalRounds after).map (piece ++ ·)
termination_by rest.utf8Length
decreasing_by
  have := add_four_le_of_removalRound _h
  omega

theorem removalRounds_step (rest : Text) : removalRounds rest =
    match removalRound rest with
    | none => none
    | some (.done s) => some s
    | some (.next piece after) => (removalRounds after).map (piece ++ ·) := by
  rw [removalRounds]
  split
  next h => rw [h]
  next h => rw [h]
  next h => rw [h]

theorem removalRounds_eq (s : Text) : removalRounds s = some (removeComments s) := by
  fun_induction segments s with
  | case1 s g rest h ih =>
    simp only [removalRounds_step s, removalRound_eq, h, ih, removeComments, segments_of_found h]
    simp only [Option.map_some, Prod.map, List.flatMap_cons, List.append_assoc, id_eq]
  | case2 s h =>
    have hround : removalRound s = some (.done s) := by
      rw [removalRound_eq]
      split
      next g rest hfound => exact (h g rest hfound).elim
      · rfl
    rw [removalRounds_step, hround, removeComments, segments_of_not_found h]
    rfl

namespace Text

variable {a b : Text}

theorem upTo_append : (a ++ b).upTo a.utf8Length = a := by
  induction a with
  | nil => cases b <;> rfl
  | cons c a ih =>
    have := c.utf8Size_pos
    rw [List.cons_append, utf8Length, upTo, if_neg (by omega), Nat.add_sub_cancel_left, ih]

theorem positionAt_append : (a ++ b).positionAt a.utf8Length = Position.after {} a := by
  rw [positionAt, upTo_append]

end Text

namespace Parse

/-- A round that begins between characters has no slice that is not between them, and parses the
first action of what is left. -/
theorem round_eq (limit : Nat) (file a s : Text) : round limit file (a ++ s) a.utf8Length =
    match nextAction s with
    | .found g _ =>
      match action limit file (Position.after {} (a ++ g.before)) g.source with
      | .error e => some (.done (.error e))
      | .ok act =>
        some (.next (textBranch g.before ++ [.action act]) (a ++ g.before ++ g.source).utf8Length)
    | .unclosed before =>
      some (.done (.error ⟨file, Position.after {} (a ++ before), [], .unbalancedDelimiter⟩))
    | .absent => some (.done (.ok [.text s])) := by
  have hrest : (a ++ s).slice? a.utf8Length (a ++ s).utf8Length = some s :=
    slice?_eq_some_iff.2 ⟨a, [], (List.append_nil _).symm, rfl, rfl⟩
  rw [round, hrest, Option.bind_eq_bind, Option.bind_some, (carve_spec s).1]
  cases hnext : nextAction s with
  | found g rest =>
    have hstart : a.utf8Length + g.before.utf8Length = (a ++ g.before).utf8Length :=
      (utf8Length_append a g.before).symm
    have hfinish : a.utf8Length + g.before.utf8Length + 2 + g.inner.utf8Length + 2 =
        (a ++ g.before ++ g.source).utf8Length := by
      simp only [utf8Length_append, Segment.utf8Length_source]
      omega
    simp only [Scan.ofNext, Option.bind_eq_bind, Option.bind_some, hfinish]
    rw [hstart, append_of_found hnext, slice?_append, List.append_assoc _ g.source, positionAt_append]
    rfl
  | unclosed before =>
    obtain ⟨rest, hs, -⟩ := nextAction_eq_unclosed_iff.1 hnext
    have htext : a ++ s = a ++ before ++ '{' :: '{' :: rest := by
      rw [hs, List.append_assoc]
    simp only [Scan.ofNext, Option.bind_eq_bind, Option.bind_some]
    rw [← utf8Length_append, htext, positionAt_append]
    rfl
  | absent => rfl

theorem rounds_step (limit : Nat) (file input : Text) (consumed : Nat) :
    rounds limit file input consumed =
      if consumed < input.utf8Length then
        match round limit file input consumed with
        | none => none
        | some (.done r) => some r
        | some (.next bs n) => (rounds limit file input n).map (·.map (bs ++ ·))
      else some (.ok []) := by
  rw [rounds]
  split_ifs
  · split
    next h => rw [h]
    next h => rw [h]
    next h => rw [h]
  · rfl

def remaining (limit : Nat) (file : Text) (start : Position) (s : Text) :
    Except ParseError Tree := do
  let (bs, finish) ← branches limit file start (segments s).1
  match nextAction (segments s).2 with
  | .unclosed before => .error ⟨file, finish.after before, [], .unbalancedDelimiter⟩
  | _ => return bs ++ textBranch (segments s).2

theorem remaining_step (limit : Nat) (file : Text) (start : Position) (s : Text) :
    remaining limit file start s =
      match nextAction s with
      | .found g rest =>
        match action limit file (start.after g.before) g.source with
        | .error e => .error e
        | .ok a =>
          (remaining limit file (start.after (g.before ++ g.source)) rest).map
            (textBranch g.before ++ [.action a] ++ ·)
      | .unclosed before => .error ⟨file, start.after before, [], .unbalancedDelimiter⟩
      | .absent => .ok (textBranch s) := by
  cases h : nextAction s with
  | found g rest =>
    rw [remaining, segments_of_found h]
    simp only [Prod.map, id_eq, branches, Position.after_append, remaining]
    cases action limit file (start.after g.before) g.source with
    | error e => rfl
    | ok a =>
      cases branches limit file ((start.after g.before).after g.source) (segments rest).1 with
      | error e => rfl
      | ok r =>
        cases nextAction (segments rest).2 with
        | unclosed before => rfl
        | found _ _ | absent =>
          simp only [bind, Except.bind, pure, Except.pure, Except.map, List.append_assoc,
            List.cons_append, List.nil_append]
  | unclosed before =>
    rw [remaining, segments_of_not_found (by simp [h]), branches, h]
    rfl
  | absent =>
    rw [remaining, segments_of_not_found (by simp [h]), branches, h]
    rfl

theorem rounds_append (limit : Nat) (file a s : Text) :
    rounds limit file (a ++ s) a.utf8Length =
      some (remaining limit file (Position.after {} a) s) := by
  fun_induction segments s generalizing a with
  | case1 s g rest h ih =>
    have hlt : a.utf8Length < (a ++ s).utf8Length := by
      have := add_four_le_of_nextAction h
      rw [utf8Length_append]
      omega
    rw [rounds_step, if_pos hlt, round_eq, remaining_step, h]
    simp only [← Position.after_append]
    cases action limit file (Position.after {} (a ++ g.before)) g.source with
    | error e => rfl
    | ok act =>
      simp only [append_of_found h, ih, Option.map_some]
      rw [List.append_assoc a]
  | case2 s h =>
    rw [rounds_step, round_eq, remaining_step]
    by_cases hs : s = []
    · have hnot : ¬ a.utf8Length < (a ++ s).utf8Length := by
        rw [hs, List.append_nil]
        exact Nat.lt_irrefl _
      rw [if_neg hnot, hs]
      rfl
    · have hlt : a.utf8Length < (a ++ s).utf8Length := by
        obtain ⟨c, t, rfl⟩ := List.exists_cons_of_ne_nil hs
        have := c.utf8Size_pos
        rw [utf8Length_append, utf8Length]
        omega
      rw [if_pos hlt]
      cases hnext : nextAction s with
      | found g rest => exact (h g rest hnext).elim
      | unclosed before => simp only [Position.after_append]
      | absent =>
        simp only [textBranch, List.isEmpty_eq_false_iff.2 hs, Bool.false_eq_true, if_false]

theorem rounds_eq (file input : Text) (options : Options) :
    rounds options.maxDepth file input 0 = some (parse file input options) :=
  rounds_append options.maxDepth file [] input

theorem exists_round (limit : Nat) (file : Text) {input : Text} {consumed : Nat}
    (h : input.IsBoundary consumed) : ∃ r, round limit file input consumed = some r ∧
      ∀ bs n, r = .next bs n → consumed + 4 ≤ n ∧ input.IsBoundary n := by
  obtain ⟨a, s, rfl, rfl⟩ := h
  have hround := round_eq limit file a s
  cases hnext : nextAction s with
  | found g rest =>
    cases haction : action limit file (Position.after {} (a ++ g.before)) g.source with
    | error e =>
      simp only [hnext, haction] at hround
      exact ⟨_, hround, nofun⟩
    | ok act =>
      simp only [hnext, haction] at hround
      refine ⟨_, hround, fun bs n hr => ?_⟩
      cases hr
      exact ⟨add_four_le_of_round hround, _, rest, append_of_found hnext a, rfl⟩
  | unclosed before =>
    rw [hnext] at hround
    exact ⟨_, hround, nofun⟩
  | absent =>
    rw [hnext] at hround
    exact ⟨_, hround, nofun⟩

end Parse

/-- The search finds the first unescaped braces, between characters; what is carved is what the
first opening braces and the first closing ones after them say; and the rounds in which a template
is parsed or its comments are taken out have no slice that is out of range or inside a character,
take up at least four bytes if they go on, and together do what is done with the segments. -/
theorem carving_by_offsets (file input : Text) (options : Options) :
    (∀ d ∈ ['{', '}'], ∀ start, input.IsBoundary start →
      (∀ r, findUnescaped (utf8 [d, d]) input.utf8 start = r ↔
        FirstUnescaped (utf8 [d, d]) input.utf8 start r) ∧
      ∀ i, findUnescaped (utf8 [d, d]) input.utf8 start = some i → input.IsBoundary i) ∧
    (∀ i j, (∃ w, input.slice? i j = some w) ↔
      i ≤ j ∧ input.IsBoundary i ∧ input.IsBoundary j) ∧
    (carve input = some (.ofNext (nextAction input)) ∧
      (Scan.ofNext (nextAction input)).Follows input) ∧
    (∀ consumed, input.IsBoundary consumed →
      ∃ r, Parse.round options.maxDepth file input consumed = some r ∧
        ∀ bs n, r = .next bs n → consumed + 4 ≤ n ∧ input.IsBoundary n) ∧
    Parse.rounds options.maxDepth file input 0 = some (parse file input options) ∧
    (∀ rest, ∃ r, removalRound rest = some r ∧
      ∀ piece after, r = .next piece after → after.utf8Length + 4 ≤ rest.utf8Length) ∧
    removalRounds input = some (removeComments input) := by
  refine ⟨fun d hd start hstart => ⟨fun r => findUnescaped_braces_iff hd, fun i hi => ?_⟩,
    fun i j => exists_slice?_iff, carve_spec input, fun consumed hconsumed => ?_,
    Parse.rounds_eq file input options, exists_removalRound, removalRounds_eq input⟩
  · exact isBoundary_of_findUnescaped hd hstart hi
  · exact Parse.exists_round options.maxDepth file hconsumed

end Stencil
