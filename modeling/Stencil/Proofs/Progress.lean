import Stencil.Proofs.Breaks
import Stencil.Proofs.Descent

/-!
Every part of a parse ends, wherever it begins. If it gives a value then it has gone past tokens and
left the depth as it was; no level is left that was not entered, and no depth is more than one above
the limit. All this comes out of one comparison: a part of a parse does what the reader of the same
tokens does, and a reader leaves fewer tokens than there were.
-/

namespace Stencil

/-- What holds of each cursor `t` that a parse comes to from `s`: it has not gone back nor past the
end of the tokens, and the depths that were set on the way are not below the first one, nor more
than one above the limit if the first one is within it. -/
structure Cursor.Reaches (ts : List Token) (limit : Nat) (s t : Cursor) : Prop where
  le_pos : s.pos ≤ t.pos
  pos_le : t.pos ≤ max s.pos ts.length
  record : ∃ new, t.record = new ++ s.record ∧
    ∀ d ∈ t.depth :: new, s.depth ≤ d ∧ d ≤ max s.depth limit + 1

namespace Cursor.Reaches

variable {ts : List Token} {limit : Nat} {s t u : Cursor}

theorem refl : s.Reaches ts limit s := by
  refine ⟨Nat.le_refl _, Nat.le_max_left _ _, [], rfl, fun d hd => ?_⟩
  obtain rfl := List.mem_singleton.1 hd
  omega

theorem trans (h : s.Reaches ts limit t) (h' : t.Reaches ts limit u)
    (hlimit : t.depth ≤ max s.depth limit) : s.Reaches ts limit u := by
  obtain ⟨hle, hpos, new, hnew, hdepths⟩ := h
  obtain ⟨hle', hpos', new', hnew', hdepths'⟩ := h'
  have ht := hdepths t.depth List.mem_cons_self
  refine ⟨Nat.le_trans hle hle', by omega, new' ++ new, ?_, fun d hd => ?_⟩
  · rw [hnew', hnew, List.append_assoc]
  · rw [← List.cons_append] at hd
    obtain hd | hd := List.mem_append.1 hd
    · have := hdepths' d hd
      omega
    · exact hdepths d (List.mem_cons_of_mem _ hd)

theorem next (h : s.pos < ts.length) : s.Reaches ts limit s.next := by
  have hrefl : s.Reaches ts limit s := refl
  exact ⟨Nat.le_succ _, Nat.le_trans h (Nat.le_max_right _ _), hrefl.record⟩

theorem withDepth {d : Nat} (h : s.Reaches ts limit t) (hd : s.depth ≤ d)
    (hlimit : d ≤ max s.depth limit + 1) : s.Reaches ts limit (t.withDepth d) := by
  obtain ⟨hle, hpos, new, hnew, hdepths⟩ := h
  refine ⟨hle, hpos, d :: new, congrArg (d :: ·) hnew, fun e he => ?_⟩
  obtain rfl | he := List.mem_cons.1 he
  · exact ⟨hd, hlimit⟩
  obtain rfl | he := List.mem_cons.1 he
  · exact ⟨hd, hlimit⟩
  · exact hdepths e (List.mem_cons_of_mem _ he)

end Cursor.Reaches

namespace Descent

open Reader

variable {α β : Type} {ts : List Token} {limit calls : Nat} {s t : Cursor}

/-- With that many calls or more, a part `x` of a parse ends from the cursor `s` on as the reader
does with the tokens that are left: with its value, before the tokens that it leaves and at the same
depth, or with its failure, before the tokens that it fails at. -/
inductive Follows (ts : List Token) (limit : Nat) (x : Nat → Descent α) (calls : Nat)
    (read : List Token → Except Failure (α × List Token)) (s : Cursor) : Prop
  | ok {a : α} {t : Cursor} (hread : read (ts.drop s.pos) = .ok (a, ts.drop t.pos))
      (hx : ∀ n, calls ≤ n → x n s = some (.ok a, t)) (hs : s.Reaches ts limit t)
      (hd : t.depth = s.depth)
  | refused {f : Failure} {t : Cursor} (hread : read (ts.drop s.pos) = .error f)
      (hx : ∀ n, calls ≤ n → x n s = some (.error (.refused f), t)) (hs : s.Reaches ts limit t)
      (hrest : f.rest = ts.drop t.pos)

namespace Follows

variable {x : Nat → Descent α} {read : List Token → Except Failure (α × List Token)}

theorem after {y : Nat → Descent α} {read' : List Token → Except Failure (α × List Token)}
    (h : Follows ts limit y calls read' t) (hs : s.Reaches ts limit t) (hd : t.depth = s.depth)
    (hx : ∀ n, calls ≤ n → x n s = y n t) (hread : read (ts.drop s.pos) = read' (ts.drop t.pos)) :
    Follows ts limit x calls read s := by
  have hlimit : t.depth ≤ max s.depth limit := hd ▸ Nat.le_max_left _ _
  cases h with
  | ok hread' hy ht htd =>
    exact .ok (hread.trans hread') (fun n hn => (hx n hn).trans (hy n hn)) (hs.trans ht hlimit)
      (htd.trans hd)
  | refused hread' hy ht hrest =>
    exact .refused (hread.trans hread') (fun n hn => (hx n hn).trans (hy n hn))
      (hs.trans ht hlimit) hrest

theorem congr {y : Nat → Descent α} {read' : List Token → Except Failure (α × List Token)}
    (h : Follows ts limit y calls read' s) (hx : ∀ n, x n s = y n s)
    (hread : read (ts.drop s.pos) = read' (ts.drop s.pos)) : Follows ts limit x calls read s :=
  h.after .refl rfl (fun n _ => hx n) hread

theorem mono {more : Nat} (h : Follows ts limit x calls read s) (hle : calls ≤ more) :
    Follows ts limit x more read s := by
  cases h with
  | ok hread hx hs hd => exact .ok hread (fun n hn => hx n (Nat.le_trans hle hn)) hs hd
  | refused hread hx hs hrest =>
    exact .refused hread (fun n hn => hx n (Nat.le_trans hle hn)) hs hrest

theorem succ (h : Follows ts limit (fun n => x (n + 1)) calls read s) :
    Follows ts limit x (calls + 1) read s := by
  have hpred {r : Option (Except Halt α × Cursor)} (hr : ∀ n, calls ≤ n → x (n + 1) s = r) :
      ∀ n, calls + 1 ≤ n → x n s = r := by
    intro n hn
    cases n with
    | zero => exact (Nat.not_succ_le_zero _ hn).elim
    | succ n => exact hr n (Nat.le_of_succ_le_succ hn)
  cases h with
  | ok hread hx hs hd => exact .ok hread (hpred hx) hs hd
  | refused hread hx hs hrest => exact .refused hread (hpred hx) hs hrest

theorem pure (a : α) :
    Follows ts limit (fun _ => Pure.pure a) calls (fun us => .ok (a, us)) s :=
  .ok rfl (fun _ _ => rfl) .refl rfl

theorem refuse {failure : List Token → Failure} (h : ∀ us, (failure us).rest = us) :
    Follows ts limit (fun _ => (Descent.refuse ts failure : Descent α)) calls
      (fun us => .error (failure us)) s :=
  .refused rfl (fun _ _ => rfl) .refl (h _)

theorem unexpected (e : Text) :
    Follows ts limit (fun _ => (Descent.unexpected ts e : Descent α)) calls
      (fun us => .error (Reader.unexpected e us)) s :=
  refuse (rest_unexpected e)

theorem peek {f : Nat → Option Token → Descent α}
    (h : Follows ts limit (fun n => f n (ts.drop s.pos).head?) calls read s) :
    Follows ts limit (fun n => Descent.peek ts >>= f n) calls read s :=
  h.congr (fun _ => bind_of_ok peek_eq) rfl

theorem consume {kind : TokenKind} {f : Nat → Option Token → Descent α}
    (hnone : (∀ w ∈ (ts.drop s.pos).head?, w.kind ≠ kind) →
      Follows ts limit (fun n => f n none) calls read s)
    (hsome : ∀ w rest, ts.drop s.pos = w :: rest → w.kind = kind → ∃ read',
      Follows ts limit (fun n => f n (some w)) calls read' s.next ∧ read (w :: rest) = read' rest) :
    Follows ts limit (fun n => Descent.consume ts kind >>= f n) calls read s := by
  by_cases hne : ∀ w ∈ (ts.drop s.pos).head?, w.kind ≠ kind
  · exact (hnone hne).congr (fun _ => bind_of_ok (consume_of_ne hne)) rfl
  · simp only [not_forall, not_not] at hne
    obtain ⟨w, hget, hw⟩ := hne
    obtain ⟨rest, hus⟩ := List.head?_eq_some_iff.1 hget
    obtain ⟨read', h, hread⟩ := hsome w rest hus hw
    refine h.after (.next (pos_lt_length hus)) rfl
      (fun _ _ => bind_of_ok (consume_of_kind hus hw)) ?_
    rw [hus, drop_next hus, hread]

theorem bind {f : Nat → α → Descent β} {next : α × List Token → Except Failure (β × List Token)}
    (h : Follows ts limit x calls read s)
    (hnext : ∀ {a : α} {t : Cursor}, read (ts.drop s.pos) = .ok (a, ts.drop t.pos) →
      t.depth = s.depth → Follows ts limit (fun n => f n a) calls (fun us => next (a, us)) t) :
    Follows ts limit (fun n => x n >>= f n) calls (fun us => read us >>= next) s := by
  cases h with
  | ok hread hx hs hd =>
    refine (hnext hread hd).after hs hd (fun n hn => bind_of_ok (hx n hn)) ?_
    rw [hread]
    rfl
  | refused hread hx hs hrest =>
    refine .refused ?_ (fun n hn => bind_of_error (hx n hn)) hs hrest
    rw [hread]
    rfl

theorem map (h : Follows ts limit x calls read s) (f : α → β) :
    Follows ts limit (fun n => do return f (← x n)) calls
      (fun us => (read us).map (·.map f id)) s := by
  have hmap : Follows ts limit (fun n => do return f (← x n)) calls
      (fun us => read us >>= fun r => .ok (f r.1, r.2)) s := h.bind fun {a t} _ _ => .pure (f a)
  refine hmap.congr (fun _ => rfl) ?_
  cases read (ts.drop s.pos) <;> rfl

end Follows

theorem follows_expect (kind : TokenKind) :
    Follows ts limit (fun _ => expect ts kind) calls (Reader.expect kind) s := by
  refine .consume (fun hne => ?_) fun w rest _ hw => ?_
  · exact (Follows.unexpected kind.label).congr (fun _ => rfl) (expect_eq_error.2 ⟨rfl, hne⟩)
  · exact ⟨_, .pure w, expect_cons hw rest⟩

theorem follows_spaces : Follows ts limit (parseSpaces ts) (s.left ts + 1)
    (fun us => .ok (Token.spelling (us.takeWhile (·.kind = .space)),
      us.dropWhile (·.kind = .space))) s := by
  -- The loop goes on only after a space that it has taken.
  induction hm : s.left ts using Nat.strongRecOn generalizing s with
  | ind m ih =>
    subst hm
    refine .succ ?_
    simp only [parseSpaces]
    refine .consume (fun hne => ?_) fun w rest hus hw => ?_
    · refine (Follows.pure []).congr (fun _ => rfl) ?_
      cases hus : ts.drop s.pos with
      | nil => rfl
      | cons w rest =>
        have hw : w.kind ≠ .space := hne w (by rw [hus]; rfl)
        simp only [List.takeWhile_cons, List.dropWhile_cons, hw, decide_false, Bool.false_eq_true,
          if_false]
        rfl
    · have hmore := (ih _ (left_next hus) rfl).mono (left_next hus)
      refine ⟨_, hmore.map (w.text ++ ·), ?_⟩
      simp only [List.takeWhile_cons, List.dropWhile_cons, hw, decide_true, if_true]
      rfl

theorem follows_space : Follows ts limit (parseSpace ts) (s.left ts + 1)
    (fun us => .ok (readSpace us)) s :=
  follows_spaces.map Variable.space

/-- Where fewer than `n` tokens are left, pipelines are parsed as they are read. -/
def Settled (ts : List Token) (limit n : Nat) : Prop :=
  ∀ s : Cursor, s.left ts < n → Follows ts limit (parsePipeline ts limit) (5 * s.left ts + 5)
    (readPipeline (pipeline limit (limit - s.depth))) s

section Settled

variable {n : Nat} (h : Settled ts limit n)

include h

theorem follows_level (hs : s.left ts < n) :
    Follows ts limit (fun m => level ts limit (parsePipeline ts limit m)) (5 * s.left ts + 5)
      (pipeline limit (limit - s.depth)).read s := by
  by_cases hd : s.depth < limit
  · have hlevels : limit - s.depth = limit - (s.depth + 1) + 1 := by omega
    have hlimit : s.depth + 1 ≤ max s.depth limit := by omega
    have hbegin : s.Reaches ts limit (s.withDepth (s.depth + 1)) :=
      Cursor.Reaches.refl.withDepth (Nat.le_succ _) (Nat.le_succ_of_le hlimit)
    have henter (x : Descent Pipeline) : level ts limit x s =
        (do let p ← x; leave; return p) (s.withDepth (s.depth + 1)) :=
      bind_of_ok (enter_of_lt hd)
    rw [hlevels]
    cases h (s.withDepth (s.depth + 1)) hs with
    | @ok p t hread hx ht htd =>
      refine .ok (t := t.withDepth s.depth) hread (fun m hm => ?_) ?_ rfl
      · rw [henter, bind_of_ok (hx m hm), bind_of_ok (leave_of_eq htd)]
        rfl
      · exact (hbegin.trans ht hlimit).withDepth (Nat.le_refl _) (by omega)
    | refused hread hx ht hrest =>
      exact .refused hread (fun m hm => (henter _).trans (bind_of_error (hx m hm)))
        (hbegin.trans ht hlimit) hrest
  · have hle : limit ≤ s.depth := Nat.le_of_not_lt hd
    have hnone : limit - s.depth = 0 := Nat.sub_eq_zero_of_le hle
    rw [hnone]
    exact .refused rfl (fun _ _ => bind_of_error (enter_of_le hle))
      (Cursor.Reaches.refl.withDepth (Nat.le_succ _) (by omega)) rfl

theorem follows_grouping (hs : s.left ts ≤ n) :
    Follows ts limit (parseGrouping ts limit) (5 * s.left ts + 1)
      (readGrouping (pipeline limit (limit - s.depth))) s := by
  refine .succ ?_
  simp only [parseGrouping]
  refine (follows_expect .groupOpen).bind fun {o t} ho hd => ?_
  have ht : t.left ts < s.left ts := length_of_expect ho
  rw [← hd]
  have hbody := (follows_level h (Nat.lt_of_lt_of_le ht hs)).mono
    (show 5 * t.left ts + 5 ≤ 5 * s.left ts by omega)
  refine hbody.bind fun {p u} _ _ => ?_
  refine (follows_expect .groupClose).bind fun {c v} _ _ => ?_
  exact .pure (Variable.grouping o.text p c.text)

theorem follows_variable (hs : s.left ts ≤ n) :
    Follows ts limit (parseVariable ts limit) (5 * s.left ts + 2)
      (readVariable (pipeline limit (limit - s.depth))) s := by
  refine .succ ?_
  simp only [parseVariable]
  refine .peek ?_
  cases hus : ts.drop s.pos with
  | nil =>
    exact (Follows.unexpected "a variable".toList).congr (fun _ => rfl) (by rw [hus]; rfl)
  | cons w rest =>
    simp only [List.head?_cons]
    by_cases hspace : w.kind = .space
    · simp only [if_pos hspace]
      have hspaces : Follows ts limit (parseSpace ts) _ _ s := follows_space
      refine (hspaces.mono (by omega)).congr (fun _ => rfl) ?_
      rw [hus, readVariable, if_pos hspace]
    by_cases hopen : w.kind = .groupOpen
    · simp only [if_neg hspace, if_pos hopen]
      refine (follows_grouping h hs).congr (fun _ => rfl) ?_
      rw [hus, readVariable, if_neg hspace, if_pos hopen]
    simp only [if_neg hspace, if_neg hopen]
    cases hv : w.toVariable? with
    | none =>
      refine (Follows.unexpected "a variable".toList).congr (fun _ => rfl) ?_
      simp only [hus, readVariable, if_neg hspace, if_neg hopen, hv]
    | some r =>
      cases r with
      | error fault =>
        refine (Follows.refuse fun _ => rfl).congr (fun _ => rfl) ?_
        simp only [hus, readVariable, if_neg hspace, if_neg hopen, hv]
      | ok v =>
        refine (Follows.pure v).after (.next (pos_lt_length hus)) rfl (fun _ _ => rfl) ?_
        simp only [hus, drop_next hus, readVariable, if_neg hspace, if_neg hopen, hv]

theorem follows_variables (hs : s.left ts ≤ n) :
    Follows ts limit (parseVariables ts limit) (5 * s.left ts + 3)
      (readVariables (pipeline limit (limit - s.depth))) s := by
  -- The loop goes on only after a variable, which takes one token or more.
  induction hm : s.left ts using Nat.strongRecOn generalizing s with
  | ind m ih =>
    subst hm
    refine .succ ?_
    simp only [parseVariables]
    refine .peek ?_
    simp only [any_beginsVariable]
    by_cases hb : Token.beginsVariable (ts.drop s.pos) = true
    · simp only [if_pos hb]
      have hmore : Follows ts limit
          (fun n => do let v ← parseVariable ts limit n; return v :: (← parseVariables ts limit n))
          (5 * s.left ts + 2)
          (fun us => readVariable (pipeline limit (limit - s.depth)) us >>= fun r =>
            (readVariables (pipeline limit (limit - s.depth)) r.2).map (·.map (r.1 :: ·) id))
          s := by
        refine (follows_variable h hs).bind fun {v t} hv hd => ?_
        have ht : t.left ts < s.left ts := length_of_readVariable hv
        rw [← hd]
        have hrest := ih _ ht (Nat.le_trans (Nat.le_of_lt ht) hs) rfl
        exact (hrest.mono (by omega)).map (v :: ·)
      refine hmore.congr (fun _ => rfl) ?_
      rw [readVariables, if_pos hb]
      cases readVariable (pipeline limit (limit - s.depth)) (ts.drop s.pos) <;> rfl
    · simp only [if_neg hb]
      refine (Follows.pure []).congr (fun _ => rfl) ?_
      rw [readVariables, if_neg hb]

theorem follows_group (hs : s.left ts ≤ n) :
    Follows ts limit (parseGroup ts limit) (5 * s.left ts + 4)
      (readGroup (pipeline limit (limit - s.depth))) s := by
  refine .succ ?_
  simp only [parseGroup]
  refine (follows_variables h hs).bind fun {g t} _ _ => ?_
  by_cases hnil : g.isEmpty = true
  · simp only [if_pos hnil]
    exact .unexpected "a pipeline".toList
  · simp only [if_neg hnil]
    exact .pure g

theorem follows_pipeline (hs : s.left ts ≤ n) :
    Follows ts limit (parsePipeline ts limit) (5 * s.left ts + 5)
      (readPipeline (pipeline limit (limit - s.depth))) s := by
  refine .succ ?_
  simp only [parsePipeline]
  refine (follows_group h hs).bind fun {g t} hg hd => ?_
  have ht : t.left ts < s.left ts := length_of_readGroup hg
  rw [← hd]
  refine .consume (fun hne => ?_) fun w rest hus hw => ?_
  · refine (Follows.pure (.stage g)).congr (fun _ => rfl) ?_
    cases hus : ts.drop t.pos with
    | nil => rfl
    | cons w rest =>
      obtain ⟨kind, text⟩ := w
      rw [hus] at hne
      cases kind <;> first | rfl | exact (hne _ rfl rfl).elim
  · obtain ⟨kind, text⟩ := w
    subst hw
    have hnext : t.next.left ts < s.left ts := Nat.lt_trans (left_next hus) ht
    have hlevel := (follows_level h (Nat.lt_of_lt_of_le hnext hs)).mono
      (show 5 * t.next.left ts + 5 ≤ 5 * s.left ts + 4 by omega)
    exact ⟨_, hlevel.bind fun {p u} _ _ => .pure (Pipeline.piped g p), rfl⟩

end Settled

theorem settled (ts : List Token) (limit n : Nat) : Settled ts limit n := by
  -- A pipeline inside another one begins behind a pipe or a parenthesis of it.
  induction n with
  | zero => exact fun s hs => (Nat.not_lt_zero _ hs).elim
  | succ n ih => exact fun s hs => follows_pipeline ih (Nat.le_of_lt_succ hs)

theorem follows_pipelines (s : Cursor) :
    Follows ts limit (parsePipelines ts limit) (5 * s.left ts + 6)
      (readPipelines (pipeline limit (limit - s.depth + 1))) s := by
  have hpipeline : Follows ts limit (parsePipeline ts limit) (5 * s.left ts + 5)
      (pipeline limit (limit - s.depth + 1)).read s := settled ts limit _ s (Nat.lt_succ_self _)
  -- No second pipeline can begin where the first one ends.
  have hone : Follows ts limit (fun n => parsePipelines ts limit (n + 1)) (5 * s.left ts + 5)
      (fun us => (pipeline limit (limit - s.depth + 1)).read us >>= fun r => .ok ([r.1], r.2))
      s := by
    simp only [parsePipelines]
    refine hpipeline.bind fun {p t} hp _ => .peek ?_
    obtain ⟨_, -, -, hrest, -⟩ := sound_pipeline limit _ hp
    simp only [any_beginsVariable, hrest, Bool.false_eq_true, if_false]
    exact .pure [p]
  refine .succ (hone.congr (fun _ => rfl) ?_)
  rw [readPipelines_pipeline]
  cases (pipeline limit (limit - s.depth + 1)).read (ts.drop s.pos) <;> rfl

theorem follows_action (hs : s.depth = 0) :
    Follows ts limit (parseAction ts limit) (5 * s.left ts + 6)
      (fun us => (·, []) <$> Action.ofTokens limit us) s := by
  unfold parseAction
  simp only [Action.ofTokens, map_bind]
  refine (follows_expect .statementOpen).bind fun {o t} ho ht => ?_
  have hleft : t.left ts < s.left ts := length_of_expect ho
  have hpipelines : Follows ts limit (parsePipelines ts limit) _ _ t := follows_pipelines t
  rw [ht, hs, Nat.sub_zero] at hpipelines
  dsimp only
  refine (hpipelines.mono (by omega)).bind fun {ps u} _ _ => ?_
  dsimp only
  refine (follows_expect .statementClose).bind fun {c v} _ _ => .peek ?_
  cases hus : ts.drop v.pos with
  | nil => exact (Follows.pure ⟨o.text, ps, c.text⟩).congr (fun _ => rfl) (by rw [hus]; rfl)
  | cons w rest => exact (Follows.refuse fun _ => rfl).congr (fun _ => rfl) (by rw [hus]; rfl)

/-- From the cursor `s` the part `x` of a parse ends, with five calls inside one another for each
token that is left and a few more, and not by leaving a level that is not open. If it gives a value
then it has gone past one token or more, and not past the end of the tokens, and the depth is what
it was. -/
def Advances (ts : List Token) (limit : Nat) (x : Nat → Descent α) (s : Cursor) : Prop :=
  ∃ r t, (∀ calls, 5 * s.left ts + 6 ≤ calls → x calls s = some (r, t)) ∧
    s.Reaches ts limit t ∧ r ≠ .error .underflow ∧
    ∀ a, r = .ok a → s.pos < t.pos ∧ t.pos ≤ ts.length ∧ t.depth = s.depth

theorem Follows.advances {x : Nat → Descent α}
    {read : List Token → Except Failure (α × List Token)} (h : Follows ts limit x calls read s)
    (hcalls : calls ≤ 5 * s.left ts + 6)
    (hread : ∀ {a rest}, read (ts.drop s.pos) = .ok (a, rest) →
      rest.length < (ts.drop s.pos).length) : Advances ts limit x s := by
  cases h.mono hcalls with
  | @ok a t hr hx hs hd =>
    have hlt := hread hr
    rw [List.length_drop, List.length_drop] at hlt
    have hle := hs.pos_le
    refine ⟨_, t, hx, hs, nofun, fun _ _ => ⟨?_, ?_, hd⟩⟩ <;> omega
  | refused hr hx hs hrest => exact ⟨_, _, hx, hs, nofun, nofun⟩

theorem Follows.outcome {x : Nat → Descent α}
    {read : List Token → Except Failure (α × List Token)} (h : Follows ts limit x calls read s) :
    ∃ t, (∀ n, calls ≤ n →
        x n s = some (((read (ts.drop s.pos)).map (·.1)).mapError .refused, t)) ∧
      s.Reaches ts limit t := by
  cases h with
  | @ok a t hread hx hs hd =>
    rw [hread]
    exact ⟨t, hx, hs⟩
  | @refused f t hread hx hs hrest =>
    rw [hread]
    exact ⟨t, hx, hs⟩

theorem exists_parseAction (ts : List Token) (limit : Nat) :
    ∃ t, (∀ calls, 5 * ts.length + 6 ≤ calls →
        parseAction ts limit calls {} = some ((Action.ofTokens limit ts).mapError .refused, t)) ∧
      ∀ d ∈ t.depth :: t.record, d ≤ limit + 1 := by
  obtain ⟨t, ht, -, -, new, hnew, hdepths⟩ :=
    (follows_action rfl : Follows ts limit (parseAction ts limit) _ _ {}).outcome
  rw [List.append_nil] at hnew
  refine ⟨t, fun calls hcalls => ?_, fun d hd => ?_⟩
  · rw [ht calls hcalls, List.drop_zero]
    cases Action.ofTokens limit ts <;> rfl
  · rw [hnew] at hd
    have hle := (hdepths d hd).2
    rwa [Nat.zero_max] at hle

example : parseAction (tokenize "\x7b\x7b x | (y) \x7d\x7d".toList) 1 9 {} =
    some (.error (.refused ⟨.nestingTooDeep 1, tokenize "y) \x7d\x7d".toList⟩),
      ⟨7, 2, [2, 1]⟩) := by
  cbv

theorem length_of_readSpace {w : Token} {us : List Token} (hw : w.kind = .space) :
    (readSpace (w :: us)).2.length < (w :: us).length := by
  have hread : readVariable (tooDeep 0) (w :: us) = .ok (readSpace (w :: us)) := by
    rw [readVariable, if_pos hw]
  exact length_of_readVariable hread

/-- From every cursor each part of a parse ends. If it gives a value, one of spaces from a token
that is a space, then it has gone past tokens that are there and left the depth as it was. No level
is left that is not open, and from a depth within the limit no depth is more than one above it. The
whole parse, from the first token on, reads what is read of the tokens. -/
theorem parse_advances (ts : List Token) (limit : Nat) :
    (∀ s : Cursor,
      Advances ts limit (parsePipelines ts limit) s ∧
      Advances ts limit (parsePipeline ts limit) s ∧
      Advances ts limit (parseGroup ts limit) s ∧
      Advances ts limit (parseVariable ts limit) s ∧
      Advances ts limit (parseGrouping ts limit) s ∧
      (∃ v t, (∀ calls, s.left ts + 1 ≤ calls → parseSpace ts calls s = some (.ok v, t)) ∧
        s.Reaches ts limit t ∧ t.depth = s.depth) ∧
      ((∃ w ∈ ts[s.pos]?, w.kind = .space) → Advances ts limit (parseSpace ts) s)) ∧
    ∃ t, (∀ calls, 5 * ts.length + 6 ≤ calls →
        parseAction ts limit calls {} = some ((Action.ofTokens limit ts).mapError .refused, t)) ∧
      ∀ d ∈ t.depth :: t.record, d ≤ limit + 1 := by
  refine ⟨fun s => ?_, exists_parseAction ts limit⟩
  have h := settled ts limit (s.left ts)
  have hs := Nat.le_refl (s.left ts)
  have hspace : Follows ts limit (parseSpace ts) _ (fun us => .ok (readSpace us)) s :=
    follows_space
  refine ⟨?_, (follows_pipeline h hs).advances (by omega) length_of_readPipeline,
    (follows_group h hs).advances (by omega) length_of_readGroup,
    (follows_variable h hs).advances (by omega) length_of_readVariable,
    (follows_grouping h hs).advances (by omega) length_of_readGrouping, ?_, ?_⟩
  · refine (follows_pipelines s).advances (Nat.le_refl _) fun {ps rest} hps => ?_
    obtain ⟨p, -, hp⟩ := readPipelines_eq_ok hps
    exact (pipeline limit _).shorter hp
  · cases hspace with
    | ok _ hx ht hd => exact ⟨_, _, hx, ht, hd⟩
    | refused hread => cases hread
  · rintro ⟨w, hget, hw⟩
    obtain ⟨us, hus⟩ := List.head?_eq_some_iff.1 (List.head?_drop.trans hget)
    refine hspace.advances (by omega) fun {v rest} hread => ?_
    cases hread
    rw [hus]
    exact length_of_readSpace hw

end Descent

end Stencil
