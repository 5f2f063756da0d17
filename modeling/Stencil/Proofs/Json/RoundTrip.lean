import Stencil.Json.Forms
import Stencil.Proofs.Json.Scalars
import Stencil.Proofs.Json.Texts
import Stencil.Proofs.Strings
import Stencil.Proofs.TreeTokens

namespace Stencil

namespace Json

mutual

def nesting : Json → Nat
  | array items => itemsNesting items + 1
  | object fields => fieldsNesting fields + 1
  | _ => 0

def itemsNesting : List Json → Nat
  | [] => 0
  | v :: items => max v.nesting (itemsNesting items)

def fieldsNesting : List (Text × Json) → Nat
  | [] => 0
  | (_, v) :: fields => max v.nesting (fieldsNesting fields)

end

theorem exists_of_array_nesting_le {items : List Json} {n : Nat} (h : (array items).nesting ≤ n) :
    ∃ m, n = m + 1 ∧ ∀ v ∈ items, v.nesting ≤ m := by
  rw [nesting] at h
  refine ⟨n - 1, by omega, ?_⟩
  have hitems : itemsNesting items ≤ n - 1 := by omega
  clear h
  induction items with
  | nil => nofun
  | cons v items ih =>
    rw [itemsNesting, Nat.max_le] at hitems
    exact List.forall_mem_cons.2 ⟨hitems.1, ih hitems.2⟩

theorem exists_of_object_nesting_le {fields : List (Text × Json)} {n : Nat}
    (h : (object fields).nesting ≤ n) : ∃ m, n = m + 1 ∧ ∀ f ∈ fields, f.2.nesting ≤ m := by
  rw [nesting] at h
  refine ⟨n - 1, by omega, ?_⟩
  have hfields : fieldsNesting fields ≤ n - 1 := by omega
  clear h
  induction fields with
  | nil => nofun
  | cons f fields ih =>
    rw [fieldsNesting, Nat.max_le] at hfields
    exact List.forall_mem_cons.2 ⟨hfields.1, ih hfields.2⟩

theorem spelled_ofText (s : Text) : (ofText s).Spelled := .string (matches_flatMap_escape s)

theorem spelled_ofNat (n : Nat) : (ofNat n).Spelled := .number (matches_decimal n)

theorem spelled_ofInt (n : Int) : (ofInt n).Spelled := .number (matches_signedDecimal n)

theorem spelled_zip (names : List Text) (values : List Json) (hplain : ∀ name ∈ names, Plain name)
    (h : ∀ v ∈ values, v.Spelled) : (object (names.zip values)).Spelled :=
  .object (fun f hf => (hplain f.1 (List.of_mem_zip hf).1).matches)
    fun f hf => h f.2 (List.of_mem_zip hf).2

/-- Whether the form is spelled as JSON has it and, with as many levels as it nests, is read as the
value. -/
structure Restores {α : Type} (of? : Nat → Json → Option α) (j : Json) (a : α) : Prop where
  spelled : j.Spelled
  read : ∀ n, j.nesting ≤ n → of? n j = some a

section Restores

variable {α : Type} {of? : Nat → Json → Option α} {j : Json} {a : α}

theorem read?_of_parse? {s : Text} (h : parse? s = some j) (ha : of? maxLevels j = some a) :
    read? of? s = some a := by
  rw [read?, h, Option.bind_eq_bind, Option.bind_some, ha]

theorem Restores.read?_render (h : Restores of? j a) (hn : j.nesting ≤ maxLevels) :
    read? of? j.render = some a :=
  read?_of_parse? h.spelled.parse?_render (h.read _ hn)

theorem Restores.read?_pretty (h : Restores of? j a) (hn : j.nesting ≤ maxLevels) :
    read? of? j.pretty = some a :=
  read?_of_parse? h.spelled.parse?_pretty (h.read _ hn)

theorem restores_array {items? : Nat → Json → Option (List α)} {toJson : α → Json} {as : List α}
    (hread : ∀ n j, items? (n + 1) j = j.list? (of? n))
    (h : ∀ a ∈ as, Restores of? (toJson a) a) : Restores items? (.array (as.map toJson)) as where
  spelled := by
    refine .array fun v hv => ?_
    obtain ⟨a, ha, rfl⟩ := List.mem_map.1 hv
    exact (h a ha).spelled
  read n hn := by
    obtain ⟨n, rfl, hitems⟩ := exists_of_array_nesting_le hn
    rw [hread, list?]
    clear hn
    induction as with
    | nil => rfl
    | cons a as ih =>
      rw [List.map_cons, List.forall_mem_cons] at hitems
      rw [List.forall_mem_cons] at h
      rw [List.map_cons, List.mapM_cons, h.1.read n hitems.1, ih h.2 hitems.2]
      rfl

end Restores

theorem restores_enclosed {α β : Type} {inner? : Nat → Json → Option α}
    {outer? : Nat → Json → Option β} {name o c : Text} {v : Json} {a : α} {b : β}
    (hplain : ∀ n ∈ ["open".toList, name, "close".toList], Plain n)
    (hnodup : ["open".toList, name, "close".toList].Nodup)
    (hread : ∀ n j, j.record? ["open".toList, name, "close".toList] =
      some [some (.ofText o), some v, some (.ofText c)] → inner? n v = some a →
        outer? (n + 1) j = some b)
    (h : Restores inner? v a) :
    Restores outer?
      (.object [("open".toList, .ofText o), (name, v), ("close".toList, .ofText c)]) b where
  spelled := by
    refine spelled_zip ["open".toList, name, "close".toList] [.ofText o, v, .ofText c] hplain ?_
    simp only [List.forall_mem_cons]
    exact ⟨spelled_ofText o, h.spelled, spelled_ofText c, nofun⟩
  read n hn := by
    obtain ⟨n, rfl, hfields⟩ := exists_of_object_nesting_le hn
    simp only [List.forall_mem_cons] at hfields
    have hrecord := record?_zip ["open".toList, name, "close".toList] [.ofText o, v, .ofText c]
      hplain hnodup (Nat.le_refl 3)
    exact hread n _ hrecord (h.read n hfields.2.1)

theorem restores_grouping {g : Grouping} (h : Restores toPipeline? g.body.toJson g.body) :
    Restores toGrouping? g.toJson g := by
  refine restores_enclosed (by decide) (by decide) (fun n j hj hbody => ?_) h
  simp only [toGrouping?, hj, hbody, text?_ofText, Option.bind_eq_bind, Option.bind_some,
    Option.pure_def]

theorem restores_action {a : Action}
    (h : Restores toPipelines? (Pipelines.toJson a.pipelines) a.pipelines) :
    Restores toAction? a.toJson a := by
  refine restores_enclosed (by decide) (by decide) (fun n j hj hpipelines => ?_) h
  simp only [toAction?, hj, hpipelines, text?_ofText, Option.bind_eq_bind, Option.bind_some,
    Option.pure_def]

theorem restores_variant {α : Type} {of? : Nat → Json → Option α} {kind : Text} {v : Json} {a : α}
    (hkind : Plain kind) (hv : v.Spelled)
    (hread : ∀ n j, j.variant? = some (kind, some v) → v.nesting ≤ n → of? (n + 1) j = some a) :
    Restores of? (.object [(kind, v)]) a where
  spelled := by
    refine spelled_zip [kind] [v] ?_ ?_
    · simpa using hkind
    · simpa using hv
  read n hn := by
    obtain ⟨n, rfl, hfields⟩ := exists_of_object_nesting_le hn
    exact hread n _ (variant?_object hkind v) (hfields _ List.mem_cons_self)

theorem restores_leaf {v : Variable} (hg : v.kind ≠ .groupOpen) (hf : v.kind ≠ .float) :
    Restores toVariable? v.toJson v := by
  cases v with
  | grouping => exact (hg rfl).elim
  | float => exact (hf rfl).elim
  | int n =>
    refine restores_variant (by decide) (spelled_ofInt _) fun _ _ hj _ => ?_
    rw [toVariable?, hj]
    exact congrArg (Option.map Variable.int) (int64?_ofInt n)
  | rune c =>
    refine restores_variant (by decide) (spelled_ofText _) fun _ _ hj _ => ?_
    rw [toVariable?, hj]
    exact congrArg (Option.map Variable.rune) (char?_ofText c)
  | assign s | range s | ident s | keyword s | literal s | string s | space s | comment s =>
    refine restores_variant (by decide) (spelled_ofText s) fun _ _ hj _ => ?_
    rw [toVariable?, hj]
    exact congrArg (Option.map _) (text?_ofText s)

end Json

theorem Group.itemsToJson_eq (g : Group) : Group.itemsToJson g = g.map Variable.toJson := by
  induction g with
  | nil => rfl
  | cons v g ih => rw [itemsToJson, ih, List.map_cons]

/-- Whether no variable of the groups is a floating-point number. -/
def FloatFree (gs : List Group) : Prop := ∀ g ∈ gs, ∀ v ∈ g, v.kind ≠ .float

instance (gs : List Group) : Decidable (FloatFree gs) :=
  inferInstanceAs (Decidable (∀ g ∈ gs, ∀ v ∈ g, v.kind ≠ .float))

section FloatFree

variable {g : Group} {gs hs : List Group}

theorem floatFree_cons : FloatFree (g :: gs) ↔ (∀ v ∈ g, v.kind ≠ .float) ∧ FloatFree gs :=
  List.forall_mem_cons

theorem floatFree_append : FloatFree (gs ++ hs) ↔ FloatFree gs ∧ FloatFree hs :=
  List.forall_mem_append

end FloatFree

open Json

namespace Phrase

/-- Whether the JSON form of a phrase gives the phrase back, for a group that of each variable. -/
def Restored : Phrase → Prop
  | .variable v => Restores toVariable? v.toJson v
  | .group g => ∀ v ∈ g, Restores toVariable? v.toJson v
  | .pipeline p => Restores toPipeline? p.toJson p

theorem restores_group {g : Group} (h : Restored (.group g)) :
    Restores toGroup? (Group.toJson g) g := by
  rw [Group.toJson, Group.itemsToJson_eq]
  exact restores_array (fun _ _ => rfl) h

theorem restored_stage {g : Group} (h : Restored (.group g)) : Restored (.pipeline (.stage g)) := by
  have hg := restores_group h
  refine ⟨?_, fun n hn => ?_⟩
  · refine spelled_zip ["variables".toList] [Group.toJson g] (by decide) ?_
    simpa using hg.spelled
  · obtain ⟨n, rfl, hfields⟩ := exists_of_object_nesting_le hn
    have hrecord : (Pipeline.stage g).toJson.record? ["variables".toList, "piped".toList] =
        some [some (Group.toJson g), none] :=
      record?_zip ["variables".toList, "piped".toList] [Group.toJson g] (by decide) (by decide)
        (Nat.le_succ 1)
    simp only [toPipeline?, hrecord, hg.read n (hfields _ List.mem_cons_self), Option.bind_eq_bind,
      Option.bind_some, Option.pure_def]

theorem restored_piped {g : Group} {p : Pipeline} (h : Restored (.group g))
    (hp : Restored (.pipeline p)) : Restored (.pipeline (.piped g p)) := by
  have hg := restores_group h
  refine ⟨?_, fun n hn => ?_⟩
  · refine spelled_zip ["variables".toList, "piped".toList] [Group.toJson g, p.toJson]
      (by decide) ?_
    simp only [List.forall_mem_cons]
    exact ⟨hg.spelled, hp.spelled, nofun⟩
  · obtain ⟨n, rfl, hfields⟩ := exists_of_object_nesting_le hn
    simp only [List.forall_mem_cons] at hfields
    have hrecord : (Pipeline.piped g p).toJson.record? ["variables".toList, "piped".toList] =
        some [some (Group.toJson g), some p.toJson] :=
      record?_zip ["variables".toList, "piped".toList] [Group.toJson g, p.toJson] (by decide)
        (by decide) (Nat.le_refl 2)
    have hroot := hg.read n hfields.1
    have hnext := hp.read n hfields.2.1
    -- A stage after a pipe is an object, and so it is not taken for one that is missing.
    obtain ⟨fields, hp⟩ : ∃ fields, p.toJson = .object fields := by cases p <;> exact ⟨_, rfl⟩
    rw [hp] at hrecord hnext
    simp only [toPipeline?, hrecord, hroot, hnext, Option.bind_eq_bind, Option.bind_some,
      Option.pure_def]

theorem restored {x : Phrase} (h : FloatFree x.groups) : x.Restored := by
  induction x using Phrase.induction with
  | leaf v hv => exact restores_leaf hv (h [v] List.mem_cons_self v List.mem_cons_self)
  | grouping o p c ih =>
    rw [groups, Group.groups, Group.inner, Variable.groups, Group.inner, List.append_nil,
      floatFree_cons] at h
    have hgrouping := restores_grouping (g := ⟨o, p, c⟩) (ih h.2)
    refine restores_variant (by decide) hgrouping.spelled fun n _ hj hn => ?_
    rw [toVariable?, hj]
    exact congrArg (Option.map Variable.ofGrouping) (hgrouping.read n hn)
  | nil => exact List.forall_mem_nil _
  | cons v g ihv ihg =>
    rw [groups, Group.groups, Group.inner, floatFree_cons, floatFree_append,
      List.forall_mem_cons] at h
    obtain ⟨⟨hkind, hkinds⟩, hv, hg⟩ := h
    have hsingle : FloatFree (groups (.variable v)) := by
      rw [groups, Group.groups, Group.inner, Group.inner, List.append_nil, floatFree_cons,
        List.forall_mem_singleton]
      exact ⟨hkind, hv⟩
    exact List.forall_mem_cons.2 ⟨ihv hsingle, ihg (floatFree_cons.2 ⟨hkinds, hg⟩)⟩
  | stage g ih => exact restored_stage (ih h)
  | piped g p ihg ihp =>
    obtain ⟨hg, hp⟩ := floatFree_append.1 h
    exact restored_piped (ihg hg) (ihp hp)

end Phrase

theorem restores_pipelines {ps : Pipelines} (h : FloatFree (Pipelines.groups ps)) :
    Restores toPipelines? (Pipelines.toJson ps) ps := by
  refine restores_array (fun _ _ => rfl) fun p hp => ?_
  have hrestored : (Phrase.pipeline p).Restored :=
    Phrase.restored fun g hg => h g (List.mem_flatMap.2 ⟨p, hp, hg⟩)
  exact hrestored

theorem restores_branch {b : Branch} (h : FloatFree b.groups) : Restores toBranch? b.toJson b := by
  cases b with
  | text s =>
    refine restores_variant (by decide) (spelled_ofText s) fun _ _ hj _ => ?_
    rw [toBranch?, hj]
    exact congrArg (Option.map Branch.text) (text?_ofText s)
  | action a =>
    have ha := restores_action (restores_pipelines h)
    refine restores_variant (by decide) ha.spelled fun n _ hj hn => ?_
    rw [toBranch?, hj]
    exact congrArg (Option.map Branch.action) (ha.read n hn)

theorem restores_tree {t : Tree} (h : FloatFree t.groups) : Restores toTree? t.toJson t :=
  restores_array (fun _ _ => rfl) fun b hb =>
    restores_branch fun g hg => h g (List.mem_flatMap.2 ⟨b, hb, hg⟩)

def ErrorKind.Fits : ErrorKind → Prop
  | .nestingTooDeep limit => limit < 2 ^ 64
  | _ => True

structure ParseError.Fits (e : ParseError) : Prop where
  line : e.position.line < 2 ^ 64
  column : e.position.column < 2 ^ 64
  kind : e.kind.Fits

namespace ErrorKind

theorem text1_object {make : Text → ErrorKind} {field : String} (hplain : Plain field.toList)
    (s : Text) :
    toErrorKind?.text1 make field (.object [(field.toList, .ofText s)]) = some (make s) := by
  have hrecord : record? [field.toList] (.object [(field.toList, .ofText s)]) =
      some [some (.ofText s)] :=
    record?_zip [field.toList] [.ofText s] (by simpa using hplain) (by simp) (Nat.le_refl 1)
  rw [toErrorKind?.text1, hrecord]
  exact congrArg (Option.map make) (text?_ofText s)

theorem text2_object {make : Text → Text → ErrorKind} {field field' : String}
    (hplain : ∀ name ∈ [field.toList, field'.toList], Plain name)
    (hne : [field.toList, field'.toList].Nodup) (s s' : Text) :
    toErrorKind?.text2 make field field'
      (.object [(field.toList, .ofText s), (field'.toList, .ofText s')]) = some (make s s') := by
  have hrecord : record? [field.toList, field'.toList]
      (.object [(field.toList, .ofText s), (field'.toList, .ofText s')]) =
        some [some (.ofText s), some (.ofText s')] :=
    record?_zip [field.toList, field'.toList] [.ofText s, .ofText s'] hplain hne (Nat.le_refl 2)
  simp only [toErrorKind?.text2, hrecord, text?_ofText, Option.bind_eq_bind, Option.bind_some,
    Option.pure_def]

theorem toErrorKind?_toJson {k : ErrorKind} (h : k.Fits) (n : Nat) :
    toErrorKind? (n + 2) k.toJson = some k := by
  cases k with
  | unexpectedCharacter s | unexpectedEnd s | trailingTokens s =>
    rw [toJson, toJson.variant, toErrorKind?, variant?_object (by decide)]
    exact text1_object (by decide) s
  | unexpectedToken s s' | invalidLiteral s s' =>
    rw [toJson, toJson.variant, toErrorKind?, variant?_object (by decide)]
    exact text2_object (by decide) (by decide) s s'
  | unbalancedDelimiter =>
    rw [toJson, toErrorKind?, variant?_ofText]
    rfl
  | nestingTooDeep limit =>
    have hrecord : record? ["limit".toList] (.object [("limit".toList, .ofNat limit)]) =
        some [some (.ofNat limit)] :=
      record?_zip ["limit".toList] [.ofNat limit] (by decide) (by decide) (Nat.le_refl 1)
    rw [toJson, toJson.variant, toErrorKind?, variant?_object (by decide)]
    simp only [String.ofList_toList, List.map_cons, List.map_nil, hrecord, nat64?_ofNat h,
      if_neg (Nat.succ_ne_zero n), Option.map_some]

theorem spelled_variant {name : String} {fields : List (String × Json)} (hname : Plain name.toList)
    (h : ∀ f ∈ fields, Plain f.1.toList ∧ f.2.Spelled) : (toJson.variant name fields).Spelled := by
  refine .object (List.forall_mem_singleton.2 hname.matches) (List.forall_mem_singleton.2 ?_)
  refine .object ?_ ?_
  · exact List.forall_mem_map.2 fun f hf => (h f hf).1.matches
  · exact List.forall_mem_map.2 fun f hf => (h f hf).2

theorem spelled_toJson (k : ErrorKind) : k.toJson.Spelled := by
  cases k with
  | unbalancedDelimiter => exact spelled_ofText _
  | unexpectedCharacter s | unexpectedEnd s | trailingTokens s =>
    refine spelled_variant (by decide) ?_
    simp only [List.forall_mem_cons]
    exact ⟨⟨by decide, spelled_ofText s⟩, nofun⟩
  | unexpectedToken s s' | invalidLiteral s s' =>
    refine spelled_variant (by decide) ?_
    simp only [List.forall_mem_cons]
    exact ⟨⟨by decide, spelled_ofText s⟩, ⟨by decide, spelled_ofText s'⟩, nofun⟩
  | nestingTooDeep limit =>
    refine spelled_variant (by decide) ?_
    simp only [List.forall_mem_cons]
    exact ⟨⟨by decide, spelled_ofNat limit⟩, nofun⟩

end ErrorKind

namespace ParseError

theorem toParseError?_toJson {e : ParseError} (h : e.Fits) :
    toParseError? maxLevels e.toJson = some e := by
  have hrecord : e.toJson.record? ["filename".toList, "line".toList, "column".toList,
      "source".toList, "kind".toList] = some [some (.ofText e.file), some (.ofNat e.position.line),
        some (.ofNat e.position.column), some (.ofText e.source), some e.kind.toJson] :=
    record?_zip ["filename".toList, "line".toList, "column".toList, "source".toList, "kind".toList]
      [.ofText e.file, .ofNat e.position.line, .ofNat e.position.column, .ofText e.source,
        e.kind.toJson] (by decide) (by decide) (Nat.le_refl 5)
  have hkind : toErrorKind? 126 e.kind.toJson = some e.kind := ErrorKind.toErrorKind?_toJson h.kind _
  rw [maxLevels, toParseError?]
  simp only [hrecord, hkind, text?_ofText, nat64?_ofNat h.line, nat64?_ofNat h.column,
    Option.bind_eq_bind, Option.bind_some, Option.pure_def]

theorem spelled_toJson (e : ParseError) : e.toJson.Spelled := by
  refine spelled_zip ["filename".toList, "line".toList, "column".toList, "source".toList,
    "kind".toList] [.ofText e.file, .ofNat e.position.line, .ofNat e.position.column,
      .ofText e.source, e.kind.toJson] (by decide) ?_
  simp only [List.forall_mem_cons]
  exact ⟨spelled_ofText _, spelled_ofNat _, spelled_ofNat _, spelled_ofText _,
    ErrorKind.spelled_toJson _, nofun⟩

end ParseError

/-- What is written as JSON is read as what it was: each part of a tree, if no variable in it is a
floating-point number and it nests no deeper than is read, and a tree also with a line for each
member; and errors and their kinds. -/
theorem read?_render_toJson :
    (∀ v : Variable, FloatFree (Group.groups [v]) → v.toJson.nesting ≤ maxLevels →
      read? toVariable? v.toJson.render = some v) ∧
    (∀ g : Grouping, FloatFree g.groups → g.toJson.nesting ≤ maxLevels →
      read? toGrouping? g.toJson.render = some g) ∧
    (∀ g : Group, FloatFree (Group.groups g) → (Group.toJson g).nesting ≤ maxLevels →
      read? toGroup? (Group.toJson g).render = some g) ∧
    (∀ p : Pipeline, FloatFree p.groups → p.toJson.nesting ≤ maxLevels →
      read? toPipeline? p.toJson.render = some p) ∧
    (∀ ps : Pipelines, FloatFree (Pipelines.groups ps) →
      (Pipelines.toJson ps).nesting ≤ maxLevels →
        read? toPipelines? (Pipelines.toJson ps).render = some ps) ∧
    (∀ a : Action, FloatFree a.groups → a.toJson.nesting ≤ maxLevels →
      read? toAction? a.toJson.render = some a) ∧
    (∀ b : Branch, FloatFree b.groups → b.toJson.nesting ≤ maxLevels →
      read? toBranch? b.toJson.render = some b) ∧
    (∀ t : Tree, FloatFree (Tree.groups t) → (Tree.toJson t).nesting ≤ maxLevels →
      read? toTree? (Tree.toJson t).render = some t ∧ read? toTree? (Tree.format t) = some t) ∧
    (∀ k : ErrorKind, k.Fits → read? toErrorKind? k.toJson.render = some k) ∧
    (∀ e : ParseError, e.Fits → read? toParseError? e.toJson.render = some e) := by
  refine ⟨fun v h hn => ?_, fun g h hn => ?_, fun g h hn => ?_, fun p h hn => ?_, fun ps h hn => ?_,
    fun a h hn => ?_, fun b h hn => ?_, fun t h hn => ⟨?_, ?_⟩, fun k h => ?_, fun e h => ?_⟩
  · have hv : (Phrase.variable v).Restored := Phrase.restored h
    exact hv.read?_render hn
  · have hp : (Phrase.pipeline g.body).Restored := Phrase.restored h
    exact (restores_grouping hp).read?_render hn
  · exact (Phrase.restores_group (Phrase.restored h)).read?_render hn
  · have hp : (Phrase.pipeline p).Restored := Phrase.restored h
    exact hp.read?_render hn
  · exact (restores_pipelines h).read?_render hn
  · exact (restores_action (restores_pipelines h)).read?_render hn
  · exact (restores_branch h).read?_render hn
  · exact (restores_tree h).read?_render hn
  · exact (restores_tree h).read?_pretty hn
  · exact read?_of_parse? k.spelled_toJson.parse?_render (k.toErrorKind?_toJson h 125)
  · exact read?_of_parse? e.spelled_toJson.parse?_render (e.toParseError?_toJson h)

theorem read?_render_toJson_nested : ∃ (g : Group) (inner : Grouping) (p : Pipeline) (a : Action)
    (t : Tree) (e : ParseError), g = [.string "\"\\\n".toList, .rune '\x01', .int Int64.minValue] ∧
      inner.body = .stage g ∧ p.root = [.ofGrouping inner] ∧ a.pipelines = [p, p] ∧
      t = [.text [], .action a] ∧ e.kind = .nestingTooDeep 8 ∧
      (∀ v ∈ g, read? toVariable? v.toJson.render = some v) ∧
      read? toGrouping? inner.toJson.render = some inner ∧
      read? toGroup? (Group.toJson g).render = some g ∧
      read? toPipeline? p.toJson.render = some p ∧
      read? toPipelines? (Pipelines.toJson a.pipelines).render = some a.pipelines ∧
      read? toAction? a.toJson.render = some a ∧
      (∀ b ∈ t, read? toBranch? b.toJson.render = some b) ∧
      read? toTree? (Tree.toJson t).render = some t ∧ read? toTree? (Tree.format t) = some t ∧
      read? toErrorKind? e.kind.toJson.render = some e.kind ∧
      read? toParseError? e.toJson.render = some e := by
  obtain ⟨hvariable, hgrouping, hgroup, hpipeline, hpipelines, haction, hbranch, htree, hkind,
    herror⟩ := read?_render_toJson
  let g : Group := [.string "\"\\\n".toList, .rune '\x01', .int Int64.minValue]
  let inner : Grouping := ⟨['('], .stage g, [')']⟩
  let p : Pipeline := .piped [.ofGrouping inner] (.stage g)
  let a : Action := ⟨['{', '{'], [p, p], ['}', '}']⟩
  let t : Tree := [.text [], .action a]
  let e : ParseError := ⟨"base".toList, ⟨1, 4⟩, [], .nestingTooDeep 8⟩
  have hlimit : (ErrorKind.nestingTooDeep 8).Fits := by
    rw [ErrorKind.Fits]
    decide
  refine ⟨g, inner, p, a, t, e, rfl, rfl, rfl, rfl, rfl, rfl, ?_,
    hgrouping inner (by decide) (by decide), hgroup g (by decide) (by decide),
    hpipeline p (by decide) (by decide), hpipelines a.pipelines (by decide) (by decide),
    haction a (by decide) (by decide), ?_, (htree t (by decide) (by decide)).1,
    (htree t (by decide) (by decide)).2, hkind _ hlimit, herror e ⟨by decide, by decide, hlimit⟩⟩
  · have hv : ∀ v ∈ g, FloatFree (Group.groups [v]) ∧ v.toJson.nesting ≤ maxLevels := by decide
    exact fun v hmem => hvariable v (hv v hmem).1 (hv v hmem).2
  · have hb : ∀ b ∈ t, FloatFree b.groups ∧ b.toJson.nesting ≤ maxLevels := by decide
    exact fun b hmem => hbranch b (hb b hmem).1 (hb b hmem).2

end Stencil
