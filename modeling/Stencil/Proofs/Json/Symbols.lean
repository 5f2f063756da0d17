import Stencil.Json.Reader

namespace Stencil.Json

@[elab_as_elim]
theorem induction {P : Json → Prop} (null : P .null) (bool : ∀ b, P (.bool b))
    (number : ∀ s, P (.number s)) (string : ∀ s, P (.string s))
    (array : ∀ items, (∀ v ∈ items, P v) → P (.array items))
    (object : ∀ fields, (∀ f ∈ fields, P f.2) → P (.object fields)) : ∀ j : Json, P j
  | .null => null
  | .bool b => bool b
  | .number s => number s
  | .string s => string s
  | .array items =>
    array items fun v _ => induction null bool number string array object v
  | .object fields =>
    object fields fun f _ => induction null bool number string array object f.2
termination_by j => sizeOf j
decreasing_by
  · have hlt := List.sizeOf_lt_of_mem ‹v ∈ items›
    simp only [Json.array.sizeOf_spec]
    omega
  · have hlt := List.sizeOf_lt_of_mem ‹f ∈ fields›
    obtain ⟨key, v⟩ := f
    simp only [Json.object.sizeOf_spec, Prod.mk.sizeOf_spec] at hlt ⊢
    omega

mutual

def symbols : Json → List Symbol
  | null => [.scalar .null]
  | bool b => [.scalar (.bool b)]
  | number s => [.scalar (.number s)]
  | string s => [.scalar (.string s)]
  | array items =>
    .bracketOpen :: (List.intercalate [.comma] (itemSymbols items) ++ [.bracketClose])
  | object fields =>
    .braceOpen :: (List.intercalate [.comma] (fieldSymbols fields) ++ [.braceClose])

def itemSymbols : List Json → List (List Symbol)
  | [] => []
  | v :: items => v.symbols :: itemSymbols items

def fieldSymbols : List (Text × Json) → List (List Symbol)
  | [] => []
  | (key, v) :: fields =>
    (.scalar (.string key) :: .colon :: v.symbols) :: fieldSymbols fields

end

namespace Expecting

/-- Whether a value can begin here, with these arrays and objects open around it. -/
def Begins (e : Expecting) (stack : List Frame) : Prop :=
  ∀ s, s ≠ .bracketClose → e.step s = startValue stack s

def TakesKey (e : Expecting) (done : List (Text × Json)) (stack : List Frame) : Prop :=
  ∀ key, e.step (.scalar (.string key)) = some (.colon done key stack)

/-- What it means for symbols to be read as a value wherever one can begin. -/
def Completes (symbols : List Symbol) (v : Json) : Prop :=
  ∀ e stack, Begins e stack → symbols.foldlM step e = some (more v stack)

variable {e : Expecting} {stack : List Frame}

theorem begins_value (stack : List Frame) : (value stack).Begins stack := fun _ _ => rfl

theorem begins_item (stack : List Frame) :
    (itemOrClose stack).Begins (.array [] :: stack) := by
  intro s hs
  cases s with
  | bracketClose => exact (hs rfl).elim
  | _ => rfl

theorem foldlM_cons_of_step {e' : Expecting} {s : Symbol} (h : e.step s = some e')
    (ss : List Symbol) : (s :: ss).foldlM step e = ss.foldlM step e' := by
  rw [List.foldlM_cons, h]
  rfl

theorem foldlM_append_of_completes {ss : List Symbol} {v : Json} (h : Completes ss v)
    (he : e.Begins stack) (rest : List Symbol) :
    (ss ++ rest).foldlM step e = rest.foldlM step (more v stack) := by
  rw [List.foldlM_append, h e stack he]
  rfl

theorem completes_scalar (v : Json) : Completes [.scalar v] v := by
  intro e stack he
  have hstep : e.step (.scalar v) = some (more v stack) := he (.scalar v) (by simp)
  rw [foldlM_cons_of_step hstep]
  rfl

theorem foldlM_items {v : Json} {items : List Json} {done : List Json}
    (h : ∀ w ∈ v :: items, Completes w.symbols w) (he : e.Begins (.array done :: stack)) :
    (List.intercalate [Symbol.comma] (itemSymbols (v :: items)) ++
      [Symbol.bracketClose]).foldlM step e = some (more (.array (done ++ v :: items)) stack) := by
  induction items generalizing v done e with
  | nil =>
    have hv := h v List.mem_cons_self
    rw [itemSymbols, itemSymbols, List.intercalate_singleton, foldlM_append_of_completes hv he]
    rfl
  | cons w items ih =>
    obtain ⟨hv, hitems⟩ := List.forall_mem_cons.1 h
    have hrest := ih hitems (begins_value (.array (done ++ [v]) :: stack))
    have hcomma : (more v (.array done :: stack)).step .comma =
        some (value (.array (done ++ [v]) :: stack)) := rfl
    rw [itemSymbols, itemSymbols, List.intercalate_cons_cons, List.append_assoc, List.append_assoc,
      foldlM_append_of_completes hv he, List.singleton_append, foldlM_cons_of_step hcomma]
    rw [itemSymbols, List.append_assoc, List.singleton_append] at hrest
    exact hrest

theorem foldlM_fields {key : Text} {v : Json} {fields done : List (Text × Json)}
    (h : ∀ f ∈ (key, v) :: fields, Completes f.2.symbols f.2) (he : e.TakesKey done stack) :
    (List.intercalate [Symbol.comma] (fieldSymbols ((key, v) :: fields)) ++
      [Symbol.braceClose]).foldlM step e =
        some (more (.object (done ++ (key, v) :: fields)) stack) := by
  have hcolon : (colon done key stack).step .colon = some (value (.object done key :: stack)) := rfl
  induction fields generalizing key v done e with
  | nil =>
    have hv : Completes v.symbols v := h (key, v) List.mem_cons_self
    rw [fieldSymbols, fieldSymbols, List.intercalate_singleton, List.cons_append, List.cons_append,
      foldlM_cons_of_step (he key), foldlM_cons_of_step hcolon,
      foldlM_append_of_completes hv (begins_value _)]
    rfl
  | cons f fields ih =>
    obtain ⟨key', w⟩ := f
    obtain ⟨hv, hfields⟩ := List.forall_mem_cons.1 h
    have hkey : (Expecting.key (done ++ [(key, v)]) stack).TakesKey (done ++ [(key, v)]) stack :=
      fun _ => rfl
    have hrest := ih hfields hkey rfl
    have hcomma : (more v (.object done key :: stack)).step .comma =
        some (.key (done ++ [(key, v)]) stack) := rfl
    rw [fieldSymbols, fieldSymbols, List.intercalate_cons_cons, List.append_assoc,
      List.append_assoc, List.cons_append, List.cons_append, foldlM_cons_of_step (he key),
      foldlM_cons_of_step hcolon, foldlM_append_of_completes hv (begins_value _),
      List.singleton_append, foldlM_cons_of_step hcomma]
    rw [fieldSymbols, List.append_assoc, List.singleton_append] at hrest
    exact hrest

end Expecting

open Expecting in
/-- The symbols of a value are read as that value wherever one can begin. -/
theorem completes_symbols (j : Json) : Completes j.symbols j := by
  induction j using Json.induction with
  | null | bool | number | string => exact completes_scalar _
  | array items ih =>
    intro e stack he
    have hopen : e.step .bracketOpen = some (itemOrClose stack) := he .bracketOpen (by simp)
    rw [symbols, foldlM_cons_of_step hopen]
    cases items with
    | nil => rfl
    | cons v items => exact foldlM_items ih (begins_item stack)
  | object fields ih =>
    intro e stack he
    have hopen : e.step .braceOpen = some (keyOrClose stack) := he .braceOpen (by simp)
    rw [symbols, foldlM_cons_of_step hopen]
    cases fields with
    | nil => rfl
    | cons f fields =>
      have hkey : (keyOrClose stack).TakesKey [] stack := fun _ => rfl
      exact foldlM_fields ih hkey

theorem parse?_of_symbols {s : Text} {j : Json} (h : Symbol.ofText? s = some j.symbols) :
    parse? s = some j := by
  rw [parse?, h, Option.bind_eq_bind, Option.bind_some,
    completes_symbols j (.value []) [] (Expecting.begins_value [])]
  rfl

end Stencil.Json
