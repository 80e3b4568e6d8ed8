import JavaStubs.Proofs.Types.Capture

namespace JavaStubs

/-- A type as it stands in a signature: `own` is a type parameter of that signature, by its position,
and `free` a variable from outside. -/
inductive NamelessTy
  | void
  | prim (p : Primitive)
  | cls (name : QualName) (args : List NamelessTy)
  | own (position : Nat)
  | free (name : String)
  | array (element : NamelessTy)
  | any
  | upper (bound : NamelessTy)
  | lower (bound : NamelessTy)

namespace Ty

mutual

/-- A type inside a signature that declares `names`. -/
def nameless (names : List String) : Ty → NamelessTy
  | .void => .void
  | .prim p => .prim p
  | .cls name args => .cls name (namelessAll names args)
  | .var name => if name ∈ names then .own (names.idxOf name) else .free name
  | .array element => .array (element.nameless names)
  | .any => .any
  | .upper bound => .upper (bound.nameless names)
  | .lower bound => .lower (bound.nameless names)

def namelessAll (names : List String) : List Ty → List NamelessTy
  | [] => []
  | ty :: rest => ty.nameless names :: namelessAll names rest

end

@[simp] theorem namelessAll_eq_map (names : List String) (args : List Ty) :
    namelessAll names args = args.map (nameless names) := by
  induction args with
  | nil => rfl
  | cons ty rest ih => simp [namelessAll, ih]

/-- Names that do not occur make no difference. -/
theorem nameless_of_not_mem {names : List String} {ty : Ty} (apart : ∀ v ∈ ty.vars, v ∉ names) :
    ty.nameless names = ty.nameless [] := by
  induction ty with
  | cls name args ih =>
    simp only [nameless, namelessAll_eq_map, NamelessTy.cls.injEq, true_and]
    refine List.map_congr_left fun arg member => ih arg member fun v occurs => apart v ?_
    simpa [vars] using ⟨arg, member, occurs⟩
  | var name => simp [nameless, apart name (by simp [vars])]
  | array element ih => simpa [nameless] using ih apart
  | upper bound ih => simpa [nameless] using ih apart
  | lower bound ih => simpa [nameless] using ih apart
  | _ => rfl

end Ty

namespace NamelessTy

mutual

/-- Replaces the free variables. A replacement comes from outside, so all its variables are free. -/
def subst (s : Substitution) : NamelessTy → NamelessTy
  | .void => .void
  | .prim p => .prim p
  | .cls name args => .cls name (substAll s args)
  | .own position => .own position
  | .free name => (s.apply name).nameless []
  | .array element => .array (element.subst s)
  | .any => .any
  | .upper bound => .upper (bound.subst s)
  | .lower bound => .lower (bound.subst s)

def substAll (s : Substitution) : List NamelessTy → List NamelessTy
  | [] => []
  | ty :: rest => ty.subst s :: substAll s rest

end

@[simp] theorem substAll_eq_map (s : Substitution) (args : List NamelessTy) :
    substAll s args = args.map (subst s) := by
  induction args with
  | nil => rfl
  | cons ty rest ih => simp [substAll, ih]

end NamelessTy

/-- Forgetting names exchanges with substitution if it does so at every variable. -/
theorem Ty.nameless_subst {s t : Substitution} {names names' : List String} {ty : Ty}
    (each : ∀ v ∈ ty.vars, (t.apply v).nameless names' = ((Ty.var v).nameless names).subst s) :
    (ty.subst t).nameless names' = (ty.nameless names).subst s := by
  induction ty with
  | cls name args ih =>
    simp only [Ty.subst, nameless, NamelessTy.subst, substAll_eq_map, namelessAll_eq_map,
      NamelessTy.substAll_eq_map, List.map_map, NamelessTy.cls.injEq, true_and]
    refine List.map_congr_left fun arg member => ih arg member fun v occurs => each v ?_
    simpa [vars] using ⟨arg, member, occurs⟩
  | var name => exact each name (by simp [vars])
  | array element ih => simpa [Ty.subst, nameless, NamelessTy.subst] using ih each
  | upper bound ih => simpa [Ty.subst, nameless, NamelessTy.subst] using ih each
  | lower bound ih => simpa [Ty.subst, nameless, NamelessTy.subst] using ih each
  | _ => rfl

/-- The types of a signature, with a list of bounds for each of its parameters. -/
structure NamelessSignature where
  bounds : List (List NamelessTy)
  parameters : List NamelessTy
  result : NamelessTy
  throwing : List NamelessTy

def NamelessSignature.subst (s : Substitution) (signature : NamelessSignature) :
    NamelessSignature where
  bounds := signature.bounds.map (List.map (NamelessTy.subst s))
  parameters := signature.parameters.map (NamelessTy.subst s)
  result := signature.result.subst s
  throwing := signature.throwing.map (NamelessTy.subst s)

theorem idxOf_map {f : String → String} {names : List String} {name : String}
    (member : name ∈ names) (injective : ∀ a ∈ names, ∀ b ∈ names, f a = f b → a = b) :
    (names.map f).idxOf (f name) = names.idxOf name := by
  induction names with
  | nil => simp at member
  | cons first rest ih =>
    rw [List.map_cons]
    by_cases here : first = name
    · rw [here, List.idxOf_cons_self, List.idxOf_cons_self]
    · have apart : f first ≠ f name := fun same =>
        here (injective first (List.mem_cons_self ..) name member same)
      have later : name ∈ rest := (List.mem_cons.mp member).resolve_left (Ne.symm here)
      have others := ih later fun a inA b inB =>
        injective a (List.mem_cons_of_mem _ inA) b (List.mem_cons_of_mem _ inB)
      rw [List.idxOf_cons_ne _ apart, List.idxOf_cons_ne _ here, others]

namespace Method

def nameless (m : Method) : NamelessSignature where
  bounds := m.typeParameters.map fun p => p.bounds.map (Ty.nameless m.declaredNames)
  parameters := m.parameters.map (Ty.nameless m.declaredNames)
  result := m.result.nameless m.declaredNames
  throwing := m.throwing.map (Ty.nameless m.declaredNames)

/-- Where the types of the outcome come from: own parameters give way to those at the same positions
of the outcome, and all other variables are up to the substitution. -/
def positional (m : Method) (s : Substitution) : Substitution :=
  m.declaredNames.zip ((m.subst s).declaredNames.map .var) ++ s

variable {m : Method} {s : Substitution}

/-- The replacement by position is the one by name. -/
theorem positional_apply (distinct : m.declaredNames.Nodup) (name : String) :
    (m.positional s).apply name = (m.replacement s).apply name := by
  let own : Substitution := m.declaredNames.map fun name => (name, Ty.var (m.newName s name))
  have paired : m.declaredNames.zip ((m.subst s).declaredNames.map .var) = own := by
    rw [declaredNames_subst, List.map_map, ← List.map_prod_left_eq_zip]
    rfl
  have keys : own.map Prod.fst = m.declaredNames := by simp [own, Function.comp_def]
  rw [positional, paired, Substitution.apply, List.lookup_append]
  by_cases declared : name ∈ m.declaredNames
  · have listed : (name, Ty.var (m.newName s name)) ∈ own := List.mem_map.mpr ⟨name, declared, rfl⟩
    rw [lookup_of_mem (keys ▸ distinct) listed, replacement_declared distinct declared]
    rfl
  · have unlisted : own.lookup name = none := lookup_of_not_mem (keys ▸ declared)
    rw [unlisted, replacement_other declared]
    rfl

/-- No type parameter of the outcome is a variable that stood free in the signature. -/
theorem newName_not_free (distinct : m.declaredNames.Nodup) {name x : String}
    (declared : name ∈ m.declaredNames) {ty : Ty} (written : ty ∈ m.types) (occurs : x ∈ ty.vars)
    (outer : x ∉ m.declaredNames) : m.newName s name ≠ x := by
  intro same
  rcases newName_fresh (s := s) distinct declared with kept | fresh
  · have named : name = x := kept.symm.trans same
    exact outer (named ▸ declared)
  · have used : x ∈ m.usedNames := List.mem_append_right _ (List.mem_flatMap.mpr ⟨ty, written, occurs⟩)
    exact fresh (same ▸ used)

/-- No type parameter of the outcome is mentioned by a replacement that reaches the signature. -/
theorem newName_not_replacement (distinct : m.declaredNames.Nodup) {name x : String}
    (declared : name ∈ m.declaredNames) (outer : x ∉ m.declaredNames) {ty : Ty}
    (replaced : s.lookup x = some ty) : m.newName s name ∉ ty.vars := by
  have visible : (x, ty) ∈ m.visible s :=
    mem_visible.mpr ⟨Substitution.lookup_mem replaced, outer⟩
  intro occurs
  exact newName_not_captured distinct declared (List.mem_flatMap.mpr ⟨_, visible, occurs⟩)

theorem nameless_var_declared (distinct : m.declaredNames.Nodup) {name : String}
    (declared : name ∈ m.declaredNames) :
    (Ty.var (m.newName s name)).nameless (m.subst s).declaredNames =
      .own (m.declaredNames.idxOf name) := by
  have listed : m.newName s name ∈ (m.subst s).declaredNames := by
    rw [declaredNames_subst]
    exact List.mem_map_of_mem declared
  have position := idxOf_map (f := m.newName s) declared (newName_injective distinct)
  rw [Ty.nameless, if_pos listed, declaredNames_subst, position]

/-- What becomes of one variable of the signature, once names are forgotten. -/
theorem nameless_replacement (distinct : m.declaredNames.Nodup) {ty : Ty} (written : ty ∈ m.types)
    {v : String} (occurs : v ∈ ty.vars) :
    ((m.replacement s).apply v).nameless (m.subst s).declaredNames =
      ((Ty.var v).nameless m.declaredNames).subst s := by
  by_cases declared : v ∈ m.declaredNames
  · rw [replacement_declared distinct declared, nameless_var_declared distinct declared, Ty.nameless,
      if_pos declared, NamelessTy.subst]
  · rw [replacement_other declared, Ty.nameless, if_neg declared, NamelessTy.subst]
    refine Ty.nameless_of_not_mem fun u inside own => ?_
    rw [declaredNames_subst] at own
    obtain ⟨name, known, rfl⟩ := List.mem_map.mp own
    cases replaced : s.lookup v with
    | none =>
      rw [Substitution.apply, replaced, Option.getD_none, Ty.vars, List.mem_singleton] at inside
      exact newName_not_free distinct known written occurs declared inside
    | some replacement =>
      rw [Substitution.apply, replaced, Option.getD_some] at inside
      exact newName_not_replacement distinct known declared replaced inside

theorem nameless_subst_type (distinct : m.declaredNames.Nodup) {ty : Ty} (written : ty ∈ m.types) :
    (ty.subst (m.replacement s)).nameless (m.subst s).declaredNames =
      (ty.nameless m.declaredNames).subst s :=
  Ty.nameless_subst fun _ occurs => nameless_replacement distinct written occurs

/-- With positions in the place of its own parameters, substitution in a signature is plain. -/
theorem nameless_subst (distinct : m.declaredNames.Nodup) :
    (m.subst s).nameless = m.nameless.subst s := by
  have each {types : List Ty} (written : ∀ ty ∈ types, ty ∈ m.types) :
      (types.map (Ty.subst (m.replacement s))).map (Ty.nameless (m.subst s).declaredNames) =
        (types.map (Ty.nameless m.declaredNames)).map (NamelessTy.subst s) := by
    rw [List.map_map, List.map_map]
    exact List.map_congr_left fun ty member => nameless_subst_type distinct (written ty member)
  have bounds : (m.subst s).nameless.bounds = (m.nameless.subst s).bounds := by
    simp only [nameless, NamelessSignature.subst, List.map_map]
    change (m.typeParameters.map _).map _ = _
    rw [List.map_map]
    refine List.map_congr_left fun p declared => each fun ty member => ?_
    simp only [types, List.mem_append, List.mem_flatMap]
    exact .inl (.inl (.inl ⟨p, declared, member⟩))
  have parameters : (m.subst s).nameless.parameters = (m.nameless.subst s).parameters :=
    each fun ty member => by simp [types, member]
  have result : (m.subst s).nameless.result = (m.nameless.subst s).result :=
    nameless_subst_type distinct (by simp [types])
  have throwing : (m.subst s).nameless.throwing = (m.nameless.subst s).throwing :=
    each fun ty member => by simp [types, member]
  rw [NamelessSignature.mk.injEq]
  exact ⟨bounds, parameters, result, throwing⟩

end Method

/-- Substitution in a signature avoids capture. The outcome has as many type parameters, under
distinct names that occur neither in a replacement nor free in the signature; its types are those of
the signature with all variables replaced at once, own parameters by those at the same positions;
with positions for own parameters that is plain substitution; and every search for a new name ends. -/
theorem subst_avoids_capture {m : Method} (distinct : m.declaredNames.Nodup) (s : Substitution) :
    ((m.subst s).typeParameters.length = m.typeParameters.length ∧
      (m.subst s).declaredNames.Nodup) ∧
    (∀ name ∈ (m.subst s).declaredNames,
      (∀ x ty, x ∉ m.declaredNames → s.lookup x = some ty → name ∉ ty.vars) ∧
      ∀ ty ∈ m.types, ∀ x ∈ ty.vars, x ∉ m.declaredNames → name ≠ x) ∧
    ((m.subst s).typeParameters.map TypeParameter.bounds =
        m.typeParameters.map (fun p => p.bounds.map (Ty.subst (m.positional s))) ∧
      m.subst s = { m with
        typeParameters := (m.subst s).typeParameters
        parameters := m.parameters.map (Ty.subst (m.positional s))
        result := m.result.subst (m.positional s)
        throwing := m.throwing.map (Ty.subst (m.positional s)) }) ∧
    (m.subst s).nameless = m.nameless.subst s ∧
    ∀ base taken, ∃ n ≤ taken.length, Method.freshName base taken = base ++ toString n ∧
      base ++ toString n ∉ taken ∧ ∀ k < n, base ++ toString k ∈ taken := by
  have same : Ty.subst (m.positional s) = Ty.subst (m.replacement s) := by
    funext ty
    exact Ty.subst_congr fun v _ => Method.positional_apply distinct v
  have length : (m.subst s).typeParameters.length = m.typeParameters.length := by
    simp [Method.subst]
  have distinct' : (m.subst s).declaredNames.Nodup := by
    rw [Method.declaredNames_subst]
    exact List.Nodup.map_on (Method.newName_injective distinct) distinct
  refine ⟨⟨length, distinct'⟩, ?_, ⟨?_, ?_⟩, Method.nameless_subst distinct, Method.freshName_first⟩
  · intro name own
    rw [Method.declaredNames_subst] at own
    obtain ⟨old, declared, rfl⟩ := List.mem_map.mp own
    refine ⟨fun x ty outer replaced => ?_, fun ty written x occurs outer => ?_⟩
    · exact Method.newName_not_replacement distinct declared outer replaced
    · exact Method.newName_not_free distinct declared written occurs outer
  · rw [same]
    simp [Method.subst, TypeParameter.substBounds]
  · rw [same]
    rfl

namespace Clash

def comparable (arg : Ty) : Ty := .cls ⟨"java.lang.Comparable"⟩ [arg]

def list (arg : Ty) : Ty := .cls ⟨"java.util.List"⟩ [arg]

def map : Ty := .cls ⟨"java.util.Map"⟩ [.var "T", .var "T0"]

/-- In `<T extends java.lang.Comparable<T>, U> X f(T, java.util.List<U>)`, the variable `X` becomes
`java.util.Map<T, T0>`, so `T` has to give way, but not to `T0`. -/
def method : Method :=
  { name := "f", owner := ⟨"p.A"⟩
    typeParameters := [⟨"T", [comparable (.var "T")]⟩, ⟨"U", []⟩]
    parameters := [.var "T", list (.var "U")]
    result := .var "X" }

end Clash

theorem clash_avoided :
    Clash.method.subst [("X", Clash.map)] = { Clash.method with
      typeParameters := [⟨"T1", [Clash.comparable (.var "T1")]⟩, ⟨"U", []⟩]
      parameters := [.var "T1", Clash.list (.var "U")]
      result := Clash.map } ∧
    (Clash.method.subst [("X", Clash.map)]).nameless =
      Clash.method.nameless.subst [("X", Clash.map)] := by
  obtain ⟨_, _, _, plain, _⟩ :=
    subst_avoids_capture (m := Clash.method) (by decide) [("X", Clash.map)]
  exact ⟨by decide +kernel, plain⟩

end JavaStubs
