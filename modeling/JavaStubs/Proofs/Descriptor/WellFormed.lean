import JavaStubs.Descriptor.Validity
import JavaStubs.Proofs.Descriptor.Scoping
import JavaStubs.Proofs.Obligation.Groups
import Mathlib.Tactic.MkIffOfInductiveProp

namespace JavaStubs

namespace Ty

mutual

/-- Whether a type may stand where it is written. `void` may not, and a wildcard only as an argument
and with a reference type as its bound. -/
def wellPlaced (asArgument : Bool) : Ty → Bool
  | .void => false
  | .prim _ | .var _ => true
  | .cls _ args => allPlaced args
  | .array element => element.wellPlaced false
  | .any => asArgument
  | .upper bound => asArgument && bound.isReference && bound.wellPlaced false
  | .lower bound => asArgument && bound.isReference && bound.wellPlaced false

def allPlaced : List Ty → Bool
  | [] => true
  | arg :: rest => arg.wellPlaced true && allPlaced rest

end

def isArray : Ty → Bool
  | .array _ => true
  | _ => false

/-- Class types and type variables: what a throws clause may name. -/
def isThrowable : Ty → Bool
  | .cls .. | .var _ => true
  | _ => false

end Ty

/-- The name is an identifier, and bounds are reference types. -/
@[mk_iff]
structure TypeParameter.Written (p : TypeParameter) : Prop where
  identifier : isIdentifier p.name = true
  bounds : ∀ bound ∈ p.bounds, bound.isReference = true ∧ bound.wellPlaced false = true

/-- Parameters and throws clause of a method or constructor: variable arity takes an array at the
end, and exceptions are named once. -/
@[mk_iff]
structure SignatureWritten (parameters : List Ty) (varargs : Bool) (throwing : List Ty) : Prop where
  placed : ∀ ty ∈ parameters, ty.wellPlaced false = true
  arity : varargs = true → ∃ last ∈ parameters.getLast?, last.isArray = true
  thrown : ∀ e ∈ throwing, e.isThrowable = true ∧ e.wellPlaced false = true
  distinct : throwing.Nodup

@[mk_iff]
structure Method.Written (type : QualName) (m : Method) : Prop where
  owner : m.owner = type
  identifier : isIdentifier m.name = true
  typeParameters : ∀ p ∈ m.typeParameters, p.Written
  signature : SignatureWritten m.parameters m.varargs m.throwing
  result : m.result = .void ∨ m.result.wellPlaced false = true

@[mk_iff]
structure Constructor.Written (names : List String) (c : Constructor) : Prop where
  proper : ∀ ty ∈ c.parameters ++ c.throwing, ty.Proper names
  signature : SignatureWritten c.parameters c.varargs c.throwing

namespace Descriptor

/-- What a declaration keeps that was read from a document. -/
@[mk_iff]
structure Written (d : Descriptor) : Prop where
  named : d.name.valid = true
  proper : d.Proper
  typeParameters : ∀ p ∈ d.typeParameters, p.Written
  references : ∀ ref ∈ d.references, ∀ arg ∈ ref.args, arg.wellPlaced true = true
  classes : d.kind ≠ .interface → d.name ≠ .object → d.superclass.isSome = true
  methods : ∀ m ∈ d.methods, m.Written d.name
  constructors : ∀ c ∈ d.constructors, c.Written d.parameterNames

end Descriptor

/-- What a type of this kind asks of its methods. -/
@[mk_iff]
structure Method.Lawful (kind : Kind) (m : Method) : Prop where
  notFinal : kind = .interface → m.isFinal = false
  unimplemented : m.isAbstract = true → kind ≠ .concreteClass ∧ m.isStatic = false ∧
    m.isFinal = false ∧ m.access ≠ .privateAccess

namespace Descriptor

/-- What tells the methods of a type apart. -/
def methodKey (d : Descriptor) (m : Method) : String × List Ty :=
  (m.name, m.erasedParameters d.erasureScope)

/-- What tells the constructors of a type apart. -/
def constructorKey (d : Descriptor) (c : Constructor) : List Ty :=
  c.parameters.map (Ty.erasure d.erasureScope)

/-- The declaration breaks no rule. -/
@[mk_iff]
structure Lawful (d : Descriptor) : Prop where
  interfaces : d.kind = .interface → d.isFinal = false ∧ d.constructors = [] ∧ d.superclass = none
  abstractClasses : d.kind = .abstractClass → d.isFinal = false
  methods : ∀ m ∈ d.methods, m.Lawful d.kind
  methodKeys : (d.methods.map d.methodKey).Nodup
  constructorKeys : (d.constructors.map d.constructorKey).Nodup

/-- A declaration that a resolver may work with. -/
@[mk_iff]
structure WellFormed (d : Descriptor) : Prop where
  written : d.Written
  lawful : d.Lawful

end Descriptor

section Decidability

instance (p : TypeParameter) : Decidable p.Written :=
  decidable_of_iff' _ (TypeParameter.written_iff p)

instance (parameters : List Ty) (varargs : Bool) (throwing : List Ty) :
    Decidable (SignatureWritten parameters varargs throwing) :=
  decidable_of_iff' _ (signatureWritten_iff parameters varargs throwing)

instance (type : QualName) (m : Method) : Decidable (m.Written type) :=
  decidable_of_iff' _ (Method.written_iff type m)

instance (names : List String) (c : Constructor) : Decidable (c.Written names) :=
  decidable_of_iff' _ (Constructor.written_iff names c)

instance (d : Descriptor) : Decidable d.Written :=
  decidable_of_iff' _ (Descriptor.written_iff d)

instance (kind : Kind) (m : Method) : Decidable (m.Lawful kind) :=
  decidable_of_iff' _ (Method.lawful_iff kind m)

instance (d : Descriptor) : Decidable d.Lawful :=
  decidable_of_iff' _ (Descriptor.lawful_iff d)

instance (d : Descriptor) : Decidable d.WellFormed :=
  decidable_of_iff' _ (Descriptor.wellFormed_iff d)

end Decidability

namespace Ty

variable {scope : TypeScope} {ty : Ty}

theorem allPlaced_iff {args : List Ty} :
    allPlaced args = true ↔ ∀ arg ∈ args, arg.wellPlaced true = true := by
  induction args with
  | nil => simp [allPlaced]
  | cons arg rest ih => simp [allPlaced, ih]

theorem wellPlaced_cls {asArgument : Bool} {name : QualName} {args : List Ty} :
    (cls name args).wellPlaced asArgument = true ↔ ∀ arg ∈ args, arg.wellPlaced true = true := by
  rw [wellPlaced, allPlaced_iff]

/-- What may stand anywhere may stand as an argument. -/
theorem wellPlaced_of_value (asArgument : Bool) (placed : ty.wellPlaced false = true) :
    ty.wellPlaced asArgument = true := by
  cases ty <;> simp_all [wellPlaced]

theorem headOf_placed {words : List String} {ty : Ty} {fault : ExpressionFault}
    (read : headOf scope words = .ok (.plain ty fault)) : ty.wellPlaced false = true := by
  unfold headOf at read
  split at read
  · split at read
    · cases read
      rfl
    · split at read
      · cases read
      · split at read
        · cases read
          rfl
        · split at read <;> cases read
  · split at read <;> cases read

theorem readArrays_placed {element ty : Ty} {input rest : List Lexeme}
    (placed : element.wellPlaced false = true) (read : readArrays element input = .ok (ty, rest)) :
    ty.wellPlaced false = true := by
  fun_induction readArrays element input with
  | case1 element _ _ _ _ rest ih => exact ih placed read
  | case2 => cases read
  | case3 =>
    cases read
    exact placed

/-- A bound after `extends` or `super` is a reference type that may stand by itself. -/
theorem readBound_placed (make : Ty → Ty) {bound : Except Misread (Ty × List Lexeme)} {stop : Nat}
    {rest : List Lexeme}
    (made : ∀ inner, (make inner).wellPlaced true = (inner.isReference && inner.wellPlaced false))
    (each : ∀ inner rest, bound = .ok (inner, rest) → inner.wellPlaced false = true)
    (read : (do
      let (inner, rest) ← bound
      if inner.isReference then return (make inner, rest)
      else throw (⟨some stop, .wildcardBound⟩ : Misread)) = .ok (ty, rest)) : ty.wellPlaced true = true := by
  obtain ⟨⟨inner, after⟩, first, read⟩ := bind_eq_ok read
  dsimp only at read
  split at read
  · rename_i reference
    cases read
    rw [made, reference, each inner rest first]
    rfl
  · cases read

/-- Whatever is read as a type or as arguments may stand there. -/
theorem readType_placed (fuel : Nat) :
    (∀ asArgument input ty rest, readType scope fuel asArgument input = .ok (ty, rest) →
      ty.wellPlaced asArgument = true) ∧
    ∀ input args rest, readArguments scope fuel input = .ok (args, rest) →
      ∀ arg ∈ args, arg.wellPlaced true = true := by
  induction fuel with
  | zero =>
    constructor
    · intro asArgument input ty rest read
      cases read
    · intro input args rest read
      cases read
  | succ fuel ih =>
    obtain ⟨ihType, ihArguments⟩ := ih
    constructor
    · intro asArgument input ty rest read
      unfold readType at read
      split at read
      · split at read
        · rename_i isArgument
          rw [isArgument]
          split at read
          · split at read
            · exact readBound_placed upper (fun _ => by simp [wellPlaced]) (ihType _ _) read
            · split at read
              · exact readBound_placed lower (fun _ => by simp [wellPlaced]) (ihType _ _) read
              · cases read
                rfl
          · cases read
            rfl
        · cases read
      · obtain ⟨⟨more, rest'⟩, -, read⟩ := bind_eq_ok read
        -- What starts with a word is no wildcard, so it may stand in both places.
        refine wellPlaced_of_value asArgument ?_
        simp only at read
        split at read
        · cases read
        · cases read
        · rename_i head _
          exact readArrays_placed (headOf_placed head) read
        · obtain ⟨⟨args, rest'⟩, inner, read⟩ := bind_eq_ok read
          exact readArrays_placed (wellPlaced_cls.mpr (ihArguments _ _ _ inner)) read
        · exact readArrays_placed (wellPlaced_cls.mpr (by simp)) read
      · cases read
    · intro input args rest read
      unfold readArguments at read
      obtain ⟨⟨arg, rest'⟩, first, read⟩ := bind_eq_ok read
      have placed := ihType _ _ _ _ first
      simp only at read
      split at read
      · obtain ⟨⟨more, rest⟩, others, read⟩ := bind_eq_ok read
        cases read
        intro other member
        rcases List.mem_cons.mp member with rfl | later
        · exact placed
        · exact ihArguments _ _ _ others other later
      · cases read
        simpa using placed
      · cases read

theorem parseValue_placed {text : String} (read : parseValue scope text = .ok ty) :
    ty.wellPlaced false = true := by
  unfold parseValue at read
  simp only at read
  split at read
  · cases read
  · rename_i first
    cases read
    exact (readType_placed _).1 _ _ _ _ first
  · cases read

/-- Only as a whole may a text be `void`. -/
theorem parse_placed {text : String} (read : parse scope text = .ok ty) :
    ty = .void ∨ ty.wellPlaced false = true := by
  unfold parse at read
  split at read
  · cases read
    exact Or.inl rfl
  · exact Or.inr (parseValue_placed read)

theorem parseParameter_placed {text : String} {varargs : Bool}
    (read : parseParameter scope text = .ok (ty, varargs)) :
    ty.wellPlaced false = true ∧ (varargs = true → ty.isArray = true) := by
  unfold parseParameter at read
  simp only at read
  split at read
  · obtain ⟨element, inner, same⟩ := map_eq_ok read
    cases same
    have placed := parseValue_placed inner
    exact ⟨by simpa [wellPlaced] using placed, fun _ => rfl⟩
  · obtain ⟨whole, inner, same⟩ := map_eq_ok read
    cases same
    exact ⟨parseValue_placed inner, fun isVarargs => by cases isVarargs⟩

theorem parsePieces_placed {text : String} {pieces : List (List Char)} {offset : Nat}
    {bounds : List Ty} (read : parsePieces scope text offset pieces = .ok bounds) :
    ∀ bound ∈ bounds, bound.isReference = true ∧ bound.wellPlaced false = true := by
  intro bound listed
  obtain ⟨piece, _, first, reference⟩ := forall₂_left (parsePieces_ok_iff.mp read).flip listed
  refine ⟨reference, (parse_placed first).resolve_left ?_⟩
  rintro rfl
  cases reference

theorem classRef_parse_placed {text : String} {ref : ClassRef}
    (read : ClassRef.parse scope text = .ok ref) : ∀ arg ∈ ref.args, arg.wellPlaced true = true := by
  unfold ClassRef.parse at read
  obtain ⟨ty, first, read⟩ := bind_eq_ok read
  split at read
  · cases read
    exact wellPlaced_cls.mp ((parse_placed first).resolve_left (by simp))
  · cases read

end Ty

def MemberText.Named (text : MemberText) : Prop :=
  ∀ p ∈ text.typeParameters, isIdentifier p.name = true

structure MethodText.Named (text : MethodText) : Prop where
  identifier : isIdentifier text.name = true
  inside : text.inside.Named

structure TypeBodyText.Named (text : TypeBodyText) : Prop where
  typeParameters : ∀ p ∈ text.typeParameters, isIdentifier p.name = true
  methods : ∀ m ∈ text.methods, m.Named

namespace Declaration

open Markup (Element)

theorem readParameter_named {element : Element} {text : ParameterText}
    (read : readParameter element = .ok text) : isIdentifier text.name = true := by
  unfold readParameter at read
  obtain ⟨attributes, _, read⟩ := bind_eq_ok read
  dsimp only at read
  split at read
  · cases read
  · split at read
    · cases read
    · rename_i identifier
      cases read
      simpa using identifier

theorem readMemberChild_named {context : String} {text next : MemberText} {child : Element}
    (before : text.Named) (read : readMemberChild context text child = .ok next) : next.Named := by
  unfold readMemberChild at read
  dsimp only at read
  split at read
  · obtain ⟨parameter, own, read⟩ := bind_eq_ok read
    obtain ⟨_, changed, read⟩ := bind_eq_ok read
    obtain ⟨_, _, read⟩ := bind_eq_ok read
    cases changed
    cases read
    intro p member
    rcases List.mem_append.mp member with old | new
    · exact before p old
    · exact List.mem_singleton.mp new ▸ readParameter_named own
  · split at read
    · obtain ⟨_, _, read⟩ := bind_eq_ok read
      obtain ⟨_, changed, read⟩ := bind_eq_ok read
      obtain ⟨_, _, read⟩ := bind_eq_ok read
      cases changed
      cases read
      exact before
    · split at read
      · obtain ⟨_, _, read⟩ := bind_eq_ok read
        obtain ⟨_, changed, read⟩ := bind_eq_ok read
        obtain ⟨_, _, read⟩ := bind_eq_ok read
        cases changed
        cases read
        exact before
      · cases read

theorem readMember_named {element : Element} {text : MemberText}
    (read : readMember element = .ok text) : text.Named := by
  unfold readMember at read
  obtain ⟨inside, children, read⟩ := bind_eq_ok read
  obtain ⟨_, _, read⟩ := bind_eq_ok read
  cases read
  have start : MemberText.Named {} := by simp [MemberText.Named]
  exact foldlM_invariant (fun _ _ _ _ before step => readMemberChild_named before step) start children

theorem readMethod_named {element : Element} {text : MethodText}
    (read : readMethod element = .ok text) : text.Named := by
  unfold readMethod at read
  obtain ⟨attributes, _, read⟩ := bind_eq_ok read
  obtain ⟨method, _, read⟩ := bind_eq_ok read
  dsimp only at read
  split at read
  · cases read
  · split at read
    · cases read
    · rename_i identifier
      split at read
      · cases read
      · obtain ⟨inside, member, read⟩ := bind_eq_ok read
        cases read
        exact ⟨by simpa using identifier, readMember_named member⟩

theorem readTypeChild_named {context : String} {text next : TypeBodyText} {child : Element}
    (before : text.Named) (read : readTypeChild context text child = .ok next) : next.Named := by
  unfold readTypeChild at read
  split at read
  · obtain ⟨parameter, own, read⟩ := bind_eq_ok read
    obtain ⟨_, _, read⟩ := bind_eq_ok read
    cases read
    refine ⟨fun p member => ?_, before.methods⟩
    rcases List.mem_append.mp member with old | new
    · exact before.typeParameters p old
    · exact List.mem_singleton.mp new ▸ readParameter_named own
  · obtain ⟨_, _, read⟩ := bind_eq_ok read
    obtain ⟨_, _, read⟩ := bind_eq_ok read
    cases read
    exact ⟨before.typeParameters, before.methods⟩
  · obtain ⟨_, _, read⟩ := bind_eq_ok read
    obtain ⟨_, _, read⟩ := bind_eq_ok read
    cases read
    exact ⟨before.typeParameters, before.methods⟩
  · obtain ⟨method, own, read⟩ := bind_eq_ok read
    cases read
    refine ⟨before.typeParameters, fun m member => ?_⟩
    rcases List.mem_append.mp member with old | new
    · exact before.methods m old
    · exact List.mem_singleton.mp new ▸ readMethod_named own
  · obtain ⟨_, _, read⟩ := bind_eq_ok read
    cases read
    exact ⟨before.typeParameters, before.methods⟩
  · cases read

theorem readBody_named {element : Element} {text : TypeBodyText}
    (read : readBody element = .ok text) : text.Named := by
  unfold readBody at read
  obtain ⟨body, children, read⟩ := bind_eq_ok read
  obtain ⟨_, _, read⟩ := bind_eq_ok read
  cases read
  have start : TypeBodyText.Named {} := ⟨by simp, by simp⟩
  exact foldlM_invariant (fun _ _ _ _ before step => readTypeChild_named before step) start children

end Declaration

namespace Descriptor

variable {scope : TypeScope}

theorem readTypeParameters_written {texts : List ParameterText} {seen : List String}
    {parameters : List TypeParameter} (named : ∀ text ∈ texts, isIdentifier text.name = true)
    (read : readTypeParameters scope seen texts = .ok parameters) :
    ∀ p ∈ parameters, p.Written := by
  induction texts generalizing seen parameters with
  | nil =>
    cases read
    simp
  | cons text texts ih =>
    obtain ⟨bounds, rest, _, own, others, rfl⟩ := readTypeParameters_cons read
    intro p member
    rcases List.mem_cons.mp member with rfl | later
    · refine ⟨named text (List.mem_cons_self ..), ?_⟩
      rcases own with rfl | ⟨written, parsed⟩
      · simp
      · exact Ty.parsePieces_placed parsed
    · exact ih (fun other later => named other (List.mem_cons_of_mem _ later)) others p later

/-- Variable arity is that of the last parameter, which is an array then. -/
theorem readParameters_written {texts : List String} {types : List Ty} {varargs : Bool}
    (read : readParameters scope texts = .ok (types, varargs)) :
    (∀ ty ∈ types, ty.wellPlaced false = true) ∧
      (varargs = true → ∃ last ∈ types.getLast?, last.isArray = true) := by
  induction texts generalizing types varargs with
  | nil =>
    cases read
    simp
  | cons text texts ih =>
    obtain ⟨ty, own, more, parsed, rfl, rest⟩ := readParameters_cons read
    obtain ⟨placed, isArray⟩ := Ty.parseParameter_placed parsed
    rcases rest with ⟨rfl, rfl⟩ | others
    · exact ⟨by simpa using placed, fun isVarargs => ⟨ty, by simp, isArray isVarargs⟩⟩
    · obtain ⟨placedRest, arrayRest⟩ := ih others
      refine ⟨by simpa using ⟨placed, placedRest⟩, fun isVarargs => ?_⟩
      obtain ⟨last, found, lastArray⟩ := arrayRest isVarargs
      exact ⟨last, by simp [List.getLast?_cons, Option.mem_def.mp found], lastArray⟩

theorem readThrows_written {texts : List String} {types : List Ty}
    (read : readThrows scope texts = .ok types) :
    (∀ e ∈ types, e.isThrowable = true ∧ e.wellPlaced false = true) ∧ types.Nodup := by
  constructor
  · intro ty member
    obtain ⟨text, thrown⟩ := mem_readThrows read member
    obtain ⟨parsed, ⟨name, args, rfl⟩ | ⟨name, rfl⟩⟩ := readThrown_ok thrown
    · exact ⟨rfl, (Ty.parse_placed parsed).resolve_left (by simp)⟩
    · exact ⟨rfl, rfl⟩
  · unfold readThrows at read
    obtain ⟨all, _, read⟩ := bind_eq_ok read
    cases read
    exact eraseDups_nodup all

theorem readMethod_written {owner : QualName} {kind : Kind} {text : MethodText} {m : Method}
    (named : text.Named) (read : readMethod owner kind scope text = .ok m) : m.Written owner := by
  obtain ⟨sameOwner, sameName, first, second, resulting, third⟩ := readMethod_ok read
  obtain ⟨placed, arity⟩ := readParameters_written second
  obtain ⟨thrown, distinct⟩ := readThrows_written third
  refine ⟨sameOwner, sameName ▸ named.identifier, readTypeParameters_written named.inside first,
    ⟨placed, arity, thrown, distinct⟩, ?_⟩
  rcases resulting with isVoid | ⟨written, parsed⟩
  · exact Or.inl isVoid
  · exact Ty.parse_placed parsed

theorem readConstructor_written (sound : scope.Sound) {kind : Kind} {text : ConstructorText}
    {c : Constructor} (read : readConstructor kind scope text = .ok c) :
    c.Written scope.typeVars := by
  unfold readConstructor at read
  dsimp only at read
  split at read
  · cases read
  · obtain ⟨⟨parameters, varargs⟩, first, read⟩ := bind_eq_ok read
    obtain ⟨throwing, second, read⟩ := bind_eq_ok read
    obtain ⟨placed, arity⟩ := readParameters_written first
    obtain ⟨thrown, distinct⟩ := readThrows_written second
    cases read
    refine ⟨fun ty member => ?_, ⟨placed, arity, thrown, distinct⟩⟩
    rcases List.mem_append.mp member with parameter | exception
    · exact readParameters_proper sound first ty parameter
    · exact readThrows_proper sound second ty exception

/-- Every class but `java.lang.Object` gets a superclass. -/
theorem readSupertypes_class {name : QualName} {kind : Kind} {superclauses implemented : List ClassRef}
    {superclass : Option ClassRef} {interfaces : List ClassRef}
    (read : readSupertypes name kind superclauses implemented = .ok (superclass, interfaces))
    (isClass : kind ≠ .interface) (below : name ≠ .object) : superclass.isSome = true := by
  unfold readSupertypes at read
  dsimp only at read
  rw [if_neg isClass] at read
  split at read
  · rw [if_neg below] at read
    cases read
    rfl
  · cases read
    rfl
  · cases read

theorem ofBody_written {name : QualName} {kind : Kind} {body : TypeBodyText} {d : Descriptor}
    (valid : name.valid = true) (named : body.Named) (read : ofBody name kind body = .ok d) :
    d.Written := by
  have proper := ofBody_proper valid read
  unfold ofBody at read
  obtain ⟨typeParameters, first, read⟩ := bind_eq_ok read
  obtain ⟨superclauses, second, read⟩ := bind_eq_ok read
  obtain ⟨implemented, third, read⟩ := bind_eq_ok read
  obtain ⟨⟨superclass, interfaces⟩, fourth, read⟩ := bind_eq_ok read
  obtain ⟨methods, fifth, read⟩ := bind_eq_ok read
  obtain ⟨constructors, sixth, read⟩ := bind_eq_ok read
  cases read
  have sound : ((TypeScope.ofType name).withVariables
      (body.typeParameters.map ParameterText.name)).Sound := ⟨name, valid, rfl⟩
  refine ⟨valid, proper, readTypeParameters_written named.typeParameters first, ?_,
    readSupertypes_class fourth, ?_, ?_⟩
  · intro ref listed
    rcases (readSupertypes_mem fourth).2 ref listed with written | rfl
    · rcases List.mem_append.mp written with extended | implements
      · obtain ⟨text, _, written⟩ := mapM_eq_ok second ref extended
        exact Ty.classRef_parse_placed (mapError_eq_ok written)
      · obtain ⟨text, _, written⟩ := mapM_eq_ok third ref implements
        exact Ty.classRef_parse_placed (mapError_eq_ok written)
    · simp
  · intro m listed
    obtain ⟨text, inside, written⟩ := mapM_eq_ok fifth m listed
    exact readMethod_written (named.methods text inside) written
  · intro c listed
    obtain ⟨text, _, written⟩ := mapM_eq_ok sixth c listed
    have own := readConstructor_written sound written
    rw [parameterNames, (readTypeParameters_proper sound first).1]
    exact own

theorem ofElement_written {element : Markup.Element} {d : Descriptor}
    (read : ofElement element = .ok d) : d.Written := by
  unfold ofElement at read
  obtain ⟨head, _, read⟩ := bind_eq_ok read
  split at read
  · cases read
  · split at read
    · cases read
    · rename_i valid
      obtain ⟨body, inside, read⟩ := bind_eq_ok read
      obtain ⟨inner, written, read⟩ := bind_eq_ok read
      cases read
      obtain ⟨named, ⟨distinct, bounds, arguments, types, interfaces⟩, typeParameters, references,
        classes, methods, constructors⟩ :=
        ofBody_written (parse_valid valid) (Declaration.readBody_named inside) written
      exact ⟨named, ⟨distinct, bounds, arguments, types, interfaces⟩, typeParameters, references,
        classes, methods, constructors⟩

theorem methodFault?_eq_none {kind : Kind} {m : Method} :
    methodFault? kind m = none ↔ m.Lawful kind := by
  rw [Method.lawful_iff]
  unfold methodFault? modifierAgainstAbstract?
  cases kind <;> cases m.isFinal <;> cases m.isAbstract <;> cases m.isStatic <;> cases m.access <;>
    simp

theorem headFault?_eq_none {d : Descriptor} : d.headFault? = none ↔
    (d.kind = .interface → d.isFinal = false ∧ d.constructors = [] ∧ d.superclass = none) ∧
      (d.kind = .abstractClass → d.isFinal = false) := by
  unfold headFault?
  cases d.kind <;> cases d.isFinal <;> cases d.constructors <;> cases d.superclass <;> simp

/-- New keys that are compared one by one with all before them. -/
theorem unseen_cons_iff {α : Type} {key : α} {keys seen : List α} :
    ((key :: keys).Nodup ∧ ∀ k ∈ key :: keys, k ∉ seen) ↔
      key ∉ seen ∧ keys.Nodup ∧ ∀ k ∈ keys, k ∉ key :: seen := by
  simp only [List.nodup_cons, List.mem_cons, forall_eq_or_imp, not_or]
  constructor
  · rintro ⟨⟨fresh, distinct⟩, unseen, rest⟩
    exact ⟨unseen, distinct, fun k member => ⟨fun same => fresh (same ▸ member), rest k member⟩⟩
  · rintro ⟨unseen, distinct, rest⟩
    exact ⟨⟨fun member => (rest key member).1 rfl, distinct⟩, unseen, fun k member => (rest k member).2⟩

theorem validateMethods_eq_ok {d : Descriptor} {seen : List (String × List Ty)}
    {methods : List Method} : validateMethods d seen methods = .ok () ↔
      (∀ m ∈ methods, m.Lawful d.kind) ∧ (methods.map d.methodKey).Nodup ∧
        ∀ key ∈ methods.map d.methodKey, key ∉ seen := by
  induction methods generalizing seen with
  | nil => simp [validateMethods]
  | cons m rest ih =>
    rw [List.map_cons, unseen_cons_iff, List.forall_mem_cons, ← methodFault?_eq_none]
    unfold validateMethods
    cases methodFault? d.kind m with
    | some fault => simp
    | none =>
      change (if seen.contains (d.methodKey m) = true then .error _
        else validateMethods d (d.methodKey m :: seen) rest) = .ok () ↔ _
      by_cases known : d.methodKey m ∈ seen
      · rw [if_pos (List.contains_iff_mem.mpr known)]
        simp [known]
      · rw [if_neg (mt List.contains_iff_mem.mp known), ih]
        simp only [known, not_false_eq_true, true_and]

theorem validateConstructors_eq_ok {d : Descriptor} {seen : List (List Ty)}
    {constructors : List Constructor} : validateConstructors d seen constructors = .ok () ↔
      (constructors.map d.constructorKey).Nodup ∧
        ∀ key ∈ constructors.map d.constructorKey, key ∉ seen := by
  induction constructors generalizing seen with
  | nil => simp [validateConstructors]
  | cons c rest ih =>
    rw [List.map_cons, unseen_cons_iff]
    unfold validateConstructors
    change (if seen.contains (d.constructorKey c) = true then .error _
      else validateConstructors d (d.constructorKey c :: seen) rest) = .ok () ↔ _
    by_cases known : d.constructorKey c ∈ seen
    · rw [if_pos (List.contains_iff_mem.mpr known)]
      simp [known]
    · rw [if_neg (mt List.contains_iff_mem.mp known), ih]
      simp only [known, not_false_eq_true, true_and]

/-- The rules accept exactly the lawful declarations. -/
theorem validate_eq_ok {d : Descriptor} : d.validate = .ok () ↔ d.Lawful := by
  rw [lawful_iff, ← and_assoc, ← headFault?_eq_none]
  have methods := @validateMethods_eq_ok d [] d.methods
  have constructors := @validateConstructors_eq_ok d [] d.constructors
  simp only [List.not_mem_nil, not_false_eq_true, implies_true, and_true] at methods constructors
  rw [← and_assoc (b := (d.methods.map d.methodKey).Nodup), ← methods, ← constructors]
  unfold validate
  constructor
  · intro accepted
    split at accepted
    · cases accepted
    · rename_i lawful
      obtain ⟨_, first, second⟩ := bind_eq_ok accepted
      exact ⟨lawful, first, second⟩
  · rintro ⟨lawful, first, second⟩
    rw [lawful, first]
    exact second

end Descriptor

theorem standardLibrary_written : ∀ d ∈ StandardLibrary.types, d.Written := by
  have named : ∀ d ∈ StandardLibrary.types, d.name.valid = true := by decide +kernel
  have types : ∀ d ∈ StandardLibrary.types, (∀ p ∈ d.typeParameters, p.Written) ∧
      (∀ ref ∈ d.references, ∀ arg ∈ ref.args, arg.wellPlaced true = true) ∧
      (d.kind ≠ .interface → d.name ≠ .object → d.superclass.isSome = true) := by decide +kernel
  have members : ∀ d ∈ StandardLibrary.types, (∀ m ∈ d.methods, m.Written d.name) ∧
      ∀ c ∈ d.constructors, c.Written d.parameterNames := by decide +kernel
  intro d listed
  obtain ⟨typeParameters, references, classes⟩ := types d listed
  obtain ⟨methods, constructors⟩ := members d listed
  exact ⟨named d listed, standardLibrary_proper d listed, typeParameters, references, classes,
    methods, constructors⟩

theorem standardLibrary_lawful : ∀ d ∈ StandardLibrary.types, d.Lawful := by decide +kernel

end JavaStubs
