import JavaStubs.Descriptor.Reader
import JavaStubs.Proofs.Types.Scoping
import JavaStubs.StandardLibrary.Index
import Mathlib.Data.List.Forall2

namespace JavaStubs

theorem ok_bind {ε α β : Type} (a : α) (next : α → Except ε β) :
    (Except.ok a >>= next) = next a := rfl

theorem bind_eq_ok {ε α β : Type} {first : Except ε α} {next : α → Except ε β} {b : β}
    (done : first >>= next = .ok b) : ∃ a, first = .ok a ∧ next a = .ok b := by
  cases first with
  | error e => cases done
  | ok a => exact ⟨a, rfl, done⟩

theorem mapError_eq_ok {ε ε' α : Type} {f : ε → ε'} {first : Except ε α} {a : α}
    (done : first.mapError f = .ok a) : first = .ok a := by
  cases first with
  | error e => cases done
  | ok b => exact congrArg Except.ok (Except.ok.inj done)

theorem map_eq_ok {ε α β : Type} {f : α → β} {first : Except ε α} {b : β}
    (done : first.map f = .ok b) : ∃ a, first = .ok a ∧ f a = b := by
  cases first with
  | error e => cases done
  | ok a => exact ⟨a, rfl, Except.ok.inj done⟩

theorem mapM_eq_ok {ε α β : Type} {f : α → Except ε β} {items : List α} {results : List β}
    (done : items.mapM f = .ok results) : ∀ b ∈ results, ∃ a ∈ items, f a = .ok b := by
  induction items generalizing results with
  | nil =>
    cases done
    simp
  | cons a items ih =>
    rw [List.mapM_cons] at done
    obtain ⟨b, first, done⟩ := bind_eq_ok done
    obtain ⟨rest, later, done⟩ := bind_eq_ok done
    cases done
    intro c member
    rcases List.mem_cons.mp member with rfl | inside
    · exact ⟨a, List.mem_cons_self .., first⟩
    · obtain ⟨a', inItems, read⟩ := ih later c inside
      exact ⟨a', List.mem_cons_of_mem _ inItems, read⟩

theorem forM_eq_ok {ε α : Type} {f : α → Except ε Unit} {items : List α}
    (done : items.forM f = .ok ()) : ∀ a ∈ items, f a = .ok () := by
  induction items with
  | nil => simp
  | cons a items ih =>
    obtain ⟨_, first, rest⟩ := bind_eq_ok (show (f a >>= fun _ => items.forM f) = .ok () from done)
    exact List.forall_mem_cons.mpr ⟨first, ih rest⟩

theorem forM_ok {ε α : Type} {check : α → Except ε Unit} {items : List α}
    (each : ∀ a ∈ items, check a = .ok ()) : items.forM check = .ok () := by
  induction items with
  | nil => rfl
  | cons a items ih =>
    obtain ⟨own, others⟩ := List.forall_mem_cons.mp each
    change (check a >>= fun _ => items.forM check) = .ok ()
    rw [own, ok_bind]
    exact ih others

theorem foldlM_invariant {ε α σ : Type} {P : σ → Prop} {f : σ → α → Except ε σ} {items : List α}
    {state final : σ} (step : ∀ s, ∀ a ∈ items, ∀ s', P s → f s a = .ok s' → P s') (start : P state)
    (done : items.foldlM f state = .ok final) : P final := by
  induction items generalizing state with
  | nil =>
    cases done
    exact start
  | cons a items ih =>
    rw [List.foldlM_cons] at done
    obtain ⟨next, first, done⟩ := bind_eq_ok done
    exact ih (fun s other later => step s other (List.mem_cons_of_mem _ later))
      (step state a (List.mem_cons_self ..) next start first) done

theorem mapM_eq_ok_iff {ε α β : Type} {f : α → Except ε β} {items : List α} {results : List β} :
    items.mapM f = .ok results ↔ List.Forall₂ (fun a b => f a = .ok b) items results := by
  induction items generalizing results with
  | nil =>
    rw [List.forall₂_nil_left_iff, List.mapM_nil]
    exact ⟨fun done => (Except.ok.inj done).symm, fun none => none ▸ rfl⟩
  | cons a items ih =>
    rw [List.mapM_cons, List.forall₂_cons_left_iff]
    constructor
    · intro done
      obtain ⟨b, first, done⟩ := bind_eq_ok done
      obtain ⟨rest, later, done⟩ := bind_eq_ok done
      cases done
      exact ⟨b, rest, first, ih.mp later, rfl⟩
    · rintro ⟨b, rest, first, later, rfl⟩
      rw [first, ih.mpr later]
      rfl

section Correspondence

variable {α β : Type} {R S : α → β → Prop} {items : List α}

theorem exists_forall₂ (each : ∀ a ∈ items, ∃ b, R a b) : ∃ results, List.Forall₂ R items results := by
  induction items with
  | nil => exact ⟨[], .nil⟩
  | cons a items ih =>
    obtain ⟨b, first⟩ := each a (List.mem_cons_self ..)
    obtain ⟨rest, later⟩ := ih fun other member => each other (List.mem_cons_of_mem _ member)
    exact ⟨b :: rest, .cons first later⟩

theorem forall₂_left {results : List β} (both : List.Forall₂ R items results) {a : α}
    (member : a ∈ items) : ∃ b ∈ results, R a b := by
  induction both with
  | nil => simp at member
  | cons first _ ih =>
    rcases List.mem_cons.mp member with rfl | later
    · exact ⟨_, List.mem_cons_self .., first⟩
    · obtain ⟨b, inside, related⟩ := ih later
      exact ⟨b, List.mem_cons_of_mem _ inside, related⟩

theorem forall₂_unique {left right : List β} (unique : ∀ a ∈ items, ∀ b c, R a b → S a c → b = c)
    (one : List.Forall₂ R items left) (two : List.Forall₂ S items right) : left = right := by
  induction one generalizing right with
  | nil => exact (List.forall₂_nil_left_iff.mp two).symm
  | cons first _ ih =>
    obtain ⟨c, rest, second, later, rfl⟩ := List.forall₂_cons_left_iff.mp two
    rw [unique _ (List.mem_cons_self ..) _ _ first second,
      ih (fun a member => unique a (List.mem_cons_of_mem _ member)) later]

end Correspondence

/-- The scope lies in the package of a type with a valid name. -/
def TypeScope.Sound (scope : TypeScope) : Prop :=
  ∃ name : QualName, name.valid = true ∧ scope.package = name.package

namespace Ty

variable {scope : TypeScope}

def Head.Proper (names : List String) : Head → Prop
  | .plain ty _ => ty.Proper names
  | .generic name => name.valid = true

theorem headOf_proper (sound : scope.Sound) {words : List String} (nonempty : words ≠ []) {head : Head}
    (read : headOf scope words = .ok head) : head.Proper scope.typeVars := by
  unfold headOf at read
  split at read
  · rename_i word
    split at read
    · cases read
      exact ⟨by simp [vars], by simp [classNames]⟩
    · split at read
      · cases read
      · split at read
        · rename_i known
          cases read
          exact proper_var (by simpa [TypeScope.isVariable] using known)
        · split at read
          · rename_i identifier
            cases read
            obtain ⟨name, valid, package⟩ := sound
            rw [package]
            exact QualName.valid_sibling valid identifier
          · cases read
  · split at read
    · cases read
    · rename_i identifiers
      cases read
      rw [List.find?_eq_none] at identifiers
      exact QualName.valid_intercalate nonempty fun word member => by
        simpa using identifiers word member

theorem readArrays_proper {names : List String} {element ty : Ty} {input rest : List Lexeme}
    (proper : element.Proper names) (read : readArrays element input = .ok (ty, rest)) :
    ty.Proper names := by
  fun_induction readArrays element input with
  | case1 element _ _ _ _ rest ih => exact ih (proper_array.mpr proper) read
  | case2 => cases read
  | case3 =>
    cases read
    exact proper

/-- Whatever is read as a type or as arguments makes sense in the scope. -/
theorem readType_proper (sound : scope.Sound) (fuel : Nat) :
    (∀ asArgument input ty rest, readType scope fuel asArgument input = .ok (ty, rest) →
      ty.Proper scope.typeVars) ∧
    ∀ input args rest, readArguments scope fuel input = .ok (args, rest) →
      ∀ arg ∈ args, arg.Proper scope.typeVars := by
  induction fuel with
  | zero =>
    constructor
    · intro asArgument input ty rest read
      cases read
    · intro input args rest read
      cases read
  | succ fuel ih =>
    obtain ⟨ihType, ihArguments⟩ := ih
    constructor
    · intro asArgument input ty rest read
      unfold readType at read
      split at read
      · split at read
        · split at read
          · split at read
            · obtain ⟨⟨bound, rest⟩, inner, read⟩ := bind_eq_ok read
              simp only at read
              split at read
              · cases read
                exact proper_upper.mpr (ihType _ _ _ _ inner)
              · cases read
            · split at read
              · obtain ⟨⟨bound, rest⟩, inner, read⟩ := bind_eq_ok read
                simp only at read
                split at read
                · cases read
                  exact proper_lower.mpr (ihType _ _ _ _ inner)
                · cases read
              · cases read
                exact ⟨by simp [vars], by simp [classNames]⟩
          · cases read
            exact ⟨by simp [vars], by simp [classNames]⟩
        · cases read
      · obtain ⟨⟨more, rest'⟩, -, read⟩ := bind_eq_ok read
        simp only at read
        split at read
        · cases read
        · cases read
        · rename_i head _
          exact readArrays_proper (headOf_proper sound (by simp) head) read
        · rename_i head
          have valid := headOf_proper sound (by simp) head
          obtain ⟨⟨args, rest'⟩, inner, read⟩ := bind_eq_ok read
          exact readArrays_proper (proper_cls.mpr ⟨valid, ihArguments _ _ _ inner⟩) read
        · rename_i head _
          have valid := headOf_proper sound (by simp) head
          exact readArrays_proper (proper_cls.mpr ⟨valid, by simp⟩) read
      · cases read
    · intro input args rest read
      unfold readArguments at read
      obtain ⟨⟨arg, rest'⟩, first, read⟩ := bind_eq_ok read
      have proper := ihType _ _ _ _ first
      simp only at read
      split at read
      · obtain ⟨⟨more, rest⟩, others, read⟩ := bind_eq_ok read
        cases read
        intro other member
        rcases List.mem_cons.mp member with rfl | later
        · exact proper
        · exact ihArguments _ _ _ others other later
      · cases read
        simpa using proper
      · cases read

theorem parseValue_proper (sound : scope.Sound) {text : String} {ty : Ty}
    (read : parseValue scope text = .ok ty) : ty.Proper scope.typeVars := by
  unfold parseValue at read
  simp only at read
  split at read
  · cases read
  · rename_i first
    cases read
    exact (readType_proper sound _).1 _ _ _ _ first
  · cases read

theorem parse_proper (sound : scope.Sound) {text : String} {ty : Ty}
    (read : parse scope text = .ok ty) : ty.Proper scope.typeVars := by
  unfold parse at read
  split at read
  · cases read
    exact ⟨by simp [vars], by simp [classNames]⟩
  · exact parseValue_proper sound read

theorem parseParameter_proper (sound : scope.Sound) {text : String} {ty : Ty} {varargs : Bool}
    (read : parseParameter scope text = .ok (ty, varargs)) : ty.Proper scope.typeVars := by
  unfold parseParameter at read
  simp only at read
  split at read
  · obtain ⟨element, inner, same⟩ := map_eq_ok read
    cases same
    exact proper_array.mpr (parseValue_proper sound inner)
  · obtain ⟨whole, inner, same⟩ := map_eq_ok read
    cases same
    exact parseValue_proper sound inner

/-- The text is read as a class, a variable or an array, which is what a bound may be. -/
def ReadsBound (scope : TypeScope) (text : String) (bound : Ty) : Prop :=
  parse scope text = .ok bound ∧ bound.isReference = true

theorem parsePieces_ok_iff {text : String} {offset : Nat} {pieces : List (List Char)} {bounds : List Ty} :
    parsePieces scope text offset pieces = .ok bounds ↔
      List.Forall₂ (ReadsBound scope) (pieces.map String.ofList) bounds := by
  induction pieces generalizing offset bounds with
  | nil =>
    rw [List.map_nil, List.forall₂_nil_left_iff, parsePieces]
    exact ⟨fun done => (Except.ok.inj done).symm, fun none => none ▸ rfl⟩
  | cons piece pieces ih =>
    rw [List.map_cons, List.forall₂_cons_left_iff, parsePieces]
    constructor
    · intro done
      obtain ⟨bound, first, done⟩ := bind_eq_ok done
      split at done
      · rename_i reference
        obtain ⟨more, later, done⟩ := bind_eq_ok done
        cases done
        exact ⟨bound, more, ⟨first, reference⟩, ih.mp later, rfl⟩
      · cases done
    · rintro ⟨bound, more, ⟨first, reference⟩, later, rfl⟩
      rw [first, ok_bind, if_pos reference]
      dsimp only
      rw [ih.mpr later]
      rfl

theorem parsePieces_proper (sound : scope.Sound) {text : String} {pieces : List (List Char)} {offset : Nat}
    {bounds : List Ty} (read : parsePieces scope text offset pieces = .ok bounds) :
    ∀ bound ∈ bounds, bound.Proper scope.typeVars := by
  intro bound listed
  obtain ⟨piece, _, first, _⟩ := forall₂_left (parsePieces_ok_iff.mp read).flip listed
  exact parse_proper sound first

theorem classRef_parse_proper (sound : scope.Sound) {text : String} {ref : ClassRef}
    (read : ClassRef.parse scope text = .ok ref) : ∀ arg ∈ ref.args, arg.Proper scope.typeVars := by
  unfold ClassRef.parse at read
  obtain ⟨ty, first, read⟩ := bind_eq_ok read
  split at read
  · cases read
    exact (proper_cls.mp (parse_proper sound first)).2
  · cases read

theorem classRef_parse_valid (sound : scope.Sound) {text : String} {ref : ClassRef}
    (read : ClassRef.parse scope text = .ok ref) : ref.name.valid = true := by
  unfold ClassRef.parse at read
  obtain ⟨ty, first, read⟩ := bind_eq_ok read
  split at read
  · cases read
    exact (proper_cls.mp (parse_proper sound first)).1
  · cases read

end Ty

namespace Descriptor

/-- The names of the type parameters. -/
def parameterNames (d : Descriptor) : List String := d.typeParameters.map TypeParameter.name

/-- What every descriptor keeps that was read from a document. -/
structure Proper (d : Descriptor) : Prop where
  distinct : d.parameterNames.Nodup
  bounds : ∀ p ∈ d.typeParameters, ∀ bound ∈ p.bounds, bound.Proper d.parameterNames
  references : ∀ ref ∈ d.references, ∀ arg ∈ ref.args, arg.Proper d.parameterNames
  methods : ∀ m ∈ d.methods, m.Proper d.parameterNames
  interfaces : d.kind = .interface → d.superclass = none

instance (d : Descriptor) : Decidable d.Proper :=
  decidable_of_iff (d.parameterNames.Nodup ∧
      (∀ p ∈ d.typeParameters, ∀ bound ∈ p.bounds, bound.Proper d.parameterNames) ∧
      (∀ ref ∈ d.references, ∀ arg ∈ ref.args, arg.Proper d.parameterNames) ∧
      (∀ m ∈ d.methods, m.Proper d.parameterNames) ∧
      (d.kind = .interface → d.superclass = none))
    ⟨fun ⟨distinct, bounds, references, methods, interfaces⟩ =>
      ⟨distinct, bounds, references, methods, interfaces⟩,
    fun proper => ⟨proper.1, proper.2, proper.3, proper.4, proper.5⟩⟩

variable {scope : TypeScope}

theorem readTypeParameters_cons {text : ParameterText} {texts : List ParameterText}
    {seen : List String} {parameters : List TypeParameter}
    (read : readTypeParameters scope seen (text :: texts) = .ok parameters) :
    ∃ bounds rest, text.name ∉ seen ∧
      (bounds = [] ∨ ∃ written, Ty.parseBounds scope written = .ok bounds) ∧
      readTypeParameters scope (text.name :: seen) texts = .ok rest ∧
      parameters = ⟨text.name, bounds⟩ :: rest := by
  unfold readTypeParameters at read
  dsimp only at read
  split at read
  · cases read
  · rename_i unseen
    have fresh : text.name ∉ seen := by simpa using unseen
    split at read
    · rename_i written _
      obtain ⟨bounds, parsed, read⟩ := bind_eq_ok read
      obtain ⟨rest, others, read⟩ := bind_eq_ok read
      cases read
      exact ⟨bounds, rest, fresh, Or.inr ⟨written, mapError_eq_ok parsed⟩, others, rfl⟩
    · obtain ⟨bounds, none, read⟩ := bind_eq_ok read
      obtain ⟨rest, others, read⟩ := bind_eq_ok read
      cases read
      exact ⟨bounds, rest, fresh, Or.inl (Except.ok.inj none).symm, others, rfl⟩

theorem readTypeParameters_proper (sound : scope.Sound) {texts : List ParameterText}
    {seen : List String} {parameters : List TypeParameter}
    (read : readTypeParameters scope seen texts = .ok parameters) :
    parameters.map TypeParameter.name = texts.map ParameterText.name ∧
      (parameters.map TypeParameter.name).Nodup ∧
      (∀ name ∈ seen, name ∉ parameters.map TypeParameter.name) ∧
      ∀ p ∈ parameters, ∀ bound ∈ p.bounds, bound.Proper scope.typeVars := by
  induction texts generalizing seen parameters with
  | nil =>
    cases read
    simp
  | cons text texts ih =>
    obtain ⟨bounds, rest, unseen, own, others, rfl⟩ := readTypeParameters_cons read
    obtain ⟨names, distinct, apart, all⟩ := ih others
    refine ⟨by simp [names], ?_, ?_, ?_⟩
    · exact List.nodup_cons.mpr ⟨apart text.name (List.mem_cons_self ..), distinct⟩
    · intro name known
      rw [List.map_cons, List.mem_cons, not_or]
      refine ⟨?_, apart name (List.mem_cons_of_mem _ known)⟩
      rintro rfl
      exact unseen known
    · intro p member
      rcases List.mem_cons.mp member with rfl | later
      · rcases own with rfl | ⟨written, parsed⟩
        · simp
        · exact Ty.parsePieces_proper sound parsed
      · exact all p later

theorem readParameters_cons {text : String} {texts : List String} {types : List Ty} {varargs : Bool}
    (read : readParameters scope (text :: texts) = .ok (types, varargs)) :
    ∃ ty own more, Ty.parseParameter scope text = .ok (ty, own) ∧ types = ty :: more ∧
      (more = [] ∧ varargs = own ∨ readParameters scope texts = .ok (more, varargs)) := by
  unfold readParameters at read
  obtain ⟨⟨ty, own⟩, first, read⟩ := bind_eq_ok read
  have parsed := mapError_eq_ok first
  dsimp only at read
  split at read
  · cases read
    exact ⟨ty, _, [], parsed, rfl, Or.inl ⟨rfl, rfl⟩⟩
  · split at read
    · cases read
    · obtain ⟨⟨more, rest⟩, others, read⟩ := bind_eq_ok read
      cases read
      exact ⟨ty, own, more, parsed, rfl, Or.inr others⟩

theorem readParameters_proper (sound : scope.Sound) {texts : List String} {types : List Ty}
    {varargs : Bool} (read : readParameters scope texts = .ok (types, varargs)) :
    ∀ ty ∈ types, ty.Proper scope.typeVars := by
  induction texts generalizing types varargs with
  | nil =>
    cases read
    simp
  | cons text texts ih =>
    obtain ⟨ty, own, more, parsed, rfl, rest⟩ := readParameters_cons read
    intro other member
    rcases List.mem_cons.mp member with rfl | later
    · exact Ty.parseParameter_proper sound parsed
    · rcases rest with ⟨rfl, _⟩ | others
      · simp at later
      · exact ih others other later

/-- Only class types and type variables are thrown. -/
theorem readThrown_ok {text : String} {ty : Ty} (read : readThrown scope text = .ok ty) :
    Ty.parse scope text = .ok ty ∧ ((∃ name args, ty = .cls name args) ∨ ∃ name, ty = .var name) := by
  unfold readThrown at read
  obtain ⟨found, written, read⟩ := bind_eq_ok read
  have parsed := mapError_eq_ok written
  split at read
  · cases read
    exact ⟨parsed, Or.inl ⟨_, _, rfl⟩⟩
  · cases read
    exact ⟨parsed, Or.inr ⟨_, rfl⟩⟩
  · cases read

theorem mem_readThrows {texts : List String} {types : List Ty}
    (read : readThrows scope texts = .ok types) {ty : Ty} (member : ty ∈ types) :
    ∃ text, readThrown scope text = .ok ty := by
  unfold readThrows at read
  obtain ⟨all, each, read⟩ := bind_eq_ok read
  cases read
  obtain ⟨text, _, read⟩ := mapM_eq_ok each ty (List.mem_eraseDups.mp member)
  exact ⟨text, read⟩

theorem readThrows_proper (sound : scope.Sound) {texts : List String} {types : List Ty}
    (read : readThrows scope texts = .ok types) : ∀ ty ∈ types, ty.Proper scope.typeVars := by
  intro ty member
  obtain ⟨text, thrown⟩ := mem_readThrows read member
  exact Ty.parse_proper sound (readThrown_ok thrown).1

/-- The parts of a method, each read in the scope of its own type parameters. -/
theorem readMethod_ok {owner : QualName} {kind : Kind} {text : MethodText} {m : Method}
    (read : readMethod owner kind scope text = .ok m) :
    let inner := scope.withVariables (text.inside.typeParameters.map ParameterText.name)
    m.owner = owner ∧ m.name = text.name ∧
      readTypeParameters inner [] text.inside.typeParameters = .ok m.typeParameters ∧
      readParameters inner text.inside.parameters = .ok (m.parameters, m.varargs) ∧
      (m.result = .void ∨ ∃ written, Ty.parse inner written = .ok m.result) ∧
      readThrows inner text.inside.throwing = .ok m.throwing := by
  unfold readMethod at read
  dsimp only at read
  split at read
  · cases read
  · obtain ⟨typeParameters, first, read⟩ := bind_eq_ok read
    obtain ⟨⟨parameters, varargs⟩, second, read⟩ := bind_eq_ok read
    dsimp only at read
    split at read
    · rename_i written _
      obtain ⟨result, parsed, read⟩ := bind_eq_ok read
      obtain ⟨throwing, third, read⟩ := bind_eq_ok read
      cases read
      exact ⟨rfl, rfl, first, second, Or.inr ⟨written, mapError_eq_ok parsed⟩, third⟩
    · obtain ⟨result, isVoid, read⟩ := bind_eq_ok read
      obtain ⟨throwing, third, read⟩ := bind_eq_ok read
      cases read
      exact ⟨rfl, rfl, first, second, Or.inl (Except.ok.inj isVoid).symm, third⟩

theorem readMethod_proper (sound : scope.Sound) {owner : QualName} {kind : Kind} {text : MethodText}
    {m : Method} (read : readMethod owner kind scope text = .ok m) : m.Proper scope.typeVars := by
  obtain ⟨_, _, first, second, resulting, third⟩ := readMethod_ok read
  have soundInner : (scope.withVariables (text.inside.typeParameters.map ParameterText.name)).Sound :=
    sound
  obtain ⟨names, distinct, _, bounds⟩ := readTypeParameters_proper soundInner first
  refine ⟨distinct, fun ty member => ?_⟩
  rw [Method.declaredNames, names]
  simp only [Method.types, List.mem_append, List.mem_flatMap, List.mem_singleton] at member
  rcases member with ((⟨p, listed, bound⟩ | parameter) | thrown) | rfl
  · exact bounds p listed ty bound
  · exact readParameters_proper soundInner second ty parameter
  · exact readThrows_proper soundInner third ty thrown
  · rcases resulting with isVoid | ⟨written, parsed⟩
    · rw [isVoid]
      exact ⟨by simp [Ty.vars], by simp [Ty.classNames]⟩
    · exact Ty.parse_proper soundInner parsed

theorem readSupertypes_mem {name : QualName} {kind : Kind} {superclauses implemented : List ClassRef}
    {superclass : Option ClassRef} {interfaces : List ClassRef}
    (read : readSupertypes name kind superclauses implemented = .ok (superclass, interfaces)) :
    (kind = .interface → superclass = none) ∧
      ∀ ref ∈ superclass.toList ++ interfaces,
        ref ∈ superclauses ++ implemented ∨ ref = ⟨.object, []⟩ := by
  unfold readSupertypes at read
  dsimp only at read
  split at read
  · split at read
    · cases read
    · cases read
      exact ⟨fun _ => rfl, fun ref member => Or.inl (by simpa using Or.inl member)⟩
  · rename_i notInterface
    refine ⟨fun isInterface => absurd isInterface notInterface, ?_⟩
    split at read
    · cases read
      intro ref member
      rcases List.mem_append.mp member with above | listed
      · split at above
        · simp at above
        · exact Or.inr (by simpa using above)
      · exact Or.inl (by simpa using listed)
    · cases read
      exact fun ref member => Or.inl (by simpa using member)
    · cases read

/-- The types that a declaration is written with make sense where they stand. -/
theorem ofBody_proper {name : QualName} {kind : Kind} {body : TypeBodyText} {d : Descriptor}
    (valid : name.valid = true) (read : ofBody name kind body = .ok d) : d.Proper := by
  unfold ofBody at read
  obtain ⟨typeParameters, first, read⟩ := bind_eq_ok read
  obtain ⟨superclauses, second, read⟩ := bind_eq_ok read
  obtain ⟨implemented, third, read⟩ := bind_eq_ok read
  obtain ⟨⟨superclass, interfaces⟩, fourth, read⟩ := bind_eq_ok read
  obtain ⟨methods, fifth, read⟩ := bind_eq_ok read
  obtain ⟨constructors, _, read⟩ := bind_eq_ok read
  cases read
  let scope := (TypeScope.ofType name).withVariables (body.typeParameters.map ParameterText.name)
  have sound : scope.Sound := ⟨name, valid, rfl⟩
  obtain ⟨names, distinct, _, bounds⟩ := readTypeParameters_proper sound first
  obtain ⟨noSuperclass, origin⟩ := readSupertypes_mem fourth
  have vars : scope.typeVars = typeParameters.map TypeParameter.name := by
    rw [names]
    rfl
  have own {ty : Ty} (proper : ty.Proper scope.typeVars) :
      ty.Proper (typeParameters.map TypeParameter.name) := vars ▸ proper
  refine ⟨distinct, ?_, ?_, ?_, noSuperclass⟩
  · exact fun p listed bound inside => own (bounds p listed bound inside)
  · intro ref listed arg inside
    have proper : ∀ other ∈ superclauses ++ implemented, ∀ arg ∈ other.args,
        arg.Proper scope.typeVars := by
      intro other member
      rcases List.mem_append.mp member with extended | implements
      · obtain ⟨text, _, written⟩ := mapM_eq_ok second other extended
        exact Ty.classRef_parse_proper sound (mapError_eq_ok written)
      · obtain ⟨text, _, written⟩ := mapM_eq_ok third other implements
        exact Ty.classRef_parse_proper sound (mapError_eq_ok written)
    rcases origin ref listed with written | rfl
    · exact own (proper ref written arg inside)
    · simp at inside
  · intro m listed
    obtain ⟨text, _, written⟩ := mapM_eq_ok fifth m listed
    have proper := readMethod_proper sound written
    rw [vars] at proper
    exact proper

/-- The supertypes that a declaration is written with have valid names. -/
theorem ofBody_references {name : QualName} {kind : Kind} {body : TypeBodyText} {d : Descriptor}
    (valid : name.valid = true) (read : ofBody name kind body = .ok d) :
    ∀ ref ∈ d.references, ref.name.valid = true := by
  unfold ofBody at read
  obtain ⟨typeParameters, _, read⟩ := bind_eq_ok read
  obtain ⟨superclauses, extended, read⟩ := bind_eq_ok read
  obtain ⟨implemented, implements, read⟩ := bind_eq_ok read
  obtain ⟨⟨superclass, interfaces⟩, supertypes, read⟩ := bind_eq_ok read
  obtain ⟨methods, _, read⟩ := bind_eq_ok read
  obtain ⟨constructors, _, read⟩ := bind_eq_ok read
  cases read
  have sound : ((TypeScope.ofType name).withVariables
      (body.typeParameters.map ParameterText.name)).Sound := ⟨name, valid, rfl⟩
  intro ref listed
  rcases (readSupertypes_mem supertypes).2 ref listed with written | rfl
  · rcases List.mem_append.mp written with above | beside
    · obtain ⟨text, _, parsed⟩ := mapM_eq_ok extended ref above
      exact Ty.classRef_parse_valid sound (mapError_eq_ok parsed)
    · obtain ⟨text, _, parsed⟩ := mapM_eq_ok implements ref beside
      exact Ty.classRef_parse_valid sound (mapError_eq_ok parsed)
  · decide +kernel

theorem parse_valid {text : String} {name : QualName} (read : QualName.parse text = .ok name) :
    name.valid = true := by
  unfold QualName.parse at read
  dsimp only at read
  split at read
  · rename_i valid
    cases read
    exact valid
  · cases read

theorem ofElement_proper {element : Markup.Element} {d : Descriptor}
    (read : ofElement element = .ok d) : d.Proper := by
  unfold ofElement at read
  obtain ⟨head, _, read⟩ := bind_eq_ok read
  split at read
  · cases read
  · split at read
    · cases read
    · rename_i valid
      obtain ⟨body, _, read⟩ := bind_eq_ok read
      obtain ⟨inner, written, read⟩ := bind_eq_ok read
      cases read
      obtain ⟨distinct, bounds, references, methods, interfaces⟩ := ofBody_proper (parse_valid valid) written
      exact ⟨distinct, bounds, references, methods, interfaces⟩

theorem ofElement_references {element : Markup.Element} {d : Descriptor}
    (read : ofElement element = .ok d) : ∀ ref ∈ d.references, ref.name.valid = true := by
  unfold ofElement at read
  obtain ⟨head, _, read⟩ := bind_eq_ok read
  split at read
  · cases read
  · split at read
    · cases read
    · rename_i valid
      obtain ⟨body, _, read⟩ := bind_eq_ok read
      obtain ⟨inner, written, read⟩ := bind_eq_ok read
      cases read
      have named := ofBody_references (parse_valid valid) written
      exact named

/-- Every descriptor was read from an element of the document. -/
def Progress.Read (progress : Progress) : Prop :=
  ∀ d ∈ progress.found, ∃ element, ofElement element = .ok d

theorem readDeclared_read {progress next : Progress} {element : Markup.Element}
    (before : progress.Read) (read : readDeclared progress element = .ok next) : next.Read := by
  unfold readDeclared at read
  dsimp only at read
  split at read
  · split at read
    · cases read
    · obtain ⟨d, written, read⟩ := bind_eq_ok read
      cases read
      intro other member
      rcases List.mem_append.mp member with old | new
      · exact before other old
      · exact ⟨element, List.mem_singleton.mp new ▸ written⟩
  · cases read

theorem readTopLevel_read {progress next : Progress} {element : Markup.Element}
    (before : progress.Read) (read : readTopLevel progress element = .ok next) : next.Read := by
  have inside {children : List Markup.Element} {start final : Progress} (good : start.Read)
      (done : children.foldlM readDeclared start = .ok final) : final.Read :=
    foldlM_invariant (fun _ _ _ _ good step => readDeclared_read good step) good done
  unfold readTopLevel at read
  split at read
  · split at read
    · cases read
      exact before
    · exact @inside _ { progress with inTypes := true } _ before read
    · exact @inside _ { progress with inTypes := true } _ before read
    · obtain ⟨_, _, read⟩ := bind_eq_ok read
      cases read
  · exact readDeclared_read before read

theorem parseAll_read {text : String} {all : List Descriptor} (read : parseAll text = .ok all) :
    ∀ d ∈ all, ∃ element, ofElement element = .ok d := by
  unfold parseAll ofDocument at read
  obtain ⟨progress, done, read⟩ := bind_eq_ok read
  have start : Progress.Read {} := by simp [Progress.Read]
  have found : progress.Read :=
    foldlM_invariant (fun _ _ _ _ good step => readTopLevel_read good step) start done
  dsimp only at read
  split at read
  · cases read
  · split at read
    · cases read
    · cases read
      exact found

theorem parseOne_read {text : String} {d : Descriptor} (read : parseOne text = .ok d) :
    ∃ element, ofElement element = .ok d := by
  unfold parseOne at read
  obtain ⟨all, written, read⟩ := bind_eq_ok read
  have found := parseAll_read written
  split at read
  · cases read
    exact found d (by simp)
  · cases read

/-- Every descriptor that a document holds is proper. -/
theorem parseAll_proper {text : String} {all : List Descriptor} (read : parseAll text = .ok all) :
    ∀ d ∈ all, d.Proper := by
  intro d member
  obtain ⟨element, written⟩ := parseAll_read read d member
  exact ofElement_proper written

theorem parseOne_proper {text : String} {d : Descriptor} (read : parseOne text = .ok d) :
    d.Proper := by
  obtain ⟨element, written⟩ := parseOne_read read
  exact ofElement_proper written

end Descriptor

/-- The types of the standard library are proper, too. -/
theorem standardLibrary_proper : ∀ d ∈ StandardLibrary.types, d.Proper := by decide +kernel

end JavaStubs
