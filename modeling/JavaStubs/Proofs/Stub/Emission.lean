import JavaStubs.Generator
import JavaStubs.Proofs.Hierarchy.Climb
import JavaStubs.Proofs.Obligation.Groups
import JavaStubs.Proofs.Resolver.Assembled
import JavaStubs.Proofs.Types.Capture
import Mathlib

namespace JavaStubs

/-- A word may be continued by a tail that no reserved word can end in. -/
theorem isIdentifier_append {word tail : String} {c : Char} (identifier : isIdentifier word = true)
    (chars : ∀ c ∈ tail.toList, Text.isWordChar c = true) (inside : c ∈ tail.toList)
    (foreign : ∀ reserved ∈ reservedWords, c ∉ reserved.toList) :
    isIdentifier (word ++ tail) = true := by
  simp only [isIdentifier, Bool.and_eq_true, Bool.not_eq_true', List.contains_eq_mem,
    decide_eq_false_iff_not] at identifier ⊢
  constructor
  · cases text : word.toList with
    | nil => simp [text, isWord] at identifier
    | cons first rest =>
      have own := identifier.1
      simp only [text, isWord, Bool.and_eq_true, List.all_eq_true] at own
      simp only [String.toList_append, text, List.cons_append, isWord, Bool.and_eq_true,
        List.all_eq_true, List.mem_append]
      exact ⟨own.1, fun c member => member.elim (own.2 c) (chars c)⟩
  · intro reserved
    exact foreign _ reserved (by simp [inside])

theorem isDigit_of_mem_toString {n : Nat} {c : Char} (member : c ∈ (toString n).toList) :
    c.isDigit = true := by
  have digits : c ∈ Nat.toDigits 10 n := by simpa [toString, Nat.repr] using member
  exact Nat.isDigit_of_mem_toDigits (by decide) (by decide) digits

theorem isWordChar_of_isDigit {c : Char} (digit : c.isDigit = true) : Text.isWordChar c = true := by
  have ascii : c.toNat < 128 := by
    simp [Char.isDigit, UInt32.le_iff_toNat_le] at digit
    omega
  simp [Text.isWordChar, Text.isAlphanumeric, Text.isNumeral, ascii, digit]

theorem not_mem_reserved_of_isDigit {c : Char} (digit : c.isDigit = true) :
    ∀ reserved ∈ reservedWords, c ∉ reserved.toList := by
  have plain : ∀ reserved ∈ reservedWords, (reserved.toList.all fun c => !c.isDigit) = true := by
    decide +kernel
  intro reserved member inside
  have none := List.all_eq_true.mp (plain reserved member) c inside
  rw [digit] at none
  cases none

/-- The usual suffix fits behind every identifier. -/
theorem isIdentifier_impl {word : String} (identifier : isIdentifier word = true) :
    isIdentifier (word ++ ({} : Naming).suffix) = true :=
  isIdentifier_append (c := 'I') identifier (List.all_eq_true.mp (by decide)) (by decide)
    (by decide +kernel)

namespace Method

/-- Invented names are identifiers. -/
theorem isIdentifier_freshName {base : String} (identifier : isIdentifier base = true)
    (taken : List String) : isIdentifier (freshName base taken) = true := by
  unfold freshName
  dsimp only
  cases found : ((List.range (taken.length + 1)).map fun n => base ++ toString n).find?
      (!taken.contains ·) with
  | none => exact identifier
  | some name =>
    obtain ⟨n, _, rfl⟩ := List.mem_map.mp (List.mem_of_find?_eq_some found)
    obtain ⟨c, inside⟩ : ∃ c, c ∈ (toString n).toList := by
      refine List.exists_mem_of_ne_nil _ ?_
      simp [toString, Nat.repr, Nat.toDigits_ne_nil]
    exact isIdentifier_append identifier
      (fun c member => isWordChar_of_isDigit (isDigit_of_mem_toString member)) inside
      (not_mem_reserved_of_isDigit (isDigit_of_mem_toString inside))

theorem isIdentifier_renamings {captured taken names : List String}
    (identifiers : ∀ name ∈ names, isIdentifier name = true) :
    ∀ entry ∈ renamings captured taken names, isIdentifier entry.2 = true := by
  induction names generalizing taken with
  | nil => simp [renamings]
  | cons name names ih =>
    obtain ⟨own, others⟩ := List.forall_mem_cons.mp identifiers
    unfold renamings
    split
    · exact List.forall_mem_cons.mpr ⟨isIdentifier_freshName own taken, ih others⟩
    · exact ih others

/-- A signature that can be written out. -/
structure Emittable (m : Method) : Prop where
  identifier : isIdentifier m.name = true
  typeParameters : ∀ name ∈ m.declaredNames, isIdentifier name = true
  arity : m.varargs = true → ∃ last ∈ m.parameters.getLast?, last.isArray = true

theorem Written.emittable {type : QualName} {m : Method} (written : m.Written type) : m.Emittable where
  identifier := written.identifier
  typeParameters := by
    intro name declared
    obtain ⟨p, member, rfl⟩ := List.mem_map.mp declared
    exact (written.typeParameters p member).identifier
  arity := written.signature.arity

/-- Replacing outer variables leaves names identifiers and arrays arrays. -/
theorem Emittable.subst {m : Method} (emittable : m.Emittable) (s : Substitution) :
    (m.subst s).Emittable where
  identifier := emittable.identifier
  typeParameters := by
    rw [declaredNames_subst]
    intro name declared
    obtain ⟨old, member, rfl⟩ := List.mem_map.mp declared
    unfold newName
    cases found : (m.renamed s).lookup old with
    | none => exact emittable.typeParameters old member
    | some new =>
      obtain ⟨before, after, split, _⟩ := List.lookup_eq_some_iff.mp found
      exact isIdentifier_renamings emittable.typeParameters (old, new)
        (show _ ∈ m.renamed s by simp [split])
  arity := by
    intro varargs
    obtain ⟨last, ends, array⟩ := emittable.arity varargs
    refine ⟨last.subst (m.replacement s), ?_, ?_⟩
    · simp only [Method.subst, List.getLast?_map, Option.mem_def] at ends ⊢
      rw [ends, Option.map_some]
    · cases last with
      | array element => rfl
      | _ => cases array

end Method

/-- An obligation that can be written out. -/
def Obligation.Emittable : Obligation → Prop
  | .constructor c => c.varargs = true → ∃ last ∈ c.parameters.getLast?, last.isArray = true
  | .method o => o.method.Emittable

namespace Stub

theorem checkVariableArity_ok {types : List Ty} {varargs : Bool}
    (arity : varargs = true → ∃ last ∈ types.getLast?, last.isArray = true) :
    checkVariableArity types varargs = .ok () := by
  unfold checkVariableArity
  cases varargs with
  | false => rfl
  | true =>
    obtain ⟨last, ends, array⟩ := arity rfl
    rw [ends]
    cases last with
    | array element => rfl
    | _ => cases array

theorem checkIdentifier_ok {name : String} (identifier : isIdentifier name = true) :
    checkIdentifier name = .ok () := if_pos identifier

theorem isIdentifier_of_check {name : String} (checked : checkIdentifier name = .ok ()) :
    isIdentifier name = true := by
  by_contra other
  rw [checkIdentifier, if_neg other] at checked
  cases checked

theorem checkTypeParameters_ok {parameters : List TypeParameter}
    (identifiers : ∀ name ∈ parameters.map TypeParameter.name, isIdentifier name = true) :
    checkTypeParameters parameters = .ok () :=
  forM_ok fun p member => checkIdentifier_ok (identifiers p.name (List.mem_map_of_mem member))

theorem isArray_of_check {types : List Ty} {varargs : Bool}
    (checked : checkVariableArity types varargs = .ok ()) (arity : varargs = true) :
    ∀ last ∈ types.getLast?, last.isArray = true := by
  subst arity
  intro last ends
  rw [Option.mem_def] at ends
  cases last with
  | array element => rfl
  | _ => simp [checkVariableArity, ends] at checked

/-- What a check of a method promises about its head. -/
structure Checked (m : Method) : Prop where
  named : isIdentifier m.name = true
  declared : ∀ p ∈ m.typeParameters, isIdentifier p.name = true
  arity : m.varargs = true → ∀ last ∈ m.parameters.getLast?, last.isArray = true

theorem checked_of_checkMethod {o : MethodObligation} {body : Body}
    (checked : checkMethod o body = .ok ()) : Checked o.method := by
  unfold checkMethod at checked
  obtain ⟨_, named, checked⟩ := bind_eq_ok checked
  obtain ⟨_, declared, checked⟩ := bind_eq_ok checked
  obtain ⟨_, arity, _⟩ := bind_eq_ok checked
  exact ⟨isIdentifier_of_check named, fun p member => isIdentifier_of_check (forM_eq_ok declared p member),
    isArray_of_check arity⟩

/-- The default body of a method fits its result. -/
theorem fitsResult_body (o : MethodObligation) : fitsResult (Obligation.method o).body o.result = true := by
  obtain ⟨_, result, _, _, _⟩ := o
  cases result with
  | prim p => cases p <;> simp [Obligation.body, DefaultValue.ofType?, fitsResult]
  | _ => simp [Obligation.body, DefaultValue.ofType?, fitsResult]

theorem belongs_body (o : Obligation) : belongs o o.body = true := by
  cases o with
  | constructor c => exact beq_self_eq_true c.arity
  | method o =>
    unfold Obligation.body
    dsimp only
    split <;> rfl

theorem checkMember_ok {o : Obligation} (emittable : o.Emittable) (position : Nat) :
    checkMember ((o, o.body), position) = .ok () := by
  unfold checkMember
  dsimp only
  rw [if_pos (belongs_body o)]
  cases o with
  | constructor c => exact checkVariableArity_ok emittable
  | method o =>
    change checkMethod o (Obligation.method o).body = .ok ()
    unfold checkMethod
    rw [checkIdentifier_ok emittable.identifier, checkTypeParameters_ok emittable.typeParameters,
      checkVariableArity_ok emittable.arity, if_pos (fitsResult_body o)]
    rfl

/-- Whatever can be written out is emitted under a name that can. -/
theorem exists_emit {naming : Naming} {root : TypeModel} {owed : List Obligation}
    (valid : root.name.valid = true)
    (named : isIdentifier (root.name.simple ++ naming.suffix) = true)
    (typeParameters : ∀ name ∈ root.typeParameters.map TypeParameter.name, isIdentifier name = true)
    (each : ∀ o ∈ owed, o.Emittable) (output : Path) :
    ∃ stub, emit naming output root owed (owed.map Obligation.body) = .ok stub := by
  have simple : (naming.generatedName root.name).simple = root.name.simple ++ naming.suffix :=
    QualName.simple_sibling valid (isIdentifier_plain named)
  have members : (owed.zip (owed.map Obligation.body)).zipIdx.forM checkMember = .ok () := by
    refine forM_ok fun ((o, body), position) member => ?_
    have paired : (o, body) ∈ owed.map fun o => (o, o.body) := by
      rw [List.map_prod_left_eq_zip]
      exact List.fst_mem_of_mem_zipIdx member
    obtain ⟨_, owes, same⟩ := List.mem_map.mp paired
    cases same
    exact checkMember_ok (each o owes) position
  unfold emit
  rw [if_neg (by simp)]
  simp only [simple, checkIdentifier_ok named, checkTypeParameters_ok typeParameters, members, ok_bind]
  exact ⟨_, rfl⟩

/-- What is emitted: a class whose simple name is an identifier, in its file. -/
theorem emit_eq_ok {naming : Naming} {output : Path} {root : TypeModel} {owed : List Obligation}
    {bodies : List Body} {stub : Stub} (emitted : emit naming output root owed bodies = .ok stub) :
    isIdentifier (naming.generatedName root.name).simple = true ∧ stub = {
      name := naming.generatedName root.name
      path := naming.targetPath output (naming.generatedName root.name)
      source := sourceText (naming.generatedName root.name) root (owed.zip bodies) } := by
  unfold emit at emitted
  dsimp only at emitted
  split at emitted
  · cases emitted
  · obtain ⟨_, named, emitted⟩ := bind_eq_ok emitted
    obtain ⟨_, _, emitted⟩ := bind_eq_ok emitted
    obtain ⟨_, _, emitted⟩ := bind_eq_ok emitted
    exact ⟨isIdentifier_of_check named, (Except.ok.inj emitted).symm⟩

end Stub

theorem Hierarchy.reaches_of_mem_ofRoot {root : TypeModel} {node : Reached}
    (member : node ∈ ofRoot root) : root.Reaches node.model := by
  obtain ⟨entries, _, walked, stage⟩ := ofRoot_stage root
  rw [walked] at member
  obtain ⟨entry, inside, rfl⟩ := List.mem_map.mp member
  exact Reached.follow_reaches (stage.leads entry (List.mem_append_left _ inside))

/-- What a well-formed hierarchy hands down can be written out. -/
theorem Inherited.emittable {root : TypeModel} (wellFormed : ∀ model, root.Reaches model → model.WellFormed)
    {d : Inherited} (inherited : d ∈ Inherited.all root) : d.method.Emittable := by
  obtain ⟨node, met, inside⟩ := List.mem_flatMap.mp inherited
  obtain ⟨m, kept, rfl⟩ := List.mem_map.mp inside
  have declared := (wellFormed node.model (Hierarchy.reaches_of_mem_ofRoot met)).declared
  have written := declared.written.methods m (List.mem_filter.mp kept).1
  exact written.emittable.subst node.subst

theorem mem_constructorObligations {root : TypeModel} {constructors : List Constructor}
    (forwarded : root.constructorObligations = .ok constructors) :
    ∀ c ∈ constructors, c ∈ root.constructors := by
  unfold TypeModel.constructorObligations at forwarded
  split_ifs at forwarded
  · cases forwarded
    simp
  · cases forwarded
    simp
  · split at forwarded
    · cases forwarded
    · cases forwarded
      intro c member
      exact (List.mem_filter.mp member).1

/-- Whatever is collected in a well-formed hierarchy can be written out. -/
theorem obligations_emittable {lookup : QualName → Option TypeModel} {root : TypeModel}
    {owed : List Obligation} (wellFormed : ∀ model, root.Reaches model → model.WellFormed)
    (collected : (obligations lookup root).value = .ok owed) : ∀ o ∈ owed, o.Emittable := by
  obtain ⟨_, constructors, entries, forwarded, resolved, rfl⟩ := obligations_value.mp collected
  obtain ⟨_, rfl⟩ := Collect.resolveAll_value.mp resolved
  intro o member
  rcases List.mem_append.mp member with inFront | behind
  · obtain ⟨c, listed, rfl⟩ := List.mem_map.mp inFront
    have declared := (wellFormed root .refl).declared.written
    have written := declared.constructors c (mem_constructorObligations forwarded c listed)
    exact written.signature.arity
  · obtain ⟨entry, sorted, rfl⟩ := List.mem_map.mp behind
    obtain ⟨base, others, contract, value, _, inherited⟩ :=
      Collect.entry_candidates (List.mem_mergeSort.mp sorted)
    have method : entry.2.method = base.method := by rw [value]; rfl
    change entry.2.method.Emittable
    rw [method]
    exact Inherited.emittable wellFormed (inherited base (List.mem_cons_self ..)).1

theorem TypeModel.isIdentifier_parameterNames {root : TypeModel} (wellFormed : root.WellFormed) :
    ∀ name ∈ root.parameterNames, isIdentifier name = true := by
  intro name listed
  obtain ⟨p, member, rfl⟩ := List.mem_map.mp listed
  exact (wellFormed.declared.written.typeParameters p member).identifier

/-- The class of a resolved type is emitted once its obligations are collected. -/
theorem Generator.exists_renderModel {g : Generator} {lookup : QualName → Option TypeModel}
    {root : TypeModel} {owed : List Obligation}
    (wellFormed : ∀ model, root.Reaches model → model.WellFormed)
    (named : isIdentifier (root.name.simple ++ g.naming.suffix) = true)
    (collected : (obligations lookup root).value = .ok owed) :
    ∃ stub, (g.renderModel lookup root).value = .ok stub := by
  have own := wellFormed root .refl
  obtain ⟨stub, emitted⟩ := Stub.exists_emit own.declared.written.named named
    (TypeModel.isIdentifier_parameterNames own) (obligations_emittable wellFormed collected) g.output
  refine ⟨stub, ?_⟩
  simp only [Generator.renderModel, Inquiry.value_bind, collected]
  rw [emitted]
  rfl

/-- A class that is rendered was emitted for the obligations of its root. -/
theorem Generator.emitted_of_renderModel {g : Generator} {lookup : QualName → Option TypeModel}
    {root : TypeModel} {stub : Stub} (rendered : (g.renderModel lookup root).value = .ok stub) :
    ∃ owed, (obligations lookup root).value = .ok owed ∧
      Stub.emit g.naming g.output root owed (owed.map Obligation.body) = .ok stub := by
  simp only [renderModel, Inquiry.value_bind] at rendered
  split at rendered
  · cases rendered
  · rename_i owed collected
    rw [Inquiry.value_pure] at rendered
    exact ⟨owed, collected, mapError_eq_ok rendered⟩

/-- Generation by its stages, each of which may have the last word. -/
theorem Generator.render_value (g : Generator) (fs : FileSystem) (resolver : Resolver) (text : String) :
    (g.render fs resolver text).1 =
      match targetName text with
      | .error refusal => .error (.obligation (.refused refusal))
      | .ok name =>
        match (resolver.resolve fs name).1 with
        | .error error => .error (.resolution error)
        | .ok root => (g.renderModel ((resolver.resolve fs name).2.lookup fs) root).value := by
  unfold Generator.render
  cases targetName text with
  | error refusal => rfl
  | ok name =>
    dsimp only
    generalize resolver.resolve fs name = answer
    obtain ⟨result, later⟩ := answer
    cases result <;> rfl

/-- From a resolver's types a class is generated whenever their obligations can be collected, if it
can be named, and the usual suffix can always name it. -/
theorem render_not_emission {g : Generator} {fs : FileSystem} {resolver : Resolver} {text : String}
    (opened : resolver.Opened)
    (named : ∀ name root, Generator.targetName text = .ok name →
      (resolver.resolve fs name).1 = .ok root →
        isIdentifier (root.name.simple ++ g.naming.suffix) = true) :
    (∀ fault, (g.render fs resolver text).1 ≠ .error (.emission fault)) ∧
    (∀ name root owed, Generator.targetName text = .ok name →
      (resolver.resolve fs name).1 = .ok root →
      (obligations ((resolver.resolve fs name).2.lookup fs) root).value = .ok owed →
        ∃ stub, (g.render fs resolver text).1 = .ok stub) ∧
    ∀ name : QualName, name.valid = true →
      isIdentifier (name.simple ++ ({} : Naming).suffix) = true := by
  have emits : ∀ name root owed, Generator.targetName text = .ok name →
      (resolver.resolve fs name).1 = .ok root →
      (obligations ((resolver.resolve fs name).2.lookup fs) root).value = .ok owed →
        ∃ stub, (g.render fs resolver text).1 = .ok stub := by
    intro name root owed target resolved collected
    obtain ⟨_, assembled⟩ := opened.assembled resolved
    rw [g.render_value, target]
    dsimp only
    rw [resolved]
    exact Generator.exists_renderModel (fun model reached => (assembled.of_reaches reached).wellFormed)
      (named name root target resolved) collected
  refine ⟨?_, emits, fun name valid => isIdentifier_impl (QualName.isIdentifier_simple valid)⟩
  intro fault failed
  -- Only the last stage emits, and there `emits` applies.
  cases target : Generator.targetName text with
  | error refusal => simp [g.render_value, target] at failed
  | ok name =>
    cases resolved : (resolver.resolve fs name).1 with
    | error error => simp [g.render_value, target, resolved] at failed
    | ok root =>
      cases collected : (obligations ((resolver.resolve fs name).2.lookup fs) root).value with
      | error error =>
        simp [g.render_value, target, resolved, Generator.renderModel, collected] at failed
      | ok owed =>
        obtain ⟨stub, emitted⟩ := emits name root owed target resolved collected
        rw [emitted] at failed
        cases failed

namespace Invented

/-- As `R<U>` inherits the method of `A<U>`, the method's own `U` has a new name. -/
def text : String :=
  "<types><interface name='A'><typeParameter name='T'/><method name='f'><typeParameter name='U'/>" ++
    "<param type='U'/><param type='T...'/></method></interface>" ++
    "<interface name='R'><typeParameter name='U'/><extends type='A&lt;U>'/></interface></types>"

def top : Descriptor :=
  { name := ⟨"A"⟩, kind := .interface, typeParameters := [⟨"T", []⟩]
    methods := [{ name := "f", owner := ⟨"A"⟩, typeParameters := [⟨"U", []⟩]
                  parameters := [.var "U", .array (.var "T")], varargs := true, isAbstract := true }] }

def bottom : Descriptor :=
  { name := ⟨"R"⟩, kind := .interface, typeParameters := [⟨"U", []⟩]
    interfaces := [⟨⟨"A"⟩, [.var "U"]⟩] }

def resolver : Resolver where
  sources := [.inMemory "<inline descriptors>" { descriptors := [top, bottom], distinct := by decide },
    .standardLibrary]

theorem parsed : Descriptor.parseAll text = .ok [top, bottom] := by decide +kernel

theorem built : Resolver.ofDocument text = .ok resolver := by
  unfold Resolver.ofDocument Source.ofDocument
  rw [parsed]
  rfl

def root : TypeModel :=
  Linking.modelOf bottom none [⟨⟨⟨"A"⟩, [.var "U"]⟩, Linking.modelOf top none []⟩]

theorem resolved : (resolver.resolve {} ⟨"R"⟩).1 = .ok root := rfl

/-- The one obligation, with `U0` for the `U` that would be captured. -/
def owed : MethodObligation where
  method :=
    { name := "f", owner := ⟨"A"⟩, typeParameters := [⟨"U0", []⟩]
      parameters := [.var "U0", .array (.var "U")], varargs := true, isAbstract := true }
  result := .void
  throwing := []
  access := .publicAccess
  depth := 1

theorem collected :
    (obligations ((resolver.resolve {} ⟨"R"⟩).2.lookup {}) root).value = .ok [.method owed] := by
  cbv

end Invented

theorem invented_rendered :
    (∀ fault, (({} : Generator).render {} Invented.resolver "R").1 ≠ .error (.emission fault)) ∧
      ∃ stub, (({} : Generator).render {} Invented.resolver "R").1 = .ok stub := by
  have named : ∀ name root, Generator.targetName "R" = .ok name →
      (Invented.resolver.resolve {} name).1 = .ok root →
        isIdentifier (root.name.simple ++ ({} : Generator).naming.suffix) = true := by
    intro name root target resolved
    have same : name = ⟨"R"⟩ := Except.ok.inj (target.symm.trans (by decide +kernel))
    subst same
    rw [Invented.resolved] at resolved
    cases resolved
    decide +kernel
  obtain ⟨never, emits, _⟩ := render_not_emission
    (.document Invented.text Invented.resolver Invented.built) named
  exact ⟨never, emits ⟨"R"⟩ Invented.root _ (by decide +kernel) Invented.resolved Invented.collected⟩

end JavaStubs
