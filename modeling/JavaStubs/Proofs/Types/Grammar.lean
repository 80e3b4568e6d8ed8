import JavaStubs.Proofs.Descriptor.Scoping
import JavaStubs.Ty.Expression

namespace JavaStubs

/-- The words that dotted tokens spell. -/
inductive Dotted : List Token → List String → Prop
  | last (c : Char) (cs : List Char) : Dotted [.word c cs] [String.ofList (c :: cs)]
  | more {tokens : List Token} {words : List String} (c : Char) (cs : List Char)
      (rest : Dotted tokens words) :
      Dotted (.word c cs :: .symbol '.' :: tokens) (String.ofList (c :: cs) :: words)

namespace Dotted

variable {tokens : List Token} {words : List String}

theorem ne_nil (dotted : Dotted tokens words) : words ≠ [] := by
  cases dotted <;> simp

theorem length_pos (dotted : Dotted tokens words) : 0 < tokens.length := by
  cases dotted <;> simp

theorem lone (dotted : Dotted tokens words) {word : String} (single : words = [word]) :
    ∃ c cs, tokens = [.word c cs] ∧ String.ofList (c :: cs) = word := by
  cases dotted with
  | last c cs =>
    cases single
    exact ⟨c, cs, rfl, rfl⟩
  | more c cs rest =>
    cases single
    exact absurd rfl rest.ne_nil

end Dotted

/-- The class that words name: a lone word lies in the package unless it is a variable. -/
inductive TypeScope.Names (scope : TypeScope) : List String → QualName → Prop
  | lone {word : String} (identifier : isIdentifier word = true) (unknown : word ∉ scope.typeVars) :
      Names scope [word] (QualName.inPackage scope.package word)
  | dotted {words : List String} (several : 1 < words.length)
      (identifiers : ∀ word ∈ words, isIdentifier word = true) :
      Names scope words ⟨".".intercalate words⟩

/-- A word that a scope can read as a variable. -/
structure TypeScope.Variable (scope : TypeScope) (word : String) : Prop where
  known : word ∈ scope.typeVars
  notPrimitive : ∀ p : Primitive, word ≠ p.name
  notVoid : word ≠ "void"

/-- The types that tokens spell, wildcards only as arguments. -/
inductive Spells (scope : TypeScope) : Bool → List Token → Ty → Prop
  | prim {asArgument : Bool} {c : Char} {cs : List Char} {p : Primitive}
      (named : String.ofList (c :: cs) = p.name) : Spells scope asArgument [.word c cs] (.prim p)
  | var {asArgument : Bool} {c : Char} {cs : List Char}
      (declared : scope.Variable (String.ofList (c :: cs))) :
      Spells scope asArgument [.word c cs] (.var (String.ofList (c :: cs)))
  | raw {asArgument : Bool} {tokens : List Token} {words : List String} {name : QualName}
      (dotted : Dotted tokens words) (names : scope.Names words name) :
      Spells scope asArgument tokens (.cls name [])
  | generic {asArgument : Bool} {tokens : List Token} {words : List String} {name : QualName}
      {args : List (List Token × Ty)} (dotted : Dotted tokens words) (names : scope.Names words name)
      (nonempty : args ≠ []) (each : ∀ arg ∈ args, Spells scope true arg.1 arg.2) :
      Spells scope asArgument
        (tokens ++ .symbol '<' :: ([.symbol ','].intercalate (args.map Prod.fst) ++ [.symbol '>']))
        (.cls name (args.map Prod.snd))
  | array {asArgument : Bool} {tokens : List Token} {element : Ty}
      (inner : Spells scope false tokens element) :
      Spells scope asArgument (tokens ++ [.symbol '[', .symbol ']']) (.array element)
  | any : Spells scope true [.symbol '?'] .any
  | upper {tokens : List Token} {bound : Ty} (inner : Spells scope false tokens bound)
      (reference : bound.isReference = true) :
      Spells scope true (.symbol '?' :: .word 'e' "xtends".toList :: tokens) (.upper bound)
  | lower {tokens : List Token} {bound : Ty} (inner : Spells scope false tokens bound)
      (reference : bound.isReference = true) :
      Spells scope true (.symbol '?' :: .word 's' "uper".toList :: tokens) (.lower bound)

namespace Spells

variable {scope : TypeScope} {asArgument : Bool} {tokens : List Token} {ty : Ty}

/-- What is no wildcard may be an argument, too. -/
theorem anywhere (spells : Spells scope false tokens ty) : Spells scope asArgument tokens ty := by
  cases spells with
  | prim named => exact .prim named
  | var known => exact .var known
  | raw dotted names => exact .raw dotted names
  | generic dotted names nonempty each => exact .generic dotted names nonempty each
  | array inner => exact .array inner

theorem not_wildcard (spells : Spells scope false tokens ty) : ty.isWildcard = false := by
  cases spells <;> rfl

end Spells

/-- Arguments with commas between them and a closing bracket behind. -/
def SpellsAll (scope : TypeScope) (tokens : List Token) (args : List Ty) : Prop :=
  ∃ pairs : List (List Token × Ty), pairs ≠ [] ∧ (∀ pair ∈ pairs, Spells scope true pair.1 pair.2) ∧
    tokens = [.symbol ','].intercalate (pairs.map Prod.fst) ++ [.symbol '>'] ∧ args = pairs.map Prod.snd

namespace SpellsAll

variable {scope : TypeScope} {tokens later : List Token} {ty : Ty} {args : List Ty}

theorem last (spells : Spells scope true tokens ty) : SpellsAll scope (tokens ++ [.symbol '>']) [ty] :=
  ⟨[(tokens, ty)], by simp, by simpa using spells, by simp, rfl⟩

theorem more (rest : SpellsAll scope later args) (spells : Spells scope true tokens ty) :
    SpellsAll scope (tokens ++ .symbol ',' :: later) (ty :: args) := by
  obtain ⟨pairs, nonempty, each, rfl, rfl⟩ := rest
  refine ⟨(tokens, ty) :: pairs, by simp, List.forall_mem_cons.mpr ⟨spells, each⟩, ?_, rfl⟩
  rw [List.map_cons, List.intercalate_cons_of_ne_nil (by simpa using nonempty)]
  simp

end SpellsAll

namespace Ty

variable {scope : TypeScope}

theorem ofName?_eq_none {word : String} :
    Primitive.ofName? word = none ↔ ∀ p : Primitive, word ≠ p.name := by
  simp only [Primitive.ofName?, List.find?_eq_none, beq_iff_eq]
  constructor
  · intro none p same
    exact none p (by cases p <;> decide) same.symm
  · intro none p _ same
    exact none p same.symm

theorem not_isIdentifier_primitive (p : Primitive) : isIdentifier p.name = false := by
  cases p <;> decide +kernel

theorem not_isIdentifier_void : isIdentifier "void" = false := by decide +kernel

theorem headOf_prim (p : Primitive) :
    headOf scope [p.name] = .ok (.plain (.prim p) .primitiveArguments) := by
  simp [headOf, Primitive.ofName?_name]

theorem headOf_var {word : String} (declared : scope.Variable word) :
    headOf scope [word] = .ok (.plain (.var word) .variableArguments) := by
  have known : scope.isVariable word = true := by
    simpa [TypeScope.isVariable] using declared.known
  simp [headOf, ofName?_eq_none.mpr declared.notPrimitive, declared.notVoid, known]

theorem headOf_names {words : List String} {name : QualName} (names : scope.Names words name) :
    headOf scope words = .ok (.generic name) := by
  cases names with
  | @lone word identifier unknown =>
    have notPrimitive : ∀ p : Primitive, word ≠ p.name := by
      rintro p rfl
      rw [not_isIdentifier_primitive] at identifier
      cases identifier
    have notVoid : word ≠ "void" := by
      rintro rfl
      rw [not_isIdentifier_void] at identifier
      cases identifier
    simp [headOf, ofName?_eq_none.mpr notPrimitive, notVoid, TypeScope.isVariable, unknown, identifier]
  | dotted several identifiers =>
    have all : words.find? (!isIdentifier ·) = none := by
      rw [List.find?_eq_none]
      intro word member
      simp [identifiers word member]
    unfold headOf
    split
    · simp at several
    · simp only [all]

/-- Every head that words have arises in one of these three ways. -/
theorem headOf_cases {words : List String} (nonempty : words ≠ []) {head : Head}
    (read : headOf scope words = .ok head) :
    (∃ p : Primitive, words = [p.name] ∧ head = .plain (.prim p) .primitiveArguments) ∨
    (∃ word, words = [word] ∧ scope.Variable word ∧ head = .plain (.var word) .variableArguments) ∨
    ∃ name, scope.Names words name ∧ head = .generic name := by
  unfold headOf at read
  split at read
  · rename_i word
    split at read
    · rename_i p found
      cases read
      have same : p.name = word := by simpa using List.find?_some found
      exact .inl ⟨p, by rw [same], rfl⟩
    · rename_i notPrimitive
      split_ifs at read with notVoid known identifier
      · cases read
        exact .inr (.inl ⟨word, rfl, ⟨by simpa [TypeScope.isVariable] using known,
          ofName?_eq_none.mp notPrimitive, notVoid⟩, rfl⟩)
      · cases read
        exact .inr (.inr ⟨_, .lone identifier (by simpa [TypeScope.isVariable] using known), rfl⟩)
  · rename_i several
    split at read
    · cases read
    · rename_i identifiers
      cases read
      rw [List.find?_eq_none] at identifiers
      refine .inr (.inr ⟨_, .dotted ?_ (fun word member => by simpa using identifiers word member), rfl⟩)
      have positive := List.length_pos_iff.mpr nonempty
      have notSingle : words.length ≠ 1 := by
        intro single
        obtain ⟨word, same⟩ := List.length_eq_one_iff.mp single
        exact several word same
      omega

theorem readSegments_dotted {input rest : List Lexeme} {more : List String}
    (read : readSegments input = .ok (more, rest)) (c : Char) (cs : List Char) :
    ∃ front, input = front ++ rest ∧
      Dotted (.word c cs :: front.map Lexeme.token) (String.ofList (c :: cs) :: more) := by
  fun_induction readSegments input generalizing more c cs with
  | case1 _ _ d ds _ _ rest' ih =>
    obtain ⟨⟨words, after⟩, inner, read⟩ := bind_eq_ok read
    cases read
    obtain ⟨front, rfl, dotted⟩ := ih inner d ds
    exact ⟨_ :: _ :: front, rfl, .more c cs dotted⟩
  | case2 => cases read
  | case3 =>
    cases read
    exact ⟨[], rfl, .last c cs⟩

theorem readArrays_spells {element ty : Ty} {input rest : List Lexeme} {tokens : List Token}
    (spells : Spells scope false tokens element) (read : readArrays element input = .ok (ty, rest)) :
    ∃ front, input = front ++ rest ∧ Spells scope false (tokens ++ front.map Lexeme.token) ty := by
  fun_induction readArrays element input generalizing tokens with
  | case1 element _ _ _ _ rest' ih =>
    obtain ⟨front, rfl, inner⟩ := ih (.array spells) read
    exact ⟨_ :: _ :: front, rfl, by simpa using inner⟩
  | case2 => cases read
  | case3 =>
    cases read
    exact ⟨[], rfl, by simpa using spells⟩

/-- A word that takes no arguments is a type by itself. -/
theorem headOf_spells {tokens : List Token} {words : List String} (dotted : Dotted tokens words)
    {ty : Ty} {fault : ExpressionFault} (read : headOf scope words = .ok (.plain ty fault)) :
    Spells scope false tokens ty := by
  rcases headOf_cases dotted.ne_nil read with
    ⟨p, lone, head⟩ | ⟨word, lone, declared, head⟩ | ⟨name, _, head⟩
  · cases head
    obtain ⟨c, cs, rfl, named⟩ := dotted.lone lone
    exact .prim named
  · cases head
    obtain ⟨c, cs, rfl, rfl⟩ := dotted.lone lone
    exact .var declared
  · cases head

theorem headOf_generic {tokens : List Token} {words : List String} (dotted : Dotted tokens words)
    {name : QualName} (read : headOf scope words = .ok (.generic name)) : scope.Names words name := by
  rcases headOf_cases dotted.ne_nil read with ⟨p, _, head⟩ | ⟨word, _, _, head⟩ | ⟨name, names, head⟩
  · cases head
  · cases head
  · cases head
    exact names

/-- A bound after `extends` or `super`. -/
theorem readBound_spells {make : Ty → Ty} {bound : Except Misread (Ty × List Lexeme)} {stop : Nat}
    {ty : Ty} {rest : List Lexeme}
    (read : (do
      let (inner, rest) ← bound
      if inner.isReference then return (make inner, rest)
      else throw (⟨some stop, .wildcardBound⟩ : Misread)) = .ok (ty, rest)) :
    ∃ inner, bound = .ok (inner, rest) ∧ inner.isReference = true ∧ ty = make inner := by
  obtain ⟨⟨inner, after⟩, first, read⟩ := bind_eq_ok read
  dsimp only at read
  split at read
  · rename_i reference
    cases read
    exact ⟨inner, first, reference, rfl⟩
  · cases read

theorem ofList_eq {c : Char} {cs : List Char} {word : String} (same : String.ofList (c :: cs) = word) :
    c :: cs = word.toList := by
  rw [← same, String.toList_ofList]

/-- What is read as a type is spelled by the tokens it takes, and so are arguments. -/
theorem readType_spells (fuel : Nat) :
    (∀ asArgument input ty rest, readType scope fuel asArgument input = .ok (ty, rest) →
      ∃ front, input = front ++ rest ∧ Spells scope asArgument (front.map Lexeme.token) ty) ∧
    ∀ input args rest, readArguments scope fuel input = .ok (args, rest) →
      ∃ front, input = front ++ rest ∧ SpellsAll scope (front.map Lexeme.token) args := by
  induction fuel with
  | zero =>
    constructor
    · intro asArgument input ty rest read
      cases read
    · intro input args rest read
      cases read
  | succ fuel ih =>
    obtain ⟨ihType, ihArguments⟩ := ih
    constructor
    · intro asArgument input ty rest read
      unfold readType at read
      split at read
      · split at read
        · rename_i isArgument
          rw [isArgument]
          split at read
          · split at read
            · rename_i keyword
              obtain ⟨inner, bound, reference, rfl⟩ := readBound_spells read
              obtain ⟨front, rfl, spells⟩ := ihType _ _ _ _ bound
              cases ofList_eq keyword
              exact ⟨_ :: _ :: front, rfl, .upper spells reference⟩
            · split at read
              · rename_i keyword
                obtain ⟨inner, bound, reference, rfl⟩ := readBound_spells read
                obtain ⟨front, rfl, spells⟩ := ihType _ _ _ _ bound
                cases ofList_eq keyword
                exact ⟨_ :: _ :: front, rfl, .lower spells reference⟩
              · cases read
                exact ⟨[_], rfl, .any⟩
          · cases read
            exact ⟨[_], rfl, .any⟩
        · cases read
      · rename_i c cs start stop rest'
        obtain ⟨⟨more, after⟩, segments, next⟩ := bind_eq_ok read
        obtain ⟨named, rfl, dotted⟩ := readSegments_dotted segments c cs
        clear read
        -- What starts with a word is no wildcard, and brackets may follow it.
        have brackets : ∀ {element : Ty} {front between : List Lexeme},
            Spells scope false (.word c cs :: front.map Lexeme.token) element →
            readArrays element between = .ok (ty, rest) →
            ∃ whole, ⟨.word c cs, start, stop⟩ :: (front ++ between) = whole ++ rest ∧
              Spells scope asArgument (whole.map Lexeme.token) ty := by
          intro element front between spells arrays
          obtain ⟨pairs, rfl, whole⟩ := readArrays_spells spells arrays
          exact ⟨⟨.word c cs, start, stop⟩ :: (front ++ pairs), by simp, by simpa using whole.anywhere⟩
        simp only at next
        split at next
        · cases next
        · cases next
        · rename_i head _
          exact brackets (headOf_spells dotted head) next
        · rename_i opened closed _ head
          obtain ⟨⟨args, later⟩, inner, arrays⟩ := bind_eq_ok next
          obtain ⟨arguments, rfl, pairs, nonempty, each, tokens, rfl⟩ := ihArguments _ _ _ inner
          have spells := @Spells.generic scope false _ _ _ _ dotted (headOf_generic dotted head)
            nonempty each
          rw [← tokens] at spells
          have whole := @brackets _ (named ++ ⟨.symbol '<', opened, closed⟩ :: arguments) later
            (by simpa using spells) arrays
          simpa using whole
        · rename_i head _
          exact brackets (.raw dotted (headOf_generic dotted head)) next
      · cases read
    · intro input args rest read
      unfold readArguments at read
      obtain ⟨⟨arg, after⟩, first, next⟩ := bind_eq_ok read
      obtain ⟨front, rfl, spells⟩ := ihType _ _ _ _ first
      clear read
      simp only at next
      split at next
      · rename_i start stop _
        obtain ⟨⟨more, after⟩, others, next⟩ := bind_eq_ok next
        cases next
        obtain ⟨later, rfl, spellsAll⟩ := ihArguments _ _ _ others
        exact ⟨front ++ ⟨.symbol ',', start, stop⟩ :: later, by simp, by simpa using spellsAll.more spells⟩
      · rename_i start stop _
        cases next
        exact ⟨front ++ [⟨.symbol '>', start, stop⟩], by simp, by simpa using SpellsAll.last spells⟩
      · cases next

/-- Nothing follows, or a symbol that is none of these. -/
def Ends (chars : List Char) (rest : List Lexeme) : Prop :=
  ∀ next ∈ rest.head?, ∃ c, next.token = .symbol c ∧ c ∉ chars

theorem Ends.mono {more fewer : List Char} {rest : List Lexeme} (ends : Ends more rest)
    (subset : ∀ c ∈ fewer, c ∈ more) : Ends fewer rest := by
  intro next first
  obtain ⟨c, symbol, other⟩ := ends next first
  exact ⟨c, symbol, fun member => other (subset c member)⟩

theorem ends_nil (chars : List Char) : Ends chars [] := by simp [Ends]

theorem ends_cons {chars : List Char} {c : Char} {start stop : Nat} {rest : List Lexeme}
    (other : c ∉ chars) : Ends chars (⟨.symbol c, start, stop⟩ :: rest) := by
  intro next first
  cases first
  exact ⟨c, rfl, other⟩

theorem readArrays_ends {rest : List Lexeme} (ends : Ends ['['] rest) (element : Ty) :
    readArrays element rest = .ok (element, rest) := by
  unfold readArrays
  split
  · obtain ⟨c, symbol, other⟩ := ends _ rfl
    cases symbol
    simp at other
  · obtain ⟨c, symbol, other⟩ := ends _ rfl
    cases symbol
    simp at other
  · rfl

theorem readSegments_ends {rest : List Lexeme} (ends : Ends ['.'] rest) :
    readSegments rest = .ok ([], rest) := by
  unfold readSegments
  split
  · obtain ⟨c, symbol, other⟩ := ends _ rfl
    cases symbol
    simp at other
  · obtain ⟨c, symbol, other⟩ := ends _ rfl
    cases symbol
    simp at other
  · rfl

theorem readSegments_of_dotted {tokens : List Token} {words : List String}
    (dotted : Dotted tokens words) {front rest : List Lexeme}
    (spelled : front.map Lexeme.token = tokens) (ends : Ends ['.'] rest) :
    ∃ c cs start stop more between, front = ⟨.word c cs, start, stop⟩ :: between ∧
      words = String.ofList (c :: cs) :: more ∧ readSegments (between ++ rest) = .ok (more, rest) := by
  induction dotted generalizing front with
  | last c cs =>
    obtain ⟨⟨token, start, stop⟩, rfl, same⟩ := List.map_eq_singleton_iff.mp spelled
    cases same
    exact ⟨c, cs, start, stop, [], [], rfl, rfl, readSegments_ends ends⟩
  | more c cs rest' ih =>
    obtain ⟨⟨first, start, stop⟩, tail, rfl, same, behind⟩ := List.map_eq_cons_iff.mp spelled
    obtain ⟨⟨second, _, _⟩, later, rfl, dot, others⟩ := List.map_eq_cons_iff.mp behind
    cases same
    cases dot
    obtain ⟨d, ds, _, _, more, between, rfl, rfl, read⟩ := ih others
    refine ⟨c, cs, start, stop, _, _, rfl, rfl, ?_⟩
    rw [List.cons_append, List.cons_append, readSegments, read]
    rfl

/-- Reads a type back from its tokens, with the brackets that follow. -/
def ReadsBack (scope : TypeScope) (asArgument : Bool) (tokens : List Token) (ty : Ty) : Prop :=
  ∀ front rest fuel, front.map Lexeme.token = tokens → tokens.length ≤ fuel → Ends ['.', '<'] rest →
    (ty.isWildcard = true → Ends ['['] rest) →
    readType scope fuel asArgument (front ++ rest) = readArrays ty rest

/-- What a name denotes without arguments. -/
def Head.bare : Head → Ty
  | .plain ty _ => ty
  | .generic name => .cls name []

theorem readType_bare {tokens : List Token} {words : List String} (dotted : Dotted tokens words)
    {head : Head} (denotes : headOf scope words = .ok head) (asArgument : Bool) :
    ReadsBack scope asArgument tokens head.bare := by
  rintro front rest fuel spelled enough ends -
  have positive := dotted.length_pos
  obtain ⟨less, rfl⟩ : ∃ less, fuel = less + 1 := ⟨fuel - 1, by omega⟩
  obtain ⟨c, cs, start, stop, more, between, rfl, rfl, segments⟩ :=
    readSegments_of_dotted dotted spelled (ends.mono (by simp))
  have unapplied : ∀ start stop tail, rest ≠ ⟨.symbol '<', start, stop⟩ :: tail := by
    rintro start stop tail rfl
    obtain ⟨c, symbol, other⟩ := ends _ rfl
    cases symbol
    simp at other
  rw [List.cons_append, readType, segments, ok_bind]
  simp only [denotes]
  split
  · rename_i same
    cases same
  · exact absurd rfl (unapplied _ _ _)
  · rename_i same _
    cases same
    rfl
  · exact absurd rfl (unapplied _ _ _)
  · rename_i same _
    cases same
    rfl

theorem readType_applied {tokens : List Token} {words : List String} (dotted : Dotted tokens words)
    {name : QualName} (denotes : headOf scope words = .ok (.generic name)) (asArgument : Bool)
    {front rest : List Lexeme} (spelled : front.map Lexeme.token = tokens) (fuel start stop : Nat) :
    readType scope (fuel + 1) asArgument (front ++ ⟨.symbol '<', start, stop⟩ :: rest) =
      (readArguments scope fuel rest >>= fun read => readArrays (.cls name read.1) read.2) := by
  obtain ⟨c, cs, start, stop, more, between, rfl, rfl, segments⟩ :=
    readSegments_of_dotted dotted spelled (ends_cons (c := '<') (by simp))
  rw [List.cons_append, readType, segments, ok_bind]
  simp only [denotes]

theorem readArguments_reads {pairs : List (List Token × Ty)} (nonempty : pairs ≠ [])
    (each : ∀ pair ∈ pairs, ReadsBack scope true pair.1 pair.2) {front rest : List Lexeme} {fuel : Nat}
    (spelled : front.map Lexeme.token =
      [.symbol ','].intercalate (pairs.map Prod.fst) ++ [.symbol '>'])
    (enough : front.length ≤ fuel) :
    readArguments scope fuel (front ++ rest) = .ok (pairs.map Prod.snd, rest) := by
  induction pairs generalizing front fuel with
  | nil => exact absurd rfl nonempty
  | cons pair pairs ih =>
    obtain ⟨own, others⟩ := List.forall_mem_cons.mp each
    -- In front of a comma or the closing bracket the argument ends.
    have argument : ∀ {first : List Lexeme} {tail : List Lexeme} {less : Nat},
        first.map Lexeme.token = pair.1 → first.length ≤ less → Ends ['.', '<', '['] tail →
        readType scope less true (first ++ tail) = .ok (pair.2, tail) := by
      intro first tail less spelled enough ends
      rw [own first tail less spelled (by rw [← spelled]; simpa using enough) (ends.mono (by simp))
        fun _ => ends.mono (by simp)]
      exact readArrays_ends (ends.mono (by simp)) _
    cases pairs with
    | nil =>
      obtain ⟨first, behind, rfl, own, close⟩ := List.map_eq_append_iff.mp spelled
      obtain ⟨⟨token, start, stop⟩, rfl, same⟩ := List.map_eq_singleton_iff.mp close
      cases same
      obtain ⟨less, rfl⟩ : ∃ less, fuel = less + 1 := ⟨fuel - 1, by simp at enough; omega⟩
      have read := @argument first (⟨.symbol '>', start, stop⟩ :: rest) less (by simpa using own)
        (by simp at enough; omega) (ends_cons (by simp))
      rw [List.append_assoc, List.singleton_append, readArguments, read]
      rfl
    | cons next pairs =>
      rw [List.map_cons, List.intercalate_cons_of_ne_nil (by simp), List.append_assoc,
        List.append_assoc] at spelled
      obtain ⟨first, behind, rfl, own, later⟩ := List.map_eq_append_iff.mp spelled
      obtain ⟨⟨token, start, stop⟩, tail, rfl, same, more⟩ := List.map_eq_cons_iff.mp later
      cases same
      obtain ⟨less, rfl⟩ : ∃ less, fuel = less + 1 := ⟨fuel - 1, by simp at enough; omega⟩
      have read := @argument first (⟨.symbol ',', start, stop⟩ :: (tail ++ rest)) less own
        (by simp at enough; omega) (ends_cons (by simp))
      have continued := @ih (by simp) others tail less more (by simp at enough; omega)
      rw [List.append_assoc, List.cons_append, readArguments, read, ok_bind]
      simp only [continued, ok_bind]
      rfl

/-- A wildcard with a bound is read back if its keyword is one that a bound may follow. -/
theorem readsBack_bounded {make : Ty → Ty} {bound : Ty} {c : Char} {cs : List Char} {tokens : List Token}
    (keyword : ∀ fuel start stop wordStart wordStop after,
      readType scope (fuel + 1) true
          (⟨.symbol '?', start, stop⟩ :: ⟨.word c cs, wordStart, wordStop⟩ :: after) = (do
        let (inner, rest) ← readType scope fuel false after
        if inner.isReference then return (make inner, rest)
        else throw (⟨some wordStop, .wildcardBound⟩ : Misread)))
    (wildcard : (make bound).isWildcard = true) (reference : bound.isReference = true)
    (reads : ReadsBack scope false tokens bound) :
    ReadsBack scope true (.symbol '?' :: .word c cs :: tokens) (make bound) := by
  intro front rest fuel spelled enough ends closed
  obtain ⟨⟨first, _, _⟩, tail, rfl, mark, behind⟩ := List.map_eq_cons_iff.mp spelled
  obtain ⟨⟨second, _, _⟩, inner, rfl, word, own⟩ := List.map_eq_cons_iff.mp behind
  cases mark
  cases word
  obtain ⟨less, rfl⟩ : ∃ less, fuel = less + 1 := ⟨fuel - 1, by simp at enough; omega⟩
  have read := reads inner rest less own (by simp at enough; omega) ends fun _ => closed wildcard
  rw [readArrays_ends (closed wildcard)] at read
  rw [readArrays_ends (closed wildcard), List.cons_append, List.cons_append, keyword, read, ok_bind]
  dsimp only
  rw [if_pos reference]
  rfl

/-- Whatever is spelled is read back, and what is no wildcard in either place. -/
theorem readsBack {asArgument place : Bool} {tokens : List Token} {ty : Ty}
    (spells : Spells scope asArgument tokens ty) (suits : asArgument = true → place = true) :
    ReadsBack scope place tokens ty := by
  induction spells generalizing place with
  | prim named => exact readType_bare (.last _ _) (named ▸ headOf_prim _) _
  | var declared => exact readType_bare (.last _ _) (headOf_var declared) _
  | raw dotted names => exact readType_bare dotted (headOf_names names) _
  | generic dotted names nonempty _ ih =>
    rintro front rest fuel spelled enough - -
    obtain ⟨named, behind, rfl, own, applied⟩ := List.map_eq_append_iff.mp spelled
    obtain ⟨⟨token, start, stop⟩, arguments, rfl, same, listed⟩ := List.map_eq_cons_iff.mp applied
    cases same
    have length := congrArg List.length listed
    obtain ⟨less, rfl⟩ : ∃ less, fuel = less + 1 := ⟨fuel - 1, by simp at enough; omega⟩
    have read := @readArguments_reads scope _ nonempty (fun pair member => ih pair member fun _ => rfl)
      arguments rest less listed (by simp at enough length; omega)
    rw [List.append_assoc, List.cons_append, readType_applied dotted (headOf_names names) _ own, read]
    rfl
  | array inner ih =>
    rintro front rest fuel spelled enough - -
    obtain ⟨element, brackets, rfl, own, pair⟩ := List.map_eq_append_iff.mp spelled
    obtain ⟨⟨left, _, _⟩, tail, rfl, opened, more⟩ := List.map_eq_cons_iff.mp pair
    obtain ⟨⟨right, _, _⟩, rfl, closed⟩ := List.map_eq_singleton_iff.mp more
    cases opened
    cases closed
    rw [List.append_assoc, List.cons_append, List.singleton_append]
    rw [ih nofun element _ fuel own (by simp at enough; omega) (ends_cons (by simp))
      (fun wildcard => by rw [inner.not_wildcard] at wildcard; cases wildcard)]
    rfl
  | any =>
    cases suits rfl
    rintro front rest fuel spelled enough ends closed
    obtain ⟨⟨token, start, stop⟩, rfl, same⟩ := List.map_eq_singleton_iff.mp spelled
    cases same
    obtain ⟨less, rfl⟩ : ∃ less, fuel = less + 1 := ⟨fuel - 1, by simp at enough; omega⟩
    rw [readArrays_ends (closed rfl), List.singleton_append, readType, if_pos rfl]
    rintro c cs start stop after rfl
    obtain ⟨_, symbol, _⟩ := ends _ rfl
    cases symbol
  | upper inner reference ih =>
    cases suits rfl
    refine readsBack_bounded (fun fuel start stop wordStart wordStop after => ?_) rfl reference (ih nofun)
    rw [readType, if_pos rfl]
    exact if_pos (by decide)
  | lower inner reference ih =>
    cases suits rfl
    refine readsBack_bounded (fun fuel start stop wordStart wordStop after => ?_) rfl reference (ih nofun)
    rw [readType, if_pos rfl]
    exact (if_neg (by decide)).trans (if_pos (by decide))

/-- A text is read as a type exactly if its tokens spell the type. -/
theorem parseValue_ok_iff {text : String} {ty : Ty} : parseValue scope text = .ok ty ↔
    Spells scope false ((lexemes 0 text.toList).map Lexeme.token) ty := by
  unfold parseValue
  simp only
  constructor
  · intro read
    split at read
    · cases read
    · rename_i first
      cases read
      obtain ⟨front, same, spells⟩ := (readType_spells _).1 _ _ _ _ first
      rw [List.append_nil] at same
      rwa [same]
    · cases read
  · intro spells
    have reads : ReadsBack scope false _ ty := readsBack spells nofun
    have read := reads (lexemes 0 text.toList) [] ((lexemes 0 text.toList).length + 1) rfl
      (by simp) (ends_nil _) fun _ => ends_nil _
    rw [List.append_nil, readArrays_ends (ends_nil _)] at read
    simp only [read]

end Ty

end JavaStubs
