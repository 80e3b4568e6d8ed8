import JavaStubs.Proofs.Descriptor.WellFormed
import JavaStubs.Proofs.Types.Grammar
import JavaStubs.Proofs.Types.Naming

namespace JavaStubs

theorem Text.not_isBlank_of_isWordChar {c : Char} (word : isWordChar c = true) : isBlank c = false := by
  have none : ∀ range ∈ blankRanges, ∀ offset < 11, range.1 + offset ≤ range.2 →
      isWordChar (Char.ofNat (range.1 + offset)) = false := by decide +kernel
  by_contra blank
  simp only [isBlank, inRanges, Bool.not_eq_false, List.any_eq_true, Bool.and_eq_true,
    decide_eq_true_eq] at blank
  obtain ⟨range, listed, low, high⟩ := blank
  have narrow : ∀ range ∈ blankRanges, range.2 < range.1 + 11 := by decide
  have close := narrow range listed
  have other := none range listed (c.toNat - range.1) (by omega) (by omega)
  rw [Nat.add_sub_cancel' low, Char.ofNat_toNat, word] at other
  cases other

theorem Text.not_isWordChar_of_isBlank {c : Char} (blank : isBlank c = true) : isWordChar c = false := by
  by_contra word
  rw [not_isBlank_of_isWordChar (by simpa using word)] at blank
  cases blank

theorem lexemes_blank {place : Nat} {c : Char} {text : List Char} (blank : Text.isBlank c = true) :
    lexemes place (c :: text) = lexemes (place + 1) text := by
  rw [lexemes, if_pos blank]

theorem lexemes_symbol {place : Nat} {c : Char} {text : List Char} (filled : Text.isBlank c = false)
    (symbol : Text.isWordChar c = false) :
    lexemes place (c :: text) = ⟨.symbol c, place, place + 1⟩ :: lexemes (place + 1) text := by
  rw [lexemes, if_neg (by simp [filled]), if_neg (by simp [symbol])]

theorem lexemes_letter {place : Nat} {c : Char} {text : List Char} (word : Text.isWordChar c = true) :
    lexemes place (c :: text) = Lexeme.prepend place c (lexemes (place + 1) text) := by
  rw [lexemes, if_neg (by simp [Text.not_isBlank_of_isWordChar word]), if_pos word]

/-- A letter continues the word right behind it, or it is a word by itself. -/
theorem prepend_cases (place : Nat) (c : Char) (more : List Lexeme) :
    (∃ first rest stop later, more = ⟨.word first rest, place + 1, stop⟩ :: later ∧
      Lexeme.prepend place c more = ⟨.word c (first :: rest), place, stop⟩ :: later) ∨
    Lexeme.prepend place c more = ⟨.word c [], place, place + 1⟩ :: more := by
  unfold Lexeme.prepend
  split
  · split
    · rename_i first rest start stop later adjacent
      subst adjacent
      exact .inl ⟨first, rest, stop, later, rfl, rfl⟩
    · exact .inr rfl
  · exact .inr rfl

/-- Tokens stand where the text is. -/
theorem le_start {place : Nat} {text : List Char} : ∀ next ∈ lexemes place text, place ≤ next.start := by
  induction text generalizing place with
  | nil => simp [lexemes]
  | cons c text ih =>
    have later : ∀ next ∈ lexemes (place + 1) text, place ≤ next.start := fun next member =>
      Nat.le_trans (Nat.le_succ place) (ih next member)
    unfold lexemes
    split
    · exact later
    · split
      · rcases prepend_cases place c (lexemes (place + 1) text) with
          ⟨first, rest, stop, others, same, joined⟩ | alone
        · rw [joined]
          rw [same] at later
          exact List.forall_mem_cons.mpr ⟨Nat.le_refl place, (List.forall_mem_cons.mp later).2⟩
        · rw [alone]
          exact List.forall_mem_cons.mpr ⟨Nat.le_refl place, later⟩
      · exact List.forall_mem_cons.mpr ⟨Nat.le_refl place, later⟩

/-- Words are made of word characters. -/
theorem lexemes_chars {place : Nat} {text : List Char} :
    ∀ next ∈ lexemes place text, ∀ c cs, next.token = .word c cs →
      ∀ d ∈ c :: cs, Text.isWordChar d = true := by
  induction text generalizing place with
  | nil => simp [lexemes]
  | cons c text ih =>
    unfold lexemes
    split
    · exact ih
    · split
      · rename_i word
        have later := @ih (place + 1)
        rcases prepend_cases place c (lexemes (place + 1) text) with
          ⟨first, rest, stop, others, same, joined⟩ | alone
        · rw [joined]
          rw [same] at later
          obtain ⟨continued, others⟩ := List.forall_mem_cons.mp later
          refine List.forall_mem_cons.mpr ⟨?_, others⟩
          intro d ds same
          cases same
          exact List.forall_mem_cons.mpr ⟨word, continued first rest rfl⟩
        · rw [alone]
          refine List.forall_mem_cons.mpr ⟨?_, later⟩
          intro d ds same
          cases same
          simpa using word
      · refine List.forall_mem_cons.mpr ⟨?_, ih⟩
        intro d ds same
        cases same

/-- Nothing follows, or a character that no word continues with. -/
def Apart (rest : List Char) : Prop :=
  ∀ next ∈ rest.head?, Text.isWordChar next = false

theorem apart_cons {c : Char} {text : List Char} (other : Text.isWordChar c = false) :
    Apart (c :: text) := by
  intro next first
  cases first
  exact other

theorem Apart.append {text later : List Char} (first : Apart text) (second : Apart later) :
    Apart (text ++ later) := by
  cases text with
  | nil => exact second
  | cons c text => exact first

theorem lexemes_word {place : Nat} {c : Char} {cs rest : List Char}
    (chars : ∀ d ∈ c :: cs, Text.isWordChar d = true) (apart : Apart rest) :
    lexemes place (c :: cs ++ rest) =
      ⟨.word c cs, place, place + cs.length + 1⟩ :: lexemes (place + cs.length + 1) rest := by
  induction cs generalizing place c with
  | nil =>
    rw [List.singleton_append, lexemes_letter (chars c (by simp))]
    rcases prepend_cases place c (lexemes (place + 1) rest) with
      ⟨first, others, stop, later, same, _⟩ | alone
    · -- A word that starts right behind the letter would have to start with a letter.
      cases rest with
      | nil => simp [lexemes] at same
      | cons d rest =>
        have other := apart d rfl
        by_cases blank : Text.isBlank d = true
        · rw [lexemes_blank blank] at same
          have start := le_start ⟨.word first others, place + 1, stop⟩ (same ▸ List.mem_cons_self ..)
          simp only at start
          omega
        · rw [lexemes_symbol (by simpa using blank) other] at same
          cases same
    · exact alone
  | cons d ds ih =>
    obtain ⟨own, others⟩ := List.forall_mem_cons.mp chars
    have later := @ih (place + 1) d others
    rw [List.cons_append, lexemes_letter own, later, Lexeme.prepend, if_pos rfl]
    simp only [List.length_cons]
    congr 2 <;> omega

/-- The text is cut into these tokens before anything that stands apart from it. -/
def Cuts (text : List Char) (tokens : List Token) : Prop :=
  ∀ place rest, Apart rest → ∃ front next,
    lexemes place (text ++ rest) = front ++ lexemes next rest ∧ front.map Lexeme.token = tokens

namespace Cuts

variable {text later : List Char} {tokens others : List Token} {c : Char} {cs : List Char}

theorem nil : Cuts [] [] := fun place _ _ => ⟨[], place, rfl, rfl⟩

theorem append (first : Cuts text tokens) (second : Cuts later others) (apart : Apart later) :
    Cuts (text ++ later) (tokens ++ others) := by
  intro place rest ends
  obtain ⟨front, middle, cut, rfl⟩ := first place (later ++ rest) (apart.append ends)
  obtain ⟨back, next, cut', rfl⟩ := second middle rest ends
  refine ⟨front ++ back, next, ?_, by simp⟩
  rw [List.append_assoc, cut, cut', List.append_assoc]

theorem symbol (filled : Text.isBlank c = false) (symbol : Text.isWordChar c = false)
    (rest : Cuts text tokens) : Cuts (c :: text) (.symbol c :: tokens) := by
  intro place behind ends
  obtain ⟨front, next, cut, rfl⟩ := rest (place + 1) behind ends
  exact ⟨_ :: front, next, by rw [List.cons_append, lexemes_symbol filled symbol, cut]; rfl, rfl⟩

theorem blank (blank : Text.isBlank c = true) (rest : Cuts text tokens) : Cuts (c :: text) tokens := by
  intro place behind ends
  obtain ⟨front, next, cut, spelled⟩ := rest (place + 1) behind ends
  exact ⟨front, next, by rw [List.cons_append, lexemes_blank blank, cut], spelled⟩

theorem word (chars : ∀ d ∈ c :: cs, Text.isWordChar d = true) : Cuts (c :: cs) [.word c cs] := by
  intro place rest ends
  exact ⟨[_], _, lexemes_word chars ends, rfl⟩

end Cuts

/-- An identifier or variable is one token. -/
theorem cuts_word {word : String} (nonempty : word ≠ "")
    (chars : ∀ c ∈ word.toList, Text.isWordChar c = true) :
    ∃ c cs, word = String.ofList (c :: cs) ∧ Cuts word.toList [.word c cs] := by
  cases text : word.toList with
  | nil => exact absurd (String.toList_eq_nil_iff.mp text) nonempty
  | cons c cs =>
    refine ⟨c, cs, ?_, .word (text ▸ chars)⟩
    rw [← text, String.ofList_toList]

theorem isIdentifier_ne_empty {word : String} (identifier : isIdentifier word = true) : word ≠ "" := by
  rintro rfl
  cases identifier

theorem cuts_dotted {words : List String} (nonempty : words ≠ [])
    (identifiers : ∀ word ∈ words, isIdentifier word = true) :
    ∃ tokens, Dotted tokens words ∧ Cuts (".".intercalate words).toList tokens := by
  induction words with
  | nil => exact absurd rfl nonempty
  | cons word words ih =>
    obtain ⟨own, others⟩ := List.forall_mem_cons.mp identifiers
    obtain ⟨c, cs, rfl, cuts⟩ := cuts_word (isIdentifier_ne_empty own) (isIdentifier_chars own)
    cases words with
    | nil => exact ⟨_, .last c cs, by simpa using cuts⟩
    | cons next words =>
      obtain ⟨tokens, dotted, rest⟩ := ih (by simp) others
      refine ⟨_, .more c cs dotted, ?_⟩
      rw [String.intercalate_cons_of_ne_nil (by simp), String.toList_append, String.toList_append,
        List.append_assoc]
      exact cuts.append (.symbol (by decide) (by decide) rest) (apart_cons (by decide))

theorem lexemes_blanks {place : Nat} {blanks text : List Char}
    (blank : ∀ c ∈ blanks, Text.isBlank c = true) :
    lexemes place (blanks ++ text) = lexemes (place + blanks.length) text := by
  induction blanks generalizing place with
  | nil => rfl
  | cons c blanks ih =>
    obtain ⟨own, others⟩ := List.forall_mem_cons.mp blank
    rw [List.cons_append, lexemes_blank own, ih others, List.length_cons]
    congr 1
    omega

/-- Trimming takes blanks from both ends. -/
theorem Text.exists_trimChars (text : List Char) :
    ∃ before after, (∀ c ∈ before, isBlank c = true) ∧ (∀ c ∈ after, isBlank c = true) ∧
      text = before ++ trimChars text ++ after := by
  have left : text = text.takeWhile isBlank ++ dropBlanks text :=
    (List.takeWhile_append_dropWhile (p := isBlank)).symm
  have right : (dropBlanks text).reverse =
      (dropBlanks text).reverse.takeWhile isBlank ++ dropBlanks (dropBlanks text).reverse :=
    (List.takeWhile_append_dropWhile (p := isBlank)).symm
  refine ⟨text.takeWhile isBlank, ((dropBlanks text).reverse.takeWhile isBlank).reverse, ?_, ?_, ?_⟩
  · exact fun c member => List.all_eq_true.mp List.all_takeWhile c member
  · exact fun c member => List.all_eq_true.mp List.all_takeWhile c (List.mem_reverse.mp member)
  · rw [trimChars, List.append_assoc, ← List.reverse_append, ← right, List.reverse_reverse, ← left]

/-- A text that is `void` up to blanks has that word as its only token. -/
theorem lexemes_void {text : String} (trimmed : Text.trim text = "void") :
    ∃ start stop, lexemes 0 text.toList = [⟨.word 'v' "oid".toList, start, stop⟩] := by
  obtain ⟨before, after, blankBefore, blankAfter, same⟩ := Text.exists_trimChars text.toList
  have core : Text.trimChars text.toList = 'v' :: "oid".toList := by
    rw [← @String.toList_ofList (Text.trimChars text.toList)]
    exact congrArg String.toList trimmed
  have apart : Apart after := fun next first =>
    Text.not_isWordChar_of_isBlank (blankAfter next (List.mem_of_mem_head? first))
  have nothing : ∀ place, lexemes place after = [] := by
    intro place
    have skipped := @lexemes_blanks place after [] blankAfter
    rwa [List.append_nil] at skipped
  rw [same, core, List.append_assoc, lexemes_blanks blankBefore,
    lexemes_word (List.all_eq_true.mp (by decide)) apart, nothing]
  exact ⟨_, _, rfl⟩

/-- A variable that reading tells from every other word. -/
structure TypeScope.Readable (scope : TypeScope) (word : String) : Prop extends scope.Variable word where
  nonempty : word ≠ ""
  chars : ∀ c ∈ word.toList, Text.isWordChar c = true

/-- A class name that is not mistaken for a variable or for a class of the package. -/
structure TypeScope.Nameable (scope : TypeScope) (name : QualName) : Prop where
  valid : name.valid = true
  lone : name.segments.length = 1 → scope.package = "" ∧ name.text ∉ scope.typeVars

/-- The package is empty or a dotted sequence of identifiers. -/
def TypeScope.Packaged (scope : TypeScope) : Prop :=
  scope.package = "" ∨ (⟨scope.package⟩ : QualName).valid = true

namespace QualName

theorem intercalate_segments (name : QualName) : ".".intercalate name.segments = name.text :=
  Text.intercalate_pieces rfl name.text

end QualName

namespace TypeScope

variable {scope : TypeScope}

theorem inPackage_eq (packaged : scope.Packaged) (word : String) :
    ∃ outer, (∀ other ∈ outer, isIdentifier other = true) ∧ (outer = [] → scope.package = "") ∧
      QualName.inPackage scope.package word = ⟨".".intercalate (outer ++ [word])⟩ := by
  by_cases empty : scope.package = ""
  · exact ⟨[], by simp, fun _ => empty, by simp [QualName.inPackage, empty]⟩
  · have valid := packaged.resolve_left empty
    have nonempty : (⟨scope.package⟩ : QualName).segments ≠ [] := Text.pieces_ne_nil '.' _
    refine ⟨_, QualName.valid_iff.mp valid, fun none => absurd none nonempty, ?_⟩
    rw [String.intercalate_append_of_ne_nil nonempty (by simp), QualName.intercalate_segments,
      QualName.inPackage, if_neg empty]
    simp

theorem Names.nameable (packaged : scope.Packaged) {words : List String} {name : QualName}
    (names : scope.Names words name) : scope.Nameable name := by
  have plain : ∀ {words : List String}, (∀ word ∈ words, isIdentifier word = true) →
      ∀ word ∈ words, '.' ∉ word.toList := fun identifiers word member =>
    isIdentifier_plain (identifiers word member)
  cases names with
  | @lone word identifier unknown =>
    obtain ⟨outer, identifiers, empty, same⟩ := inPackage_eq packaged word
    have all : ∀ other ∈ outer ++ [word], isIdentifier other = true := by
      intro other member
      rcases List.mem_append.mp member with early | last
      · exact identifiers other early
      · exact List.mem_singleton.mp last ▸ identifier
    rw [same]
    refine ⟨QualName.valid_intercalate (by simp) all, fun single => ?_⟩
    rw [QualName.segments, Text.pieces_intercalate rfl (by simp) (plain all)] at single
    have none : outer = [] := by simpa using single
    exact ⟨empty none, by simpa [none] using unknown⟩
  | dotted several identifiers =>
    have nonempty : words ≠ [] := by
      rintro rfl
      cases several
    refine ⟨QualName.valid_intercalate nonempty identifiers, fun single => ?_⟩
    rw [QualName.segments, Text.pieces_intercalate rfl nonempty (plain identifiers)] at single
    omega

/-- The segments of a name that can be written name the class again. -/
theorem Nameable.names {name : QualName} (nameable : scope.Nameable name) :
    scope.Names name.segments name := by
  have identifiers := QualName.valid_iff.mp nameable.valid
  have nonempty : name.segments ≠ [] := Text.pieces_ne_nil '.' name.text
  have joined := name.intercalate_segments
  match segments : name.segments, nonempty with
  | [word], _ =>
    obtain ⟨empty, unknown⟩ := nameable.lone (by simp [segments])
    rw [segments, String.intercalate_singleton] at joined
    have same : name = QualName.inPackage scope.package word := by
      rw [empty, joined]
      rfl
    rw [same]
    exact .lone (identifiers word (by simp [segments])) (joined ▸ unknown)
  | first :: second :: rest, _ =>
    have same : name = ⟨".".intercalate (first :: second :: rest)⟩ := by
      rw [← segments, joined]
    rw [same]
    exact .dotted (by simp) fun word member => identifiers word (segments ▸ member)

end TypeScope

namespace Ty

variable {scope : TypeScope} {asArgument : Bool} {ty : Ty}

/-- The type may stand here, and its variables and class names are read as what they are. -/
structure Spellable (scope : TypeScope) (asArgument : Bool) (ty : Ty) : Prop where
  placed : ty.wellPlaced asArgument = true
  readable : ∀ v ∈ ty.vars, scope.Readable v
  classes : ∀ name ∈ ty.classNames, scope.Nameable name

/-- A type that can be written in the scope; `void` only as a whole. -/
def Expressible (scope : TypeScope) (ty : Ty) : Prop :=
  ty = .void ∨ ty.Spellable scope false

theorem spellable_cls {name : QualName} {args : List Ty} :
    (cls name args).Spellable scope asArgument ↔
      scope.Nameable name ∧ ∀ arg ∈ args, arg.Spellable scope true := by
  constructor
  · rintro ⟨placed, readable, classes⟩
    refine ⟨classes name (by simp [classNames]), fun arg member =>
      ⟨wellPlaced_cls.mp placed arg member, ?_, ?_⟩⟩
    · intro v occurs
      exact readable v (by simpa [vars] using ⟨arg, member, occurs⟩)
    · intro other occurs
      exact classes other (by simpa [classNames] using Or.inr ⟨arg, member, occurs⟩)
  · rintro ⟨nameable, each⟩
    refine ⟨wellPlaced_cls.mpr fun arg member => (each arg member).placed, fun v occurs => ?_,
      fun other occurs => ?_⟩
    · simp only [vars, varsAll_eq_flatMap, List.mem_flatMap] at occurs
      obtain ⟨arg, member, inside⟩ := occurs
      exact (each arg member).readable v inside
    · simp only [classNames, classNamesAll_eq_flatMap, List.mem_cons, List.mem_flatMap] at occurs
      rcases occurs with rfl | ⟨arg, member, inside⟩
      · exact nameable
      · exact (each arg member).classes other inside

theorem spellable_array : (array ty).Spellable scope asArgument ↔ ty.Spellable scope false :=
  ⟨fun whole => ⟨whole.1, whole.2, whole.3⟩, fun element => ⟨element.1, element.2, element.3⟩⟩

theorem spellable_upper : (upper ty).Spellable scope asArgument ↔
    asArgument = true ∧ ty.isReference = true ∧ ty.Spellable scope false := by
  constructor
  · rintro ⟨placed, readable, classes⟩
    simp only [wellPlaced, Bool.and_eq_true] at placed
    exact ⟨placed.1.1, placed.1.2, placed.2, readable, classes⟩
  · rintro ⟨place, reference, placed, readable, classes⟩
    exact ⟨by simp [wellPlaced, place, reference, placed], readable, classes⟩

theorem spellable_lower : (lower ty).Spellable scope asArgument ↔
    asArgument = true ∧ ty.isReference = true ∧ ty.Spellable scope false := by
  constructor
  · rintro ⟨placed, readable, classes⟩
    simp only [wellPlaced, Bool.and_eq_true] at placed
    exact ⟨placed.1.1, placed.1.2, placed.2, readable, classes⟩
  · rintro ⟨place, reference, placed, readable, classes⟩
    exact ⟨by simp [wellPlaced, place, reference, placed], readable, classes⟩

/-- Words of these tokens consist of word characters. -/
def Clean (tokens : List Token) : Prop :=
  ∀ c cs, .word c cs ∈ tokens → ∀ d ∈ c :: cs, Text.isWordChar d = true

theorem mem_intercalate {α : Type} {separator : α} {lists : List (List α)} {list : List α} {a : α}
    (listed : list ∈ lists) (member : a ∈ list) : a ∈ [separator].intercalate lists := by
  induction lists with
  | nil => simp at listed
  | cons first lists ih =>
    cases lists with
    | nil =>
      rw [List.intercalate_singleton]
      exact List.mem_singleton.mp listed ▸ member
    | cons second lists =>
      rw [List.intercalate_cons_of_ne_nil (by simp), List.mem_append, List.mem_append]
      rcases List.mem_cons.mp listed with rfl | later
      · exact .inl (.inl member)
      · exact .inr (ih later)

/-- What clean tokens spell can be written. -/
theorem spellable_of_spells (packaged : scope.Packaged) {tokens : List Token}
    (spells : Spells scope asArgument tokens ty) (clean : Clean tokens) : ty.Spellable scope asArgument := by
  induction spells with
  | prim named => exact ⟨rfl, by simp [vars], by simp [classNames]⟩
  | @var _ c cs declared =>
    have readable : scope.Readable (String.ofList (c :: cs)) :=
      ⟨declared, by simp [← String.toList_inj], by simpa using clean c cs (by simp)⟩
    exact ⟨rfl, by simpa [vars] using readable, by simp [classNames]⟩
  | raw dotted names => exact spellable_cls.mpr ⟨names.nameable packaged, by simp⟩
  | @generic _ tokens words name args dotted names _ _ ih =>
    refine spellable_cls.mpr ⟨names.nameable packaged, fun arg member => ?_⟩
    obtain ⟨pair, listed, rfl⟩ := List.mem_map.mp member
    refine ih pair listed fun c cs inside => clean c cs ?_
    have among := @mem_intercalate _ (.symbol ',') _ _ _ (List.mem_map_of_mem (f := Prod.fst) listed) inside
    simp [among]
  | array _ ih => exact spellable_array.mpr (ih fun c cs inside => clean c cs (by simp [inside]))
  | any => exact ⟨rfl, by simp [vars], by simp [classNames]⟩
  | upper _ reference ih =>
    exact spellable_upper.mpr ⟨rfl, reference, ih fun c cs inside => clean c cs (by simp [inside])⟩
  | lower _ reference ih =>
    exact spellable_lower.mpr ⟨rfl, reference, ih fun c cs inside => clean c cs (by simp [inside])⟩

theorem cuts_arguments {args : List Ty} (nonempty : args ≠ [])
    (each : ∀ arg ∈ args, ∃ tokens, Cuts arg.render.toList tokens ∧ Spells scope true tokens arg) :
    ∃ pairs : List (List Token × Ty), pairs ≠ [] ∧ pairs.map Prod.snd = args ∧
      (∀ pair ∈ pairs, Spells scope true pair.1 pair.2) ∧
      Cuts (", ".intercalate (args.map render)).toList ([.symbol ','].intercalate (pairs.map Prod.fst)) := by
  induction args with
  | nil => exact absurd rfl nonempty
  | cons arg args ih =>
    obtain ⟨⟨tokens, cuts, spells⟩, others⟩ := List.forall_mem_cons.mp each
    cases args with
    | nil => exact ⟨[(tokens, arg)], by simp, rfl, by simpa using spells, by simpa using cuts⟩
    | cons next args =>
      obtain ⟨pairs, some, rest, all, later⟩ := ih (by simp) others
      refine ⟨(tokens, arg) :: pairs, by simp, by rw [List.map_cons, rest],
        List.forall_mem_cons.mpr ⟨spells, all⟩, ?_⟩
      rw [List.map_cons (f := render), String.intercalate_cons_of_ne_nil (by simp),
        List.map_cons (f := Prod.fst),
        List.intercalate_cons_of_ne_nil (by simpa using some), String.toList_append,
        String.toList_append, List.append_assoc, List.append_assoc]
      exact cuts.append (.symbol (by decide) (by decide) (.blank (by decide) later))
        (apart_cons (by decide))

theorem cuts_bounded {c : Char} {cs text : List Char} {tokens : List Token}
    (chars : ∀ d ∈ c :: cs, Text.isWordChar d = true) (cuts : Cuts text tokens) :
    Cuts ('?' :: ' ' :: (c :: cs ++ ' ' :: text)) (.symbol '?' :: .word c cs :: tokens) :=
  .symbol (by decide) (by decide) (.blank (by decide)
    (Cuts.append (.word chars) (.blank (by decide) cuts) (apart_cons (by decide))))

/-- The written form of a type is cut into tokens that spell it. -/
theorem cuts_render (spellable : ty.Spellable scope asArgument) :
    ∃ tokens, Cuts ty.render.toList tokens ∧ Spells scope asArgument tokens ty := by
  induction ty generalizing asArgument with
  | void => cases spellable.placed
  | prim p =>
    obtain ⟨c, cs, named, cuts⟩ := @cuts_word p.name (by cases p <;> decide)
      (List.all_eq_true.mp (by cases p <;> decide))
    exact ⟨_, cuts, .prim named.symm⟩
  | cls name args ih =>
    obtain ⟨nameable, each⟩ := spellable_cls.mp spellable
    obtain ⟨tokens, dotted, cuts⟩ := cuts_dotted (Text.pieces_ne_nil '.' name.text)
      (QualName.valid_iff.mp nameable.valid)
    rw [← QualName.segments, name.intercalate_segments] at cuts
    by_cases empty : args = []
    · subst empty
      exact ⟨tokens, by simpa using cuts, .raw dotted nameable.names⟩
    · obtain ⟨pairs, some, rfl, spells, inside⟩ :=
        cuts_arguments empty fun arg member => ih arg member (each arg member)
      refine ⟨_, ?_, .generic dotted nameable.names some spells⟩
      rw [render, renderAll_eq_map, if_neg (by simpa using empty), String.toList_append,
        String.toList_append, String.toList_append, List.append_assoc, List.append_assoc]
      have closed := inside.append (.symbol (c := '>') (by decide) (by decide) .nil) (apart_cons (by decide))
      exact cuts.append (.symbol (by decide) (by decide) closed) (apart_cons (by decide))
  | var word =>
    have readable := spellable.readable word (by simp [vars])
    obtain ⟨c, cs, rfl, cuts⟩ := cuts_word readable.nonempty readable.chars
    exact ⟨_, cuts, .var readable.toVariable⟩
  | array element ih =>
    obtain ⟨tokens, cuts, spells⟩ := ih (spellable_array.mp spellable)
    refine ⟨_, ?_, .array spells⟩
    rw [render, String.toList_append]
    exact cuts.append (.symbol (by decide) (by decide) (.symbol (by decide) (by decide) .nil))
      (apart_cons (by decide))
  | any =>
    have place : asArgument = true := spellable.placed
    subst place
    exact ⟨_, .symbol (by decide) (by decide) .nil, .any⟩
  | upper bound ih =>
    obtain ⟨rfl, reference, inner⟩ := spellable_upper.mp spellable
    obtain ⟨tokens, cuts, spells⟩ := ih inner
    refine ⟨_, ?_, .upper spells reference⟩
    rw [render, String.toList_append]
    exact @cuts_bounded 'e' "xtends".toList _ _ (List.all_eq_true.mp (by decide)) cuts
  | lower bound ih =>
    obtain ⟨rfl, reference, inner⟩ := spellable_lower.mp spellable
    obtain ⟨tokens, cuts, spells⟩ := ih inner
    refine ⟨_, ?_, .lower spells reference⟩
    rw [render, String.toList_append]
    exact @cuts_bounded 's' "uper".toList _ _ (List.all_eq_true.mp (by decide)) cuts

theorem not_spells_void {tokens : List Token} (spells : Spells scope asArgument tokens ty) :
    tokens ≠ [.word 'v' "oid".toList] := by
  intro void
  cases spells with
  | @prim _ c cs p named =>
    cases void
    cases p <;> exact absurd named (by decide)
  | var declared =>
    cases void
    exact declared.notVoid rfl
  | raw dotted names =>
    subst void
    cases dotted
    cases names with
    | lone identifier _ => exact absurd identifier (by decide +kernel)
    | dotted several _ => simp at several
  | generic dotted =>
    have length := congrArg List.length void
    have positive := dotted.length_pos
    simp at length
    omega
  | array inner =>
    have length := congrArg List.length void
    simp at length
  | _ => cases void

theorem parseValue_spellable (packaged : scope.Packaged) {text : String}
    (read : parseValue scope text = .ok ty) : ty.Spellable scope false := by
  refine spellable_of_spells packaged (parseValue_ok_iff.mp read) fun c cs member => ?_
  obtain ⟨next, inside, token⟩ := List.mem_map.mp member
  exact lexemes_chars next inside c cs token

theorem parseValue_render (spellable : ty.Spellable scope false) :
    parseValue scope ty.render = .ok ty ∧ Text.trim ty.render ≠ "void" := by
  obtain ⟨tokens, cuts, spells⟩ := cuts_render spellable
  obtain ⟨front, next, cut, spelled⟩ := cuts 0 [] (by simp [Apart])
  rw [List.append_nil, show lexemes next [] = [] from rfl, List.append_nil] at cut
  rw [← spelled, ← cut] at spells
  refine ⟨parseValue_ok_iff.mpr spells, fun trimmed => ?_⟩
  obtain ⟨start, stop, void⟩ := lexemes_void trimmed
  exact not_spells_void spells (by rw [void]; rfl)

theorem parse_expressible (packaged : scope.Packaged) {text : String}
    (read : parse scope text = .ok ty) : ty.Expressible scope := by
  unfold parse at read
  split at read
  · cases read
    exact .inl rfl
  · exact .inr (parseValue_spellable packaged read)

theorem parse_of_expressible (expressible : ty.Expressible scope) : parse scope ty.render = .ok ty := by
  rcases expressible with rfl | spellable
  · rfl
  · obtain ⟨read, whole⟩ := parseValue_render spellable
    rw [parse, if_neg whole, read]

end Ty

/-- Reading and writing types are inverse to each other: what is read can be written, what can be
written is read back, and so types have different written forms and reading again changes nothing. -/
theorem parse_render_inverse {scope : TypeScope} (packaged : scope.Packaged) :
    (∀ text ty, Ty.parse scope text = .ok ty → ty.Expressible scope) ∧
    (∀ ty : Ty, ty.Expressible scope → Ty.parse scope ty.render = .ok ty) ∧
    (∀ s t : Ty, s.Expressible scope → t.Expressible scope → s.render = t.render → s = t) ∧
    ∀ text ty, Ty.parse scope text = .ok ty → Ty.parse scope ty.render = .ok ty := by
  have writes : ∀ ty : Ty, ty.Expressible scope → Ty.parse scope ty.render = .ok ty :=
    fun ty expressible => Ty.parse_of_expressible expressible
  refine ⟨fun text ty read => Ty.parse_expressible packaged read, writes, ?_, ?_⟩
  · intro s t left right same
    have read := writes s left
    rw [same, writes t right] at read
    exact (Except.ok.inj read).symm
  · intro text ty read
    exact writes ty (Ty.parse_expressible packaged read)

namespace Spaced

def scope : TypeScope := { package := "p", typeVars := ["T"] }

def ty : Ty := .array (.cls ⟨"p.Map"⟩ [.var "T", .upper (.array (.prim .int))])

theorem read : Ty.parse scope " Map <T,?extends int [ ]> []" = .ok ty := by decide +kernel

end Spaced

theorem spaced_inverse : Spaced.ty.Expressible Spaced.scope ∧
    Ty.parse Spaced.scope Spaced.ty.render = .ok Spaced.ty := by
  obtain ⟨readable, _, _, again⟩ := @parse_render_inverse Spaced.scope (.inr (by decide +kernel))
  exact ⟨readable _ _ Spaced.read, again _ _ Spaced.read⟩

end JavaStubs
