import JavaStubs.Proofs.Types.Capture

namespace JavaStubs

attribute [ext] Method

namespace Method

/-- Own type parameters become new variables, by position. -/
def newVariables (m : Method) (new : List String) : Substitution := m.declaredNames.zip (new.map Ty.var)

/-- The method with new names for its type parameters. -/
def rename (new : List String) (m : Method) : Method :=
  { m with
    typeParameters := (m.typeParameters.zip new).map fun entry =>
      { entry.1.substBounds (m.newVariables new) with name := entry.2 }
    parameters := m.parameters.map (Ty.subst (m.newVariables new))
    result := m.result.subst (m.newVariables new)
    throwing := m.throwing.map (Ty.subst (m.newVariables new)) }

/-- What a variable is called after the renaming. -/
def renamedTo (m : Method) (new : List String) (v : String) : String :=
  ((m.declaredNames.zip new).lookup v).getD v

/-- New names that can be given where `names` are in scope: none of these changes its meaning. -/
structure Renames (names : List String) (m : Method) (new : List String) : Prop where
  counts : new.length = m.typeParameters.length
  distinct : new.Nodup
  uncaptured : ∀ v ∈ names, v ∉ m.declaredNames → v ∉ new
  fixed : ∀ v ∈ names, m.renamedTo new v = v

variable {m : Method} {new names : List String} {v : String}

@[simp] theorem newVariables_apply : (m.newVariables new).apply v = .var (m.renamedTo new v) := by
  rw [Substitution.apply, newVariables, lookup_zip_map, renamedTo]
  cases (m.declaredNames.zip new).lookup v <;> rfl

theorem renamedTo_of_not_mem (outer : v ∉ m.declaredNames) : m.renamedTo new v = v := by
  have absent : v ∉ (m.declaredNames.zip new).map Prod.fst := by
    intro member
    obtain ⟨entry, inside, rfl⟩ := List.mem_map.mp member
    exact outer (List.of_mem_zip inside).1
  rw [renamedTo, lookup_of_not_mem absent, Option.getD_none]

theorem keys_zip (counts : new.length = m.typeParameters.length) :
    (m.declaredNames.zip new).map Prod.fst = m.declaredNames :=
  List.map_fst_zip (by simp [declaredNames, counts])

theorem renamedTo_mem (counts : new.length = m.typeParameters.length) (own : v ∈ m.declaredNames) :
    (v, m.renamedTo new v) ∈ m.declaredNames.zip new := by
  have key : v ∈ (m.declaredNames.zip new).map Prod.fst := by rwa [keys_zip counts]
  obtain ⟨entry, inside, rfl⟩ := List.mem_map.mp key
  cases found : (m.declaredNames.zip new).lookup entry.1 with
  | none =>
    have different := List.lookup_eq_none_iff.mp found entry inside
    simp at different
  | some name =>
    obtain ⟨before, after, same, _⟩ := List.lookup_eq_some_iff.mp found
    rw [renamedTo, found, Option.getD_some, same]
    simp

/-- What is in scope is still in scope under its new name. -/
theorem renamedTo_known (counts : new.length = m.typeParameters.length)
    (known : v ∈ names ++ m.declaredNames) : m.renamedTo new v ∈ names ++ new := by
  by_cases own : v ∈ m.declaredNames
  · exact List.mem_append_right _ (List.of_mem_zip (renamedTo_mem counts own)).2
  · rw [renamedTo_of_not_mem own]
    exact List.mem_append_left _ ((List.mem_append.mp known).resolve_right own)

theorem renamedTo_of_mem (own : m.declaredNames.Nodup) (counts : new.length = m.typeParameters.length)
    {name : String} (member : (v, name) ∈ m.declaredNames.zip new) : m.renamedTo new v = name := by
  rw [renamedTo, lookup_of_mem (by rwa [keys_zip counts]) member, Option.getD_some]

theorem getElem_mem_zip {keys values : List String} {i : Nat} (bound : i < keys.length)
    (bound' : i < values.length) : (keys[i], values[i]) ∈ keys.zip values := by
  have inside : i < (keys.zip values).length := by
    rw [List.length_zip]
    omega
  have member := List.getElem_mem inside
  rwa [List.getElem_zip] at member

theorem renamedTo_getElem (own : m.declaredNames.Nodup)
    (counts : new.length = m.typeParameters.length) {i : Nat} (bound : i < m.declaredNames.length)
    (bound' : i < new.length) : m.renamedTo new m.declaredNames[i] = new[i] :=
  renamedTo_of_mem own counts (getElem_mem_zip bound bound')

theorem declaredNames_rename (counts : new.length = m.typeParameters.length) :
    (m.rename new).declaredNames = new := by
  simp only [declaredNames, rename, List.map_map]
  exact List.map_snd_zip (by omega)

namespace Renames

/-- Names that clash with nothing in scope can be given to parameters that do not either. -/
theorem of_fresh (counts : new.length = m.typeParameters.length) (distinct : new.Nodup)
    (fresh : ∀ v ∈ names, v ∉ new) (apart : ∀ v ∈ m.declaredNames, v ∉ names) :
    m.Renames names new where
  counts := counts
  distinct := distinct
  uncaptured v known _ := fresh v known
  fixed v known := renamedTo_of_not_mem fun own => apart v own known

theorem neutral (m : Method) : (m.newVariables m.declaredNames).Neutral := by
  have each : ∀ names : List String, ∀ entry ∈ names.zip (names.map Ty.var), entry.2 = .var entry.1 := by
    intro names
    induction names with
    | nil => simp
    | cons name names ih => simpa using ih
  exact each _

theorem self_renamedTo (m : Method) (v : String) : m.renamedTo m.declaredNames v = v := by
  have same := newVariables_apply.symm.trans ((neutral m).apply v)
  exact Ty.var.inj same

/-- Every method can keep its names. -/
theorem self (own : m.declaredNames.Nodup) : m.Renames names m.declaredNames where
  counts := by simp [declaredNames]
  distinct := own
  uncaptured _ _ outer := outer
  fixed v _ := self_renamedTo m v

/-- No two variables in scope get the same name. -/
theorem injective (renames : m.Renames names new) {u v : String} (knownU : u ∈ names ++ m.declaredNames)
    (knownV : v ∈ names ++ m.declaredNames) (same : m.renamedTo new u = m.renamedTo new v) : u = v := by
  by_cases ownU : u ∈ m.declaredNames
  · have entryU := renamedTo_mem renames.counts ownU
    by_cases ownV : v ∈ m.declaredNames
    · have entryV := renamedTo_mem renames.counts ownV
      have values : (m.declaredNames.zip new).map Prod.snd = new :=
        List.map_snd_zip (by simp [declaredNames, renames.counts])
      have entries := List.inj_on_of_nodup_map (by rw [values]; exact renames.distinct)
        entryU entryV same
      exact congrArg Prod.fst entries
    · have outerV : v ∈ names := (List.mem_append.mp knownV).resolve_right ownV
      rw [renamedTo_of_not_mem ownV] at same
      exact absurd (same ▸ (List.of_mem_zip entryU).2) (renames.uncaptured v outerV ownV)
  · have outerU : u ∈ names := (List.mem_append.mp knownU).resolve_right ownU
    rw [renamedTo_of_not_mem ownU] at same
    by_cases ownV : v ∈ m.declaredNames
    · have entryV := renamedTo_mem renames.counts ownV
      exact absurd (same ▸ (List.of_mem_zip entryV).2) (renames.uncaptured u outerU ownU)
    · rw [same, renamedTo_of_not_mem ownV]

end Renames

theorem rename_self (m : Method) : m.rename m.declaredNames = m := by
  have same : Ty.subst (m.newVariables m.declaredNames) = id :=
    funext fun ty => Ty.subst_neutral (Renames.neutral m) ty
  have kept (parameters : List TypeParameter) :
      ((parameters.zip (parameters.map TypeParameter.name)).map fun entry =>
        ({ entry.1 with name := entry.2 } : TypeParameter)) = parameters := by
    induction parameters with
    | nil => rfl
    | cons p rest ih => simpa using ih
  simp only [rename, TypeParameter.substBounds, same, List.map_id, id_eq]
  rw [declaredNames, kept]

/-- The types of a signature, renamed before or after outer variables are replaced. -/
theorem types_subst_rename {s : Substitution} (proper : m.Proper names)
    (counts : new.length = m.typeParameters.length) (fresh : ∀ v ∈ new, v ∉ m.usedNames)
    {ty : Ty} (written : ty ∈ m.types) :
    (ty.subst (m.newVariables new)).subst ((m.rename new).visible s) =
      (ty.subst (m.replacement s)).subst ((m.subst s).newVariables new) := by
  refine Ty.subst_subst_congr fun v occurs => ?_
  have used : v ∈ m.usedNames :=
    List.mem_append_right _ (List.mem_flatMap.mpr ⟨ty, written, occurs⟩)
  have countsSubst : new.length = (m.subst s).typeParameters.length := by
    rw [counts]
    simp [subst]
  have distinctSubst : (m.subst s).declaredNames.Nodup := by
    rw [declaredNames_subst]
    exact proper.distinct.map_on fun a inA b inB => newName_injective proper.distinct a inA b inB
  rw [newVariables_apply, Ty.subst]
  by_cases own : v ∈ m.declaredNames
  · have entry := @renamedTo_mem m new v counts own
    have hidden : m.renamedTo new v ∉ ((m.rename new).visible s).map Prod.fst := by
      intro member
      obtain ⟨⟨key, ty⟩, inside, same⟩ := List.mem_map.mp member
      have outer := (mem_visible.mp inside).2
      rw [declaredNames_rename counts, same] at outer
      exact outer (List.of_mem_zip entry).2
    have moved : (m.newName s v, m.renamedTo new v) ∈ (m.subst s).declaredNames.zip new := by
      rw [declaredNames_subst, List.zip_map_left]
      exact List.mem_map.mpr ⟨_, entry, rfl⟩
    rw [Substitution.apply_of_not_mem hidden, replacement_declared proper.distinct own, Ty.subst,
      newVariables_apply, renamedTo_of_mem distinctSubst countsSubst moved]
  · have unnamed : v ∉ new := fun taken => fresh v taken used
    have seen : ((m.rename new).visible s).apply v = s.apply v := by
      rw [Substitution.apply, Substitution.apply, visible]
      rw [lookup_filter (p := fun name => !(m.rename new).declares name)]
      simpa [declares, declaredNames_rename counts] using unnamed
    rw [renamedTo_of_not_mem own, seen, replacement_other own]
    refine (Ty.subst_of_apply_var fun u occursU => ?_).symm
    rw [newVariables_apply, renamedTo_of_not_mem]
    rw [declaredNames_subst]
    intro renamed
    obtain ⟨name, declared, rfl⟩ := List.mem_map.mp renamed
    rcases Substitution.apply_cases s v with entry | ⟨_, same⟩
    · refine newName_not_captured (s := s) proper.distinct declared ?_
      exact List.mem_flatMap.mpr ⟨_, mem_visible.mpr ⟨entry, own⟩, occursU⟩
    · rw [same, Ty.vars, List.mem_singleton] at occursU
      rcases newName_fresh (s := s) proper.distinct declared with kept | unused
      · rw [← occursU, kept] at own
        exact own declared
      · exact unused (occursU ▸ used)

/-- Renaming to fresh names goes through the replacement of outer variables. -/
theorem subst_rename {s : Substitution} (proper : m.Proper names)
    (counts : new.length = m.typeParameters.length) (fresh : ∀ v ∈ new, v ∉ m.usedNames)
    (apart : ∀ entry ∈ s, ∀ v ∈ entry.2.vars, v ∉ new) :
    (m.rename new).subst s = (m.subst s).rename new := by
  have kept : (m.rename new).renamed s = [] := by
    refine renamings_of_disjoint (fun name own caught => ?_) _
    obtain ⟨entry, inside, occurs⟩ := List.mem_flatMap.mp caught
    rw [declaredNames_rename counts] at own
    exact apart entry (mem_visible.mp inside).1 name occurs own
  have replaced : (m.rename new).replacement s = (m.rename new).visible s := by simp [replacement, kept]
  have types {ty : Ty} (written : ty ∈ m.types) :
      (ty.subst (m.newVariables new)).subst ((m.rename new).replacement s) =
        (ty.subst (m.replacement s)).subst ((m.subst s).newVariables new) := by
    rw [replaced]
    exact types_subst_rename proper counts fresh written
  have all {some : List Ty} (written : ∀ ty ∈ some, ty ∈ m.types) :
      (some.map (Ty.subst (m.newVariables new))).map (Ty.subst ((m.rename new).replacement s)) =
        (some.map (Ty.subst (m.replacement s))).map (Ty.subst ((m.subst s).newVariables new)) := by
    rw [List.map_map, List.map_map]
    exact List.map_congr_left fun ty member => types (written ty member)
  refine Method.ext rfl rfl ?_ (all fun ty member => ?_) rfl (types ?_) (all fun ty member => ?_)
    rfl rfl rfl rfl
  · change ((m.typeParameters.zip new).map _).map _ = ((m.typeParameters.map _).zip new).map _
    rw [List.zip_map_left, List.map_map, List.map_map]
    refine List.map_congr_left fun entry member => ?_
    have bounds := @all entry.1.bounds fun ty inside => by
      simp only [Method.types, List.mem_append, List.mem_flatMap]
      exact Or.inl (Or.inl (Or.inl ⟨entry.1, (List.of_mem_zip member).1, inside⟩))
    simp only [Function.comp_apply, Prod.map, kept, List.lookup_nil, Option.getD_none,
      TypeParameter.mk.injEq]
    exact ⟨rfl, bounds⟩
  · simp [Method.types, member]
  · simp [Method.types]
  · simp [Method.types, member]

/-- Where scopes agree on the variables of a type, its erasure does not depend on their names. -/
theorem erasure_rename {before after : ErasureScope} {ty : Ty}
    (agree : ∀ v ∈ ty.vars, after.erased (m.renamedTo new v) = before.erased v) :
    (ty.subst (m.newVariables new)).erasure after = ty.erasure before := by
  induction ty with
  | var v =>
    rw [Ty.subst, newVariables_apply]
    exact agree v (by simp [Ty.vars])
  | array element ih => exact congrArg Ty.array (ih agree)
  | upper bound ih => exact ih agree
  | _ => rfl

/-- Scopes that agree on all variables still do when some type parameters are added. -/
theorem extend_rename (proper : m.Proper names) (renames : m.Renames names new)
    {before after : ErasureScope} {entries : List (TypeParameter × String)}
    (listed : ∀ entry ∈ entries, entry ∈ m.typeParameters.zip new)
    (agree : ∀ v ∈ names ++ m.declaredNames, after.erased (m.renamedTo new v) = before.erased v) :
    ∀ v ∈ names ++ m.declaredNames,
      (after.extend (entries.map fun entry =>
        { entry.1.substBounds (m.newVariables new) with name := entry.2 })).erased (m.renamedTo new v) =
      (before.extend (entries.map Prod.fst)).erased v := by
  induction entries generalizing before after with
  | nil => exact agree
  | cons entry rest ih =>
    refine ih (fun other later => listed other (List.mem_cons_of_mem _ later)) fun v known => ?_
    have member := listed entry (List.mem_cons_self ..)
    have own : entry.1.name ∈ m.declaredNames := List.mem_map_of_mem (List.of_mem_zip member).1
    have renamed : m.renamedTo new entry.1.name = entry.2 := by
      refine renamedTo_of_mem proper.distinct renames.counts ?_
      rw [declaredNames, List.zip_map_left]
      exact List.mem_map.mpr ⟨entry, member, rfl⟩
    by_cases here : v = entry.1.name
    · -- The entry itself: its first bound erases alike.
      subst here
      rw [renamed]
      simp only [ErasureScope.erased, List.lookup_cons_self, Option.getD_some]
      unfold TypeParameter.erasure TypeParameter.substBounds
      cases bounds : entry.1.bounds with
      | nil => rfl
      | cons bound _ =>
        refine erasure_rename fun u occurs => agree u ?_
        have written : bound ∈ m.types := by
          simp only [Method.types, List.mem_append, List.mem_flatMap]
          exact Or.inl (Or.inl (Or.inl ⟨entry.1, (List.of_mem_zip member).1, by simp [bounds]⟩))
        exact (proper.types bound written).declared u occurs
    · have different : m.renamedTo new v ≠ entry.2 := fun same =>
        here (renames.injective known (List.mem_append_right _ own) (same.trans renamed.symm))
      simp only [ErasureScope.erased, List.lookup_cons, beq_false_of_ne different,
        beq_false_of_ne here] at agree ⊢
      exact agree v known

/-- New names leave the erased parameter types as they are. -/
theorem erasedParameters_rename (proper : m.Proper names) (renames : m.Renames names new)
    {scope : ErasureScope} (inScope : ∀ v, v ∉ names → scope.erased v = .object) :
    (m.rename new).erasedParameters scope = m.erasedParameters scope := by
  have start : ∀ v ∈ names ++ m.declaredNames,
      scope.erased (m.renamedTo new v) = scope.erased v := by
    intro v known
    by_cases outer : v ∈ names
    · rw [renames.fixed v outer]
    · have apart : m.renamedTo new v ∉ names := fun taken =>
        outer (renames.injective (List.mem_append_left _ taken) known (renames.fixed _ taken) ▸ taken)
      rw [inScope _ apart, inScope v outer]
  have extended := extend_rename proper renames (fun _ member => member) start
  rw [List.map_fst_zip (by simp [renames.counts])] at extended
  change (m.parameters.map (Ty.subst (m.newVariables new))).map _ = m.parameters.map _
  rw [List.map_map]
  refine List.map_congr_left fun ty member => erasure_rename fun v occurs => extended v ?_
  exact (proper.types ty (by simp [Method.types, member])).declared v occurs

end Method

end JavaStubs
