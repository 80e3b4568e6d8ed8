import JavaStubs.Proofs.Types.Scoping
import Mathlib.Data.List.Nodup

namespace JavaStubs

namespace Method

theorem renamings_of_disjoint {captured names : List String}
    (apart : ∀ name ∈ names, name ∉ captured) (taken : List String) :
    renamings captured taken names = [] := by
  induction names generalizing taken with
  | nil => rfl
  | cons name names ih =>
    have first := apart name (List.mem_cons_self ..)
    rw [renamings, if_neg (by simpa using first)]
    exact ih (fun other later => apart other (List.mem_cons_of_mem _ later)) taken

theorem toString_injective {m n : Nat} (same : toString m = toString n) : m = n := by
  have digits : Nat.toDigits 10 m = Nat.toDigits 10 n := by
    have texts := congrArg String.toList same
    simpa [toString, Nat.repr] using texts
  rw [← @Nat.ofDigitChars_ten_toDigits m, digits, Nat.ofDigitChars_ten_toDigits]

/-- The search for a fresh name ends: of the names with a number behind them it takes the first that
is not taken, and there are more candidates than taken names. -/
theorem freshName_first (base : String) (taken : List String) :
    ∃ n ≤ taken.length, freshName base taken = base ++ toString n ∧ base ++ toString n ∉ taken ∧
      ∀ k < n, base ++ toString k ∈ taken := by
  let candidates := (List.range (taken.length + 1)).map fun n => base ++ toString n
  have distinct : candidates.Nodup := by
    refine List.Nodup.map_on (fun m _ n _ same => ?_) List.nodup_range
    exact toString_injective ((String.append_right_inj base).mp same)
  have free : ∃ name ∈ candidates, name ∉ taken := by
    by_contra none
    push Not at none
    have bounded := distinct.length_le_of_subset none
    simp only [candidates, List.length_map, List.length_range] at bounded
    omega
  obtain ⟨name, member, untaken⟩ := free
  obtain ⟨candidate, inRange, rfl⟩ := List.mem_map.mp member
  unfold freshName
  dsimp only
  rw [List.find?_map]
  cases found : (List.range (taken.length + 1)).find?
      ((!taken.contains ·) ∘ fun n => base ++ toString n) with
  | none =>
    have taken := List.find?_eq_none.mp found candidate inRange
    exact absurd (by simpa using taken) untaken
  | some n =>
    obtain ⟨chosen, within, earlier⟩ := List.find?_range_eq_some.mp found
    refine ⟨n, Nat.lt_succ_iff.mp (List.mem_range.mp within), rfl, by simpa using chosen, ?_⟩
    intro k before
    simpa using earlier k before

theorem freshName_not_mem (base : String) (taken : List String) : freshName base taken ∉ taken := by
  obtain ⟨n, _, first, untaken, _⟩ := freshName_first base taken
  exact first ▸ untaken

theorem mem_visible {m : Method} {s : Substitution} {entry : String × Ty} :
    entry ∈ m.visible s ↔ entry ∈ s ∧ entry.1 ∉ m.declaredNames := by
  simp [visible, declares]

/-- A substitution that replaces variables by themselves leaves a signature as it is. -/
theorem subst_neutral {s : Substitution} (neutral : s.Neutral) (m : Method) : m.subst s = m := by
  have visible : (m.visible s).Neutral := fun entry member => neutral entry (mem_visible.mp member).1
  have apart : ∀ name ∈ m.declaredNames, name ∉ (m.visible s).flatMap fun entry => entry.2.vars := by
    intro name declared captured
    obtain ⟨entry, member, occurs⟩ := List.mem_flatMap.mp captured
    rw [visible entry member] at occurs
    simp only [Ty.vars, List.mem_singleton] at occurs
    exact (mem_visible.mp member).2 (occurs ▸ declared)
  have renamed : m.renamed s = [] := renamings_of_disjoint apart _
  have same : Ty.subst (m.replacement s) = id := by
    funext ty
    rw [replacement, renamed]
    exact Ty.subst_neutral visible ty
  simp [subst, renamed, TypeParameter.substBounds, same]

/-- What renaming does: it concerns the captured names, in order, and new names are apart from all
that is taken and from each other. -/
theorem renamings_spec (captured taken names : List String) :
    (renamings captured taken names).map Prod.fst = names.filter captured.contains ∧
      ((renamings captured taken names).map Prod.snd).Nodup ∧
      ∀ entry ∈ renamings captured taken names, entry.2 ∉ taken := by
  induction names generalizing taken with
  | nil => simp [renamings]
  | cons name names ih =>
    by_cases caught : captured.contains name = true
    · obtain ⟨keys, distinct, apart⟩ := ih (freshName name taken :: taken)
      rw [renamings, if_pos caught, List.filter_cons_of_pos caught]
      refine ⟨by simp [keys], ?_, ?_⟩
      · rw [List.map_cons, List.nodup_cons]
        refine ⟨fun again => ?_, distinct⟩
        obtain ⟨entry, member, same⟩ := List.mem_map.mp again
        exact apart entry member (same ▸ List.mem_cons_self ..)
      · intro entry member
        rcases List.mem_cons.mp member with rfl | later
        · exact freshName_not_mem name taken
        · exact fun known => apart entry later (List.mem_cons_of_mem _ known)
    · rw [renamings, if_neg caught, List.filter_cons_of_neg caught]
      exact ih taken

/-- The name under which a type parameter comes out of a substitution. -/
def newName (m : Method) (s : Substitution) (name : String) : String :=
  ((m.renamed s).lookup name).getD name

/-- The variables that replacements bring into a signature. -/
def captured (m : Method) (s : Substitution) : List String :=
  (m.visible s).flatMap fun entry => entry.2.vars

variable {m : Method} {s : Substitution}

theorem declaredNames_subst : (m.subst s).declaredNames = m.declaredNames.map (m.newName s) := by
  simp [declaredNames, subst, newName, Function.comp_def]

theorem renamed_keys : (m.renamed s).map Prod.fst = m.declaredNames.filter (m.captured s).contains :=
  (renamings_spec ..).1

theorem newName_cases (distinct : m.declaredNames.Nodup) {name : String}
    (declared : name ∈ m.declaredNames) :
    (name ∉ m.captured s ∧ m.newName s name = name ∧ name ∉ (m.renamed s).map Prod.fst) ∨
      (name, m.newName s name) ∈ m.renamed s := by
  by_cases caught : name ∈ m.captured s
  · right
    have key : name ∈ (m.renamed s).map Prod.fst := by
      rw [renamed_keys, List.mem_filter]
      exact ⟨declared, by simpa using caught⟩
    obtain ⟨⟨_, new⟩, member, rfl⟩ := List.mem_map.mp key
    have keys : ((m.renamed s).map Prod.fst).Nodup := by
      rw [renamed_keys]
      exact distinct.filter _
    rw [newName, lookup_of_mem keys member]
    exact member
  · left
    have absent : name ∉ (m.renamed s).map Prod.fst := by
      rw [renamed_keys, List.mem_filter]
      exact fun both => caught (by simpa using both.2)
    exact ⟨caught, by rw [newName, lookup_of_not_mem absent, Option.getD_none], absent⟩

/-- New names clash with nothing that replacements bring in. -/
theorem newName_not_captured (distinct : m.declaredNames.Nodup) {name : String}
    (declared : name ∈ m.declaredNames) : m.newName s name ∉ m.captured s := by
  rcases @newName_cases m s distinct name declared with ⟨free, same, _⟩ | renamed
  · rw [same]
    exact free
  · have untaken := (renamings_spec ..).2.2 _ renamed
    exact fun caught => untaken (List.mem_append_right _ caught)

/-- A name is kept, or the new one occurs nowhere in the signature. -/
theorem newName_fresh (distinct : m.declaredNames.Nodup) {name : String}
    (declared : name ∈ m.declaredNames) :
    m.newName s name = name ∨ m.newName s name ∉ m.usedNames := by
  rcases @newName_cases m s distinct name declared with ⟨_, same, _⟩ | renamed
  · exact Or.inl same
  · have untaken := (renamings_spec ..).2.2 _ renamed
    exact Or.inr fun used => untaken (List.mem_append_left _ used)

theorem newName_injective (distinct : m.declaredNames.Nodup) :
    ∀ a ∈ m.declaredNames, ∀ b ∈ m.declaredNames, m.newName s a = m.newName s b → a = b := by
  intro a inA b inB same
  have used {name : String} (declared : name ∈ m.declaredNames) : name ∈ m.usedNames :=
    List.mem_append_left _ declared
  have apart := (renamings_spec (m.captured s) (m.usedNames ++ m.captured s) m.declaredNames).2
  rcases @newName_cases m s distinct a inA with ⟨_, sameA, _⟩ | renamedA
  · rcases @newName_cases m s distinct b inB with ⟨_, sameB, _⟩ | renamedB
    · rw [← sameA, same, sameB]
    · rw [sameA] at same
      exact absurd (List.mem_append_left _ (same ▸ used inA)) (apart.2 _ renamedB)
  · rcases @newName_cases m s distinct b inB with ⟨_, sameB, _⟩ | renamedB
    · rw [sameB] at same
      exact absurd (List.mem_append_left _ (same ▸ used inB)) (apart.2 _ renamedA)
    · have entries := List.inj_on_of_nodup_map apart.1 renamedA renamedB same
      exact congrArg Prod.fst entries

/-- Own parameters are replaced by their new names. -/
theorem replacement_declared (distinct : m.declaredNames.Nodup) {name : String}
    (declared : name ∈ m.declaredNames) :
    (m.replacement s).apply name = .var (m.newName s name) := by
  let entries := (m.renamed s).reverse.map fun entry => (entry.1, Ty.var entry.2)
  have keys : entries.map Prod.fst = ((m.renamed s).map Prod.fst).reverse := by
    simp [entries, Function.comp_def]
  rw [Substitution.apply, replacement, List.lookup_append]
  rcases @newName_cases m s distinct name declared with ⟨_, same, absent⟩ | renamed
  · have hidden : name ∉ (m.visible s).map Prod.fst := by
      intro member
      obtain ⟨entry, inside, rfl⟩ := List.mem_map.mp member
      exact (mem_visible.mp inside).2 declared
    have unlisted : entries.lookup name = none :=
      lookup_of_not_mem (by rw [keys, List.mem_reverse]; exact absent)
    rw [unlisted, lookup_of_not_mem hidden, same]
    rfl
  · have listed : (name, Ty.var (m.newName s name)) ∈ entries :=
      List.mem_map.mpr ⟨_, List.mem_reverse.mpr renamed, rfl⟩
    have distinctKeys : (entries.map Prod.fst).Nodup := by
      rw [keys, List.nodup_reverse, renamed_keys]
      exact distinct.filter _
    rw [lookup_of_mem distinctKeys listed]
    rfl

/-- Every other variable is replaced as if the method had no parameters. -/
theorem replacement_other {name : String} (outer : name ∉ m.declaredNames) :
    (m.replacement s).apply name = s.apply name := by
  have unlisted : ((m.renamed s).reverse.map fun entry => (entry.1, Ty.var entry.2)).lookup name =
      none := by
    refine lookup_of_not_mem fun member => outer ?_
    have key : name ∈ (m.renamed s).map Prod.fst := by simpa [Function.comp_def] using member
    rw [renamed_keys] at key
    exact (List.mem_filter.mp key).1
  have seen : (m.visible s).lookup name = s.lookup name :=
    lookup_filter (p := fun name => !m.declares name) (by simpa [declares] using outer)
  rw [Substitution.apply, replacement, List.lookup_append, unlisted, seen]
  rfl

theorem types_subst : (m.subst s).types = m.types.map (Ty.subst (m.replacement s)) := by
  simp [types, subst, TypeParameter.substBounds, List.map_flatMap, List.flatMap_map]

/-- A proper signature stays proper when the outer variables are replaced by proper types. -/
theorem Proper.subst {names names' : List String} (proper : m.Proper names)
    (replaced : ∀ v ∈ names, (s.apply v).Proper names') : (m.subst s).Proper names' := by
  constructor
  · rw [declaredNames_subst]
    exact List.Nodup.map_on (fun a inA b inB => newName_injective proper.distinct a inA b inB)
      proper.distinct
  · intro ty member
    rw [types_subst] at member
    obtain ⟨original, inside, rfl⟩ := List.mem_map.mp member
    refine (proper.types original inside).subst fun v occurs => ?_
    by_cases own : v ∈ m.declaredNames
    · rw [replacement_declared proper.distinct own, declaredNames_subst]
      exact Ty.proper_var (List.mem_append_right _ (List.mem_map_of_mem own))
    · rw [replacement_other own]
      have outer : v ∈ names := (List.mem_append.mp occurs).resolve_right own
      exact (replaced v outer).mono fun name known => List.mem_append_left _ known

end Method

end JavaStubs
