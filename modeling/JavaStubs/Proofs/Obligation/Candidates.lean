import JavaStubs.Proofs.Obligation.Exact

namespace JavaStubs

theorem Site.Before.asymm {s other : Site} (before : s.Before other) : ¬ other.Before s := by
  intro after
  rcases before with earlier | ⟨same, less⟩ <;> rcases after with later | ⟨same', more⟩
  · exact Earlier.irrefl _ (earlier.trans later)
  · exact Earlier.irrefl _ (same' ▸ earlier)
  · exact Earlier.irrefl _ (same ▸ later)
  · omega

namespace TypeModel

/-- The declaration on the superclass chain that is nearest to the root. -/
structure Nearest (root : TypeModel) (declares : Site → Prop) (s : Site) : Prop where
  declared : declares s
  onChain : s.OnChain root
  nearest : ∀ other, declares other → other.OnChain root → other = s ∨ s.NearerThan other

/-- The candidates of a key: the nearest class declaration first, and then the most specific
interface declarations in the order of their paths. -/
structure Candidates (root : TypeModel) (key : SignatureKey) (sites : List Site) : Prop where
  members : ∀ s, s ∈ sites ↔
    root.Nearest (Site.Declares root key) s ∨ root.Specific (Site.Declares root key) s
  order : sites.Pairwise fun s other => ¬ other.OnChain root ∧ (s.OnChain root ∨ s.Before other)

variable {root : TypeModel} {key : SignatureKey}

theorem Candidates.declares {sites : List Site} (candidates : root.Candidates key sites) {s : Site}
    (listed : s ∈ sites) : s.Declares root key := by
  rcases (candidates.members s).mp listed with nearest | specific
  · exact nearest.declared
  · exact specific.declared

/-- Members and order determine the candidates. -/
theorem Candidates.unique {sites sites' : List Site} (one : root.Candidates key sites)
    (two : root.Candidates key sites') : sites = sites' := by
  have distinct {sites : List Site} (candidates : root.Candidates key sites) : sites.Nodup := by
    refine candidates.order.imp fun before same => ?_
    subst same
    exact Site.Before.irrefl _ (before.2.resolve_left before.1)
  have same : sites.Perm sites' := by
    rw [List.perm_ext_iff_of_nodup (distinct one) (distinct two)]
    exact fun s => (one.members s).trans (two.members s).symm
  -- The order is antisymmetric, so two lists in this order with the same members are equal.
  refine same.eq_of_pairwise (fun s other _ _ before after => ?_) one.order two.order
  have first : s.Before other := before.2.resolve_left after.1
  exact absurd (after.2.resolve_left before.1) first.asymm

end TypeModel

namespace MethodGroup

variable {root : TypeModel}

/-- Where something is left to implement, all class and interface declarations that decide count. -/
theorem unsatisfied_eq {group : MethodGroup} (left : group.unsatisfied ≠ []) :
    group.unsatisfied = group.fromClass?.toList ++ group.fromInterfaces := by
  unfold unsatisfied at left ⊢
  cases found : group.fromClass? with
  | some d =>
    rw [found] at left
    simp only [ite_ne_right_iff] at left
    simp [left.1]
  | none =>
    rw [found] at left
    by_cases isObject : isObjectMethod group.key = true
    · simp [isObject] at left
    · simp only [isObject, Bool.false_eq_true, if_false] at left ⊢
      cases specific : group.fromInterfaces with
      | nil => rfl
      | cons first rest =>
        cases rest with
        | cons second rest => rfl
        | nil =>
          simp only [specific, ite_ne_right_iff] at left
          simp [left.1]

/-- The candidates of a group that is not satisfied. -/
theorem exists_candidates (linked : root.Linked) {group : MethodGroup} (member : group ∈ ofRoot root)
    (left : group.unsatisfied ≠ []) : ∃ sites : List Site,
      group.unsatisfied = sites.map Site.inherited ∧ root.Candidates group.key sites := by
  obtain ⟨specific, fromInterfaces, sorted, specifics⟩ := fromInterfaces_spec linked member
  have offChain : ∀ s ∈ specific, ¬ s.OnChain root := fun s inside =>
    ((specifics s).mp inside).offChain
  rw [unsatisfied_eq left]
  rcases fromClass?_spec linked member with ⟨none, classless⟩ | ⟨s, found, declares, chain, nearest⟩
  · refine ⟨specific, by rw [none, fromInterfaces]; rfl, fun s => ?_, ?_⟩
    · rw [specifics]
      exact ⟨Or.inr, fun either => either.resolve_left fun isNearest =>
        classless s isNearest.declared isNearest.onChain⟩
    · refine List.Pairwise.imp_of_mem (fun _ inOther before => ?_) sorted
      exact ⟨offChain _ inOther, Or.inr before⟩
  · refine ⟨s :: specific, by rw [found, fromInterfaces]; rfl, fun other => ?_, ?_⟩
    · rw [List.mem_cons, specifics]
      refine or_congr_left ⟨?_, fun isNearest => ?_⟩
      · rintro rfl
        exact ⟨declares, chain, nearest⟩
      · rcases nearest other isNearest.declared isNearest.onChain with same | nearer
        · exact same
        · rcases isNearest.nearest s declares chain with same | farther
          · exact same.symm
          · exact absurd farther nearer.asymm
    · refine List.pairwise_cons.mpr ⟨fun other inside => ⟨offChain other inside, Or.inl chain⟩, ?_⟩
      refine List.Pairwise.imp_of_mem (fun _ inOther before => ?_) sorted
      exact ⟨offChain _ inOther, Or.inr before⟩

end MethodGroup

end JavaStubs
