import JavaStubs.Ty.Substitution

namespace JavaStubs

theorem lookup_of_mem {α : Type} {entries : List (String × α)} {name : String} {a : α}
    (distinct : (entries.map Prod.fst).Nodup) (member : (name, a) ∈ entries) :
    entries.lookup name = some a := by
  induction entries with
  | nil => simp at member
  | cons entry rest ih =>
    obtain ⟨key, value⟩ := entry
    rw [List.map_cons, List.nodup_cons] at distinct
    rcases List.mem_cons.mp member with same | later
    · cases same
      simp
    · have different : name ≠ key := fun same =>
        distinct.1 (List.mem_map.mpr ⟨_, later, same⟩)
      rw [List.lookup_cons, beq_false_of_ne different]
      exact ih distinct.2 later

theorem lookup_of_not_mem {α : Type} {entries : List (String × α)} {name : String}
    (absent : name ∉ entries.map Prod.fst) : entries.lookup name = none := by
  rw [List.lookup_eq_none_iff]
  intro entry member
  simp only [bne_iff_ne]
  exact fun same => absent (same ▸ List.mem_map_of_mem member)

theorem lookup_filter {α : Type} {entries : List (String × α)} {name : String} {p : String → Bool}
    (kept : p name = true) :
    (entries.filter fun entry => p entry.1).lookup name = entries.lookup name := by
  induction entries with
  | nil => rfl
  | cons entry rest ih =>
    by_cases here : p entry.1 = true
    · rw [List.filter_cons_of_pos (by simpa using here), List.lookup_cons, List.lookup_cons, ih]
    · have different : name ≠ entry.1 := fun same => here (same ▸ kept)
      rw [List.filter_cons_of_neg (by simpa using here), ih, List.lookup_cons, beq_false_of_ne different]

theorem lookup_zip_map {α β : Type} (f : α → β) (keys : List String) (values : List α)
    (name : String) :
    (keys.zip (values.map f)).lookup name = ((keys.zip values).lookup name).map f := by
  induction keys generalizing values with
  | nil => rfl
  | cons key keys ih =>
    cases values with
    | nil => rfl
    | cons value values =>
      rw [List.map_cons, List.zip_cons_cons, List.zip_cons_cons, List.lookup_cons, List.lookup_cons]
      split
      · rfl
      · exact ih values

namespace Substitution

/-- Every variable is replaced by itself. -/
def Neutral (s : Substitution) : Prop :=
  ∀ entry ∈ s, entry.2 = .var entry.1

theorem lookup_mem {s : Substitution} {name : String} {ty : Ty} (found : s.lookup name = some ty) :
    (name, ty) ∈ s := by
  obtain ⟨before, after, rfl, _⟩ := List.lookup_eq_some_iff.mp found
  simp

theorem apply_of_not_mem {s : Substitution} {name : String} (absent : name ∉ s.map Prod.fst) :
    s.apply name = .var name := by
  rw [apply, lookup_of_not_mem absent, Option.getD_none]

theorem apply_cases (s : Substitution) (name : String) :
    (name, s.apply name) ∈ s ∨ name ∉ s.map Prod.fst ∧ s.apply name = .var name := by
  by_cases member : name ∈ s.map Prod.fst
  · left
    obtain ⟨entry, present, rfl⟩ := List.mem_map.mp member
    cases found : s.lookup entry.1 with
    | none =>
      have different := List.lookup_eq_none_iff.mp found entry present
      simp at different
    | some ty => simpa [apply, found] using lookup_mem found
  · exact Or.inr ⟨member, apply_of_not_mem member⟩

theorem Neutral.apply {s : Substitution} (neutral : s.Neutral) (name : String) :
    s.apply name = .var name := by
  rcases apply_cases s name with member | ⟨_, same⟩
  · exact neutral _ member
  · exact same

end Substitution

namespace Ty

/-- Two substitutions that agree on the variables of a type make the same of it. -/
theorem subst_congr {s t : Substitution} {ty : Ty} (agree : ∀ v ∈ ty.vars, s.apply v = t.apply v) :
    ty.subst s = ty.subst t := by
  induction ty with
  | cls name args ih =>
    simp only [subst, substAll_eq_map, cls.injEq, true_and]
    refine List.map_congr_left fun arg member => ih arg member fun v occurs => agree v ?_
    simpa [vars] using ⟨arg, member, occurs⟩
  | var name => exact agree name (by simp [vars])
  | array element ih => simpa [subst] using ih agree
  | upper bound ih => simpa [subst] using ih agree
  | lower bound ih => simpa [subst] using ih agree
  | _ => rfl

/-- Two ways of substituting twice come to the same if they do for every variable. -/
theorem subst_subst_congr {s t s' t' : Substitution} {ty : Ty}
    (agree : ∀ v ∈ ty.vars, (s.apply v).subst t = (s'.apply v).subst t') :
    (ty.subst s).subst t = (ty.subst s').subst t' := by
  induction ty with
  | cls name args ih =>
    simp only [subst, substAll_eq_map, List.map_map, cls.injEq, true_and]
    refine List.map_congr_left fun arg member => ih arg member fun v occurs => agree v ?_
    simpa [vars] using ⟨arg, member, occurs⟩
  | var name => exact agree name (by simp [vars])
  | array element ih => simpa [subst] using ih agree
  | upper bound ih => simpa [subst] using ih agree
  | lower bound ih => simpa [subst] using ih agree
  | _ => rfl

theorem subst_of_apply_var {s : Substitution} {ty : Ty}
    (fixed : ∀ v ∈ ty.vars, s.apply v = .var v) : ty.subst s = ty := by
  induction ty with
  | cls name args ih =>
    simp only [subst, substAll_eq_map, cls.injEq, true_and]
    have each : ∀ arg ∈ args, arg.subst s = arg := by
      intro arg member
      refine ih arg member fun v occurs => fixed v ?_
      simpa [vars] using ⟨arg, member, occurs⟩
    exact (List.map_congr_left each).trans (by simp)
  | var name => exact fixed name (by simp [vars])
  | array element ih => simpa [subst] using ih fixed
  | upper bound ih => simpa [subst] using ih fixed
  | lower bound ih => simpa [subst] using ih fixed
  | _ => rfl

theorem subst_neutral {s : Substitution} (neutral : s.Neutral) (ty : Ty) : ty.subst s = ty :=
  subst_of_apply_var fun v _ => neutral.apply v

@[simp] theorem subst_nil (ty : Ty) : ty.subst [] = ty :=
  subst_neutral (by simp [Substitution.Neutral]) ty

@[simp] theorem map_subst_nil (types : List Ty) : types.map (subst []) = types :=
  (List.map_congr_left fun ty _ => subst_nil ty).trans (List.map_id _)

/-- One substitution after another, as a single one. -/
theorem subst_subst {s t u : Substitution} {ty : Ty}
    (compose : ∀ v ∈ ty.vars, (s.apply v).subst t = u.apply v) :
    (ty.subst s).subst t = ty.subst u := by
  rw [← subst_nil (ty.subst u)]
  refine subst_subst_congr fun v occurs => ?_
  rw [subst_nil, compose v occurs]

/-- Replacing variables by distinct ones can be undone. -/
theorem subst_injective {s : Substitution} {names : List String} {f : String → String}
    (renames : ∀ v, s.apply v = .var (f v))
    (distinct : ∀ u ∈ names, ∀ v ∈ names, f u = f v → u = v) {a b : Ty}
    (declaredA : ∀ v ∈ a.vars, v ∈ names) (declaredB : ∀ v ∈ b.vars, v ∈ names)
    (same : a.subst s = b.subst s) : a = b := by
  let back : Substitution := names.map fun v => (f v, .var v)
  have undone {v : String} (known : v ∈ names) : back.apply (f v) = .var v := by
    rcases back.apply_cases (f v) with entry | ⟨absent, _⟩
    · obtain ⟨u, knownU, image⟩ := List.mem_map.mp entry
      obtain ⟨sameName, result⟩ := Prod.mk.inj image
      rw [← result, distinct u knownU v known sameName]
    · exact absurd (List.mem_map.mpr ⟨_, List.mem_map_of_mem known, rfl⟩) absent
  have undo {ty : Ty} (declared : ∀ v ∈ ty.vars, v ∈ names) : (ty.subst s).subst back = ty := by
    rw [subst_subst (u := []) fun v occurs => ?_, subst_nil]
    rw [renames, subst, undone (declared v occurs)]
    rfl
  rw [← undo declaredA, same, undo declaredB]

end Ty

end JavaStubs
