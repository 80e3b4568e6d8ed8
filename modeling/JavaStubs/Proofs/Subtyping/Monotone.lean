import JavaStubs.Subtyping
import JavaStubs.Proofs.Types.Substitution
import Mathlib.Data.List.Nodup

namespace JavaStubs

/-- `more` has all types of `known`, as they are there, and all bounds of its variables. -/
structure Knowledge.Extends (more known : Knowledge) : Prop where
  lookup : ∀ name model, known.lookup name = some model → more.lookup name = some model
  bounds : ∀ v, ∀ bound ∈ known.boundsOf v, bound ∈ more.boundsOf v

namespace Knowledge

variable {known : Knowledge} {lookup : QualName → Option TypeModel} {parameters : List TypeParameter}

theorem boundsOf_mem (distinct : (parameters.map TypeParameter.name).Nodup) {p : TypeParameter}
    (member : p ∈ parameters) : (known.withParameters parameters).boundsOf p.name = p.bounds := by
  have entry : (p.name, p.bounds) ∈ (parameters.map fun p => (p.name, p.bounds)).reverse :=
    List.mem_reverse.mpr (List.mem_map_of_mem member)
  have keys : ((parameters.map fun p => (p.name, p.bounds)).reverse.map Prod.fst).Nodup := by
    rw [List.map_reverse, List.map_map, List.nodup_reverse]
    exact distinct
  rw [boundsOf, withParameters, List.lookup_append, lookup_of_mem keys entry]
  rfl

theorem boundsOf_other {v : String} (absent : v ∉ parameters.map TypeParameter.name) :
    (known.withParameters parameters).boundsOf v = known.boundsOf v := by
  have unlisted : v ∉ (parameters.map fun p => (p.name, p.bounds)).reverse.map Prod.fst := by
    rw [List.map_reverse, List.map_map, List.mem_reverse]
    exact absent
  rw [boundsOf, withParameters, List.lookup_append, lookup_of_not_mem unlisted]
  rfl

/-- Another look-up that agrees where the first one is defined, and bounds for variables that had
none. -/
theorem Extends.of_agree (agree : ∀ name model, known.lookup name = some model → lookup name = some model)
    (unbounded : ∀ p ∈ parameters, known.boundsOf p.name = []) :
    ({ known with lookup := lookup }.withParameters parameters).Extends known where
  lookup := agree
  bounds := by
    intro v bound member
    by_cases listed : v ∈ parameters.map TypeParameter.name
    · obtain ⟨p, inside, rfl⟩ := List.mem_map.mp listed
      rw [unbounded p inside] at member
      cases member
    · rw [boundsOf_other listed]
      exact member

end Knowledge

namespace Subtyping

variable {judge judge' : Ty → Ty → Inquiry Bool} {known more : Knowledge} {depth depth' : Nat}

/-- Containment swaps the sides of a question under `? super`, but it never denies the answer. -/
theorem contains_mono
    (stays : ∀ sub sup, (judge sub sup).value = true → (judge' sub sup).value = true) {outer inner : Ty}
    (contained : (contains judge outer inner).value = true) :
    (contains judge' outer inner).value = true := by
  unfold contains at contained ⊢
  split at contained
  all_goals first
    | exact contained
    | exact stays _ _ contained

theorem argumentsAgree_mono
    (stays : ∀ sub sup, (judge sub sup).value = true → (judge' sub sup).value = true)
    {sub sup : List Ty} (agree : (argumentsAgree judge sub sup).value = true) :
    (argumentsAgree judge' sub sup).value = true := by
  unfold argumentsAgree at agree ⊢
  split
  · rfl
  · rename_i filled
    rw [if_neg filled] at agree
    split
    · rename_i sameLength
      simp only [if_pos sameLength, Inquiry.value_allM, List.all_eq_true] at agree
      simp only [Inquiry.value_allM, List.all_eq_true]
      exact fun pair member => contains_mono stays (agree pair member)
    · rename_i otherLength
      rwa [if_neg otherLength] at agree

theorem check_succ_mono (further : more.Extends known)
    (types : ∀ sub sup, (check known depth sub sup).value = true →
      (check more depth' sub sup).value = true)
    (classes : ∀ sub sup, (checkClass known depth sub sup).value = true →
      (checkClass more depth' sub sup).value = true)
    {sub sup : Ty} (found : (check known (depth + 1) sub sup).value = true) :
    (check more (depth' + 1) sub sup).value = true := by
  unfold check at found ⊢
  split
  · rfl
  · rename_i different
    rw [if_neg different] at found
    split
    · rfl
    · rename_i other
      rw [if_neg other] at found
      split at found
      · simp only [Inquiry.value_anyM, List.any_eq_true] at found ⊢
        obtain ⟨bound, member, below⟩ := found
        exact ⟨bound, further.bounds _ bound member, types _ _ below⟩
      · split at found
        · rename_i references
          rw [if_pos references]
          exact types _ _ found
        · cases found
      · exact found
      · exact classes _ _ found
      · cases found

theorem checkClass_succ_mono (further : more.Extends known)
    (types : ∀ sub sup, (check known depth sub sup).value = true →
      (check more depth' sub sup).value = true)
    (classes : ∀ sub sup, (checkClass known depth sub sup).value = true →
      (checkClass more depth' sub sup).value = true)
    {sub sup : ClassRef} (found : (checkClass known (depth + 1) sub sup).value = true) :
    (checkClass more (depth' + 1) sub sup).value = true := by
  unfold checkClass at found ⊢
  split
  · rename_i there
    rw [if_pos there] at found
    exact argumentsAgree_mono types found
  · rename_i away
    rw [if_neg away] at found
    simp only [Inquiry.value_bind, Knowledge.ask] at found ⊢
    cases model : known.lookup sub.name with
    | none =>
      rw [model] at found
      cases found
    | some _ =>
      rw [model] at found
      rw [further.lookup _ _ model]
      simp only [Inquiry.value_anyM, List.any_eq_true] at found ⊢
      obtain ⟨link, member, above⟩ := found
      exact ⟨link, member, classes _ _ above⟩

/-- What a search finds, a search that goes at least as deep and knows at least as much finds too. -/
theorem check_mono (further : more.Extends known) (deeper : depth ≤ depth') :
    (∀ sub sup, (check known depth sub sup).value = true → (check more depth' sub sup).value = true) ∧
      ∀ sub sup, (checkClass known depth sub sup).value = true →
        (checkClass more depth' sub sup).value = true := by
  induction depth generalizing depth' with
  | zero => exact ⟨nofun, nofun⟩
  | succ depth ih =>
    obtain ⟨lower, rfl⟩ := Nat.exists_eq_add_of_le' (Nat.zero_lt_of_lt deeper)
    obtain ⟨types, classes⟩ := ih (Nat.le_of_succ_le_succ deeper)
    exact ⟨fun _ _ => check_succ_mono further types classes,
      fun _ _ => checkClass_succ_mono further types classes⟩

end Subtyping

/-- A positive answer stays under every look-up that agrees with the first one where that is defined,
after further variables got bounds, and under every larger limit. A search that begins some steps
down, with the rest of the limit before it, finds no more than one that begins further up. -/
theorem isSubtype_stays {known : Knowledge} {lookup : QualName → Option TypeModel}
    {parameters : List TypeParameter}
    (agree : ∀ name model, known.lookup name = some model → lookup name = some model)
    (unbounded : ∀ p ∈ parameters, known.boundsOf p.name = []) (sub sup : Ty) :
    (∀ limit, Subtyping.depthLimit ≤ limit → (known.isSubtype sub sup).value = true →
      (Subtyping.check ({ known with lookup := lookup }.withParameters parameters) limit sub sup).value =
        true) ∧
    ∀ limit depth depth', depth' ≤ depth →
      (Subtyping.check known (limit - depth) sub sup).value = true →
        (Subtyping.check known (limit - depth') sub sup).value = true := by
  constructor
  · intro limit larger found
    exact (Subtyping.check_mono (.of_agree agree unbounded) larger).1 sub sup found
  · intro limit depth depth' above found
    have same : known.Extends known := ⟨fun _ _ => id, fun _ _ => id⟩
    exact (Subtyping.check_mono same (Nat.sub_le_sub_left above limit)).1 sub sup found

namespace Learned

def collection : TypeModel where
  name := ⟨"Collection"⟩
  kind := .interface
  typeParameters := [⟨"E", []⟩]

def list : TypeModel where
  name := ⟨"List"⟩
  kind := .interface
  typeParameters := [⟨"E", []⟩]
  interfaces := [⟨⟨⟨"Collection"⟩, [.var "E"]⟩, collection⟩]

def known : Knowledge where
  lookup name := [list].find? (·.name = name)
  bounds := [("T", [.cls ⟨"List"⟩ [.object]])]

def lookup (name : QualName) : Option TypeModel := [list, collection].find? (·.name = name)

def parameters : List TypeParameter := [⟨"U", [.var "T"]⟩]

/-- `Collection<? super T>`, which contains `Object` since `T` is below it. -/
def goal : Ty := .cls ⟨"Collection"⟩ [.lower (.var "T")]

theorem agree (name : QualName) (model : TypeModel) (found : known.lookup name = some model) :
    lookup name = some model := by
  simp only [known, lookup, List.find?_cons, List.find?_nil] at found ⊢
  split at found
  · exact found
  · cases found

theorem found : (known.isSubtype (.var "T") goal).value = true := by decide +kernel

end Learned

theorem learned_stays :
    (∀ name model, Learned.known.lookup name = some model → Learned.lookup name = some model) ∧
    (∀ p ∈ Learned.parameters, Learned.known.boundsOf p.name = []) ∧
    (Subtyping.check ({ Learned.known with lookup := Learned.lookup }.withParameters Learned.parameters)
      100 (.var "T") Learned.goal).value = true := by
  have unbounded : ∀ p ∈ Learned.parameters, Learned.known.boundsOf p.name = [] := by decide
  exact ⟨Learned.agree, unbounded,
    (isSubtype_stays Learned.agree unbounded _ _).1 100 (by decide) Learned.found⟩

end JavaStubs
