import JavaStubs.Obligation.Hierarchy

namespace JavaStubs

namespace TypeModel

theorem superclasses_of_none {model : TypeModel} (top : model.superclass = none) :
    model.superclasses = [] := by
  rw [superclasses]
  split <;> simp_all

theorem superclasses_of_some {model : TypeModel} {link : Supertype TypeModel}
    (above : model.superclass = some link) :
    model.superclasses = link.model :: link.model.superclasses := by
  rw [superclasses]
  split <;> simp_all

end TypeModel

namespace Hierarchy

@[simp] theorem walk_nil (seen : List QualName) : walk seen [] = [] := by
  rw [walk]

theorem walk_cons (seen : List QualName) (node : Reached) (queue : List Reached) :
    walk seen (node :: queue) =
      node :: walk (names (above seen node) ++ seen) (queue ++ above seen node) := by
  rw [walk]

/-- Whatever is queued is visited. -/
theorem mem_walk_of_mem_queue {seen : List QualName} {queue : List Reached} {node : Reached}
    (queued : node ∈ queue) : node ∈ walk seen queue := by
  fun_induction walk seen queue with
  | case1 => simp at queued
  | case2 seen first queue next ih =>
    rcases List.mem_cons.mp queued with rfl | later
    · exact List.mem_cons_self ..
    · exact List.mem_cons_of_mem _ (ih (List.mem_append_left _ later))

/-- Which names were seen matters, not in which order. -/
theorem newLinks_congr {seen seen' : List QualName} (same : ∀ name, name ∈ seen ↔ name ∈ seen')
    (links : List (Supertype TypeModel × Bool)) : newLinks seen links = newLinks seen' links := by
  induction links generalizing seen seen' with
  | nil => rfl
  | cons link rest ih =>
    have later : ∀ name, name ∈ link.1.model.name :: seen ↔ name ∈ link.1.model.name :: seen' :=
      fun name => by simp only [List.mem_cons, same]
    simp only [newLinks, List.contains_eq_mem, same, ih same, ih later]

theorem walk_congr (seen : List QualName) (queue : List Reached) :
    ∀ seen', (∀ name, name ∈ seen ↔ name ∈ seen') → walk seen queue = walk seen' queue := by
  fun_induction walk seen queue with
  | case1 => exact fun seen' _ => (walk_nil seen').symm
  | case2 seen node queue next ih =>
    intro seen' same
    have sameNext : above seen' node = next :=
      congrArg (List.map node.enter) (newLinks_congr same node.links).symm
    have later : ∀ name, name ∈ names next ++ seen ↔ name ∈ names next ++ seen' := fun name => by
      simp only [List.mem_append, same]
    rw [walk_cons, sameNext, ih _ later]

/-- Names that no new link leads to make no difference. -/
theorem newLinks_append {seen extras : List QualName} {links : List (Supertype TypeModel × Bool)}
    (absent : ∀ link ∈ newLinks seen links, link.1.model.name ∉ extras) :
    newLinks (seen ++ extras) links = newLinks seen links := by
  induction links generalizing seen with
  | nil => rfl
  | cons link rest ih =>
    by_cases known : link.1.model.name ∈ seen
    · have skip : newLinks seen (link :: rest) = newLinks seen rest := by simp [newLinks, known]
      rw [skip] at absent ⊢
      rw [newLinks, if_pos (by simp [known])]
      exact ih absent
    · have keep : newLinks seen (link :: rest) =
          link :: newLinks (link.1.model.name :: seen) rest := by simp [newLinks, known]
      rw [keep] at absent ⊢
      have new := absent link (List.mem_cons_self ..)
      rw [newLinks, if_neg (by simp [known, new]), ← List.cons_append,
        ih fun other later => absent other (List.mem_cons_of_mem _ later)]

/-- A walk seen through a map of nodes, beside names that are never met: it is enough that each
step is mapped alike. -/
theorem walk_map {f : Reached → Reached} {extras : List QualName}
    (sameName : ∀ node, (f node).model.name = node.model.name)
    (aboveMap : ∀ seen node, (∀ next ∈ above seen node, next.model.name ∉ extras) →
      above (seen ++ extras) (f node) = (above seen node).map f)
    (seen : List QualName) (queue : List Reached)
    (absent : ∀ node ∈ walk seen queue, node.model.name ∉ extras) :
    walk (seen ++ extras) (queue.map f) = (walk seen queue).map f := by
  have namesMap (nodes : List Reached) : names (nodes.map f) = names nodes := by
    simp [names, Function.comp_def, sameName]
  fun_induction walk seen queue with
  | case1 => simp
  | case2 seen node queue next ih =>
    have later : ∀ other ∈ walk (names next ++ seen) (queue ++ next), other.model.name ∉ extras :=
      fun other member => absent other (List.mem_cons_of_mem _ member)
    have unmet : ∀ other ∈ next, other.model.name ∉ extras := fun other member =>
      later other (mem_walk_of_mem_queue (List.mem_append_right _ member))
    rw [List.map_cons, walk_cons, aboveMap seen node unmet, namesMap, List.map_cons,
      ← List.append_assoc, ← List.map_append, ih later]

end Hierarchy

end JavaStubs
