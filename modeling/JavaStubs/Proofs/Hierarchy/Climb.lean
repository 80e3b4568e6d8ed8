import JavaStubs.Proofs.Hierarchy.Walk
import Mathlib.Data.List.Induction
import Mathlib.Data.List.Nodup
import Mathlib.Data.List.Shortlex
import Mathlib.Logic.Relation

namespace JavaStubs

namespace TypeModel

/-- `upper` stands right above `model`. -/
def HasSupertype (model upper : TypeModel) : Prop := ∃ link ∈ model.supertypes, link.model = upper

/-- `upper` is `model` or stands somewhere above it. -/
def Reaches : TypeModel → TypeModel → Prop := Relation.ReflTransGen HasSupertype

/-- `upper` stands strictly above `model`. -/
def HasAncestor : TypeModel → TypeModel → Prop := Relation.TransGen HasSupertype

/-- A name belongs to one type only. -/
def Coherent (root : TypeModel) : Prop :=
  ∀ a b, root.Reaches a → root.Reaches b → a.name = b.name → a = b

theorem sizeOf_le_linkWeight {links : List (Supertype TypeModel)} {link : Supertype TypeModel}
    (member : link ∈ links) : sizeOf link.model ≤ linkWeight links := by
  induction links with
  | nil => simp at member
  | cons first rest ih =>
    simp only [linkWeight]
    rcases List.mem_cons.mp member with rfl | later
    · omega
    · have := ih later
      omega

theorem HasSupertype.sizeOf_lt {model upper : TypeModel} (above : model.HasSupertype upper) :
    sizeOf upper < sizeOf model := by
  obtain ⟨link, member, rfl⟩ := above
  have part := sizeOf_le_linkWeight member
  have whole := model.linkWeight_supertypes
  omega

theorem HasAncestor.sizeOf_lt {model upper : TypeModel} (above : model.HasAncestor upper) :
    sizeOf upper < sizeOf model := by
  induction above with
  | single step => exact step.sizeOf_lt
  | tail _ step ih => exact step.sizeOf_lt.trans ih

theorem HasAncestor.reaches {model upper : TypeModel} (above : model.HasAncestor upper) :
    model.Reaches upper :=
  Relation.TransGen.to_reflTransGen above

theorem Coherent.of_reaches {root model : TypeModel} (coherent : root.Coherent)
    (reached : root.Reaches model) : model.Coherent := fun a b toA toB =>
  coherent a b (Relation.ReflTransGen.trans reached toA) (Relation.ReflTransGen.trans reached toB)

/-- In a coherent hierarchy no type has its own name among its ancestors. -/
theorem Coherent.name_ne {root model upper : TypeModel} (coherent : root.Coherent)
    (reached : root.Reaches model) (above : model.HasAncestor upper) : upper.name ≠ model.name := by
  intro sameName
  have same := coherent upper model (Relation.ReflTransGen.trans reached above.reaches) reached sameName
  have smaller := above.sizeOf_lt
  rw [same] at smaller
  exact Nat.lt_irrefl _ smaller

end TypeModel

/-- Shorter paths come first, and of equally long ones the one that turns to an earlier link. -/
abbrev Earlier : List Nat → List Nat → Prop := List.Shortlex (· < ·)

namespace Earlier

theorem iff_lex {p q : List Nat} :
    Earlier p q ↔ p.length < q.length ∨ p.length = q.length ∧ List.Lex (· < ·) p q :=
  List.shortlex_def

theorem length_le {p q : List Nat} (early : Earlier p q) : p.length ≤ q.length := by
  rcases iff_lex.mp early with shorter | ⟨sameLength, _⟩ <;> omega

theorem trans {p q r : List Nat} (first : Earlier p q) (second : Earlier q r) : Earlier p r := by
  rw [iff_lex] at *
  rcases first with shorter | ⟨sameLength, lex⟩
  · left
    omega
  · rcases second with shorter | ⟨sameLength', lex'⟩
    · left
      omega
    · exact Or.inr ⟨by omega, List.lex_trans Nat.lt_trans lex lex'⟩

theorem irrefl (p : List Nat) : ¬ Earlier p p := fun early => asymm_of Earlier early early

theorem step {p : List Nat} {i j : Nat} (before : i < j) : Earlier (p ++ [i]) (p ++ [j]) :=
  List.Shortlex.append_left (by simpa using before) p

/-- Earlier paths stay earlier one step on. -/
theorem concat {p q : List Nat} (early : Earlier p q) (i j : Nat) : Earlier (p ++ [i]) (q ++ [j]) := by
  rw [iff_lex] at *
  simp only [List.length_append, List.length_singleton]
  rcases early with shorter | ⟨sameLength, lex⟩
  · left
    omega
  · refine Or.inr ⟨by omega, ?_⟩
    induction lex with
    | nil => simp at sameLength
    | cons _ ih => exact .cons (ih (by simpa using sameLength))
    | rel smaller => exact .rel smaller

theorem concat_self (p : List Nat) (i : Nat) : Earlier p (p ++ [i]) :=
  List.Shortlex.of_length_lt (by simp)

end Earlier

namespace Reached

/-- Where a path leads, if every link that it names is there. -/
def follow (node : Reached) : List Nat → Option Reached
  | [] => some node
  | i :: path => node.links[i]?.bind fun link => (node.enter link).follow path

theorem follow_append (node : Reached) (path more : List Nat) :
    node.follow (path ++ more) = (node.follow path).bind (·.follow more) := by
  induction path generalizing node with
  | nil => rfl
  | cons i path ih =>
    simp only [List.cons_append, follow]
    cases node.links[i]? with
    | none => rfl
    | some link => exact ih (node.enter link)

theorem follow_concat {node next : Reached} {path : List Nat} {i : Nat} :
    node.follow (path ++ [i]) = some next ↔
      ∃ before link, node.follow path = some before ∧ before.links[i]? = some link ∧
        next = before.enter link := by
  rw [follow_append]
  constructor
  · intro led
    obtain ⟨before, first, last⟩ := Option.bind_eq_some_iff.mp led
    obtain ⟨link, found, entered⟩ := Option.bind_eq_some_iff.mp last
    exact ⟨before, link, first, found, (Option.some.inj entered).symm⟩
  · rintro ⟨before, link, first, found, rfl⟩
    simp [first, follow, found]

theorem links_fst (node : Reached) : node.links.map Prod.fst = node.model.supertypes := by
  simp [links, TypeModel.supertypes, Function.comp_def]

theorem links_getElem? {node : Reached} {link : Supertype TypeModel × Bool} {i : Nat}
    (found : node.links[i]? = some link) : node.model.supertypes[i]? = some link.1 := by
  rw [← links_fst, List.getElem?_map, found, Option.map_some]

theorem exists_link {node : Reached} {link : Supertype TypeModel} {i : Nat}
    (found : node.model.supertypes[i]? = some link) : ∃ flag, node.links[i]? = some (link, flag) := by
  rw [← links_fst, List.getElem?_map, Option.map_eq_some_iff] at found
  obtain ⟨⟨target, flag⟩, found, rfl⟩ := found
  exact ⟨flag, found⟩

theorem follow_depth {node next : Reached} {path : List Nat} (led : node.follow path = some next) :
    next.depth = node.depth + path.length := by
  induction path generalizing node with
  | nil => cases led; rfl
  | cons i path ih =>
    obtain ⟨link, _, rest⟩ := Option.bind_eq_some_iff.mp led
    have deeper := ih rest
    simp only [enter] at deeper
    simp only [List.length_cons]
    omega

theorem follow_reaches {node next : Reached} {path : List Nat}
    (led : node.follow path = some next) : node.model.Reaches next.model := by
  induction path generalizing node with
  | nil => cases led; exact .refl
  | cons i path ih =>
    obtain ⟨link, found, rest⟩ := Option.bind_eq_some_iff.mp led
    have member := List.mem_of_getElem? (links_getElem? found)
    exact .head ⟨link.1, member, rfl⟩ (ih rest)

/-- Every type above has a path to it. -/
theorem exists_follow {node : Reached} {upper : TypeModel} (reached : node.model.Reaches upper) :
    ∃ path next, node.follow path = some next ∧ next.model = upper := by
  induction reached with
  | refl => exact ⟨[], node, rfl, rfl⟩
  | tail _ step ih =>
    obtain ⟨path, before, led, rfl⟩ := ih
    obtain ⟨link, member, rfl⟩ := step
    obtain ⟨i, found⟩ := List.mem_iff_getElem?.mp member
    obtain ⟨flag, here⟩ := exists_link found
    exact ⟨path ++ [i], before.enter (link, flag), follow_concat.mpr ⟨before, _, led, here, rfl⟩, rfl⟩

end Reached

namespace TypeModel

/-- Where a path leads from a root. -/
def climb (root : TypeModel) (path : List Nat) : Option Reached := (Reached.root root).follow path

theorem climb_depth {root : TypeModel} {path : List Nat} {node : Reached}
    (led : root.climb path = some node) : node.depth = path.length :=
  (Reached.follow_depth led).trans (Nat.zero_add _)

/-- A path to a type that comes before all other paths to it. -/
structure FirstPath (root : TypeModel) (path : List Nat) (node : Reached) : Prop where
  leads : root.climb path = some node
  first : ∀ other next, root.climb other = some next → next.model.name = node.model.name →
    other = path ∨ Earlier path other

end TypeModel

namespace Hierarchy

theorem newLinks_fresh {seen : List QualName} {links : List (Supertype TypeModel × Bool)} :
    ∀ link ∈ newLinks seen links, link.1.model.name ∉ seen := by
  induction links generalizing seen with
  | nil => simp [newLinks]
  | cons first rest ih =>
    intro link member
    unfold newLinks at member
    split at member
    · exact ih link member
    · rename_i unknown
      rcases List.mem_cons.mp member with rfl | later
      · simpa using unknown
      · exact fun known => ih link later (List.mem_cons_of_mem _ known)

theorem newLinks_distinct (seen : List QualName) (links : List (Supertype TypeModel × Bool)) :
    ((newLinks seen links).map (·.1.model.name)).Nodup := by
  induction links generalizing seen with
  | nil => simp [newLinks]
  | cons first rest ih =>
    unfold newLinks
    split
    · exact ih seen
    · rw [List.map_cons, List.nodup_cons]
      refine ⟨fun again => ?_, ih _⟩
      obtain ⟨link, member, same⟩ := List.mem_map.mp again
      exact newLinks_fresh link member (same ▸ List.mem_cons_self ..)

/-- The new links with their positions: in order, and each name that was not seen is first met at
one of them. -/
theorem newLinks_positions (seen : List QualName) (links : List (Supertype TypeModel × Bool)) :
    ∃ entries : List (Nat × (Supertype TypeModel × Bool)),
      newLinks seen links = entries.map Prod.snd ∧ entries.Pairwise (·.1 < ·.1) ∧
      (∀ entry ∈ entries, links[entry.1]? = some entry.2) ∧
      ∀ i link, links[i]? = some link → link.1.model.name ∈ seen ∨
        ∃ entry ∈ entries, entry.2.1.model.name = link.1.model.name ∧ entry.1 ≤ i := by
  induction links generalizing seen with
  | nil => exact ⟨[], by simp [newLinks]⟩
  | cons first rest ih =>
    let shift (entries : List (Nat × (Supertype TypeModel × Bool))) :=
      entries.map fun entry => (entry.1 + 1, entry.2)
    have shifted {entries : List (Nat × (Supertype TypeModel × Bool))}
        (found : ∀ entry ∈ entries, rest[entry.1]? = some entry.2) :
        ∀ entry ∈ shift entries, 0 < entry.1 ∧ (first :: rest)[entry.1]? = some entry.2 := by
      intro entry member
      obtain ⟨original, inside, rfl⟩ := List.mem_map.mp member
      exact ⟨Nat.succ_pos _, found original inside⟩
    by_cases known : first.1.model.name ∈ seen
    · obtain ⟨entries, same, sorted, found, all⟩ := ih seen
      refine ⟨shift entries, ?_, ?_, ?_, ?_⟩
      · simp [newLinks, known, same, shift, Function.comp_def]
      · simpa [shift, List.pairwise_map] using sorted
      · exact fun entry member => (shifted found entry member).2
      · intro i link here
        cases i with
        | zero =>
          obtain rfl : first = link := by simpa using here
          exact Or.inl known
        | succ i =>
          rcases all i link (by simpa using here) with old | ⟨entry, member, sameName, before⟩
          · exact Or.inl old
          · refine Or.inr ⟨(entry.1 + 1, entry.2), List.mem_map_of_mem member, sameName, ?_⟩
            simpa using before
    · obtain ⟨entries, same, sorted, found, all⟩ := ih (first.1.model.name :: seen)
      refine ⟨(0, first) :: shift entries, ?_, ?_, ?_, ?_⟩
      · simp [newLinks, known, same, shift, Function.comp_def]
      · refine List.pairwise_cons.mpr ⟨?_, by simpa [shift, List.pairwise_map] using sorted⟩
        exact fun entry member => (shifted found entry member).1
      · intro entry member
        rcases List.mem_cons.mp member with rfl | later
        · rfl
        · exact (shifted found entry later).2
      · intro i link here
        cases i with
        | zero =>
          obtain rfl : first = link := by simpa using here
          exact Or.inr ⟨(0, first), by simp, rfl, Nat.le_refl _⟩
        | succ i =>
          rcases all i link (by simpa using here) with old | ⟨entry, member, sameName, before⟩
          · rcases List.mem_cons.mp old with sameName | old
            · exact Or.inr ⟨(0, first), by simp, sameName.symm, Nat.zero_le _⟩
            · exact Or.inl old
          · refine Or.inr ⟨(entry.1 + 1, entry.2), ?_, sameName, by simpa using before⟩
            exact List.mem_cons_of_mem _ (List.mem_map_of_mem member)

/-- What stands above a node, with paths: the first link to each name that was not seen. -/
theorem above_entries (seen : List QualName) (path : List Nat) (node : Reached) :
    ∃ new : List (List Nat × Reached), new.map Prod.snd = above seen node ∧
      new.Pairwise (Earlier ·.1 ·.1) ∧
      (∀ entry ∈ new, ∃ i link, node.links[i]? = some link ∧
        entry = (path ++ [i], node.enter link)) ∧
      ∀ i link, node.links[i]? = some link → link.1.model.name ∈ seen ∨
        ∃ entry ∈ new, entry.2.model.name = link.1.model.name ∧
          (entry.1 = path ++ [i] ∨ Earlier entry.1 (path ++ [i])) := by
  obtain ⟨entries, links, order, found, all⟩ := newLinks_positions seen node.links
  refine ⟨entries.map fun entry => (path ++ [entry.1], node.enter entry.2), ?_, ?_, ?_, ?_⟩
  · simp [above, links, Function.comp_def]
  · rw [List.pairwise_map]
    exact order.imp Earlier.step
  · intro entry member
    obtain ⟨position, inside, rfl⟩ := List.mem_map.mp member
    exact ⟨position.1, position.2, found position inside, rfl⟩
  · intro i link here
    rcases all i link here with old | ⟨position, inside, sameName, before⟩
    · exact Or.inl old
    · refine Or.inr ⟨_, List.mem_map_of_mem inside, sameName, ?_⟩
      rcases Nat.eq_or_lt_of_le before with same | less
      · exact Or.inl (by rw [same])
      · exact Or.inr (Earlier.step less)

/-- The names above a node are new, each once. -/
theorem names_above (seen : List QualName) (node : Reached) :
    (names (above seen node)).Nodup ∧ ∀ name ∈ names (above seen node), name ∉ seen := by
  have same : names (above seen node) = (newLinks seen node.links).map (·.1.model.name) := by
    simp [names, above, Reached.enter, Function.comp_def]
  rw [same]
  refine ⟨newLinks_distinct .., fun name member => ?_⟩
  obtain ⟨link, inside, rfl⟩ := List.mem_map.mp member
  exact newLinks_fresh link inside

/-- What holds between two steps of a walk, with each node beside the path on which it was met.
Paths come in order, and no link of a visited node is left out: its target is met at the latest
through this link. -/
structure Stage (start : Reached) (done queue : List (List Nat × Reached)) (seen : List QualName) :
    Prop where
  begun : ([], start) ∈ done ++ queue
  leads : ∀ entry ∈ done ++ queue, start.follow entry.1 = some entry.2
  sorted : (done ++ queue).Pairwise (Earlier ·.1 ·.1)
  distinct : ((done ++ queue).map (·.2.model.name)).Nodup
  seen_iff : ∀ name, name ∈ seen ↔ name ∈ (done ++ queue).map (·.2.model.name)
  queued : ∀ entry ∈ queue, entry.1 = [] ∨ ∃ visited ∈ done, ∃ i, entry.1 = visited.1 ++ [i]
  covered : ∀ visited ∈ done, ∀ i link, visited.2.links[i]? = some link →
    ∃ entry ∈ done ++ queue, entry.2.model.name = link.1.model.name ∧
      (entry.1 = visited.1 ++ [i] ∨ Earlier entry.1 (visited.1 ++ [i]))

namespace Stage

variable {start : Reached} {done queue : List (List Nat × Reached)} {seen : List QualName}
  {path : List Nat} {node : Reached}

theorem initial (start : Reached) : Stage start [] [([], start)] [start.model.name] where
  begun := by simp
  leads := by simp [Reached.follow]
  sorted := by simp
  distinct := by simp
  seen_iff := by simp
  queued := by simp
  covered := by simp

/-- Everything met so far comes before the links of the node that is visited next. -/
theorem earlier (stage : Stage start done ((path, node) :: queue) seen) (i : Nat) :
    ∀ entry ∈ done ++ (path, node) :: queue, Earlier entry.1 (path ++ [i]) := by
  have past : ∀ visited ∈ done, Earlier visited.1 path := fun visited member =>
    (List.pairwise_append.mp stage.sorted).2.2 visited member _ (List.mem_cons_self ..)
  intro entry member
  rcases List.mem_append.mp member with visited | waiting
  · exact (past entry visited).trans (Earlier.concat_self path i)
  · rcases List.mem_cons.mp waiting with rfl | later
    · exact Earlier.concat_self path i
    · rcases stage.queued entry waiting with start | ⟨visited, inside, j, below⟩
      · rw [start]
        exact List.Shortlex.of_length_lt (by simp)
      · rw [below]
        exact (past visited inside).concat j i

/-- One step: the next node is visited, and what stands above it is queued. -/
theorem step (stage : Stage start done ((path, node) :: queue) seen) :
    ∃ new, new.map Prod.snd = above seen node ∧
      Stage start (done ++ [(path, node)]) (queue ++ new) (names (above seen node) ++ seen) := by
  obtain ⟨new, nodes, order, origin, all⟩ := above_entries seen path node
  have regroup : (done ++ [(path, node)]) ++ (queue ++ new) =
      (done ++ (path, node) :: queue) ++ new := by simp
  have newNames : new.map (·.2.model.name) = names (above seen node) := by
    simp [← nodes, names, Function.comp_def]
  have here : start.follow path = some node := stage.leads (path, node) (by simp)
  refine ⟨new, nodes, ?_⟩
  constructor
  case begun =>
    rw [regroup]
    exact List.mem_append_left _ stage.begun
  case leads =>
    rw [regroup]
    intro entry member
    rcases List.mem_append.mp member with old | fresh
    · exact stage.leads entry old
    · obtain ⟨i, link, found, rfl⟩ := origin entry fresh
      exact Reached.follow_concat.mpr ⟨node, link, here, found, rfl⟩
  case sorted =>
    rw [regroup, List.pairwise_append]
    refine ⟨stage.sorted, order, fun entry old other fresh => ?_⟩
    obtain ⟨i, link, _, rfl⟩ := origin other fresh
    exact stage.earlier i entry old
  case distinct =>
    obtain ⟨distinct, fresh⟩ := names_above seen node
    rw [regroup, List.map_append, List.nodup_append, newNames]
    refine ⟨stage.distinct, distinct, fun name old other new same => ?_⟩
    exact fresh other new ((stage.seen_iff other).mpr (same ▸ old))
  case seen_iff =>
    intro name
    rw [regroup, List.map_append, newNames, List.mem_append, List.mem_append, stage.seen_iff name]
    exact or_comm
  case queued =>
    intro entry member
    rcases List.mem_append.mp member with waiting | fresh
    · rcases stage.queued entry (List.mem_cons_of_mem _ waiting) with start | ⟨visited, inside, below⟩
      · exact Or.inl start
      · exact Or.inr ⟨visited, List.mem_append_left _ inside, below⟩
    · obtain ⟨i, link, _, rfl⟩ := origin entry fresh
      exact Or.inr ⟨(path, node), by simp, i, rfl⟩
  case covered =>
    rw [regroup]
    intro visited member i link atLink
    rcases List.mem_append.mp member with past | current
    · obtain ⟨entry, inside, met⟩ := stage.covered visited past i link atLink
      exact ⟨entry, List.mem_append_left _ inside, met⟩
    · obtain rfl : visited = (path, node) := by simpa using current
      rcases all i link atLink with old | ⟨entry, inside, met⟩
      · obtain ⟨entry, inside, sameName⟩ := List.mem_map.mp ((stage.seen_iff _).mp old)
        exact ⟨entry, List.mem_append_left _ inside, sameName, Or.inr (stage.earlier i entry inside)⟩
      · exact ⟨entry, List.mem_append_right _ inside, met⟩

/-- A walk goes on until nothing is queued. -/
theorem run (stage : Stage start done queue seen) :
    ∃ all seen', all.map Prod.snd = done.map Prod.snd ++ walk seen (queue.map Prod.snd) ∧
      Stage start all [] seen' := by
  generalize nodes : queue.map Prod.snd = rest
  fun_induction walk seen rest generalizing done queue with
  | case1 seen =>
    obtain rfl : queue = [] := by simpa using nodes
    exact ⟨done, seen, by simp, stage⟩
  | case2 seen node rest next =>
    rename_i ih
    cases queue with
    | nil => simp at nodes
    | cons entry queue =>
      obtain ⟨path, first⟩ := entry
      simp only [List.map_cons, List.cons.injEq] at nodes
      obtain ⟨rfl, rfl⟩ := nodes
      obtain ⟨new, newNodes, stage'⟩ := stage.step
      obtain ⟨all, seen', walked, final⟩ := ih stage' (by rw [List.map_append, newNodes])
      refine ⟨all, seen', ?_, final⟩
      rw [walked]
      simp

/-- At the end every path comes after the one on which its type was met. -/
theorem met (coherent : start.model.Coherent) (stage : Stage start done [] seen)
    (led : start.follow path = some node) :
    ∃ entry ∈ done, entry.2.model.name = node.model.name ∧
      (entry.1 = path ∨ Earlier entry.1 path) := by
  induction path using List.reverseRecOn generalizing node with
  | nil =>
    cases led
    exact ⟨_, by simpa using stage.begun, rfl, Or.inl rfl⟩
  | append_singleton path i ih =>
    obtain ⟨before, link, ledBefore, atLink, rfl⟩ := Reached.follow_concat.mp led
    obtain ⟨visited, member, sameName, order⟩ := ih ledBefore
    -- By coherence the visited node stands for the same type, so it has the same links.
    have sameModel : visited.2.model = before.model :=
      coherent _ _ (Reached.follow_reaches (stage.leads visited (by simpa using member)))
        (Reached.follow_reaches ledBefore) sameName
    obtain ⟨flag, here⟩ := Reached.exists_link (sameModel ▸ Reached.links_getElem? atLink)
    obtain ⟨entry, inside, name, early⟩ := stage.covered visited member i _ here
    rw [List.append_nil] at inside
    refine ⟨entry, inside, name, ?_⟩
    rcases order with rfl | earlier
    · exact early
    · right
      have next := earlier.concat i i
      rcases early with same | early
      · exact same ▸ next
      · exact early.trans next

end Stage

theorem ofRoot_stage (root : TypeModel) : ∃ entries seen, ofRoot root = entries.map Prod.snd ∧
    Stage (Reached.root root) entries [] seen := by
  obtain ⟨entries, seen, walked, stage⟩ := (Stage.initial (Reached.root root)).run
  exact ⟨entries, seen, walked.symm, stage⟩

theorem names_ofRoot_nodup (root : TypeModel) : (names (ofRoot root)).Nodup := by
  obtain ⟨entries, _, walked, stage⟩ := ofRoot_stage root
  rw [walked, names, List.map_map]
  simpa [Function.comp_def] using stage.distinct

/-- The walk visits every type on its first path, in the order of these paths. -/
theorem ofRoot_firstPaths {root : TypeModel} (coherent : root.Coherent) :
    ∃ entries : List (List Nat × Reached), ofRoot root = entries.map Prod.snd ∧
      entries.Pairwise (Earlier ·.1 ·.1) ∧
      (∀ path node, (path, node) ∈ entries ↔ root.FirstPath path node) ∧
      ∀ upper, root.Reaches upper → ∃ entry ∈ entries, entry.2.model = upper := by
  obtain ⟨entries, _, walked, stage⟩ := ofRoot_stage root
  have leads := stage.leads
  have sorted := stage.sorted
  have distinct := stage.distinct
  rw [List.append_nil] at leads sorted distinct
  refine ⟨entries, walked, sorted, fun path node => ⟨fun member => ?_, fun first => ?_⟩, ?_⟩
  · refine ⟨leads (path, node) member, fun other next led sameName => ?_⟩
    obtain ⟨entry, inside, name, early⟩ := stage.met coherent led
    obtain rfl : entry = (path, node) :=
      List.inj_on_of_nodup_map distinct inside member (name.trans sameName)
    exact early.imp_left Eq.symm
  · obtain ⟨entry, inside, name, early⟩ := stage.met coherent first.leads
    have led := leads entry inside
    have same : entry.1 = path := by
      rcases early with same | earlier
      · exact same
      · rcases first.first entry.1 entry.2 led name with same | later
        · exact same
        · exact absurd (earlier.trans later) (Earlier.irrefl _)
    have sameNode : entry.2 = node := Option.some.inj (led.symm.trans (same ▸ first.leads))
    exact (Prod.ext same sameNode : entry = (path, node)) ▸ inside
  · intro upper reached
    obtain ⟨path, next, led, rfl⟩ := @Reached.exists_follow (Reached.root root) upper reached
    obtain ⟨entry, inside, name, _⟩ := stage.met coherent led
    exact ⟨entry, inside, coherent _ _ (Reached.follow_reaches (leads entry inside))
      (Reached.follow_reaches led) name⟩

theorem mem_ofRoot {root : TypeModel} (coherent : root.Coherent) {node : Reached} :
    node ∈ ofRoot root ↔ ∃ path, root.FirstPath path node := by
  obtain ⟨entries, walked, _, firsts, _⟩ := ofRoot_firstPaths coherent
  simp only [walked, List.mem_map, ← firsts]
  constructor
  · rintro ⟨⟨path, node⟩, member, rfl⟩
    exact ⟨path, member⟩
  · rintro ⟨path, member⟩
    exact ⟨(path, node), member, rfl⟩

theorem mem_names_ofRoot {root : TypeModel} (coherent : root.Coherent) {name : QualName} :
    name ∈ names (ofRoot root) ↔ ∃ upper, root.Reaches upper ∧ upper.name = name := by
  obtain ⟨entries, walked, _, firsts, all⟩ := ofRoot_firstPaths coherent
  rw [walked, names, List.map_map, List.mem_map]
  constructor
  · rintro ⟨entry, member, rfl⟩
    exact ⟨_, Reached.follow_reaches ((firsts entry.1 entry.2).mp member).leads, rfl⟩
  · rintro ⟨upper, reached, rfl⟩
    obtain ⟨entry, member, rfl⟩ := all upper reached
    exact ⟨entry, member, rfl⟩

/-- The ancestors that the walk finds are those that links lead to. -/
theorem mem_ancestors {model : TypeModel} (coherent : model.Coherent) {name : QualName} :
    name ∈ ancestors model ↔ ∃ upper, model.HasAncestor upper ∧ upper.name = name := by
  have start : names (ofRoot model) = model.name :: ancestors model := by
    rw [ancestors, ofRoot, walk_cons, List.tail_cons]
    rfl
  have distinct := names_ofRoot_nodup model
  have visited := @mem_names_ofRoot model coherent name
  rw [start, List.nodup_cons] at distinct
  rw [start, List.mem_cons] at visited
  constructor
  · intro member
    obtain ⟨upper, reached, rfl⟩ := visited.mp (Or.inr member)
    rcases Relation.reflTransGen_iff_eq_or_transGen.mp reached with rfl | above
    · exact absurd member distinct.1
    · exact ⟨upper, above, rfl⟩
  · rintro ⟨upper, above, rfl⟩
    rcases visited.mpr ⟨upper, above.reaches, rfl⟩ with sameName | member
    · exact absurd sameName (coherent.name_ne .refl above)
    · exact member

end Hierarchy

namespace TypeModel

variable {root : TypeModel} {path path' : List Nat} {node node' : Reached}

theorem exists_firstPath (coherent : root.Coherent) {upper : TypeModel} (reached : root.Reaches upper) :
    ∃ path node, root.FirstPath path node ∧ node.model = upper := by
  obtain ⟨entries, _, _, firsts, all⟩ := Hierarchy.ofRoot_firstPaths coherent
  obtain ⟨⟨path, node⟩, member, same⟩ := all upper reached
  exact ⟨path, node, (firsts path node).mp member, same⟩

theorem FirstPath.unique (first : root.FirstPath path node) (first' : root.FirstPath path' node')
    (sameName : node'.model.name = node.model.name) : path' = path ∧ node' = node := by
  have samePath : path' = path := by
    rcases first.first path' node' first'.leads sameName with same | later
    · exact same
    · rcases first'.first path node first.leads sameName.symm with same | earlier
      · exact same.symm
      · exact absurd (later.trans earlier) (Earlier.irrefl _)
  exact ⟨samePath, Option.some.inj (first'.leads.symm.trans (samePath ▸ first.leads))⟩

end TypeModel

end JavaStubs
