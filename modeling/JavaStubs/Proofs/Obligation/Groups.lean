import JavaStubs.Obligation.Collect
import Mathlib.Data.List.Nodup

namespace JavaStubs

theorem eraseDups_nodup {α : Type} [BEq α] [LawfulBEq α] (items : List α) :
    items.eraseDups.Nodup := by
  induction size : items.length using Nat.strongRecOn generalizing items with
  | _ n ih =>
    cases items with
    | nil => simp
    | cons a rest =>
      have shorter := List.length_filter_le (fun b => !b == a) rest
      simp only [List.length_cons] at size
      rw [List.eraseDups_cons, List.nodup_cons]
      exact ⟨by simp [List.mem_eraseDups], ih _ (by omega) _ rfl⟩

theorem eraseDups_filter {α : Type} [BEq α] [LawfulBEq α] (p : α → Bool) (items : List α) :
    (items.filter p).eraseDups = items.eraseDups.filter p := by
  induction size : items.length using Nat.strongRecOn generalizing items with
  | _ n ih =>
    cases items with
    | nil => simp
    | cons a rest =>
      have shorter := List.length_filter_le (fun b => !b == a) rest
      simp only [List.length_cons] at size
      have others := ih _ (by omega) (rest.filter fun b => !b == a) rfl
      cases keep : p a with
      | true =>
        rw [List.filter_cons_of_pos keep, List.eraseDups_cons, List.eraseDups_cons,
          List.filter_cons_of_pos keep, ← others, List.filter_filter, List.filter_filter]
        simp only [Bool.and_comm]
      | false =>
        rw [List.filter_cons_of_neg (by simp [keep]), List.eraseDups_cons,
          List.filter_cons_of_neg (by simp [keep]), ← others, List.filter_filter]
        congr 1
        refine List.filter_congr fun b _ => ?_
        by_cases same : b = a
        · simp [same, keep]
        · simp [same]

namespace MethodGroup

/-- Declarations by key, in the order in which keys are met. -/
def gather (scope : ErasureScope) (declarations : List Inherited) : List MethodGroup :=
  (declarations.map (·.key scope)).eraseDups.map fun key =>
    ⟨key, declarations.filter fun d => d.key scope = key⟩

theorem insert_of_not_mem {key : SignatureKey} {d : Inherited} {groups : List MethodGroup}
    (absent : key ∉ groups.map MethodGroup.key) : insert key d groups = groups ++ [⟨key, [d]⟩] := by
  induction groups with
  | nil => rfl
  | cons group groups ih =>
    simp only [List.map_cons, List.mem_cons, not_or] at absent
    rw [insert, if_neg (Ne.symm absent.1), ih absent.2, List.cons_append]

theorem insert_of_mem {key : SignatureKey} {d : Inherited} {groups : List MethodGroup}
    (distinct : (groups.map MethodGroup.key).Nodup) (member : key ∈ groups.map MethodGroup.key) :
    insert key d groups = groups.map fun group =>
      if group.key = key then ⟨key, group.declarations ++ [d]⟩ else group := by
  induction groups with
  | nil => simp at member
  | cons group groups ih =>
    simp only [List.map_cons, List.nodup_cons] at distinct
    by_cases here : group.key = key
    · have others : ∀ other ∈ groups, (if other.key = key then
          (⟨key, other.declarations ++ [d]⟩ : MethodGroup) else other) = other := by
        intro other inside
        rw [if_neg]
        intro same
        exact distinct.1 (here ▸ same ▸ List.mem_map_of_mem inside)
      rw [insert, if_pos here, List.map_cons, if_pos here, List.map_congr_left others, List.map_id']
    · have further : key ∈ groups.map MethodGroup.key := by
        simpa [Ne.symm here] using member
      rw [insert, if_neg here, List.map_cons, if_neg here, ih distinct.2 further]

theorem keys_gather (scope : ErasureScope) (declarations : List Inherited) :
    (gather scope declarations).map MethodGroup.key =
      (declarations.map (·.key scope)).eraseDups := by
  simp [gather, Function.comp_def]

theorem insert_gather (scope : ErasureScope) (declarations : List Inherited) (d : Inherited) :
    insert (d.key scope) d (gather scope declarations) = gather scope (declarations ++ [d]) := by
  have keys := keys_gather scope declarations
  have erased : ((declarations ++ [d]).map (·.key scope)).eraseDups =
      (declarations.map (·.key scope)).eraseDups ++
        ([d.key scope].removeAll (declarations.map (·.key scope))).eraseDups := by
    rw [List.map_append, List.eraseDups_append, List.map_singleton]
  by_cases known : d.key scope ∈ declarations.map (·.key scope)
  · have nothing : [d.key scope].removeAll (declarations.map (·.key scope)) = [] := by
      simpa [List.removeAll] using known
    rw [insert_of_mem (by rw [keys]; exact eraseDups_nodup _)
      (by rw [keys]; exact List.mem_eraseDups.mpr known)]
    unfold gather
    rw [erased, nothing, List.eraseDups_nil, List.append_nil, List.map_map]
    refine List.map_congr_left fun key _ => ?_
    by_cases same : key = d.key scope
    · simp [same, List.filter_append]
    · simp [same, Ne.symm same, List.filter_append]
  · have itself : [d.key scope].removeAll (declarations.map (·.key scope)) = [d.key scope] := by
      simpa [List.removeAll] using known
    rw [insert_of_not_mem (by rw [keys]; exact fun found => known (List.mem_eraseDups.mp found))]
    unfold gather
    rw [erased, itself, List.map_append]
    have unmet : declarations.filter (fun other => other.key scope = d.key scope) = [] := by
      simpa using known
    congr 1
    · refine List.map_congr_left fun key member => ?_
      have different : ¬ d.key scope = key := fun same => known (same ▸ List.mem_eraseDups.mp member)
      simp [List.filter_append, different]
    · simp [List.eraseDups_cons, List.filter_append, unmet]

theorem foldl_insert (scope : ErasureScope) (before declarations : List Inherited) :
    declarations.foldl (fun groups d => insert (d.key scope) d groups) (gather scope before) =
      gather scope (before ++ declarations) := by
  induction declarations generalizing before with
  | nil => simp
  | cons d rest ih => rw [List.foldl_cons, insert_gather, ih, List.append_assoc, List.singleton_append]

theorem ofRoot_eq_gather (root : TypeModel) :
    ofRoot root = gather root.erasureScope (Inherited.all root) :=
  foldl_insert _ [] _

theorem mem_gather {scope : ErasureScope} {declarations : List Inherited} {group : MethodGroup} :
    group ∈ gather scope declarations ↔ (∃ d ∈ declarations, d.key scope = group.key) ∧
      group.declarations = declarations.filter fun d => d.key scope = group.key := by
  obtain ⟨key, members⟩ := group
  simp only [gather, List.mem_map, List.mem_eraseDups, mk.injEq]
  constructor
  · rintro ⟨_, found, rfl, rfl⟩
    exact ⟨found, rfl⟩
  · rintro ⟨found, members⟩
    exact ⟨key, found, rfl, members.symm⟩

theorem nearest?_mem {declarations : List Inherited} {d : Inherited}
    (nearest : Inherited.nearest? declarations = some d) : d ∈ declarations := by
  induction declarations generalizing d with
  | nil => simp [Inherited.nearest?] at nearest
  | cons first rest ih =>
    unfold Inherited.nearest? at nearest
    split at nearest
    · simp_all
    · split at nearest
      · simp_all
      · simp_all

/-- The declarations that an implementation has to satisfy are among those of the group. -/
theorem mem_of_mem_unsatisfied {group : MethodGroup} {d : Inherited}
    (member : d ∈ group.unsatisfied) : d ∈ group.declarations := by
  have specific : ∀ other ∈ group.fromInterfaces, other ∈ group.declarations := by
    intro other inside
    exact (List.mem_filter.mp (List.mem_filter.mp inside).1).1
  have chain : ∀ other, group.fromClass? = some other → other ∈ group.declarations := by
    intro other found
    exact (List.mem_filter.mp (nearest?_mem found)).1
  unfold unsatisfied at member
  split at member
  · rename_i other found
    split at member
    · rcases List.mem_cons.mp member with rfl | member
      · exact chain _ found
      · exact specific d member
    · simp at member
  · split at member
    · simp at member
    · split at member
      · rename_i only single
        split at member
        · exact specific d (single ▸ member)
        · simp at member
      · exact specific d member

end MethodGroup

/-- The declarations of a key that an implementation has to satisfy. -/
def TypeModel.candidates (root : TypeModel) (key : SignatureKey) : List Inherited :=
  MethodGroup.unsatisfied ⟨key, (Inherited.all root).filter fun d => d.key root.erasureScope = key⟩

/-- A method that is inherited is neither static nor private. -/
theorem Inherited.overridable {root : TypeModel} {d : Inherited} (member : d ∈ Inherited.all root) :
    d.method.isStatic = false ∧ d.method.access ≠ .privateAccess := by
  obtain ⟨node, _, inside⟩ := List.mem_flatMap.mp member
  obtain ⟨m, kept, rfl⟩ := List.mem_map.mp inside
  simpa [Method.subst] using (List.mem_filter.mp kept).2

/-- The key under which an obligation is owed. -/
def MethodObligation.key (root : TypeModel) (o : MethodObligation) : SignatureKey :=
  ⟨o.method.name, o.method.erasedParameters root.erasureScope⟩

namespace Collect

variable {lookup : QualName → Option TypeModel} {root : TypeModel}

/-- What a group leaves to implement, if its declarations agree. -/
def owed (lookup : QualName → Option TypeModel) (root : TypeModel) (group : MethodGroup) :
    Option MethodObligation :=
  match (resolve lookup root group).value with
  | .ok found => found
  | .error _ => none

/-- The entries that groups leave, in their order. -/
def entriesOf (lookup : QualName → Option TypeModel) (root : TypeModel)
    (groups : List MethodGroup) : List (SignatureKey × MethodObligation) :=
  groups.filterMap fun group => (owed lookup root group).map (group.key, ·)

/-- What candidates agree on, in the terms of the first. -/
def agreement (lookup : QualName → Option TypeModel) (root : TypeModel) (base : Inherited)
    (others : List Inherited) : Except ConflictReason Contract :=
  let known := knowledgeFor lookup root base.method
  (agree known (contracts known base.method (base :: others)).value).value

/-- The obligation that candidates leave once they agree: the first stands for all. -/
def obligationOf (base : Inherited) (others : List Inherited) (contract : Contract) :
    MethodObligation where
  method := base.method
  result := contract.result
  throwing := contract.throwing
  access := others.foldl (fun access d => access.wider d.method.access) base.method.access
  depth := base.depth

theorem resolve_value_nil {group : MethodGroup} (satisfied : group.unsatisfied = []) :
    (resolve lookup root group).value = .ok none := by
  unfold resolve
  rw [satisfied]
  rfl

theorem resolve_value_cons {group : MethodGroup} {base : Inherited} {others : List Inherited}
    (unsatisfied : group.unsatisfied = base :: others) :
    (resolve lookup root group).value =
      match invisible? root (base :: others) with
      | some refusal => .error (.refused refusal)
      | none =>
        match agreement lookup root base others with
        | .error reason => .error (.conflict group.key reason)
        | .ok contract => .ok (some (obligationOf base others contract)) := by
  unfold resolve
  rw [unsatisfied]
  dsimp only
  cases invisible? root (base :: others) with
  | some refusal => rfl
  | none =>
    simp only [Inquiry.value_bind, agreement]
    generalize (agree (knowledgeFor lookup root base.method) (contracts (knowledgeFor lookup root
      base.method) base.method (base :: others)).value).value = outcome
    cases outcome with
    | error reason => rfl
    | ok contract => rfl

/-- Whatever is left to implement comes from candidates that are all visible and agree. -/
theorem resolve_value_some {group : MethodGroup} {o : MethodObligation}
    (resolved : (resolve lookup root group).value = .ok (some o)) :
    ∃ base others contract, group.unsatisfied = base :: others ∧
      invisible? root (base :: others) = none ∧ agreement lookup root base others = .ok contract ∧
      o = obligationOf base others contract := by
  cases unsatisfied : group.unsatisfied with
  | nil => simp [resolve_value_nil unsatisfied] at resolved
  | cons base others =>
    rw [resolve_value_cons unsatisfied] at resolved
    split at resolved
    · simp at resolved
    · rename_i visible
      split at resolved
      · simp at resolved
      · rename_i contract agreed
        simp only [Except.ok.injEq, Option.some.injEq] at resolved
        exact ⟨base, others, contract, rfl, visible, agreed, resolved.symm⟩

theorem owed_eq_some {group : MethodGroup} {o : MethodObligation} :
    owed lookup root group = some o ↔ (resolve lookup root group).value = .ok (some o) := by
  unfold owed
  cases (resolve lookup root group).value <;> simp

/-- A settled group owes something if and only if it is not satisfied. -/
theorem exists_owed_iff {group : MethodGroup}
    (settled : (resolve lookup root group).value = .ok (owed lookup root group)) :
    (∃ o, owed lookup root group = some o) ↔ group.unsatisfied ≠ [] := by
  constructor
  · rintro ⟨o, owes⟩ satisfied
    rw [resolve_value_nil satisfied, owes] at settled
    cases settled
  · intro unsatisfied
    obtain ⟨base, others, candidates⟩ := List.exists_cons_of_ne_nil unsatisfied
    rw [resolve_value_cons candidates] at settled
    split at settled
    · cases settled
    · split at settled
      · cases settled
      · exact ⟨_, (Except.ok.inj settled).symm⟩

theorem resolveAll_value {groups : List MethodGroup}
    {entries : List (SignatureKey × MethodObligation)} :
    (resolveAll lookup root groups).value = .ok entries ↔
      (∀ group ∈ groups, (resolve lookup root group).value = .ok (owed lookup root group)) ∧
        entries = entriesOf lookup root groups := by
  induction groups generalizing entries with
  | nil => simp [resolveAll, entriesOf, eq_comm]
  | cons group groups ih =>
    simp only [resolveAll, Inquiry.value_bind]
    cases first : (resolve lookup root group).value with
    | error error => simp [first]
    | ok found =>
      have left : owed lookup root group = found := by simp [owed, first]
      simp only [Inquiry.value_bind]
      cases rest : (resolveAll lookup root groups).value with
      | error error =>
        have none := @ih (entriesOf lookup root groups)
        simp only [rest, reduceCtorEq, false_iff, not_and, not_true_eq_false, imp_false] at none
        simp only [Inquiry.value_pure, reduceCtorEq, List.mem_cons, forall_eq_or_imp, false_iff,
          not_and]
        exact fun both => absurd both.2 none
      | ok tail =>
        obtain ⟨all, same⟩ := ih.mp rest
        subst same
        have entriesCons : entriesOf lookup root (group :: groups) =
            (found.map (group.key, ·)).toList ++ entriesOf lookup root groups := by
          cases found <;> simp [entriesOf, left]
        simp only [Inquiry.value_pure, Except.ok.injEq, List.mem_cons, forall_eq_or_imp, first, left,
          true_and, entriesCons, eq_comm (b := entries)]
        exact ⟨fun same => ⟨all, same⟩, fun both => both.2⟩

theorem mem_entriesOf {groups : List MethodGroup} {entry : SignatureKey × MethodObligation} :
    entry ∈ entriesOf lookup root groups ↔
      ∃ group ∈ groups, group.key = entry.1 ∧ owed lookup root group = some entry.2 := by
  obtain ⟨key, o⟩ := entry
  simp only [entriesOf, List.mem_filterMap, Option.map_eq_some_iff, Prod.mk.injEq]
  constructor
  · rintro ⟨group, member, _, owes, rfl, rfl⟩
    exact ⟨group, member, rfl, owes⟩
  · rintro ⟨group, member, rfl, owes⟩
    exact ⟨group, member, o, owes, rfl, rfl⟩

theorem keys_entriesOf (groups : List MethodGroup) :
    ((entriesOf lookup root groups).map Prod.fst).Sublist (groups.map MethodGroup.key) := by
  induction groups with
  | nil => simp [entriesOf]
  | cons group groups ih =>
    unfold entriesOf at ih ⊢
    cases owes : owed lookup root group with
    | none => simpa [owes] using ih.cons group.key
    | some o => simpa [owes] using ih.cons_cons group.key

/-- What stands behind an entry: the unsatisfied candidates of its key, all of them inherited. -/
theorem entry_candidates {entry : SignatureKey × MethodObligation}
    (member : entry ∈ entriesOf lookup root (MethodGroup.ofRoot root)) :
    ∃ base others contract, entry.2 = obligationOf base others contract ∧
      agreement lookup root base others = .ok contract ∧
      ∀ d ∈ base :: others, d ∈ Inherited.all root ∧ d.key root.erasureScope = entry.1 := by
  obtain ⟨group, found, sameKey, owes⟩ := mem_entriesOf.mp member
  obtain ⟨base, others, contract, unsatisfied, _, agreed, value⟩ :=
    resolve_value_some (owed_eq_some.mp owes)
  refine ⟨base, others, contract, value, agreed, fun d candidate => ?_⟩
  have declared : d ∈ group.declarations :=
    MethodGroup.mem_of_mem_unsatisfied (unsatisfied ▸ candidate)
  rw [MethodGroup.ofRoot_eq_gather] at found
  rw [(MethodGroup.mem_gather.mp found).2, List.mem_filter, sameKey] at declared
  exact ⟨declared.1, by simpa using declared.2⟩

/-- An entry is owed under the key of its own method. -/
theorem entry_key {entry : SignatureKey × MethodObligation}
    (member : entry ∈ entriesOf lookup root (MethodGroup.ofRoot root)) :
    entry.2.key root = entry.1 := by
  obtain ⟨base, others, contract, value, _, inherited⟩ := entry_candidates member
  rw [value, ← (inherited base (List.mem_cons_self ..)).2]
  rfl

theorem wider_ne_private {a : Access} (visible : a ≠ .privateAccess) (b : Access) :
    a.wider b ≠ .privateAccess := by
  cases a <;> cases b <;> simp_all [Access.wider, Access.rank]

theorem foldl_wider_ne_private {a : Access} (visible : a ≠ .privateAccess) (others : List Inherited) :
    others.foldl (fun access d => access.wider d.method.access) a ≠ .privateAccess := by
  induction others generalizing a with
  | nil => exact visible
  | cons d others ih => exact ih (wider_ne_private visible _)

theorem entry_overridable {entry : SignatureKey × MethodObligation}
    (member : entry ∈ entriesOf lookup root (MethodGroup.ofRoot root)) :
    entry.2.method.isStatic = false ∧ entry.2.access ≠ .privateAccess := by
  obtain ⟨base, others, contract, value, _, inherited⟩ := entry_candidates member
  obtain ⟨dynamic, visible⟩ := Inherited.overridable (inherited base (List.mem_cons_self ..)).1
  rw [value]
  exact ⟨dynamic, foldl_wider_ne_private visible others⟩

/-- No key is owed twice. -/
theorem keys_distinct :
    ((entriesOf lookup root (MethodGroup.ofRoot root)).map Prod.fst).Nodup := by
  have keys := @keys_entriesOf lookup root (MethodGroup.ofRoot root)
  refine keys.nodup ?_
  rw [MethodGroup.ofRoot_eq_gather, MethodGroup.keys_gather]
  exact eraseDups_nodup _

end Collect

/-- Collecting succeeds if the root is accepted, its constructors can be forwarded and every group
is settled; then the sorted entries follow the constructors. -/
theorem obligations_value {lookup : QualName → Option TypeModel} {root : TypeModel}
    {obs : List Obligation} :
    (obligations lookup root).value = .ok obs ↔ root.refusal? = none ∧
      ∃ constructors entries, root.constructorObligations = .ok constructors ∧
        (Collect.resolveAll lookup root (MethodGroup.ofRoot root)).value = .ok entries ∧
        obs = constructors.map .constructor ++
          (entries.mergeSort Collect.comesBefore).map fun entry => .method entry.2 := by
  unfold obligations
  cases root.refusal? with
  | some refusal => simp
  | none =>
    cases root.constructorObligations with
    | error error => simp
    | ok constructors =>
      simp only [Inquiry.value_bind, true_and, Except.ok.injEq, exists_and_left, exists_eq_left']
      cases (Collect.resolveAll lookup root (MethodGroup.ofRoot root)).value <;> simp [eq_comm]

namespace Obligation

def method? : Obligation → Option MethodObligation
  | .method o => some o
  | .constructor _ => none

def constructor? : Obligation → Option Constructor
  | .constructor c => some c
  | .method _ => none

theorem filterMap_parts (constructors : List Constructor) (methods : List MethodObligation) :
    (constructors.map constructor ++ methods.map method).filterMap constructor? = constructors ∧
      (constructors.map constructor ++ methods.map method).filterMap method? = methods := by
  simp [List.filterMap_append, List.filterMap_map, Function.comp_def, constructor?, method?]

end Obligation

/-- The constructors among obligations. -/
def constructorsOf (obs : List Obligation) : List Constructor := obs.filterMap Obligation.constructor?

/-- The methods among obligations. -/
def methodsOf (obs : List Obligation) : List MethodObligation := obs.filterMap Obligation.method?

/-- What collecting returns, taken apart: constructors to forward and sorted entries. -/
theorem collected_parts {lookup : QualName → Option TypeModel} {root : TypeModel}
    {obs : List Obligation} (collected : (obligations lookup root).value = .ok obs) :
    root.refusal? = none ∧ root.constructorObligations = .ok (constructorsOf obs) ∧
      ∃ entries, (Collect.resolveAll lookup root (MethodGroup.ofRoot root)).value = .ok entries ∧
        methodsOf obs = (entries.mergeSort Collect.comesBefore).map Prod.snd := by
  obtain ⟨accepted, constructors, entries, forwardable, resolved, rfl⟩ :=
    obligations_value.mp collected
  obtain ⟨constructorsEq, methodsEq⟩ := Obligation.filterMap_parts constructors
    ((entries.mergeSort Collect.comesBefore).map Prod.snd)
  rw [List.map_map] at constructorsEq methodsEq
  exact ⟨accepted, forwardable.trans (congrArg _ constructorsEq.symm), entries, resolved, methodsEq⟩

/-- Constructors come before methods. -/
theorem collected_order {lookup : QualName → Option TypeModel} {root : TypeModel}
    {obs : List Obligation} (collected : (obligations lookup root).value = .ok obs) :
    obs = (constructorsOf obs).map .constructor ++ (methodsOf obs).map .method := by
  obtain ⟨_, constructors, entries, _, _, rfl⟩ := obligations_value.mp collected
  have parts := Obligation.filterMap_parts constructors
    ((entries.mergeSort Collect.comesBefore).map Prod.snd)
  rw [List.map_map] at parts
  rw [constructorsOf, methodsOf, show (fun entry : SignatureKey × MethodObligation =>
    Obligation.method entry.2) = Obligation.method ∘ Prod.snd from rfl, parts.1, parts.2, List.map_map]

theorem methodsOf_nodup {lookup : QualName → Option TypeModel} {root : TypeModel}
    {obs : List Obligation} (collected : (obligations lookup root).value = .ok obs) :
    (methodsOf obs).Nodup := by
  obtain ⟨_, _, entries, resolved, methods⟩ := collected_parts collected
  obtain ⟨_, rfl⟩ := Collect.resolveAll_value.mp resolved
  have sorted := List.mergeSort_perm (Collect.entriesOf lookup root (MethodGroup.ofRoot root))
    Collect.comesBefore
  have keys := (sorted.map Prod.fst).nodup_iff.mpr Collect.keys_distinct
  rw [methods]
  refine List.Nodup.map_on (fun a inA b inB same => ?_) (List.Nodup.of_map _ keys)
  refine List.inj_on_of_nodup_map keys inA inB ?_
  rw [← Collect.entry_key (List.mem_mergeSort.mp inA), same,
    Collect.entry_key (List.mem_mergeSort.mp inB)]

end JavaStubs
