import JavaStubs.Proofs.Resolver.Transparency
import Mathlib.Data.List.Chain

namespace JavaStubs

theorem bind_eq_error {ε α β : Type} {first : Except ε α} {next : α → Except ε β} {e : ε}
    (failed : first >>= next = .error e) :
    first = .error e ∨ ∃ a, first = .ok a ∧ next a = .error e := by
  cases first with
  | error e' =>
    cases failed
    exact Or.inl rfl
  | ok a => exact Or.inr ⟨a, rfl, failed⟩

theorem mapM_eq_error {ε α β : Type} {f : α → Except ε β} {items : List α} {e : ε}
    (failed : items.mapM f = .error e) : ∃ a ∈ items, f a = .error e := by
  induction items with
  | nil => cases failed
  | cons a items ih =>
    rw [List.mapM_cons] at failed
    rcases bind_eq_error failed with here | ⟨b, _, failed⟩
    · exact ⟨a, List.mem_cons_self .., here⟩
    · rcases bind_eq_error failed with later | ⟨rest, _, impossible⟩
      · obtain ⟨other, member, there⟩ := ih later
        exact ⟨other, List.mem_cons_of_mem _ member, there⟩
      · cases impossible

namespace Linking

/-- A call for a name below names in progress makes a call for every reference of the name, unless
the name is itself in progress. -/
def Calls (load : QualName → Except ResolveError Descriptor)
    (inner outer : List QualName × QualName) : Prop :=
  outer.2 ∉ outer.1 ∧ Refers load outer.2 inner.2 ∧ inner.1 = outer.1 ++ [outer.2]

/-- A walk along references that ends at a name it has been to before. -/
structure Loop (load : QualName → Except ResolveError Descriptor) (name : QualName)
    (path : List QualName) : Prop where
  starts : path.head? = some name
  follows : path.IsChain (Refers load)
  returns : ∃ before last, path = before ++ [last] ∧ last ∈ before

variable {load : QualName → Except ResolveError Descriptor} {limit fuel fuel' : Nat}
  {progress path : List QualName} {name : QualName}

/-- Every chain of nested calls comes to an end. -/
theorem calls_acc (supply : Supply load limit) (room : Room load limit fuel progress)
    (name : QualName) : Acc (Calls load) (progress, name) := by
  induction fuel generalizing progress name with
  | zero =>
    obtain ⟨_, impossible⟩ := room.exists_succ supply
    cases impossible
  | succ fuel ih =>
    -- The fuel only counts here: each call takes one more described name into progress.
    refine .intro _ fun inner call => ?_
    obtain ⟨within, target⟩ := inner
    obtain ⟨fresh, ⟨d, loaded, _⟩, rfl⟩ := call
    exact ih (room.step fresh loaded) target

/-- Fuel that lasts has no part in the outcome. -/
theorem link_fuel (supply : Supply load limit) (room : Room load limit fuel progress)
    (room' : Room load limit fuel' progress) : link load fuel progress = link load fuel' progress := by
  induction fuel generalizing fuel' progress with
  | zero =>
    obtain ⟨_, impossible⟩ := room.exists_succ supply
    cases impossible
  | succ fuel ih =>
    obtain ⟨below, rfl⟩ := room'.exists_succ supply
    funext name cache
    unfold link
    split
    · rfl
    · split
      · rfl
      · rename_i fresh
        dsimp only
        split
        · rfl
        · rename_i d loaded
          rw [ih (room.step fresh loaded) (room'.step fresh loaded)]

theorem directAll_circular {anew : QualName → Except ResolveError TypeModel} {owner : QualName}
    {check : ClassRef → TypeModel → Except HierarchyFault Unit} {references : List ClassRef}
    (failed : directAll anew owner check references = .error (.circular path)) :
    ∃ reference ∈ references, anew reference.name = .error (.circular path) := by
  obtain ⟨reference, listed, failed⟩ := mapM_eq_error failed
  rcases bind_eq_error failed with here | ⟨target, _, failed⟩
  · exact ⟨reference, listed, here⟩
  · cases checked : check reference target with
    | error fault =>
      rw [checked] at failed
      cases failed
    | ok _ =>
      rw [checked] at failed
      cases failed

theorem directDescriptor_circular {anew : QualName → Except ResolveError TypeModel} {d : Descriptor}
    (failed : directDescriptor anew d = .error (.circular path)) :
    ∃ reference ∈ d.references, anew reference.name = .error (.circular path) := by
  rcases bind_eq_error failed with failed | ⟨superclass, _, failed⟩
  · obtain ⟨reference, above, failed⟩ := directAll_circular failed
    exact ⟨reference, List.mem_append_left _ above, failed⟩
  · rcases bind_eq_error failed with failed | ⟨interfaces, _, impossible⟩
    · obtain ⟨reference, listed, failed⟩ := directAll_circular failed
      exact ⟨reference, List.mem_append_right _ listed, failed⟩
    · cases impossible

/-- A reported cycle continues the walk to the name, up to a name that is met again. -/
theorem direct_circular (supply : Supply load limit)
    (described : ∀ name path, load name ≠ .error (.circular path))
    (room : Room load limit fuel progress) (walk : (progress ++ [name]).IsChain (Refers load))
    (failed : direct load fuel progress name = .error (.circular path)) :
    (progress ++ [name]) <+: path ∧ path.IsChain (Refers load) ∧
      ∃ before last, path = before ++ [last] ∧ last ∈ before := by
  induction fuel generalizing progress name with
  | zero =>
    obtain ⟨_, impossible⟩ := room.exists_succ supply
    cases impossible
  | succ fuel ih =>
    by_cases member : name ∈ progress
    · rw [direct_of_mem member] at failed
      cases failed
      exact ⟨List.prefix_rfl, walk, progress, name, rfl, member⟩
    · rw [direct_of_not_mem member] at failed
      rcases bind_eq_error failed with impossible | ⟨d, loaded, failed⟩
      · exact absurd impossible (described name path)
      · obtain ⟨reference, listed, failed⟩ := directDescriptor_circular failed
        have refers : Refers load name reference.name := ⟨d, loaded, reference, listed, rfl⟩
        have further : (progress ++ [name] ++ [reference.name]).IsChain (Refers load) := by
          rw [List.isChain_append]
          exact ⟨walk, .singleton _, by simpa using refers⟩
        obtain ⟨leads, rest⟩ := ih (room.step member loaded) further failed
        exact ⟨(List.prefix_append ..).trans leads, rest⟩

end Linking

namespace Source

/-- Reading a description is not what finds cycles. -/
theorem load_ne_circular {fs : FileSystem} {source : Source} {name : QualName}
    {path : List QualName} : source.load fs name ≠ .error (.circular path) := by
  have mapped {ε α : Type} {f : ε → ResolveError} {first : Except ε α}
      (other : ∀ e, f e ≠ .circular path) : first.mapError f ≠ .error (.circular path) := by
    cases first with
    | error e => exact fun same => other e (Except.error.inj same)
    | ok a => exact nofun
  intro failed
  cases source with
  | inMemory label types => cases failed
  | directory root =>
    unfold load at failed
    dsimp only at failed
    split at failed
    · cases read : readFile fs (pathFor root name) name with
      | ok d =>
        rw [read] at failed
        cases failed
      | error e =>
        rw [read] at failed
        cases failed
        unfold readFile at read
        rcases bind_eq_error read with failed | ⟨text, _, read⟩
        · exact mapped (by simp) failed
        · rcases bind_eq_error read with failed | ⟨d, _, read⟩
          · exact mapped (by simp) failed
          · dsimp only at read
            split at read
            · cases read
            · rcases bind_eq_error read with failed | ⟨_, _, impossible⟩
              · exact mapped (by simp) failed
              · cases impossible
    · cases failed

theorem loadFirst_ne_circular {fs : FileSystem} {sources : List Source} (name : QualName)
    (path : List QualName) : loadFirst fs sources name ≠ .error (.circular path) := by
  induction sources with
  | nil => exact nofun
  | cons source sources ih =>
    intro failed
    unfold loadFirst at failed
    rcases bind_eq_error failed with failed | ⟨answer, _, failed⟩
    · exact load_ne_circular failed
    · cases answer with
      | none => exact ih failed
      | some d => cases failed

end Source

namespace Resolver

/-- Looking names up keeps the cache faithful and the sources as they are. -/
theorem consult_faithful (fs : FileSystem) (resolver : Resolver) (names : List QualName)
    (faithful : Linking.Faithful (Source.loadFirst fs resolver.sources) resolver.cache) :
    (resolver.consult fs names).sources = resolver.sources ∧
      Linking.Faithful (Source.loadFirst fs resolver.sources) (resolver.consult fs names).cache := by
  induction names generalizing resolver with
  | nil => exact ⟨rfl, faithful⟩
  | cons name names ih => exact ih _ (resolve_follows fs resolver name faithful).2

end Resolver

/-- Resolving ends, with fuel to spare; it succeeds exactly if the hierarchy above the name is
sound; and a cycle that it reports is a walk along references from the name that returns to where it
has been. -/
theorem resolve_ok_iff_linkable (fs : FileSystem) (sources : List Source) (asked : List QualName)
    (name : QualName) :
    let resolver := Resolver.consult fs { sources } asked
    let load := Source.loadFirst fs sources
    (Acc (Linking.Calls load) ([], name) ∧ ∀ extra,
        Linking.link load (resolver.fuel fs + extra) [] name resolver.cache =
          Linking.link load (resolver.fuel fs) [] name resolver.cache) ∧
      ((∃ model, (resolver.resolve fs name).1 = .ok model) ↔ Linking.Linkable load name) ∧
      ∀ path, (resolver.resolve fs name).1 = .error (.circular path) →
        Linking.Loop load name path := by
  intro resolver load
  obtain ⟨same, faithful⟩ := Resolver.consult_faithful fs { sources } asked
    (by simp [Linking.Faithful])
  have supply : Linking.Supply load (resolver.fuel fs) := by
    rw [show load = Source.loadFirst fs resolver.sources by rw [same]]
    exact Source.loadFirst_supply fs resolver.sources
  have room : Linking.Room load (resolver.fuel fs) (resolver.fuel fs) [] := Resolver.room_nil _
  have answer : (resolver.resolve fs name).1 = Linking.direct load (resolver.fuel fs) [] name := by
    rw [(Resolver.resolve_follows fs resolver name (by rw [same]; exact faithful)).1, same]
  refine ⟨⟨Linking.calls_acc supply room name, fun extra => ?_⟩, ⟨?_, fun linkable => ?_⟩, ?_⟩
  · have more : Linking.Room load (resolver.fuel fs) (resolver.fuel fs + extra) [] :=
      ⟨.nil, by simp, by simp⟩
    rw [Linking.link_fuel supply more room]
  · rintro ⟨model, resolved⟩
    exact Linking.linkable_of_direct (answer.symm.trans resolved)
  · obtain ⟨model, linked⟩ := Linking.exists_direct supply linkable room (by simp)
    exact ⟨model, answer.trans linked⟩
  · intro path failed
    obtain ⟨starts, follows, returns⟩ := Linking.direct_circular supply
      Source.loadFirst_ne_circular room (.singleton name) (answer.symm.trans failed)
    obtain ⟨rest, rfl⟩ := starts
    exact ⟨rfl, follows, returns⟩

end JavaStubs
