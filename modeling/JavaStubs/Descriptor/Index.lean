import JavaStubs.Descriptor.Basic
import JavaStubs.Descriptor.Error

namespace JavaStubs

/-- Descriptors in the order they were added, each name once. -/
structure DescriptorIndex where
  descriptors : List Descriptor := []
  distinct : (descriptors.map Descriptor.name).Nodup := by simp

namespace DescriptorIndex

def empty : DescriptorIndex := {}

def get? (index : DescriptorIndex) (name : QualName) : Option Descriptor :=
  index.descriptors.find? (·.name = name)

def contains (index : DescriptorIndex) (name : QualName) : Bool :=
  index.descriptors.any (·.name = name)

theorem contains_eq_false_iff {index : DescriptorIndex} {name : QualName} :
    index.contains name = false ↔ name ∉ index.descriptors.map Descriptor.name := by
  simp [contains]

def size (index : DescriptorIndex) : Nat := index.descriptors.length

def add (index : DescriptorIndex) (d : Descriptor) : Except DescriptorError DescriptorIndex :=
  match known : index.contains d.name with
  | true => .error (.duplicate "type" d.name.text)
  | false => .ok {
      descriptors := index.descriptors ++ [d]
      distinct := by
        rw [List.map_append, List.nodup_append]
        refine ⟨index.distinct, by simp, ?_⟩
        intro name member other new
        have fresh := contains_eq_false_iff.mp known
        simp only [List.map_cons, List.map_nil, List.mem_singleton] at new
        subst new
        exact fun same => fresh (same ▸ member) }

def ofList (descriptors : List Descriptor) : Except DescriptorError DescriptorIndex :=
  descriptors.foldlM add empty

end DescriptorIndex

end JavaStubs
