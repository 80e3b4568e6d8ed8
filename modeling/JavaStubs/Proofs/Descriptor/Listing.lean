import JavaStubs.Descriptor.Index
import JavaStubs.Descriptor.Validity
import JavaStubs.Proofs.Descriptor.Layout
import JavaStubs.Proofs.Markup.Concatenation

namespace JavaStubs

open Markup

/-- The text is one interface or class element, which declares a type that keeps the rules. -/
structure Describes (text : String) (d : Descriptor) : Prop where
  alone : ∃ element, (Document.parse text).elements = [element] ∧
    Descriptor.isTypeElement element = true
  read : Descriptor.parseOne text = .ok d
  valid : d.validate = .ok ()

namespace Descriptor

theorem parseOne_eq_ok {text : String} {d : Descriptor} :
    parseOne text = .ok d ↔ parseAll text = .ok [d] := by
  unfold parseOne
  constructor
  · intro read
    obtain ⟨all, written, read⟩ := bind_eq_ok read
    split at read
    · cases read
      exact written
    · cases read
  · intro written
    rw [written]
    rfl

end Descriptor

/-- The element of a text that describes a type is whole, and the type is read from it. -/
theorem Describes.exists_element {text : String} {d : Descriptor} (describes : Describes text d) :
    ∃ element, Lone text element ∧ Descriptor.isTypeElement element = true ∧
      Descriptor.ofElement element = .ok d := by
  obtain ⟨element, alone, declares⟩ := describes.alone
  have parsed := Descriptor.parseOne_eq_ok.mp describes.read
  obtain ⟨whole, _, progress, done, found⟩ := Descriptor.ofDocument_eq_ok.mp parsed
  rw [alone, List.foldlM_cons] at done
  obtain ⟨next, first, same⟩ := bind_eq_ok done
  cases same
  have notListing : element.name ≠ "types" := by
    intro types
    simp [Descriptor.isTypeElement, types] at declares
  rcases Descriptor.readTopLevel_first.mp first with ⟨types, _⟩ | ⟨types, _⟩ | ⟨_, d', own, rfl⟩
  · exact absurd types notListing
  · exact absurd types notListing
  · cases found
    have closed := Element.closed_iff.mp (Descriptor.ofElement_closed own)
    have document : Document.parse text = ⟨[element], none⟩ := by
      rw [← alone, ← whole]
    exact ⟨element, ⟨document, closed.1⟩, declares, own⟩

/-- Texts in a `types` element are read as the types that each of them describes. -/
theorem Descriptor.parseAll_inTypes {entries : List (String × Descriptor)} (some : entries ≠ [])
    (each : ∀ entry ∈ entries, Describes entry.1 entry.2) :
    parseAll (inTypes (entries.map Prod.fst)) = .ok (entries.map Prod.snd) := by
  obtain ⟨elements, both⟩ := exists_forall₂ fun entry member => (each entry member).exists_element
  have lone : List.Forall₂ Lone (entries.map Prod.fst) elements :=
    List.forall₂_map_left_iff.mpr (both.imp fun _ _ described => described.1)
  have declares : ∀ element ∈ elements, isTypeElement element = true := by
    intro element member
    obtain ⟨_, _, described⟩ := forall₂_left both.flip member
    exact described.2.1
  have own : elements.mapM ofElement = .ok (entries.map Prod.snd) := by
    rw [mapM_eq_ok_iff, List.forall₂_map_right_iff]
    exact (both.imp fun _ _ described => described.2.2).flip
  have listed : elements.foldlM readDeclared ⟨true, []⟩ = .ok ⟨true, entries.map Prod.snd⟩ :=
    (readAll_inTypes fun _ => rfl).mpr ⟨declares, _, own, rfl⟩
  have read : readTopLevel {} (.node ⟨"types", []⟩ elements .closed) =
      .ok ⟨true, entries.map Prod.snd⟩ :=
    readTopLevel_first.mpr (.inr (.inl ⟨rfl, .inl rfl, listed⟩))
  refine ofDocument_eq_ok.mpr ⟨?_, by simpa using some, ⟨true, entries.map Prod.snd⟩, ?_, rfl⟩
  · rw [parse_inTypes lone]
  · rw [parse_inTypes lone, List.foldlM_cons, read]
    rfl

namespace DescriptorIndex

theorem exists_add {index : DescriptorIndex} {d : Descriptor}
    (fresh : d.name ∉ index.descriptors.map Descriptor.name) :
    ∃ next, index.add d = .ok next ∧ next.descriptors = index.descriptors ++ [d] := by
  unfold add
  split
  · rename_i known
    rw [contains_eq_false_iff.mpr fresh] at known
    cases known
  · exact ⟨_, rfl, rfl⟩

theorem exists_addAll {descriptors : List Descriptor} {index : DescriptorIndex}
    (distinct : ((index.descriptors ++ descriptors).map Descriptor.name).Nodup) :
    ∃ final, descriptors.foldlM add index = .ok final ∧
      final.descriptors = index.descriptors ++ descriptors := by
  induction descriptors generalizing index with
  | nil => exact ⟨index, rfl, by simp⟩
  | cons d rest ih =>
    have fresh : d.name ∉ index.descriptors.map Descriptor.name := by
      rw [List.map_append, List.nodup_append] at distinct
      exact fun member => distinct.2.2 _ member _ (List.mem_map_of_mem (List.mem_cons_self ..)) rfl
    obtain ⟨next, added, listed⟩ := exists_add fresh
    have others : ((next.descriptors ++ rest).map Descriptor.name).Nodup := by
      rwa [listed, List.append_assoc, List.singleton_append]
    obtain ⟨final, done, all⟩ := ih others
    refine ⟨final, ?_, by rw [all, listed, List.append_assoc, List.singleton_append]⟩
    rw [List.foldlM_cons, added, ok_bind, done]

/-- Descriptors of different names make an index. -/
theorem exists_ofList {descriptors : List Descriptor}
    (distinct : (descriptors.map Descriptor.name).Nodup) :
    ∃ index, ofList descriptors = .ok index ∧ index.descriptors = descriptors := by
  have distinctAll : ((empty.descriptors ++ descriptors).map Descriptor.name).Nodup := distinct
  exact exists_addAll distinctAll

end DescriptorIndex

end JavaStubs
