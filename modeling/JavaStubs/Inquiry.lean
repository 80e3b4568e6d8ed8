import JavaStubs.Name

namespace JavaStubs

/-- An answer that depends on looking types up by name, and the names it asked for, in order. -/
structure Inquiry (α : Type) where
  value : α
  asked : List QualName := []

namespace Inquiry

instance : Monad Inquiry where
  pure value := { value }
  bind first next :=
    let second := next first.value
    ⟨second.value, first.asked ++ second.asked⟩

@[simp] theorem value_pure {α : Type} (a : α) : (pure a : Inquiry α).value = a := rfl

@[simp] theorem value_bind {α β : Type} (first : Inquiry α) (next : α → Inquiry β) :
    (first >>= next).value = (next first.value).value := rfl

@[simp] theorem value_map {α β : Type} (f : α → β) (inquiry : Inquiry α) :
    (f <$> inquiry).value = f inquiry.value := rfl

@[simp] theorem value_anyM {α : Type} (p : α → Inquiry Bool) (items : List α) :
    (items.anyM p).value = items.any fun a => (p a).value := by
  induction items with
  | nil => rfl
  | cons a items ih =>
    simp only [List.anyM, value_bind, List.any_cons]
    cases (p a).value <;> simp [ih]

@[simp] theorem value_allM {α : Type} (p : α → Inquiry Bool) (items : List α) :
    (items.allM p).value = items.all fun a => (p a).value := by
  induction items with
  | nil => rfl
  | cons a items ih =>
    simp only [List.allM, value_bind, List.all_cons]
    cases (p a).value <;> simp [ih]

@[simp] theorem value_findM? {α : Type} (p : α → Inquiry Bool) (items : List α) :
    (items.findM? p).value = items.find? fun a => (p a).value := by
  induction items with
  | nil => rfl
  | cons a items ih =>
    simp only [List.findM?, value_bind, List.find?_cons]
    cases (p a).value <;> simp [ih]

end Inquiry

end JavaStubs
