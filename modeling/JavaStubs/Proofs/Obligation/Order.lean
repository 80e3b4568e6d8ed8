import JavaStubs.Obligation.Collect

namespace JavaStubs

namespace Collect

/-- Depth, then name, then erased parameters as written. -/
def compareEntries : SignatureKey × MethodObligation → SignatureKey × MethodObligation → Ordering :=
  compareLex (compareOn (·.2.depth))
    (compareLex (compareOn (·.1.name)) (compareOn (·.1.parameters.map Ty.render)))

theorem comesBefore_eq (a b : SignatureKey × MethodObligation) :
    comesBefore a b = (compareEntries a b).isLE := rfl

theorem comesBefore_trans (a b c : SignatureKey × MethodObligation) (first : comesBefore a b)
    (second : comesBefore b c) : comesBefore a c := by
  rw [comesBefore_eq] at first second ⊢
  unfold compareEntries at first second ⊢
  exact Std.TransCmp.isLE_trans first second

theorem compareEntries_swap (a b : SignatureKey × MethodObligation) :
    compareEntries b a = (compareEntries a b).swap := by
  unfold compareEntries
  exact Std.OrientedCmp.eq_swap

theorem comesBefore_total (a b : SignatureKey × MethodObligation) :
    comesBefore a b || comesBefore b a := by
  rw [comesBefore_eq, comesBefore_eq, compareEntries_swap a b]
  cases compareEntries a b <;> rfl

end Collect

/-- Where a sorted list is cut so that `a` fits in between, after all that come strictly before
it. -/
theorem cut_unique {α : Type} {le : α → α → Bool} {a : α} {before after before' after' : List α}
    (same : before ++ after = before' ++ after') (strict : ∀ b ∈ before, !le a b)
    (strict' : ∀ b ∈ before', !le a b) (above : ∀ b ∈ after, le a b)
    (above' : ∀ b ∈ after', le a b) : before = before' ∧ after = after' := by
  have taken {left right : List α} (low : ∀ b ∈ left, !le a b) (high : ∀ b ∈ right, le a b) :
      (left ++ right).takeWhile (!le a ·) = left := by
    rw [List.takeWhile_append_of_pos low]
    cases right with
    | nil => simp
    | cons b rest => simp [high b (List.mem_cons_self ..)]
  have fronts : before = before' := by
    rw [← taken strict above, ← taken strict' above', same]
  subst fronts
  exact ⟨rfl, List.append_cancel_left same⟩

/-- Sorting is stable, so it commutes with leaving entries out. -/
theorem filter_mergeSort {α : Type} {le : α → α → Bool} (p : α → Bool)
    (trans : ∀ a b c, le a b → le b c → le a c) (total : ∀ a b, le a b || le b a) (items : List α) :
    (items.mergeSort le).filter p = (items.filter p).mergeSort le := by
  induction items with
  | nil => simp
  | cons a rest ih =>
    obtain ⟨before, after, sorted, sortedRest, strict⟩ := List.mergeSort_cons trans total a rest
    rw [sortedRest, List.filter_append] at ih
    rw [sorted, List.filter_append]
    cases keep : p a with
    | false => simpa [keep] using ih
    | true =>
      obtain ⟨before', after', sorted', sortedRest', strict'⟩ :=
        List.mergeSort_cons trans total a (rest.filter p)
      rw [List.filter_cons_of_pos keep, List.filter_cons_of_pos keep, sorted']
      have order := List.pairwise_mergeSort trans total (a :: rest)
      have order' := List.pairwise_mergeSort trans total (a :: rest.filter p)
      rw [sorted] at order
      rw [sorted'] at order'
      have above := (List.pairwise_cons.mp (List.pairwise_append.mp order).2.1).1
      have above' := (List.pairwise_cons.mp (List.pairwise_append.mp order').2.1).1
      -- Both sides put `a` behind everything strictly before it in the same sorted list.
      have cuts := cut_unique (ih.trans sortedRest')
        (fun b member => strict b (List.mem_filter.mp member).1) strict'
        (fun b member => above b (List.mem_filter.mp member).1) above'
      rw [cuts.1, cuts.2]

end JavaStubs
