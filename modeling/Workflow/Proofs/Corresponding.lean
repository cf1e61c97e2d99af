import Mathlib.Data.List.Forall2

/-!
# Lists that correspond item by item

Records and the nodes that they describe, tokens and what is left of them, a graph and the same
graph under other names: two lists of one length whose items are related in order. What can be
said of related items is said of the lists.
-/

namespace Workflow

variable {α β γ : Type} {R : α → β → Prop} {xs : List α} {ys : List β}

/-- What is the same of related elements is the same of related lists. -/
theorem map_eq_map_of_forall₂ {f : α → γ} {f' : β → γ} (h : List.Forall₂ R xs ys)
    (hf : ∀ {x y}, R x y → f x = f' y) : xs.map f = ys.map f' := by
  induction h with
  | nil => rfl
  | cons hxy _ ih => simp [hf hxy, ih]

theorem forall_mem_iff_of_forall₂ {P : α → Prop} {Q : β → Prop} (h : List.Forall₂ R xs ys)
    (hPQ : ∀ {x y}, R x y → (P x ↔ Q y)) : (∀ x ∈ xs, P x) ↔ ∀ y ∈ ys, Q y := by
  induction h with
  | nil => simp
  | cons hxy _ ih => simp [hPQ hxy, ih]

/-- Elements that are searched for alike are found at the same place of related lists. -/
theorem map_find?_of_forall₂ {p : α → Bool} {q : β → Bool} {f : α → γ} {f' : β → γ}
    (h : List.Forall₂ R xs ys) (hpq : ∀ {x y}, R x y → p x = q y)
    (hf : ∀ {x y}, R x y → f x = f' y) : (xs.find? p).map f = (ys.find? q).map f' := by
  induction h with
  | nil => rfl
  | @cons x y xs ys hxy _ ih =>
    rw [List.find?_cons, List.find?_cons, hpq hxy]
    cases q y with
    | true => exact congrArg some (hf hxy)
    | false => exact ih

/-- Elements that are selected alike and read off alike make the same list. -/
theorem map_filter_of_forall₂ {p : α → Bool} {q : β → Bool} {f : α → γ} {f' : β → γ}
    (h : List.Forall₂ R xs ys) (hpq : ∀ {x y}, R x y → p x = q y)
    (hf : ∀ {x y}, R x y → f x = f' y) : (xs.filter p).map f = (ys.filter q).map f' := by
  induction h with
  | nil => rfl
  | @cons x y xs ys hxy _ ih =>
    rw [List.filter_cons, List.filter_cons, hpq hxy]
    cases q y with
    | true => simp [hf hxy, ih]
    | false => simp [ih]

/-- The elements on the left of a correspondence are those of the list. -/
theorem forall₂_with_mem (h : List.Forall₂ R xs ys) :
    List.Forall₂ (fun x y => x ∈ xs ∧ R x y) xs ys :=
  (List.forall₂_and_left xs ys).mpr ⟨fun _ hx => hx, h⟩

end Workflow
