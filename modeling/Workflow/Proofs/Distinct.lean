import Mathlib.Data.List.Nodup

/-!
# Lists without repetitions

Ids, ports, labels and keys occur once in the lists that they are looked up in. Dropping
repetitions makes such a list, and in such a list what is found under a key is all there is.
-/

namespace Workflow

theorem eraseDups_eq_self_of_nodup {α : Type} [DecidableEq α] {xs : List α} (h : xs.Nodup) :
    xs.eraseDups = xs := by
  induction xs with
  | nil => rfl
  | cons x rest ih =>
    obtain ⟨hx, hrest⟩ := List.nodup_cons.mp h
    have hsame : rest.filter (fun y => !y == x) = rest := by
      refine List.filter_eq_self.mpr fun y hy => ?_
      simp only [Bool.not_eq_eq_eq_not, Bool.not_true, beq_eq_false_iff_ne]
      rintro rfl
      exact hx hy
    rw [List.eraseDups_cons, hsame, ih hrest]

theorem nodup_eraseDups {α : Type} [DecidableEq α] (xs : List α) : xs.eraseDups.Nodup := by
  match xs with
  | [] => exact List.nodup_nil
  | x :: rest =>
    have hshorter : (rest.filter fun y => !y == x).length ≤ rest.length := List.length_filter_le _ _
    rw [List.eraseDups_cons]
    refine List.nodup_cons.mpr ⟨?_, nodup_eraseDups _⟩
    simp [List.mem_eraseDups]
termination_by xs.length

/-- Erasing the element with a key from a list in which keys occur once drops nothing else. -/
theorem eraseP_eq_filter_of_nodup {α κ : Type} [DecidableEq κ] {key : α → κ} {xs : List α}
    (h : (xs.map key).Nodup) (k : κ) :
    xs.eraseP (fun x => key x == k) = xs.filter fun x => key x != k := by
  induction xs with
  | nil => rfl
  | cons x rest ih =>
    obtain ⟨hx, hrest⟩ := List.nodup_cons.mp h
    by_cases hk : key x = k
    · have hsame : rest.filter (fun y => key y != k) = rest := by
        refine List.filter_eq_self.mpr fun y hy => ?_
        simp only [bne_iff_ne, ne_eq]
        intro hyk
        exact hx (List.mem_map.mpr ⟨y, hy, hyk.trans hk.symm⟩)
      simp [hk, hsame]
    · simp [hk, ih hrest]

/-- In a list in which keys occur once, at most one element has a given key. -/
theorem length_filter_le_one_of_nodup {α κ : Type} [DecidableEq κ] {key : α → κ} {xs : List α}
    (h : (xs.map key).Nodup) (k : κ) : (xs.filter (key · == k)).length ≤ 1 := by
  have hcount : (xs.map key).count k = (xs.filter (key · == k)).length := by
    rw [List.count, List.countP_map, List.countP_eq_length_filter]
    rfl
  exact hcount ▸ List.nodup_iff_count_le_one.mp h k

/-- A list whose last element is moved to its front is the same list only if it is that element. -/
theorem getLast?_append_dropLast_eq_iff {α : Type} {xs : List α} (h : xs.Nodup) :
    xs.getLast?.toList ++ xs.dropLast = xs ↔ xs.length ≤ 1 := by
  obtain rfl | ⟨inner, last, rfl⟩ := List.eq_nil_or_concat xs
  · simp
  · rw [List.concat_eq_append, List.nodup_append] at h
    rw [List.concat_eq_append, List.getLast?_concat, List.dropLast_concat]
    obtain _ | ⟨first, inner⟩ := inner
    · simp
    · have hne : first ≠ last := h.2.2 first List.mem_cons_self last (List.mem_singleton_self last)
      simp [hne.symm]

/-- Under keys that occur once, a list falls into parts: put one behind the other they hold the
elements with one of the keys. -/
theorem flatMap_filter_perm {α κ : Type} [DecidableEq κ] {key : α → κ} {keys : List κ}
    (h : keys.Nodup) (xs : List α) :
    (keys.flatMap fun k => xs.filter (key · == k)).Perm
      (xs.filter fun x => decide (key x ∈ keys)) := by
  induction keys with
  | nil => simp
  | cons k keys ih =>
    obtain ⟨hk, hkeys⟩ := List.nodup_cons.mp h
    let found := xs.filter fun x => decide (key x ∈ k :: keys)
    have hwith : found.filter (key · == k) = xs.filter (key · == k) := by
      rw [List.filter_filter]
      refine List.filter_congr fun x _ => ?_
      by_cases hx : key x = k <;> simp [hx]
    have hwithout : found.filter (fun x => !(key x == k)) =
        xs.filter fun x => decide (key x ∈ keys) := by
      rw [List.filter_filter]
      refine List.filter_congr fun x _ => ?_
      by_cases hx : key x = k <;> simp [hx, hk]
    have hparts := List.filter_append_perm (key · == k) found
    rw [hwith, hwithout] at hparts
    rw [List.flatMap_cons]
    exact ((ih hkeys).append_left _).trans hparts

end Workflow
