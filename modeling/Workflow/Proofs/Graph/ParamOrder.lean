import Workflow.Definition.Compile
import Workflow.Proofs.Graph.Operation
import Workflow.Proofs.Json.Entries
import Workflow.Snapshot.Graph

/-!
# The order of params

A patch leaves the keys that it does not remove and puts new ones behind them, in its own order.
A removal moves the last key into the hole that it leaves, so the order of the keys that stay is
kept only as long as each removal meets one of the last two of the keys that are left.
-/

namespace Workflow

namespace Patch

/-- The keys of a node that a patch does not remove, in order. -/
def kept (p : Patch) (n : Node) : List String :=
  n.params.keys.filter fun key => decide (key ∉ p.removeParams)

/-- The keys of a patch that a node does not have or has lost by the patch, in order. -/
def added (p : Patch) (n : Node) : List String :=
  p.params.keys.filter fun key => decide (key ∉ p.kept n)

/-- What stays keeps its order, and what is new comes behind it in the order of the patch. -/
def KeepsOrder (p : Patch) (n : Node) : Prop := (p.apply n).params.keys = p.kept n ++ p.added n

instance (p : Patch) (n : Node) : Decidable (p.KeepsOrder n) :=
  inferInstanceAs (Decidable (_ = _))

/-- The patch with other removals. -/
def removing (p : Patch) (keys : List String) : Patch := { p with removeParams := keys }

variable {p : Patch} {n : Node}

theorem keys_params_apply (hn : n.params.keys.Nodup) (hpatch : p.params.keys.Nodup) :
    (p.apply n).params.keys = (n.params.removeAll p.removeParams).keys ++ p.added n := by
  have hleft := Json.Entries.keys_removeAll_perm hn p.removeParams
  change ((n.params.removeAll p.removeParams).insertAll p.params).keys = _
  rw [Json.Entries.keys_insertAll _ hpatch, added, kept]
  simp only [hleft.mem_iff]

/-- The order is kept exactly if the removals keep it. -/
theorem keepsOrder_iff (hn : n.params.keys.Nodup) (hpatch : p.params.keys.Nodup) :
    p.KeepsOrder n ↔ (n.params.removeAll p.removeParams).keys = p.kept n := by
  rw [KeepsOrder, keys_params_apply hn hpatch, List.append_cancel_right_eq]

/-- A patch leaves the keys that it does not remove, in some order, and puts the new ones behind
them in its own order. Those that it leaves keep their order through all of its removals exactly
if each removal meets a key behind which at most one of the keys that are left stands. A last
removal that meets another key puts the last of the keys in its place. -/
theorem order_kept_iff (hn : n.params.keys.Nodup) (hpatch : p.params.keys.Nodup) :
    (∃ stays, (p.apply n).params.keys = stays ++ p.added n ∧ stays.Perm (p.kept n)) ∧
    ((∀ done, done <+: p.removeParams → (p.removing done).KeepsOrder n) ↔
      ∀ before key after, p.removeParams = before ++ key :: after →
        ∀ front back, (p.removing before).kept n = front ++ key :: back → back.length ≤ 1) ∧
    ∀ before key front inner last, p.removeParams = before ++ [key] →
      (n.params.removeAll before).keys = front ++ key :: (inner ++ [last]) →
        (p.apply n).params.keys = front ++ last :: inner ++ p.added n := by
  refine ⟨⟨_, keys_params_apply hn hpatch, Json.Entries.keys_removeAll_perm hn _⟩, ?_, ?_⟩
  · have hkeeps (done : List String) : (p.removing done).KeepsOrder n ↔
        (n.params.removeAll done).keys = (p.removing done).kept n :=
      keepsOrder_iff hn hpatch
    simp only [hkeeps]
    exact Json.Entries.keys_removeAll_eq_filter_iff hn
  · intro before key front inner last hremove hkeys
    have hnodup := Json.Entries.nodup_keys_removeAll hn before
    have hfront : key ∉ front := fun hmem =>
      (List.nodup_append.mp (hkeys ▸ hnodup)).2.2 key hmem key List.mem_cons_self rfl
    rw [keys_params_apply hn hpatch, hremove, Json.Entries.removeAll_concat,
      Json.Entries.keys_remove hfront hkeys]
    simp

/-- A patch removes the last key, then one in front of the only one that is left behind it and
then one that is not there, and sets one key of the node and one that it has removed. -/
theorem order_kept_removing_last :
    let n := { Node.restore ⟨"n"⟩ .function none none with
      params := [("a", .null), ("b", .null), ("c", .null), ("d", .null)] }
    let p := { Patch.empty with
      params := [("e", .null), ("b", .null), ("c", .null)], removeParams := ["d", "b", "x"] }
    n.params.keys.Nodup ∧ p.params.keys.Nodup ∧ p.KeepsOrder n ∧
      (p.apply n).params.keys = ["a", "c", "e", "b"] := by
  intro n p
  have hn : n.params.keys.Nodup := by decide +kernel
  have hpatch : p.params.keys.Nodup := by decide +kernel
  obtain ⟨-, hkeeps, -⟩ := order_kept_iff hn hpatch
  have hlast : ∀ before key after, p.removeParams = before ++ key :: after →
      ∀ front back, (p.removing before).kept n = front ++ key :: back → back.length ≤ 1 := by
    intro before key after hremove front back hkept
    obtain _ | ⟨_, _ | ⟨_, _ | ⟨_, before⟩⟩⟩ := before
    · cases hremove
      have hsplit : ["a", "b", "c"] ++ "d" :: [] = front ++ "d" :: back := hkept
      obtain ⟨-, -, rfl⟩ := (List.append_cons_inj_of_notMem (by decide) (by decide)).mp hsplit
      decide
    · cases hremove
      have hsplit : ["a"] ++ "b" :: ["c"] = front ++ "b" :: back := hkept
      obtain ⟨-, -, rfl⟩ := (List.append_cons_inj_of_notMem (by decide) (by decide)).mp hsplit
      decide
    · cases hremove
      have habsent : "x" ∉ front ++ "x" :: back := by
        rw [← hkept]
        decide +kernel
      exact absurd (List.mem_append_right front List.mem_cons_self) habsent
    · simp [p] at hremove
  have horder : p.KeepsOrder n := hkeeps.mpr hlast _ List.prefix_rfl
  exact ⟨hn, hpatch, horder, by rw [horder]; decide +kernel⟩

/-- Without its first key, a node with three keys shows the other two in the other order, in the
definition that is made of the draft and in the snapshot that is kept of it. -/
theorem order_lost_removing_first :
    let n := { Node.restore ⟨"n"⟩ .start none (some ⟨"o"⟩) with
      label := "A", params := [("a", .null), ("b", .null), ("c", .null)] }
    let p := { Patch.empty with removeParams := ["a"] }
    let g := Graph.empty.after (.insertNode n)
    let edited := g.after (.updateNode ⟨"n"⟩ p)
    let compiled := fun g : Graph => (g.compile (.named "w" "d")).toOption.map fun d =>
      d.tasks.map (·.params.keys)
    let saved := fun g : Graph => (UiSnapshot.ofGraph g).nodes.map (·.data.params.keys)
    ¬ p.KeepsOrder n ∧ p.kept n = ["b", "c"] ∧
      compiled g = some [["a", "b", "c"]] ∧ saved g = [["a", "b", "c"]] ∧
      compiled edited = some [["c", "b"]] ∧ saved edited = [["c", "b"]] := by
  decide +kernel

end Patch

end Workflow
