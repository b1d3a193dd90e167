import Mathlib.Algebra.GroupWithZero.Nat
import Mathlib.Data.List.Nodup
import Overload.Tree.Basic

/-! The fields of a node are no larger than the node, also taken together. -/

namespace Overload.Tree

open Entries

lemma one_le_size (t : Tree) : 1 ≤ t.size := by
  cases t with
  | object es =>
    rw [size, Data.size]
    omega
  | _ =>
    simp only [size]
    omega

lemma sizeFields_erase {name : String} {fs : List (String × Tree)} {t : Tree}
    (h : get? name fs = some t) :
    t.size + sizeFields (erase name fs) = sizeFields fs := by
  induction fs with
  | nil => simp at h
  | cons f fs ih =>
    obtain ⟨k, c⟩ := f
    by_cases hk : k = name
    · simp only [get?, hk, if_true, Option.some.injEq] at h
      simp [erase, hk, sizeFields, h]
    · simp only [get?, hk, if_false] at h
      have := ih h
      simp only [erase, hk, if_false, sizeFields]
      omega

theorem sum_size_le {names : List String} (hn : names.Nodup) (fs : List (String × Tree)) :
    (names.map fun k => ((get? k fs).map size).getD 0).sum ≤ sizeFields fs := by
  induction names generalizing fs with
  | nil => simp
  | cons k names ih =>
    obtain ⟨hk, hn⟩ := List.nodup_cons.1 hn
    rw [List.map_cons, List.sum_cons]
    cases h : get? k fs with
    | none => simpa using ih hn fs
    | some t =>
      have hrest : (names.map fun k => ((get? k fs).map size).getD 0) =
          names.map fun j => ((get? j (erase k fs)).map size).getD 0 := by
        refine List.map_congr_left fun j hj => ?_
        have hne : j ≠ k := fun he => hk (he ▸ hj)
        rw [get?_erase_of_ne hne]
      have := ih hn (erase k fs)
      have := sizeFields_erase h
      rw [hrest]
      simp only [Option.map_some, Option.getD_some]
      omega

end Overload.Tree

namespace Overload.Node

theorem sum_size_le (n : Node) (names : List String) (hn : names.Nodup) (ht : "type" ∉ names) :
    (names.map fun k => ((n.get? k).map Tree.size).getD 0).sum + 2 ≤ n.toTree.size := by
  have hget : (names.map fun k => ((n.get? k).map Tree.size).getD 0) =
      names.map fun k => ((Entries.get? k n.fields).map Tree.size).getD 0 := by
    refine List.map_congr_left fun k hk => ?_
    have hne : k ≠ "type" := fun he => ht (he ▸ hk)
    rw [get?, if_neg hne]
  have := Tree.sum_size_le hn n.fields
  have := Tree.one_le_size n.kind
  rw [hget, toTree, Tree.size]
  omega

end Overload.Node
