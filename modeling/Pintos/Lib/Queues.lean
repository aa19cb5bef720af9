import Mathlib

/-!
# Pintos.Lib.Queues

A family of queues over which elements are distributed.  `Placed queue place`
says that `place` is the whole truth about membership: an element is on the
queue that `place` names, on no other, and once.

* `Placed.unique` — an element is on at most one queue;
* `Placed.insert`, `Placed.pop` — what joining a queue and being popped off it
  do to `place`.
-/

namespace Queues

open Function

variable {ι τ : Type*}
variable {queue queue' : ι → List τ} {place : τ → Option ι} {i j : ι} {t : τ} {ts : List τ}

/-- Every element is on the queue that `place` names, and once. -/
structure Placed (queue : ι → List τ) (place : τ → Option ι) : Prop where
  mem_iff : ∀ {i t}, t ∈ queue i ↔ place t = some i
  nodup : ∀ i, (queue i).Nodup

theorem placed_nil (hq : ∀ i, queue i = []) (hp : ∀ t, place t = none) : Placed queue place where
  mem_iff := by simp [hq, hp]
  nodup i := by rw [hq]; exact List.nodup_nil

theorem Placed.unique (h : Placed queue place) (hi : t ∈ queue i) (hj : t ∈ queue j) : i = j :=
  Option.some.inj ((h.mem_iff.mp hi).symm.trans (h.mem_iff.mp hj))

variable [DecidableEq τ]

/-- An element that is on no queue joins queue `i`, at any position. -/
theorem Placed.insert (h : Placed queue place) (ht : place t = none)
    (hi : (queue' i).Perm (t :: queue i)) (ho : ∀ j, j ≠ i → queue' j = queue j) :
    Placed queue' (update place t (some i)) where
  mem_iff {j u} := by
    rcases eq_or_ne j i with rfl | hj
    · rw [hi.mem_iff, List.mem_cons, update_apply, h.mem_iff]
      grind
    · rw [ho j hj, h.mem_iff, update_apply]
      grind
  nodup j := by
    rcases eq_or_ne j i with rfl | hj
    · have hmem : t ∉ queue j := by rw [h.mem_iff, ht]; nofun
      exact hi.nodup_iff.mpr (List.nodup_cons.mpr ⟨hmem, h.nodup j⟩)
    · rw [ho j hj]
      exact h.nodup j

theorem Placed.pop (h : Placed queue place) (hi : queue i = t :: ts) (hi' : queue' i = ts)
    (ho : ∀ j, j ≠ i → queue' j = queue j) : Placed queue' (update place t none) where
  mem_iff {j u} := by
    have hnd := h.nodup i
    have hmem := h.mem_iff (i := i) (t := u)
    rw [update_apply]
    rcases eq_or_ne j i with rfl | hj
    · rw [hi'] at *
      grind
    · rw [ho j hj, h.mem_iff]
      grind
  nodup j := by
    rcases eq_or_ne j i with rfl | hj
    · have hnd := h.nodup j
      rw [hi] at hnd
      rw [hi']
      exact hnd.of_cons
    · rw [ho j hj]
      exact h.nodup j

end Queues
