import Mathlib.Algebra.BigOperators.Group.List.Basic
import Mathlib.Algebra.Order.Group.Multiset

/-!
# What entries of lists hold together

Each entry of a list holds something, and the list the sum of it. Where an entry is replaced the
sum changes by what that entry holds (`sum_map_set`, `sum_mapIdx_set`), and what goes from one list
to another is not lost between them (`sum_transfer`). For things that can be
counted, what a list holds some entry holds (`mem_sum_map`).
-/

namespace Account

variable {α M : Type*} [AddCommMonoid M] {l : List α} {i : ℕ} {a : α}

theorem sum_set_add : ∀ {l : List M} {i : ℕ} {a : M} (b : M), l[i]? = some a →
    (l.set i b).sum + a = l.sum + b
  | [], _, _, _, h => by simp at h
  | x :: l, 0, a, b, h => by
    obtain rfl : x = a := by simpa using h
    simp only [List.set_cons_zero, List.sum_cons]
    rw [add_right_comm, add_comm b, add_right_comm]
  | x :: l, i + 1, a, b, h => by
    simp only [List.set_cons_succ, List.sum_cons]
    rw [add_assoc, add_assoc, sum_set_add b (by simpa using h)]

theorem sum_map_set (f : α → M) (h : l[i]? = some a) (b : α) :
    ((l.set i b).map f).sum + f a = (l.map f).sum + f b := by
  rw [List.map_set]
  exact sum_set_add _ (by rw [List.getElem?_map, h, Option.map_some])

theorem sum_mapIdx_set (f : ℕ → α → M) (h : l[i]? = some a) (b : α) :
    ((l.set i b).mapIdx f).sum + f i a = (l.mapIdx f).sum + f i b := by
  rw [List.mapIdx_set]
  exact sum_set_add _ (by rw [List.getElem?_mapIdx, h, Option.map_some])

theorem sum_map_concat (f : α → M) (l : List α) (a : α) :
    ((l ++ [a]).map f).sum = (l.map f).sum + f a := by
  simp

/-- What one entry of each of two lists and the rest hold together stays the same, and so does the
whole. -/
theorem sum_transfer [IsRightCancelAdd M] {W W' K K' H H' e e' b b' : M} (hK : K' + e = K + e')
    (hH : H' + b = H + b') (h : W' + e' + b' = W + e + b) : W' + K' + H' = W + K + H := by
  refine add_right_cancel (b := e + b) ?_
  calc W' + K' + H' + (e + b) = W' + (K' + e) + (H' + b) := by ac_rfl
    _ = (W' + e' + b') + (K + H) := by rw [hK, hH]; ac_rfl
    _ = W + K + H + (e + b) := by rw [h]; ac_rfl

variable {β : Type*} {x : β}

theorem mem_sum {ms : List (Multiset β)} : x ∈ ms.sum ↔ ∃ m ∈ ms, x ∈ m := by
  induction ms with
  | nil => simp
  | cons m ms ih => simp [ih]

theorem mem_sum_map {f : α → Multiset β} : x ∈ (l.map f).sum ↔ ∃ a ∈ l, x ∈ f a := by
  rw [mem_sum]
  simp

end Account
