import Mathlib.Algebra.BigOperators.Group.List.Basic
import Mathlib.Algebra.GroupWithZero.Nat

/-!
# Batches of a list up to a weight

`fill` takes from the front of a list until the weight of what it took reaches a limit: only the
last element may go over it, and it stops early only there. Picking one nonempty part after another
off the front of a list comes to the whole of it (`drain_eq`).
-/

variable {α β : Type*}

/-- The first elements, up to the one that takes the weight to the limit. -/
def fill (weight : α → ℕ) (limit : ℕ) : ℕ → List α → List α
  | _, [] => []
  | acc, a :: l =>
    if limit ≤ acc + weight a then [a] else a :: fill weight limit (acc + weight a) l

section Fill

variable {weight : α → ℕ} {limit : ℕ}

theorem isPrefix_fill : ∀ (acc : ℕ) (l : List α), fill weight limit acc l <+: l
  | _, [] => List.prefix_rfl
  | acc, a :: l => by
    rw [fill]
    split_ifs
    · exact ⟨l, rfl⟩
    · exact (List.prefix_cons_inj a).mpr (isPrefix_fill _ l)

theorem fill_ne_nil {acc : ℕ} {l : List α} (h : l ≠ []) : fill weight limit acc l ≠ [] := by
  obtain ⟨a, l, rfl⟩ := List.exists_cons_of_ne_nil h
  rw [fill]
  split_ifs <;> exact List.cons_ne_nil _ _

/-- The weight is below the limit until the last element. -/
theorem sum_dropLast_fill_lt :
    ∀ (acc : ℕ) (l : List α), acc < limit →
      acc + ((fill weight limit acc l).dropLast.map weight).sum < limit
  | _, [], h => h
  | acc, a :: l, h => by
    rw [fill]
    split_ifs with hfull
    · exact h
    · rcases eq_or_ne (fill weight limit (acc + weight a) l) [] with hnil | hne
      · rw [hnil]
        exact h
      · rw [List.dropLast_cons_of_ne_nil hne, List.map_cons, List.sum_cons, ← Nat.add_assoc]
        exact sum_dropLast_fill_lt _ l (Nat.lt_of_not_le hfull)

/-- Nothing is left out before the weight reaches the limit. -/
theorem fill_eq_or_le :
    ∀ (acc : ℕ) (l : List α), fill weight limit acc l = l ∨
      limit ≤ acc + ((fill weight limit acc l).map weight).sum
  | _, [] => .inl rfl
  | acc, a :: l => by
    rw [fill]
    split_ifs with hfull
    · exact .inr (by simpa using hfull)
    · refine (fill_eq_or_le (acc + weight a) l).imp (congrArg (a :: ·)) fun hle => ?_
      rwa [List.map_cons, List.sum_cons, ← Nat.add_assoc]

end Fill

/-- One part after another is picked off the front, each for a request of its own. -/
def drain (pick : β → List α → List α) : List β → List α → List α
  | [], _ => []
  | b :: bs, l => pick b l ++ drain pick bs (l.drop (pick b l).length)

section Drain

variable {pick : β → List α → List α}

theorem isPrefix_drain (hpick : ∀ b l, pick b l <+: l) :
    ∀ (bs : List β) (l : List α), drain pick bs l <+: l
  | [], l => List.nil_prefix
  | b :: bs, l => by
    have hl := List.prefix_iff_eq_append.mp (hpick b l)
    conv_rhs => rw [← hl]
    exact (List.prefix_append_right_inj _).mpr (isPrefix_drain hpick bs _)

/-- As many requests as there are elements get to the end. -/
theorem drain_eq (hpick : ∀ b l, pick b l <+: l) (hne : ∀ b l, l ≠ [] → pick b l ≠ []) :
    ∀ (bs : List β) (l : List α), l.length ≤ bs.length → drain pick bs l = l
  | [], l, h => (List.length_eq_zero_iff.mp (Nat.le_zero.mp h)).symm
  | b :: bs, l, h => by
    have hrest : (l.drop (pick b l).length).length ≤ bs.length := by
      rw [List.length_cons] at h
      rw [List.length_drop]
      rcases eq_or_ne l [] with rfl | hl
      · simp
      · have hpos := List.length_pos_iff.mpr (hne b l hl)
        omega
    rw [drain, drain_eq hpick hne bs _ hrest]
    exact List.prefix_iff_eq_append.mp (hpick b l)

end Drain
