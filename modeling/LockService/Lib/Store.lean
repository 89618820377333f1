import Mathlib.Data.Finset.Basic

/-!
# Heaps of objects and ordered maps

A heap is a list that only grows: an object's pointer is its position, an allocation goes to the
end (`getElem?_alloc`) and a store replaces what is at a pointer (`getElem?_store`). The maps are
the ordered ones of the standard library, looked up by equality of keys and walked from the first
key on (`keys_erase_head`).
-/

section Heap

variable {α : Type*}

theorem getElem?_alloc (h : List α) (x : α) (i : ℕ) :
    (h ++ [x])[i]? = if i = h.length then some x else h[i]? := by
  split_ifs with hi
  · rw [hi, List.getElem?_concat_length]
  · rcases Nat.lt_or_gt_of_ne hi with hlt | hgt
    · exact List.getElem?_append_left hlt
    · rw [List.getElem?_eq_none (by simp only [List.length_append, List.length_singleton]; omega),
        List.getElem?_eq_none hgt.le]

/-- What was there before an allocation is there after it. -/
theorem getElem?_alloc_of_some {h : List α} {i : ℕ} {y : α} (hi : h[i]? = some y) (x : α) :
    (h ++ [x])[i]? = some y := by
  rw [getElem?_alloc, if_neg, hi]
  rintro rfl
  simp at hi

theorem getElem?_store {h : List α} {i : ℕ} {x : α} (hi : h[i]? = some x) (y : α) (j : ℕ) :
    (h.set i y)[j]? = if j = i then some y else h[j]? := by
  obtain ⟨hlt, -⟩ := List.getElem?_eq_some_iff.mp hi
  by_cases hj : j = i
  · subst hj
    simp [hlt]
  · rw [if_neg hj, List.getElem?_set_ne (Ne.symm hj)]

theorem takeWhile_congr {p q : α → Bool} :
    ∀ {l : List α}, (∀ a ∈ l, p a = q a) → l.takeWhile p = l.takeWhile q
  | [], _ => rfl
  | a :: l, h => by
    simp only [List.takeWhile_cons, h a (by simp)]
    split
    · rw [takeWhile_congr fun b hb => h b (List.mem_cons_of_mem _ hb)]
    · rfl

end Heap

section Maps

open Std

variable {α β : Type*} [Ord α] [TransOrd α]

theorem mem_iff_exists_getElem? {m : ExtTreeMap α β} {k : α} : k ∈ m ↔ ∃ v, m[k]? = some v := by
  rw [ExtTreeMap.mem_iff_isSome_getElem?, Option.isSome_iff_exists]

theorem size_eq_zero_iff {m : ExtTreeMap α β} : m.size = 0 ↔ ∀ a, a ∉ m := by
  rw [← ExtTreeMap.eq_empty_iff_size_eq_zero, ExtTreeMap.eq_empty_iff_forall_not_mem]

/-- An element of the longest prefix that meets a test: no smaller one fails it. -/
theorem mem_takeWhile_iff {p : α → Bool} {a : α} :
    ∀ {l : List α}, l.Pairwise (fun a b => compare a b = .lt) →
      (a ∈ l.takeWhile p ↔ a ∈ l ∧ ∀ b ∈ l, (compare b a).isLE → p b = true)
  | [], _ => by simp
  | x :: l, h => by
    rw [List.pairwise_cons] at h
    have hgt : ∀ b ∈ l, ¬ (compare b x).isLE := fun b hb => by
      have hbx : compare b x = (compare x b).swap := OrientedCmp.eq_swap
      simp [hbx, h.1 b hb]
    have ih := mem_takeWhile_iff (p := p) (a := a) h.2
    rcases hx : p x with _ | _
    · rw [List.takeWhile_cons_of_neg (by simp [hx])]
      simp only [List.not_mem_nil, List.mem_cons, false_iff, not_and]
      rintro (rfl | ha) hall
      · have := hall a (.inl rfl) (by simp [ReflOrd.compare_self])
        simp [hx] at this
      · have := hall x (.inl rfl) (by simp [h.1 a ha])
        simp [hx] at this
    · rw [List.takeWhile_cons_of_pos hx, List.mem_cons, ih, List.mem_cons]
      constructor
      · rintro (rfl | ⟨ha, hall⟩)
        · refine ⟨.inl rfl, fun b hb hle => ?_⟩
          rcases List.mem_cons.mp hb with rfl | hb
          · exact hx
          · exact absurd hle (hgt b hb)
        · refine ⟨.inr ha, fun b hb hle => ?_⟩
          rcases List.mem_cons.mp hb with rfl | hb
          · exact hx
          · exact hall b hb hle
      · rintro ⟨rfl | ha, hall⟩
        · exact .inl rfl
        · exact .inr ⟨ha, fun b hb => hall b (List.mem_cons_of_mem _ hb)⟩

variable [LawfulEqOrd α]

/-- Two strictly ascending lists with the same elements are the same. -/
theorem eq_of_ascending :
    ∀ {l l' : List α}, l.Pairwise (fun a b => compare a b = .lt) →
      l'.Pairwise (fun a b => compare a b = .lt) → (∀ a, a ∈ l ↔ a ∈ l') → l = l'
  | [], [], _, _, _ => rfl
  | [], b :: l', _, _, h => absurd ((h b).mpr (by simp)) (by simp)
  | a :: l, [], _, _, h => absurd ((h a).mp (by simp)) (by simp)
  | a :: l, b :: l', hl, hl', h => by
    rw [List.pairwise_cons] at hl hl'
    have hirr : ∀ x : α, compare x x ≠ .lt := fun x => by simp [ReflOrd.compare_self]
    have hab : a = b := by
      rcases List.mem_cons.mp ((h a).mp (by simp)) with e | ha
      · exact e
      rcases List.mem_cons.mp ((h b).mpr (by simp)) with e | hb
      · exact e.symm
      exact absurd (TransCmp.lt_trans (hl'.1 a ha) (hl.1 b hb)) (hirr b)
    subst hab
    refine congrArg (a :: ·) (eq_of_ascending hl.2 hl'.2 fun x => ?_)
    constructor
    · intro hx
      refine (List.mem_cons.mp ((h x).mp (List.mem_cons_of_mem _ hx))).resolve_left ?_
      rintro rfl
      exact hirr x (hl.1 x hx)
    · intro hx
      refine (List.mem_cons.mp ((h x).mpr (List.mem_cons_of_mem _ hx))).resolve_left ?_
      rintro rfl
      exact hirr x (hl'.1 x hx)

/-- Erasing the first key leaves the other keys, in order. -/
theorem keys_erase_head {m : ExtTreeMap α β} {k : α} {ks : List α} (h : m.keys = k :: ks) :
    (m.erase k).keys = ks := by
  have hm := m.ordered_keys
  rw [h, List.pairwise_cons] at hm
  refine eq_of_ascending (m.erase k).ordered_keys hm.2 fun a => ?_
  have ha : a ∈ m ↔ a = k ∨ a ∈ ks := by
    rw [← ExtTreeMap.mem_keys, h, List.mem_cons]
  rw [ExtTreeMap.mem_keys, ExtTreeMap.mem_erase, ha]
  simp only [ne_eq, LawfulEqOrd.compare_eq_iff_eq]
  constructor
  · rintro ⟨hne, rfl | hk⟩
    · exact absurd rfl hne
    · exact hk
  · intro hk
    refine ⟨?_, .inr hk⟩
    rintro rfl
    have := hm.1 _ hk
    simp [ReflOrd.compare_self] at this

theorem mem_insert_eq {m : ExtTreeMap α β} {k a : α} {v : β} :
    a ∈ m.insert k v ↔ a = k ∨ a ∈ m := by
  rw [ExtTreeMap.mem_insert, LawfulEqOrd.compare_eq_iff_eq, @eq_comm _ k]

theorem mem_erase_eq {m : ExtTreeMap α β} {k a : α} : a ∈ m.erase k ↔ a ≠ k ∧ a ∈ m := by
  rw [ExtTreeMap.mem_erase, ne_eq, LawfulEqOrd.compare_eq_iff_eq, @eq_comm _ k]

theorem insert_of_getElem? {m : ExtTreeMap α β} {k : α} {v : β} (h : m[k]? = some v) :
    m.insert k v = m := by
  refine ExtTreeMap.ext_getElem? fun a => ?_
  rw [ExtTreeMap.getElem?_insert]
  split_ifs with ha
  · rw [← h, LawfulEqOrd.eq_of_compare ha]
  · rfl

variable [DecidableEq α]

theorem getElem?_insert_eq (m : ExtTreeMap α β) (k : α) (v : β) (a : α) :
    (m.insert k v)[a]? = if a = k then some v else m[a]? := by
  rw [ExtTreeMap.getElem?_insert]
  simp only [LawfulEqOrd.compare_eq_iff_eq, @eq_comm _ a]

theorem getElem?_insertIfNew_eq (m : ExtTreeMap α β) (k : α) (v : β) (a : α) :
    (m.insertIfNew k v)[a]? = if a = k then some (m[k]?.getD v) else m[a]? := by
  rw [ExtTreeMap.getElem?_insertIfNew]
  simp only [LawfulEqOrd.compare_eq_iff_eq]
  by_cases ha : a = k
  · subst ha
    by_cases hm : a ∈ m
    · simp [hm]
    · simp [hm]
  · simp [ha, Ne.symm ha]

theorem getElem?_erase_eq (m : ExtTreeMap α β) (k a : α) :
    (m.erase k)[a]? = if a = k then none else m[a]? := by
  rw [ExtTreeMap.getElem?_erase]
  simp only [LawfulEqOrd.compare_eq_iff_eq, @eq_comm _ a]

end Maps
