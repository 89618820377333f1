import Mathlib.Data.Finset.Max

/-!
# The greatest elements of a finite set

Of a finite set in a linear order, the elements with fewer than `n` greater ones are as many as `n`
or all there are (`card_greatest`), every other element is below them (`lt_of_notMem_greatest`), and
to keep them it is enough to keep them after each insertion (`greatest_insert_greatest`).
-/

variable {α : Type*} [LinearOrder α]

/-- The elements with fewer than `n` greater ones. -/
def greatest (n : ℕ) (S : Finset α) : Finset α :=
  S.filter fun a => (S.filter (a < ·)).card < n

variable {n : ℕ} {S T : Finset α} {a b m : α}

theorem mem_greatest : a ∈ greatest n S ↔ a ∈ S ∧ (S.filter (a < ·)).card < n := Finset.mem_filter

theorem greatest_subset : greatest n S ⊆ S := Finset.filter_subset _ _

/-- What is among the greatest of a set is so in every smaller set that has it. -/
theorem mem_greatest_of_subset (hST : S ⊆ T) (ha : a ∈ S) (h : a ∈ greatest n T) :
    a ∈ greatest n S :=
  mem_greatest.mpr ⟨ha, (Finset.card_le_card (Finset.filter_subset_filter _ hST)).trans_lt
    (mem_greatest.mp h).2⟩

theorem mem_greatest_of_lt (ha : a ∈ greatest n S) (hb : b ∈ S) (h : a < b) :
    b ∈ greatest n S := by
  refine mem_greatest.mpr ⟨hb, (Finset.card_le_card fun c hc => ?_).trans_lt (mem_greatest.mp ha).2⟩
  rw [Finset.mem_filter] at hc ⊢
  exact ⟨hc.1, h.trans hc.2⟩

theorem lt_of_notMem_greatest (ha : a ∈ greatest n S) (hb : b ∈ S) (hn : b ∉ greatest n S) :
    b < a := by
  rcases lt_trichotomy a b with h | rfl | h
  · exact absurd (mem_greatest_of_lt ha hb h) hn
  · exact absurd ha hn
  · exact h

theorem greatest_eq_self (h : S.card ≤ n) : greatest n S = S := by
  refine Finset.filter_true_of_mem fun a ha => (Finset.card_lt_card ?_).trans_le h
  refine Finset.filter_ssubset.mpr ⟨a, ha, lt_irrefl a⟩

/-- An element below all others changes nothing, once there are enough others. -/
theorem greatest_insert_of_forall_lt (h : ∀ b ∈ S, m < b) (hn : n ≤ S.card) :
    greatest n (insert m S) = greatest n S := by
  ext a
  have hm : S.filter (m < ·) = S := Finset.filter_true_of_mem h
  simp only [mem_greatest, Finset.mem_insert]
  constructor
  · rintro ⟨rfl | ha, hc⟩
    · rw [Finset.filter_insert, if_neg (lt_irrefl a), hm] at hc
      omega
    · rw [Finset.filter_insert, if_neg (h a ha).not_gt] at hc
      exact ⟨ha, hc⟩
  · rintro ⟨ha, hc⟩
    rw [Finset.filter_insert, if_neg (h a ha).not_gt]
    exact ⟨.inr ha, hc⟩

theorem greatest_erase_of_forall_le (hm : m ∈ S) (h : ∀ b ∈ S, m ≤ b) (hn : n < S.card) :
    greatest n (S.erase m) = greatest n S := by
  have hcard := Finset.card_erase_of_mem hm
  rw [← greatest_insert_of_forall_lt (m := m) _ (by omega), Finset.insert_erase hm]
  intro b hb
  exact lt_of_le_of_ne (h b (Finset.mem_of_mem_erase hb)) (Finset.ne_of_mem_erase hb).symm

theorem card_greatest (n : ℕ) (S : Finset α) : (greatest n S).card = min n S.card := by
  induction S using Finset.induction_on_min with
  | empty => simp [greatest]
  | insert m S hm ih =>
    have hnew : m ∉ S := fun h => lt_irrefl m (hm m h)
    by_cases hn : n ≤ S.card
    · rw [greatest_insert_of_forall_lt hm hn, ih, Finset.card_insert_of_notMem hnew]
      omega
    · have hcard : (insert m S).card ≤ n := by
        rw [Finset.card_insert_of_notMem hnew]
        omega
      rw [greatest_eq_self hcard, min_eq_right hcard]

/-- What an insertion makes of the greatest is what it makes of the whole set. -/
theorem greatest_insert_greatest (n : ℕ) (a : α) (S : Finset α) :
    greatest n (insert a (greatest n S)) = greatest n (insert a S) := by
  have hsub : insert a (greatest n S) ⊆ insert a S := Finset.insert_subset_insert a greatest_subset
  have hkept : greatest n (insert a S) ⊆ insert a (greatest n S) := by
    intro b hb
    rcases Finset.mem_insert.mp (greatest_subset hb) with rfl | hS
    · exact Finset.mem_insert_self b _
    · exact Finset.mem_insert_of_mem (mem_greatest_of_subset (Finset.subset_insert a S) hS hb)
  refine Finset.Subset.antisymm (fun b hb => ?_) fun b hb =>
    mem_greatest_of_subset hsub (hkept hb) hb
  obtain ⟨hmem, hcount⟩ := mem_greatest.mp hb
  by_contra hno
  have habove : greatest n (insert a S) ⊆ (insert a (greatest n S)).filter (b < ·) := fun c hc =>
    Finset.mem_filter.mpr ⟨hkept hc, lt_of_notMem_greatest hc (hsub hmem) hno⟩
  have hle := Finset.card_le_card habove
  have hmany : ¬ ((insert a S).filter (b < ·)).card < n := fun h =>
    hno (mem_greatest.mpr ⟨hsub hmem, h⟩)
  have hall := Finset.card_le_card (Finset.filter_subset (b < ·) (insert a S))
  rw [card_greatest] at hle
  omega
