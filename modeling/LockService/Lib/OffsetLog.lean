import Mathlib.Data.Finset.Basic
import Mathlib.Order.Interval.Finset.Nat

/-!
# Logs without their first entries

A log that is compacted keeps its later entries and the index of the first of them. Entries are
looked up by index (`isSome_get?`), and each way to change the log is known by what a lookup finds
after it: at the end (`get?_append`), from an index on (`get?_writeAt`), without a prefix
(`get?_compact`), or over a stretch (`get?_install`). A log follows a history when each of its
entries stands for the one the history has there, and so it does after any of these changes that
brings no other entries (`Follows`). A map whose keys are such an interval and
nothing else but zero has as many as the interval is long and one more (`length_of_interval`).
-/

/-- The entries that are left, and the index of the first of them. -/
structure OffsetLog (α : Type*) where
  offset : ℕ
  entries : List α

namespace OffsetLog

variable {α : Type*}

/-- The index of the next entry. -/
def next (log : OffsetLog α) : ℕ := log.offset + log.entries.length

def get? (log : OffsetLog α) (i : ℕ) : Option α :=
  if log.offset ≤ i then log.entries[i - log.offset]? else none

def last? (log : OffsetLog α) : Option α := log.entries.getLast?

def append (log : OffsetLog α) (e : α) : OffsetLog α := { log with entries := log.entries ++ [e] }

/-- Cut the log before an index and go on from there. -/
def writeAt (log : OffsetLog α) (i : ℕ) (e : α) : OffsetLog α :=
  { log with entries := log.entries.take (i - log.offset) ++ [e] }

/-- Drop the entries up to an index, whether or not the log reaches it. -/
def compact (log : OffsetLog α) (k : ℕ) : OffsetLog α :=
  ⟨max log.offset (k + 1), log.entries.drop (k + 1 - log.offset)⟩

/-- Entries that belong at an index, put over those there; an empty log starts anew with them. -/
def install (log : OffsetLog α) (i : ℕ) (es : List α) : OffsetLog α :=
  if log.entries = [] then ⟨i, es⟩
  else { log with entries := log.entries.take (i - log.offset) ++
    (es ++ log.entries.drop (i - log.offset + es.length)) }

variable {log : OffsetLog α} {i j k : ℕ} {e : α} {es : List α}

theorem get?_mk {o : ℕ} : (OffsetLog.mk o es).get? i = if o ≤ i then es[i - o]? else none := rfl

theorem isSome_get? : (log.get? i).isSome ↔ log.offset ≤ i ∧ i < log.next := by
  unfold get? next
  split_ifs with h
  · rw [Option.isSome_iff_ne_none, ne_eq, List.getElem?_eq_none_iff]
    omega
  · simp [h]

theorem get?_eq_none (h : ¬ (log.offset ≤ i ∧ i < log.next)) : log.get? i = none := by
  rwa [← isSome_get?, Option.not_isSome_iff_eq_none] at h

theorem get?_next_pred : log.get? (log.next - 1) = log.last? := by
  unfold get? next last?
  rw [List.getLast?_eq_getElem?]
  split_ifs
  · congr 1
    omega
  · have hnil : log.entries.length = 0 := by omega
    simp [List.length_eq_zero_iff.mp hnil]

theorem next_append : (log.append e).next = log.next + 1 := by
  simp only [next, append, List.length_append, List.length_singleton]
  omega

theorem get?_append : (log.append e).get? i = if i = log.next then some e else log.get? i := by
  rw [append, get?_mk, get?, next]
  split_ifs with hle hi hi
  · subst hi
    rw [Nat.add_sub_cancel_left, List.getElem?_concat_length]
  · rcases Nat.lt_or_ge (i - log.offset) log.entries.length with hlt | hge
    · exact List.getElem?_append_left hlt
    · rw [List.getElem?_eq_none hge, List.getElem?_eq_none]
      rw [List.length_append, List.length_singleton]
      omega
  · omega
  · rfl

/-- A write is an append to what comes before it. -/
theorem writeAt_eq : log.writeAt i e =
    (OffsetLog.mk log.offset (log.entries.take (i - log.offset))).append e := rfl

theorem next_take (h : log.offset ≤ i) (h' : i ≤ log.next) :
    (OffsetLog.mk log.offset (log.entries.take (i - log.offset))).next = i := by
  simp only [next, List.length_take] at h' ⊢
  omega

theorem get?_take (h : log.offset ≤ i) :
    (OffsetLog.mk log.offset (log.entries.take (i - log.offset))).get? j =
      if j < i then log.get? j else none := by
  rw [get?_mk, get?, List.getElem?_take]
  split_ifs <;> first | rfl | omega

theorem next_writeAt (h : log.offset ≤ i) (h' : i ≤ log.next) :
    (log.writeAt i e).next = i + 1 := by
  rw [writeAt_eq, next_append, next_take h h']

theorem get?_writeAt (h : log.offset ≤ i) (h' : i ≤ log.next) :
    (log.writeAt i e).get? j = if j = i then some e else if j < i then log.get? j else none := by
  rw [writeAt_eq, get?_append, next_take h h', get?_take h]

theorem next_compact : (log.compact k).next = max log.next (k + 1) := by
  simp only [next, compact, List.length_drop]
  omega

theorem get?_compact : (log.compact k).get? i = if i ≤ k then none else log.get? i := by
  rw [compact, get?_mk, get?, List.getElem?_drop]
  split_ifs with h₁ h₂ h₃
  · omega
  · congr 1
    omega
  · omega
  · rfl
  · omega
  · rfl

/-- Where entries may be installed: inside the log or at its end, or anywhere when it is empty. -/
theorem get?_install (h : log.offset ≤ i ∧ i ≤ log.next ∨ log.entries = []) :
    (log.install i es).get? j = if i ≤ j ∧ j < i + es.length then es[j - i]? else log.get? j := by
  unfold install
  by_cases hnil : log.entries = []
  · have hnone : log.get? j = none := by
      rw [get?, hnil]
      simp
    rw [if_pos hnil, get?_mk, hnone]
    split_ifs with hle hin hin
    · rfl
    · exact List.getElem?_eq_none (by omega)
    · omega
    · rfl
  · have hi := h.resolve_right hnil
    have hlen : (log.entries.take (i - log.offset)).length = i - log.offset := by
      rw [next] at hi
      rw [List.length_take]
      omega
    rw [if_neg hnil, get?_mk, get?]
    split_ifs with hle hin hin
    · rw [List.getElem?_append_right (by omega), hlen, List.getElem?_append_left (by omega)]
      congr 1
      omega
    · rcases Nat.lt_or_ge j i with hlt | hge
      · rw [List.getElem?_append_left (by omega), List.getElem?_take, if_pos (by omega)]
      · rw [List.getElem?_append_right (by omega), hlen, List.getElem?_append_right (by omega),
          List.getElem?_drop]
        congr 1
        omega
    · omega
    · rfl

theorem next_install (h : log.offset ≤ i ∧ i ≤ log.next ∨ log.entries = []) :
    (log.install i es).next = if log.entries = [] then i + es.length
      else max log.next (i + es.length) := by
  unfold install
  split_ifs with hnil
  · rfl
  · have hi := h.resolve_right hnil
    simp only [next, List.length_append, List.length_take, List.length_drop] at hi ⊢
    omega

theorem offset_install :
    (log.install i es).offset = if log.entries = [] then i else log.offset := by
  unfold install
  split_ifs <;> rfl

section Follows

variable {β : Type*} {R : α → β → Prop} {H H' : ℕ → Option β} {b : β}

/-- Every entry that is left stands for the one a history has at its index. -/
def Follows (R : α → β → Prop) (H : ℕ → Option β) (log : OffsetLog α) : Prop :=
  ∀ i e, log.get? i = some e → ∃ b, H i = some b ∧ R e b

theorem Follows.mono (h : log.Follows R H) (hH : ∀ i b, H i = some b → H' i = some b) :
    log.Follows R H' := fun i e he => by
  obtain ⟨b, hb, hR⟩ := h i e he
  exact ⟨b, hH i b hb, hR⟩

theorem Follows.append (h : log.Follows R H) (hb : H log.next = some b) (hR : R e b) :
    (log.append e).Follows R H := fun j e' he => by
  rw [get?_append] at he
  split_ifs at he with hj
  · obtain rfl := Option.some.inj he
    exact ⟨b, hj ▸ hb, hR⟩
  · exact h j e' he

theorem Follows.writeAt (h : log.Follows R H) (hi : log.offset ≤ i) (hi' : i ≤ log.next)
    (hb : H i = some b) (hR : R e b) : (log.writeAt i e).Follows R H := fun j e' he => by
  rw [get?_writeAt hi hi'] at he
  split_ifs at he with hj
  · obtain rfl := Option.some.inj he
    exact ⟨b, hj ▸ hb, hR⟩
  · exact h j e' he

theorem Follows.compact (h : log.Follows R H) : (log.compact k).Follows R H := fun j e he => by
  rw [get?_compact] at he
  split_ifs at he
  exact h j e he

theorem Follows.install (h : log.Follows R H)
    (hi : log.offset ≤ i ∧ i ≤ log.next ∨ log.entries = [])
    (hes : ∀ k e, es[k]? = some e → ∃ b, H (i + k) = some b ∧ R e b) :
    (log.install i es).Follows R H := fun j e he => by
  rw [get?_install hi] at he
  split_ifs at he with hj
  · obtain ⟨b, hb, hR⟩ := hes (j - i) e he
    rw [Nat.add_sub_of_le hj.1] at hb
    exact ⟨b, hb, hR⟩
  · exact h j e he

end Follows

end OffsetLog

/-- Zero and the numbers of an interval are as many as it is long, and one. -/
theorem length_of_interval {ks : List ℕ} {a b : ℕ} (hnd : ks.Nodup) (ha : 0 < a)
    (h : ∀ k, k ∈ ks ↔ k = 0 ∨ a ≤ k ∧ k < b) : ks.length = 1 + (b - a) := by
  have hset : ks.toFinset = insert 0 (Finset.Ico a b) := by
    ext k
    rw [List.mem_toFinset, h, Finset.mem_insert, Finset.mem_Ico]
  have hzero : 0 ∉ Finset.Ico a b := by
    rw [Finset.mem_Ico]
    omega
  rw [← List.toFinset_card_of_nodup hnd, hset, Finset.card_insert_of_notMem hzero, Nat.card_Ico]
  omega
