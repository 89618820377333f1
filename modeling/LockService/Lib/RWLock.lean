import Mathlib.Data.Finset.Basic

/-!
# Reader-writer locks

A lock is free, held by one client alone or shared by a nonempty set of clients. It is acquired
when it is free, or when it is shared and asked for in shared mode, and released by its owners
(`isSome_acquire`, `isSome_release`); either changes the owners by that one client
(`owners_acquire`, `owners_release`) and the mode that client has it in (`modeOf_acquire`,
`modeOf_release`). A table of such locks keeps every other lock
(`acquire_of_ne`, `release_of_ne`), and whatever one client does in a table, what the others own
stays (`mem_owners_of_moves`), a lock held alone among it (`exclusive_of_acquire`,
`exclusive_of_release`).
-/

inductive RWLock (C : Type*) where
  | free
  | exclusive (c : C)
  | shared (cs : Finset C) (nonempty : cs.Nonempty)

namespace RWLock

inductive Mode where
  | exclusive
  | shared
  deriving DecidableEq

variable {C K : Type*} [DecidableEq C] [DecidableEq K] {lock lock' : RWLock C} {c : C} {m : Mode}

def owners : RWLock C → Finset C
  | free => ∅
  | exclusive c => {c}
  | shared cs _ => cs

/-- What two clients may both hold. -/
def IsShared (lock : RWLock C) : Prop := ∃ cs h, lock = shared cs h

def acquire (lock : RWLock C) (c : C) (m : Mode) : Option (RWLock C) :=
  match lock, m with
  | free, .exclusive => some (exclusive c)
  | free, .shared => some (shared {c} (Finset.singleton_nonempty c))
  | shared cs _, .shared => some (shared (insert c cs) (Finset.insert_nonempty c cs))
  | _, _ => none

def release (lock : RWLock C) (c : C) : Option (RWLock C) :=
  match lock with
  | free => none
  | exclusive d => if c = d then some free else none
  | shared cs _ =>
    if c ∈ cs then some (if h : (cs.erase c).Nonempty then shared (cs.erase c) h else free)
    else none

theorem isSome_acquire : (lock.acquire c m).isSome ↔ lock = free ∨ lock.IsShared ∧ m = .shared := by
  rcases lock with _ | d | ⟨cs, h⟩ <;> rcases m <;> simp_all [acquire, IsShared]

theorem owners_acquire (h : lock.acquire c m = some lock') :
    lock'.owners = insert c lock.owners := by
  unfold acquire at h
  split at h <;> cases h <;> rfl

theorem eq_exclusive_of_acquire (h : lock.acquire c .exclusive = some lock') :
    lock' = exclusive c := by
  rcases lock with _ | d | ⟨cs, hcs⟩ <;> cases h
  rfl

theorem isSome_release : (lock.release c).isSome ↔ c ∈ lock.owners := by
  rcases lock with _ | d | ⟨cs, h⟩
  · simp [release, owners]
  · simp only [release, owners, Finset.mem_singleton]
    split_ifs with hd <;> simp [hd]
  · simp only [release, owners]
    split_ifs with hc <;> simp [hc]

theorem owners_release (h : lock.release c = some lock') :
    lock'.owners = lock.owners.erase c := by
  unfold release at h
  split at h
  · cases h
  · split_ifs at h with hd
    cases h
    simp [owners, hd]
  · split_ifs at h with hc he
    · cases h
      rfl
    · cases h
      simp only [owners]
      exact (Finset.not_nonempty_iff_eq_empty.mp he).symm

/-- The mode a client has the lock in, when it is an owner. -/
def modeOf (lock : RWLock C) (c : C) : Option Mode :=
  match lock with
  | free => none
  | exclusive d => if c = d then some .exclusive else none
  | shared cs _ => if c ∈ cs then some .shared else none

theorem modeOf_acquire (h : lock.acquire c m = some lock') (d : C) :
    lock'.modeOf d = if d = c then some m else lock.modeOf d := by
  unfold acquire at h
  split at h
  · cases h
    rfl
  · cases h
    simp [modeOf]
  · cases h
    simp only [modeOf, Finset.mem_insert]
    split_ifs <;> simp_all
  · cases h

theorem modeOf_release (h : lock.release c = some lock') (d : C) :
    lock'.modeOf d = if d = c then none else lock.modeOf d := by
  unfold release at h
  split at h
  · cases h
  · split_ifs at h with hd
    cases h
    subst hd
    simp [modeOf]
  · split_ifs at h with hc he
    · cases h
      simp only [modeOf, Finset.mem_erase]
      split_ifs <;> simp_all
    · cases h
      rename_i cs hcs
      have hall : ∀ e ∈ cs, e = c := fun e hecs => by
        by_contra hne
        exact he ⟨e, Finset.mem_erase.mpr ⟨hne, hecs⟩⟩
      simp only [modeOf]
      split_ifs with hdc hdcs
      · rfl
      · exact absurd (hall d hdcs) hdc
      · rfl

/-- Locks by their keys. -/
abbrev Table (K C : Type*) := K → RWLock C

namespace Table

variable {t t' t'' : Table K C} {k : K}

def acquire (t : Table K C) (c : C) (k : K) (m : Mode) : Option (Table K C) :=
  ((t k).acquire c m).map fun lock => Function.update t k lock

def release (t : Table K C) (c : C) (k : K) : Option (Table K C) :=
  ((t k).release c).map fun lock => Function.update t k lock

theorem acquire_of_ne (h : t.acquire c k m = some t') {k' : K} (hk : k' ≠ k) : t' k' = t k' := by
  obtain ⟨lock, -, rfl⟩ := Option.map_eq_some_iff.mp h
  exact Function.update_of_ne hk _ _

theorem release_of_ne (h : t.release c k = some t') {k' : K} (hk : k' ≠ k) : t' k' = t k' := by
  obtain ⟨lock, -, rfl⟩ := Option.map_eq_some_iff.mp h
  exact Function.update_of_ne hk _ _

theorem modeOf_acquire (h : t.acquire c k m = some t') (d : C) (k' : K) :
    (t' k').modeOf d = if d = c ∧ k' = k then some m else (t k').modeOf d := by
  by_cases hk : k' = k
  · subst hk
    obtain ⟨lock, hl, rfl⟩ := Option.map_eq_some_iff.mp h
    rw [Function.update_self, RWLock.modeOf_acquire hl]
    simp
  · rw [acquire_of_ne h hk, if_neg fun hd => hk hd.2]

theorem modeOf_release (h : t.release c k = some t') (d : C) (k' : K) :
    (t' k').modeOf d = if d = c ∧ k' = k then none else (t k').modeOf d := by
  by_cases hk : k' = k
  · subst hk
    obtain ⟨lock, hl, rfl⟩ := Option.map_eq_some_iff.mp h
    rw [Function.update_self, RWLock.modeOf_release hl]
    simp
  · rw [release_of_ne h hk, if_neg fun hd => hk hd.2]

/-- One client acquires or releases one lock. -/
def Moves (c : C) (t t' : Table K C) : Prop :=
  ∃ k, (∃ m, t.acquire c k m = some t') ∨ t.release c k = some t'

theorem mem_owners_of_moves (h : Moves c t t') {d : C} (hd : d ≠ c) (k : K) :
    d ∈ (t' k).owners ↔ d ∈ (t k).owners := by
  obtain ⟨k', ⟨m, h⟩ | h⟩ := h
  · by_cases hk : k = k'
    · obtain ⟨lock, hl, rfl⟩ := Option.map_eq_some_iff.mp h
      rw [hk, Function.update_self, owners_acquire hl, Finset.mem_insert]
      exact or_iff_right hd
    · rw [acquire_of_ne h hk]
  · by_cases hk : k = k'
    · obtain ⟨lock, hl, rfl⟩ := Option.map_eq_some_iff.mp h
      rw [hk, Function.update_self, owners_release hl, Finset.mem_erase]
      exact and_iff_right hd
    · rw [release_of_ne h hk]

/-- A lock held alone is not acquired by anyone. -/
theorem exclusive_of_acquire {d : C} {k' : K} (hc : t k = exclusive c)
    (h : t.acquire d k' m = some t') : t' k = exclusive c := by
  by_cases hk : k = k'
  · subst hk
    rw [acquire, hc] at h
    cases m <;> cases h
  · rw [acquire_of_ne h hk, hc]

/-- Nor is it released but by its owner. -/
theorem exclusive_of_release {d : C} {k' : K} (hc : t k = exclusive c)
    (h : t.release d k' = some t') (hne : ¬ (d = c ∧ k' = k)) : t' k = exclusive c := by
  by_cases hk : k = k'
  · subst hk
    obtain ⟨lock, hl, -⟩ := Option.map_eq_some_iff.mp h
    have hd := isSome_release.mp (Option.isSome_iff_exists.mpr ⟨lock, hl⟩)
    rw [hc, owners, Finset.mem_singleton] at hd
    exact absurd ⟨hd, rfl⟩ hne
  · rw [release_of_ne h hk, hc]

end Table

end RWLock
