import LockService.Requests

/-!
# What delete_lock deletes

`delete_lock` answers that the file does not exist when it does, so no owner of an existing path
ever deletes it; what it looks at is the status of the lock, whoever owns it, and the client's path
from where the server runs. It does what it is for only where there is nothing to delete and it
refuses (`deletesOwn_iff`).
-/

namespace LockService

/-- `delete_lock` goes through for an exclusive owner of an existing path and nobody else, and then
the path is gone from the files and every table, what is under other paths stays, and the path can
be opened again. -/
structure DeletesOwn (cfg : Config) (s : State) (c path : Str) : Prop where
  answer : (deleteLock cfg s c path).1 = .ok .ok ↔
    c ∈ s.sessions ∧ isExists cfg s.files path = true ∧ Owns s c path .exclusive
  gone : (deleteLock cfg s c path).1 = .ok .ok →
    isExists cfg (deleteLock cfg s c path).2.files path = false ∧
      path ∉ (deleteLock cfg s c path).2.locks ∧
      ∀ (ptr : SessionPtr) session,
        (deleteLock cfg s c path).2.sessionHeap[ptr]? = some session → path ∉ session.locks
  others : (deleteLock cfg s c path).1 = .ok .ok → ∀ p, p ≠ path →
    (deleteLock cfg s c path).2.lockOf p = s.lockOf p ∧
      (∀ ptr : SessionPtr, ((deleteLock cfg s c path).2.sessionHeap[ptr]?).map (·.locks[p]?) =
        (s.sessionHeap[ptr]?).map (·.locks[p]?)) ∧
      (cfg.fileOf p ≠ cfg.fileOf path →
        readContent cfg (deleteLock cfg s c path).2.files p = readContent cfg s.files p)
  reopened : (deleteLock cfg s c path).1 = .ok .ok → ∀ d ∈ (deleteLock cfg s c path).2.sessions,
    ∀ answer files, appendLog cfg (deleteLock cfg s c path).2.files ⟨.write, path, []⟩ answer =
      .ok files → (openLock cfg (deleteLock cfg s c path).2 d path answer).1 = .ok .ok

/-- The client's session has a lock for the path that somebody holds alone, there is no such file,
and nothing keeps `fs::remove` from its work. -/
def DeletesMissing (cfg : Config) (s : State) (c path : Str) : Prop :=
  isExists cfg s.files path = false ∧ ¬ RemoveFails cfg s.files path ∧
    ∃ ptr session l lock, s.Registered c ptr session ∧ session.locks[path]? = some l ∧
      s.lockHeap[l]? = some lock ∧ lock.status = .exclusive

section Deletion

variable {cfg : Config} {s : State} {c path : Str}

theorem deleteLock_ok_iff (hs : s.WellFormed) :
    (deleteLock cfg s c path).1 = .ok .ok ↔ DeletesMissing cfg s c path := by
  constructor
  · intro hok
    rcases deleteLock_cases cfg c path hs with
      hr | ⟨ptr, session, l, lock, files, hreg, hl, hlock, hst, hx, hf, -⟩
    · exact absurd hok hr.1
    · have hremoved : ¬ RemoveFails cfg s.files path := fun h => by
        rw [removeFile_eq_none_iff.mpr h] at hf
        cases hf
      exact ⟨hx, hremoved, ptr, session, l, lock, hreg, hl, hlock, hst⟩
  · rintro ⟨hx, hf, ptr, session, l, lock, hreg, hl, hlock, hst⟩
    obtain ⟨files, hf⟩ := Option.ne_none_iff_exists'.mp (mt removeFile_eq_none_iff.mp hf)
    simp [deleteLock, withSession_registered hreg, hl, hlock, hst, hx, hf]

/-- A lock that somebody holds has its file as long as nothing takes files away. -/
theorem not_deletesMissing (hs : s.WellFormed) (ha : s.Aligned cfg) :
    ¬ DeletesMissing cfg s c path := by
  rintro ⟨hx, -, ptr, session, l, lock, hreg, hl, hlock, hst⟩
  have hexists := not_forget hs ha hreg hl hlock hst
  rw [hx] at hexists
  cases hexists

/-- Where the path exists nothing is deleted, and where it does not there was nothing to delete. -/
theorem deletesOwn_iff (hr : Reachable cfg s) :
    DeletesOwn cfg s c path ↔
      ¬ (c ∈ s.sessions ∧ isExists cfg s.files path = true ∧ Owns s c path .exclusive) ∧
        ¬ DeletesMissing cfg s c path := by
  have hok := @deleteLock_ok_iff cfg s c path hr.wellFormed
  constructor
  · intro h
    have hnot : ¬ DeletesMissing cfg s c path := by
      intro hmissing
      have hx := (h.answer.mp (hok.mpr hmissing)).2.1
      rw [hmissing.1] at hx
      cases hx
    exact ⟨fun hown => hnot (hok.mp (h.answer.mpr hown)), hnot⟩
  · intro ⟨hown, hmissing⟩
    have hrefused : (deleteLock cfg s c path).1 ≠ .ok .ok := mt hok.mp hmissing
    exact ⟨iff_of_false hrefused hown, fun h => absurd h hrefused, fun h => absurd h hrefused,
      fun h => absurd h hrefused⟩

end Deletion

/-- One of those that read a file is refused. -/
theorem deletesOwn_iff_shared_holder : ∃ s, Reachable sampleConfig s ∧
    Owns s [1] (ascii ['a']) .shared ∧ isExists sampleConfig s.files (ascii ['a']) = true ∧
    DeletesOwn sampleConfig s [1] (ascii ['a']) := by
  obtain ⟨s, hs, hcheck⟩ := (Option.any_eq_true _ _).mp (by decide :
    (Run.run (next sampleConfig) (.initial .empty) [.initSession true [1] 0,
      .openLock [1] (ascii ['a']) (.committed 0), .acquireLock [1] (ascii ['a']) .shared]).any
      fun s => isExists sampleConfig s.files (ascii ['a']) = true ∧
        ((s.lockOf (ascii ['a'])).any fun lock =>
          lock.status = .shared ∧ ([1] : Str) ∈ lock.owners) = true)
  obtain ⟨hx, hlock⟩ := of_decide_eq_true hcheck
  obtain ⟨lock, hl, hown⟩ := (Option.any_eq_true _ _).mp hlock
  have howns : Owns s [1] (ascii ['a']) .shared := ⟨lock, hl, of_decide_eq_true hown⟩
  refine ⟨s, ⟨_, _, hs⟩, howns, hx, (deletesOwn_iff ⟨_, _, hs⟩).mpr ⟨fun h => ?_, fun h => ?_⟩⟩
  · obtain ⟨lock', hl', hst, -⟩ := h.2.2
    obtain rfl := Option.some.inj (hl.symm.trans hl')
    exact absurd (hst.symm.trans (of_decide_eq_true hown).1) (by decide)
  · rw [h.1] at hx
    cases hx

/-- The exclusive owner of a file that exists is told that it does not. -/
theorem not_deletesOwn_existing_path : ∃ s, Reachable sampleConfig s ∧
    Owns s [1] (ascii ['a']) .exclusive ∧ isExists sampleConfig s.files (ascii ['a']) = true ∧
    (deleteLock sampleConfig s [1] (ascii ['a'])).1 = .ok (.aborted "file doesn't exists.") ∧
    ¬ DeletesOwn sampleConfig s [1] (ascii ['a']) := by
  obtain ⟨s, hs, hcheck⟩ := (Option.any_eq_true _ _).mp (by decide :
    (Run.run (next sampleConfig) (.initial .empty) [.initSession true [1] 0,
      .openLock [1] (ascii ['a']) (.committed 0), .acquireLock [1] (ascii ['a']) .exclusive]).any
      fun s => ([1] : Str) ∈ s.sessions ∧ isExists sampleConfig s.files (ascii ['a']) = true ∧
        ((s.lockOf (ascii ['a'])).any fun lock =>
          lock.status = .exclusive ∧ ([1] : Str) ∈ lock.owners) = true ∧
        (deleteLock sampleConfig s [1] (ascii ['a'])).1 =
          .ok (.aborted "file doesn't exists."))
  obtain ⟨hc, hx, hlock, hrefused⟩ := of_decide_eq_true hcheck
  obtain ⟨lock, hl, hown⟩ := (Option.any_eq_true _ _).mp hlock
  have howns : Owns s [1] (ascii ['a']) .exclusive := ⟨lock, hl, of_decide_eq_true hown⟩
  refine ⟨s, ⟨_, _, hs⟩, howns, hx, hrefused, fun h => ?_⟩
  have hok := h.answer.mpr ⟨hc, hx, howns⟩
  rw [hrefused] at hok
  exact absurd hok (by decide)

end LockService
