import LockService.EndSession

/-!
# The end of a session comes to an end

The loop of `end_session` starts over at the first path after every release, and it is the session
registered for the client that a release takes a path from, which need not be the session the loop
runs over. So it is the registered session's paths that become fewer (`lockCount_release`), and
their number bounds the turns in any state (`endSession_ends`).
-/

namespace LockService

/-- The loop is over after so many turns at most, and any further ones are never begun. -/
def EndsWithin (cfg : Config) (ptr : SessionPtr) (n : ℕ) (s : State) : Prop :=
  ∀ fuel, n ≤ fuel → releaseLoop cfg ptr fuel s = releaseLoop cfg ptr n s ∧
    (releaseLoop cfg ptr fuel s).1 ≠ .error .diverges

section Loop

variable {cfg : Config} {s s' : State} {c path : Str} {ptr : SessionPtr} {session : Session}

theorem lockCount_registered (h : s.Registered c ptr session) :
    s.lockCount c = session.locks.size := by
  rw [State.lockCount, h.1, Option.bind_some, h.2]

/-- In any state a release returns, and either changes nothing or takes the path from the session
registered for the client. -/
theorem releaseLock_outcome :
    (∃ r, releaseLock cfg s c path = (r, s) ∧ r ≠ .ok .ok ∧ r ≠ .error .diverges) ∨
      ∃ ptr session l lock, s.Registered c ptr session ∧ session.locks[path]? = some l ∧
        releaseLock cfg s c path = (.ok .ok, s.release ptr session c path l lock) := by
  rcases hptr : s.sessions[c]? with _ | ptr
  · exact .inl ⟨_, withSession_none hptr, by simp [noSession], by simp⟩
  rcases hsession : s.sessionHeap[ptr]? with _ | session
  · exact .inl ⟨.error .nullPointer, by simp [releaseLock, withSession, hptr, hsession], by simp,
      by simp⟩
  have hr : s.Registered c ptr session := ⟨hptr, hsession⟩
  rw [releaseLock, withSession_registered hr]
  by_cases hx : isExists cfg s.files path = true
  · rw [if_pos hx]
    rcases ho : ownedLock s session c path with m | ⟨l, lock⟩
    · exact .inl ⟨_, rfl, by simp, by simp⟩
    · dsimp only
      split_ifs
      · exact .inr ⟨ptr, session, l, lock, hr, (ownedLock_eq_ok.mp ho).1, rfl⟩
      · exact .inl ⟨_, rfl, by simp, by simp⟩
  · rw [if_neg hx]
    exact .inl ⟨_, rfl, by simp, by simp⟩

theorem lockCount_release (h : s.Registered c ptr session) {l : LockPtr}
    (hl : session.locks[path]? = some l) (lock : Lock) :
    (s.release ptr session c path l lock).lockCount c < s.lockCount c := by
  have hmem : path ∈ session.locks := mem_iff_exists_getElem?.mpr ⟨l, hl⟩
  have hpos : session.locks.size ≠ 0 := fun h0 => size_eq_zero_iff.mp h0 path hmem
  rw [lockCount_registered (registered_release h), lockCount_registered h,
    Std.ExtTreeMap.size_erase, if_pos (Std.ExtTreeMap.contains_iff_mem.mpr hmem)]
  omega

/-- The session the loop runs over stays the same client's, whichever session gives up a path. -/
theorem clientId_release (h : s.Registered c ptr session) {ptr' : SessionPtr} {session' : Session}
    (h' : s.sessionHeap[ptr']? = some session') (path : Str) (l : LockPtr) (lock : Lock) :
    ∃ session₁, (s.release ptr session c path l lock).sessionHeap[ptr']? = some session₁ ∧
      session₁.clientId = session'.clientId := by
  rw [State.release, getElem?_store h.2]
  split_ifs with hp
  · subst hp
    obtain rfl := Option.some.inj (h'.symm.trans h.2)
    exact ⟨_, rfl, rfl⟩
  · exact ⟨session', h', rfl⟩

/-- As long as there are more turns than the registered session has paths, the loop ends by
itself. -/
theorem releaseLoop_ends :
    ∀ (n : ℕ) {s : State} {session : Session}, s.sessionHeap[ptr]? = some session →
      s.lockCount session.clientId < n → EndsWithin cfg ptr n s
  | 0, _, _, _, hn => by omega
  | n + 1, s, session, h, hn => fun fuel hfuel => by
    obtain ⟨fuel, rfl⟩ := Nat.exists_eq_add_one_of_ne_zero (by omega : fuel ≠ 0)
    simp only [releaseLoop, h]
    rcases session.locks.keys.head? with _ | path
    · simp
    dsimp only
    rcases @releaseLock_outcome cfg s session.clientId path with
      ⟨r, hr, hno, hret⟩ | ⟨ptr', session', l, lock, hreg, hl, hr⟩
    · rw [hr]
      rcases r with f | status
      · exact ⟨rfl, fun h => hret (by simpa using h)⟩
      · have hstatus : status ≠ .ok := fun h => hno (h ▸ rfl)
        simp [hstatus]
    · obtain ⟨session₁, h₁, hc⟩ := clientId_release hreg h path l lock
      have hless := lockCount_release hreg hl lock
      rw [hr, Result.andThen_ok, Result.andThen_ok, if_pos rfl, if_pos rfl]
      exact releaseLoop_ends n h₁ (by rw [hc]; omega) fuel (by omega)

theorem lockCount_terminate (h : s.sessionHeap[ptr]? = some session) :
    (s.terminate ptr session).lockCount c = s.lockCount c := by
  unfold State.lockCount State.terminate State.setSession
  dsimp only
  rcases s.sessions[c]? with _ | ptr'
  · rfl
  rw [Option.bind_some, Option.bind_some, getElem?_store h]
  split_ifs with hp
  · rw [hp, h]
  · rfl

/-- Whatever the state and the session, the loop of `end_session` takes at most one turn more than
the session registered for the client has paths. -/
theorem endSession_ends (h : s.sessionHeap[ptr]? = some session) :
    EndsWithin cfg ptr (s.lockCount session.clientId + 1) (s.terminate ptr session) := by
  have h' : (s.terminate ptr session).sessionHeap[ptr]? =
      some { session with terminated := true } := by
    rw [State.terminate, State.setSession, getElem?_store h, if_pos rfl]
  refine releaseLoop_ends _ h' ?_
  rw [lockCount_terminate h]
  exact Nat.lt_succ_self _

/-- The second session object of a client that came back is not the one registered, which has a
path. -/
theorem endSession_ends_unregistered : ∃ (s : State) (session : Session),
    s.sessions[([1] : Str)]? = some 0 ∧ s.sessionHeap[1]? = some session ∧ s.lockCount [1] = 1 ∧
      EndsWithin sampleConfig 1 (s.lockCount session.clientId + 1) (s.terminate 1 session) := by
  obtain ⟨s, -, hs⟩ := (Option.any_eq_true _ _).mp (by decide :
    (Run.run (next sampleConfig) (.initial (sampleFiles [ascii ['a']]))
      [.initSession true [1] 0, .closeSession [1], .initSession true [1] 0,
        .acquireLock [1] (ascii ['a']) .shared]).any fun s =>
      s.sessions[([1] : Str)]? = some 0 ∧ (s.sessionHeap[1]?).isSome ∧ s.lockCount [1] = 1)
  obtain ⟨hptr, hsome, hcount⟩ := of_decide_eq_true hs
  obtain ⟨session, hsession⟩ := Option.isSome_iff_exists.mp hsome
  exact ⟨s, session, hptr, hsession, hcount, endSession_ends hsession⟩

end Loop

end LockService
