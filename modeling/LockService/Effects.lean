import LockService.Runs

/-!
# What a step can do to the tables

Whatever event the server takes, it changes its tables by a sequence of effects, each with the
check the code makes before it (`Effect`). The invariant that needs no assumption at all is shown
here, effect by effect: pointers lead somewhere, an object lies under its own path or client, a
lock's status tells how many owners it has (`WellFormed`).
-/

namespace LockService

/-- An effect, by the client and the path it is about. -/
inductive Action where
  | start (clientId : Str)
  | terminate (clientId : Str)
  | enter (clientId path : Str)
  | grant (clientId path : Str) (mode : LockStatus)
  | release (clientId path : Str)
  | forget (clientId path : Str)
  | note
  | replicate (files : FileTree)

inductive Effect (cfg : Config) (s : State) : Action → State → Prop where
  | start (c : Str) (now : ℤ)
    (h : ∀ ptr session, s.Registered c ptr session → session.terminated = true) :
    Effect cfg s (.start c) (s.start c now)
  | terminate {c : Str} {ptr : SessionPtr} {session : Session} (h : s.Registered c ptr session) :
    Effect cfg s (.terminate c) (s.terminate ptr session)
  | enter {c path : Str} {ptr : SessionPtr} {session : Session} (h : s.Registered c ptr session) :
    Effect cfg s (.enter c path) (s.enter ptr session path)
  | grant {c path : Str} {ptr : SessionPtr} {session : Session} {l : LockPtr} {lock : Lock}
    {mode : LockStatus} (h : s.Registered c ptr session) (hl : s.locks[path]? = some l)
    (hlock : s.lockHeap[l]? = some lock) (hmode : mode = .exclusive ∨ mode = .shared)
    (hx : isExists cfg s.files path = true) (hfree : lock.status ≠ .exclusive)
    (hshared : lock.status = .shared → mode = .shared) :
    Effect cfg s (.grant c path mode) (s.grant ptr session c path l lock mode)
  | release {c path : Str} {ptr : SessionPtr} {session : Session} {l : LockPtr} {lock : Lock}
    (h : s.Registered c ptr session) (hl : session.locks[path]? = some l)
    (hlock : s.lockHeap[l]? = some lock) (hx : isExists cfg s.files path = true)
    (howner : lock.owners[c]? = some true) (hp : path ∈ s.locks) :
    Effect cfg s (.release c path) (s.release ptr session c path l lock)
  | forget {c path : Str} {ptr : SessionPtr} {session : Session} {l : LockPtr} {lock : Lock}
    (h : s.Registered c ptr session) (hl : session.locks[path]? = some l)
    (hlock : s.lockHeap[l]? = some lock) (hstatus : lock.status = .exclusive)
    (hx : isExists cfg s.files path = false) :
    Effect cfg s (.forget c path) (s.forget ptr session path)
  | note {ptr : SessionPtr} {session session' : Session}
    (h : s.sessionHeap[ptr]? = some session) (hc : session'.clientId = session.clientId)
    (hl : session'.locks = session.locks) (ht : session'.terminated = session.terminated)
    (hstart : session'.startTime = session.startTime)
    (hlease : session.leaseLength ≤ session'.leaseLength) :
    Effect cfg s .note (s.setSession ptr session')
  | phase {i : ℕ} {thread : Thread} (h : s.threads[i]? = some thread) (phase : Phase) :
    Effect cfg s .note (s.setPhase i thread phase)
  | replicate (files : FileTree) : Effect cfg s (.replicate files) { s with files }

section Consistent

/-- The status tells how many owners the lock has, and every owner is marked as one. -/
structure Lock.Consistent (lock : Lock) : Prop where
  marked : ∀ (c : Str) (b : Bool), lock.owners[c]? = some b → b = true
  status : match lock.status with
    | .free => ∀ c : Str, c ∉ lock.owners
    | .exclusive => ∃ c : Str, ∀ d, d ∈ lock.owners ↔ d = c
    | .shared => ∃ c : Str, c ∈ lock.owners
    | .unnamed _ _ => False

namespace Lock.Consistent

variable {lock : Lock}

theorem fresh (path : Str) : Lock.Consistent ⟨path, .free, ∅⟩ :=
  ⟨by simp, by simp⟩

theorem owner_iff (h : lock.Consistent) {c : Str} :
    lock.owners[c]? = some true ↔ c ∈ lock.owners := by
  rw [mem_iff_exists_getElem?]
  refine ⟨fun hc => ⟨_, hc⟩, fun ⟨b, hb⟩ => ?_⟩
  rw [hb, h.marked c b hb]

theorem free_iff (h : lock.Consistent) : lock.status = .free ↔ ∀ c : Str, c ∉ lock.owners := by
  have := h.status
  split at this
  · simp_all
  · obtain ⟨c, hc⟩ := this
    refine ⟨by simp_all, fun hn => absurd ((hc c).mpr rfl) (hn c)⟩
  · obtain ⟨c, hc⟩ := this
    refine ⟨by simp_all, fun hn => absurd hc (hn c)⟩
  · exact this.elim

theorem owner_of_exclusive (h : lock.Consistent) (hs : lock.status = .exclusive) :
    ∃ c : Str, ∀ d, d ∈ lock.owners ↔ d = c := by
  simpa [hs] using h.status

theorem owner_of_shared (h : lock.Consistent) (hs : lock.status = .shared) :
    ∃ c : Str, c ∈ lock.owners := by
  simpa [hs] using h.status

theorem eq_of_exclusive (h : lock.Consistent) (hs : lock.status = .exclusive) {c d : Str}
    (hc : c ∈ lock.owners) (hd : d ∈ lock.owners) : d = c := by
  obtain ⟨e, he⟩ := h.owner_of_exclusive hs
  rw [(he d).mp hd, (he c).mp hc]

theorem status_cases (h : lock.Consistent) :
    lock.status = .free ∨ lock.status = .exclusive ∨ lock.status = .shared := by
  have := h.status
  split at this <;> simp_all

theorem grantedTo (h : lock.Consistent) {mode : LockStatus}
    (hmode : mode = .exclusive ∨ mode = .shared) (hfree : lock.status ≠ .exclusive)
    (hshared : lock.status = .shared → mode = .shared) (c : Str) :
    (lock.grantedTo c mode).Consistent := by
  refine ⟨fun d b hd => ?_, ?_⟩
  · rw [Lock.grantedTo, getElem?_insert_eq] at hd
    split_ifs at hd
    · simpa using hd.symm
    · exact h.marked d b hd
  · rcases hmode with rfl | rfl
    · have hnone : ∀ d : Str, d ∉ lock.owners := by
        refine h.free_iff.mp ?_
        rcases h.status_cases with hs | hs | hs
        · exact hs
        · exact absurd hs hfree
        · exact absurd (hshared hs) (by simp)
      refine ⟨c, fun d => ?_⟩
      rw [Lock.grantedTo, mem_insert_eq]
      simp [hnone d]
    · exact ⟨c, by simp [Lock.grantedTo]⟩

theorem without (h : lock.Consistent) {c : Str} (hc : c ∈ lock.owners) :
    (lock.without c).Consistent := by
  refine ⟨fun d b hd => ?_, ?_⟩
  · rw [Lock.without, getElem?_erase_eq] at hd
    split_ifs at hd
    exact h.marked d b hd
  · simp only [Lock.without]
    split_ifs with hs
    · intro d hd
      rw [mem_erase_eq] at hd
      rcases hs with hs | hs
      · exact hd.1 (h.eq_of_exclusive hs hc hd.2)
      · exact size_eq_zero_iff.mp hs d (mem_erase_eq.mpr hd)
    · rw [not_or, size_eq_zero_iff, not_forall] at hs
      obtain ⟨d, hd⟩ := hs.2
      rcases h.status_cases with h1 | h1 | h1
      · exact absurd hc (h.free_iff.mp h1 c)
      · exact absurd h1 hs.1
      · rw [h1]
        exact ⟨d, not_not.mp hd⟩

theorem status_grantedTo (h : lock.Consistent) {mode : LockStatus}
    (hfree : lock.status ≠ .exclusive) (hshared : lock.status = .shared → mode = .shared)
    {c : Str} (hc : c ∈ lock.owners) :
    lock.status = mode := by
  rcases h.status_cases with hst | hst | hst
  · exact absurd hc (h.free_iff.mp hst c)
  · exact absurd hst hfree
  · rw [hst, hshared hst]

theorem status_without (h : lock.Consistent) {c d : Str} (hc : c ∈ lock.owners)
    (hd : d ∈ lock.owners) (hne : c ≠ d) : lock.status = (lock.without d).status := by
  rw [Lock.without]
  dsimp only
  rw [if_neg]
  rintro (hst | hsize)
  · exact hne (h.eq_of_exclusive hst hd hc)
  · exact size_eq_zero_iff.mp hsize c (mem_erase_eq.mpr ⟨hne, hc⟩)

end Lock.Consistent

end Consistent

/-- The pointers and the objects fit together. -/
structure State.WellFormed (s : State) : Prop where
  registered : ∀ {c : Str} {ptr : SessionPtr}, s.sessions[c]? = some ptr →
    ∃ session, s.sessionHeap[ptr]? = some session ∧ session.clientId = c
  lockTable : ∀ {p : Str} {l : LockPtr}, s.locks[p]? = some l →
    ∃ lock, s.lockHeap[l]? = some lock ∧ lock.path = p
  sessionLocks : ∀ {ptr : SessionPtr} {session : Session} {p : Str} {l : LockPtr},
    s.sessionHeap[ptr]? = some session → session.locks[p]? = some l →
    ∃ lock, s.lockHeap[l]? = some lock ∧ lock.path = p
  consistent : ∀ {l : LockPtr} {lock : Lock}, s.lockHeap[l]? = some lock → lock.Consistent
  maintained : ∀ {i : ℕ} {thread : Thread}, s.threads[i]? = some thread →
    ∃ c : Str, s.sessions[c]? = some thread.session

namespace State.WellFormed

variable {cfg : Config} {s : State} {c path : Str} {ptr : SessionPtr} {session : Session}
  {l : LockPtr} {lock : Lock}

theorem initial (files : FileTree) : (State.initial files).WellFormed where
  registered h := by simp [State.initial] at h
  lockTable h := by simp [State.initial] at h
  sessionLocks h := by simp [State.initial] at h
  consistent h := by simp [State.initial] at h
  maintained h := by simp [State.initial] at h

theorem clientId_eq (hs : s.WellFormed) (h : s.Registered c ptr session) :
    session.clientId = c := by
  obtain ⟨session', h', hc⟩ := hs.registered h.1
  rw [h.2, Option.some.injEq] at h'
  exact h' ▸ hc

theorem path_eq (hs : s.WellFormed) (h : s.sessionHeap[ptr]? = some session)
    (hl : session.locks[path]? = some l) (hlock : s.lockHeap[l]? = some lock) :
    lock.path = path := by
  obtain ⟨lock', h', hp⟩ := hs.sessionLocks h hl
  rw [hlock, Option.some.injEq] at h'
  exact h' ▸ hp

theorem registered_or_none (hs : s.WellFormed) (c : Str) :
    s.sessions[c]? = none ∨ ∃ ptr session, s.Registered c ptr session := by
  rcases h : s.sessions[c]? with _ | ptr
  · exact .inl rfl
  · obtain ⟨session, hsession, -⟩ := hs.registered h
    exact .inr ⟨ptr, session, h, hsession⟩

/-- Two clients do not share a session. -/
theorem eq_of_ptr (hs : s.WellFormed) {c d : Str} (hc : s.sessions[c]? = some ptr)
    (hd : s.sessions[d]? = some ptr) : c = d := by
  obtain ⟨session, h, rfl⟩ := hs.registered hc
  obtain ⟨session', h', rfl⟩ := hs.registered hd
  rw [h, Option.some.injEq] at h'
  rw [h']

theorem start (hs : s.WellFormed) (c : Str) (now : ℤ) : (s.start c now).WellFormed where
  registered {d ptr} h := by
    simp only [State.start, getElem?_insertIfNew_eq] at h ⊢
    split_ifs at h with hd
    · subst hd
      rcases hs.registered_or_none d with hn | ⟨ptr', session', h₁, h₂⟩
      · rw [hn, Option.getD_none, Option.some.injEq] at h
        exact ⟨_, by rw [getElem?_alloc, if_pos h.symm], rfl⟩
      · rw [h₁, Option.getD_some, Option.some.injEq] at h
        exact ⟨session', getElem?_alloc_of_some (h ▸ h₂) _, hs.clientId_eq ⟨h₁, h₂⟩⟩
    · obtain ⟨session, h', hc⟩ := hs.registered h
      exact ⟨session, getElem?_alloc_of_some h' _, hc⟩
  lockTable h := hs.lockTable h
  sessionLocks {ptr session p l} h hl := by
    simp only [State.start, getElem?_alloc] at h ⊢
    split_ifs at h
    · obtain rfl := Option.some.inj h
      simp at hl
    · exact hs.sessionLocks h hl
  consistent h := hs.consistent h
  maintained {i thread} h := by
    simp only [State.start, getElem?_alloc, getElem?_insertIfNew_eq] at h ⊢
    split_ifs at h
    · obtain rfl := Option.some.inj h
      exact ⟨c, by rw [if_pos rfl, Std.ExtTreeMap.getD_eq_getD_getElem?]⟩
    · obtain ⟨d, hd⟩ := hs.maintained h
      refine ⟨d, ?_⟩
      split_ifs with hdc
      · rw [← hdc, hd, Option.getD_some]
      · exact hd

/-- A change of one session that leaves its client and only has good pointers. -/
theorem setSession (hs : s.WellFormed) {session' : Session}
    (h : s.sessionHeap[ptr]? = some session) (hc : session'.clientId = session.clientId)
    (hl : ∀ {p : Str} {l : LockPtr}, session'.locks[p]? = some l →
      ∃ lock, s.lockHeap[l]? = some lock ∧ lock.path = p) :
    (s.setSession ptr session').WellFormed where
  registered {d ptr'} hd := by
    obtain ⟨session₁, h₁, hc₁⟩ := hs.registered hd
    simp only [State.setSession, getElem?_store h]
    split_ifs with hp
    · rw [hp, h, Option.some.injEq] at h₁
      exact ⟨session', rfl, by rw [hc, h₁, hc₁]⟩
    · exact ⟨session₁, h₁, hc₁⟩
  lockTable h := hs.lockTable h
  sessionLocks {ptr' session₁ p l} h₁ hp := by
    simp only [State.setSession, getElem?_store h] at h₁
    split_ifs at h₁
    · obtain rfl := Option.some.inj h₁
      exact hl hp
    · exact hs.sessionLocks h₁ hp
  consistent h := hs.consistent h
  maintained h := hs.maintained h

/-- A change of one lock that leaves its path and keeps it consistent. -/
theorem setLock (hs : s.WellFormed) (lock' : Lock) (h : s.lockHeap[l]? = some lock)
    (hp : lock'.path = lock.path) (hl : lock'.Consistent) :
    State.WellFormed { s with lockHeap := s.lockHeap.set l lock' } := by
  have hheap : ∀ {p : Str} {l' : LockPtr},
      (∃ lock₁, s.lockHeap[l']? = some lock₁ ∧ lock₁.path = p) →
      ∃ lock₁, (s.lockHeap.set l lock')[l']? = some lock₁ ∧ lock₁.path = p := by
    rintro p l' ⟨lock₁, h₁, hp₁⟩
    rw [getElem?_store h]
    split_ifs with hl'
    · rw [hl', h, Option.some.injEq] at h₁
      exact ⟨lock', rfl, by rw [hp, h₁, hp₁]⟩
    · exact ⟨lock₁, h₁, hp₁⟩
  refine ⟨hs.registered, fun h => hheap (hs.lockTable h),
    fun h h' => hheap (hs.sessionLocks h h'), fun {l' lock₁} h' => ?_, hs.maintained⟩
  rw [getElem?_store h] at h'
  split_ifs at h'
  · exact Option.some.inj h' ▸ hl
  · exact hs.consistent h'

/-- A new lock that is reached from nowhere yet. -/
theorem allocLock (hs : s.WellFormed) (hl : lock.Consistent) :
    State.WellFormed { s with lockHeap := s.lockHeap ++ [lock] } := by
  have hheap : ∀ {p : Str} {l' : LockPtr},
      (∃ lock₁, s.lockHeap[l']? = some lock₁ ∧ lock₁.path = p) →
      ∃ lock₁, (s.lockHeap ++ [lock])[l']? = some lock₁ ∧ lock₁.path = p :=
    fun ⟨lock₁, h₁, hp₁⟩ => ⟨lock₁, getElem?_alloc_of_some h₁ _, hp₁⟩
  refine ⟨hs.registered, fun h => hheap (hs.lockTable h),
    fun h h' => hheap (hs.sessionLocks h h'), fun {l' lock₁} h' => ?_, hs.maintained⟩
  rw [getElem?_alloc] at h'
  split_ifs at h'
  · exact Option.some.inj h' ▸ hl
  · exact hs.consistent h'

/-- A change of the server's table that only has good pointers. -/
theorem setLocks (hs : s.WellFormed) (locks : Dict LockPtr)
    (h : ∀ {p : Str} {l : LockPtr}, locks[p]? = some l →
      ∃ lock, s.lockHeap[l]? = some lock ∧ lock.path = p) :
    State.WellFormed { s with locks } :=
  ⟨hs.registered, h, hs.sessionLocks, hs.consistent, hs.maintained⟩

theorem enter (hs : s.WellFormed) (h : s.Registered c ptr session) (path : Str) :
    (s.enter ptr session path).WellFormed := by
  have h₁ := hs.allocLock (Lock.Consistent.fresh path)
  have hnew : ∃ lock, (s.lockHeap ++ [⟨path, .free, ∅⟩])[s.lockHeap.length]? = some lock ∧
      lock.path = path := ⟨_, List.getElem?_concat_length, rfl⟩
  have h₂ := h₁.setLocks (s.locks.insertIfNew path s.lockHeap.length)
    fun {p l} hl => by
      rw [getElem?_insertIfNew_eq] at hl
      split_ifs at hl with hp
      · subst hp
        rcases hk : s.locks[p]? with _ | k
        · rw [hk, Option.getD_none, Option.some.injEq] at hl
          exact hl ▸ hnew
        · rw [hk, Option.getD_some, Option.some.injEq] at hl
          exact hl ▸ h₁.lockTable hk
      · exact h₁.lockTable hl
  refine h₂.setSession h.2 rfl fun {p l} hl => ?_
  rw [getElem?_insertIfNew_eq] at hl
  split_ifs at hl with hp
  · subst hp
    rcases hk : session.locks[p]? with _ | k
    · rw [hk, Option.getD_none, Option.some.injEq] at hl
      exact hl ▸ hnew
    · rw [hk, Option.getD_some, Option.some.injEq] at hl
      exact hl ▸ h₁.sessionLocks h.2 hk
  · exact h₁.sessionLocks h.2 hl

theorem grant (hs : s.WellFormed) (h : s.Registered c ptr session)
    (hl : s.locks[path]? = some l) (hlock : s.lockHeap[l]? = some lock) {mode : LockStatus}
    (hmode : mode = .exclusive ∨ mode = .shared) (hfree : lock.status ≠ .exclusive)
    (hshared : lock.status = .shared → mode = .shared) :
    (s.grant ptr session c path l lock mode).WellFormed := by
  have h₁ := hs.setLock (lock.grantedTo c mode) hlock rfl
    ((hs.consistent hlock).grantedTo hmode hfree hshared c)
  refine h₁.setSession h.2 rfl fun {p l'} hp => ?_
  rw [getElem?_insert_eq] at hp
  split_ifs at hp with he
  · rw [he, ← Option.some.inj hp]
    exact h₁.lockTable hl
  · exact h₁.sessionLocks h.2 hp

theorem release (hs : s.WellFormed) (h : s.Registered c ptr session)
    (hl : session.locks[path]? = some l) (hlock : s.lockHeap[l]? = some lock)
    (hc : c ∈ lock.owners) : (s.release ptr session c path l lock).WellFormed := by
  have h₁ := hs.setLock (lock.without c) hlock rfl ((hs.consistent hlock).without hc)
  have h₂ := h₁.setLocks (s.locks.insert path l) fun {p l'} hp => by
    rw [getElem?_insert_eq] at hp
    split_ifs at hp with he
    · rw [he, ← Option.some.inj hp]
      exact h₁.sessionLocks h.2 hl
    · exact h₁.lockTable hp
  refine h₂.setSession h.2 rfl fun {p l'} hp => ?_
  rw [getElem?_erase_eq] at hp
  split_ifs at hp
  exact h₂.sessionLocks h.2 hp

theorem forget (hs : s.WellFormed) (h : s.Registered c ptr session) (path : Str) :
    (s.forget ptr session path).WellFormed := by
  have h₁ := hs.setLocks (s.locks.erase path) fun {p l'} hp => by
    rw [getElem?_erase_eq] at hp
    split_ifs at hp
    exact hs.lockTable hp
  refine h₁.setSession h.2 rfl fun {p l'} hp => ?_
  rw [getElem?_erase_eq] at hp
  split_ifs at hp
  exact hs.sessionLocks h.2 hp

theorem setPhase (hs : s.WellFormed) {i : ℕ} {thread : Thread} (h : s.threads[i]? = some thread)
    (phase : Phase) : (s.setPhase i thread phase).WellFormed := by
  refine ⟨hs.registered, hs.lockTable, hs.sessionLocks, hs.consistent, fun {j thread'} hj => ?_⟩
  simp only [State.setPhase, getElem?_store h] at hj
  split_ifs at hj
  · obtain ⟨c, hc⟩ := hs.maintained h
    obtain rfl := Option.some.inj hj
    exact ⟨c, hc⟩
  · exact hs.maintained hj

theorem terminate (hs : s.WellFormed) (h : s.Registered c ptr session) :
    (s.terminate ptr session).WellFormed :=
  hs.setSession h.2 rfl fun hl => hs.sessionLocks h.2 hl

theorem ready (hs : s.WellFormed) (h : s.Registered c ptr session) (path : Str) :
    (s.ready ptr session path).WellFormed := by
  unfold State.ready
  split_ifs
  · exact hs
  · exact hs.enter h path

theorem effect {s' : State} {a : Action} (hs : s.WellFormed) (h : Effect cfg s a s') :
    s'.WellFormed := by
  cases h with
  | start c now h => exact hs.start c now
  | terminate h => exact hs.terminate h
  | enter h => exact hs.enter h _
  | grant h hl hlock hmode hx hfree hshared => exact hs.grant h hl hlock hmode hfree hshared
  | release h hl hlock hx howner hp =>
    exact hs.release h hl hlock ((hs.consistent hlock).owner_iff.mp howner)
  | forget h hl hlock hstatus hx => exact hs.forget h _
  | note h hc hl ht hstart hlease =>
    exact hs.setSession h hc fun hl' => hs.sessionLocks h (hl ▸ hl')
  | phase h phase => exact hs.setPhase h phase
  | replicate files =>
    exact ⟨hs.registered, hs.lockTable, hs.sessionLocks, hs.consistent, hs.maintained⟩

end State.WellFormed

/-- A session object goes on as the same session. -/
structure Session.Evolves (session session' : Session) : Prop where
  clientId : session'.clientId = session.clientId
  startTime : session'.startTime = session.startTime
  leaseLength : session.leaseLength ≤ session'.leaseLength
  terminated : session.terminated = true → session'.terminated = true

theorem Session.Evolves.refl (session : Session) : session.Evolves session :=
  ⟨rfl, rfl, Int.le_refl _, id⟩

section Frames

variable {cfg : Config} {s s' : State} {a : Action} {c : Str} {ptr : SessionPtr}
  {session' : Session} {l : LockPtr} {lock' : Lock}

/-- A client's entry stays what it is. -/
theorem effect_registered (h : Effect cfg s a s') (hc : s.sessions[c]? = some ptr) :
    s'.sessions[c]? = some ptr := by
  cases h with
  | start d now h =>
    rw [State.start, getElem?_insertIfNew_eq]
    split_ifs with hd
    · rw [← hd, hc, Option.getD_some]
    · exact hc
  | _ => exact hc

theorem evolves_of_set {ptr₀ : SessionPtr} {session₀ session₁ : Session}
    (h₀ : s.sessionHeap[ptr₀]? = some session₀)
    (h : (s.sessionHeap.set ptr₀ session₁)[ptr]? = some session')
    (he : session₀.Evolves session₁) :
    ∃ session, s.sessionHeap[ptr]? = some session ∧ session.Evolves session' := by
  rw [getElem?_store h₀] at h
  split_ifs at h with hp
  · exact ⟨session₀, hp ▸ h₀, Option.some.inj h ▸ he⟩
  · exact ⟨session', h, .refl _⟩

theorem effect_sessions (h : Effect cfg s a s') (hp : s'.sessionHeap[ptr]? = some session') :
    (∃ session, s.sessionHeap[ptr]? = some session ∧ session.Evolves session') ∨
      ∃ d now, a = .start d ∧ ptr = s.sessionHeap.length ∧
        session' = ⟨d, now, defaultLeaseExtension, 0, ∅, false⟩ := by
  cases h with
  | start d now h =>
    rw [State.start, getElem?_alloc] at hp
    split_ifs at hp with he
    · exact .inr ⟨d, now, rfl, he, (Option.some.inj hp).symm⟩
    · exact .inl ⟨session', hp, .refl _⟩
  | terminate h => exact .inl (evolves_of_set h.2 hp ⟨rfl, rfl, Int.le_refl _, fun _ => rfl⟩)
  | enter h => exact .inl (evolves_of_set h.2 hp ⟨rfl, rfl, Int.le_refl _, id⟩)
  | grant h => exact .inl (evolves_of_set h.2 hp ⟨rfl, rfl, Int.le_refl _, id⟩)
  | release h => exact .inl (evolves_of_set h.2 hp ⟨rfl, rfl, Int.le_refl _, id⟩)
  | forget h => exact .inl (evolves_of_set h.2 hp ⟨rfl, rfl, Int.le_refl _, id⟩)
  | note h hc hl ht hstart hlease =>
    exact .inl (evolves_of_set h hp ⟨hc, hstart, hlease, fun h => ht.trans h⟩)
  | phase h phase => exact .inl ⟨session', hp, .refl _⟩
  | replicate files => exact .inl ⟨session', hp, .refl _⟩

/-- An owner held the same lock in the same status before, or is granted it now. -/
theorem effect_owner (hs : s.WellFormed) (h : Effect cfg s a s')
    (hl : s'.lockHeap[l]? = some lock') (hc : c ∈ lock'.owners) :
    (∃ lock, s.lockHeap[l]? = some lock ∧ c ∈ lock.owners ∧ lock.path = lock'.path ∧
      lock.status = lock'.status) ∨ a = .grant c lock'.path lock'.status := by
  cases h with
  | enter h =>
    rw [State.enter, getElem?_alloc] at hl
    split_ifs at hl
    · obtain rfl := Option.some.inj hl
      simp at hc
    · exact .inl ⟨lock', hl, hc, rfl, rfl⟩
  | @grant d p _ _ k lock mode h hk hlock hmode hx hfree hshared =>
    rw [State.grant, getElem?_store hlock] at hl
    split_ifs at hl with he
    · obtain rfl := Option.some.inj hl
      rw [Lock.grantedTo, mem_insert_eq] at hc
      rcases hc with rfl | hc
      · obtain ⟨lock₁, h₁, hp⟩ := hs.lockTable hk
        obtain rfl := Option.some.inj (hlock.symm.trans h₁)
        exact .inr (by rw [Lock.grantedTo, hp])
      · exact .inl ⟨lock, he ▸ hlock, hc, rfl,
          (hs.consistent hlock).status_grantedTo hfree hshared hc⟩
    · exact .inl ⟨lock', hl, hc, rfl, rfl⟩
  | @release d p _ _ k lock h hk hlock hx howner hp =>
    rw [State.release, getElem?_store hlock] at hl
    split_ifs at hl with he
    · obtain rfl := Option.some.inj hl
      rw [Lock.without, mem_erase_eq] at hc
      have hcons := hs.consistent hlock
      exact .inl ⟨lock, he ▸ hlock, hc.2, rfl,
        hcons.status_without hc.2 (hcons.owner_iff.mp howner) hc.1⟩
    · exact .inl ⟨lock', hl, hc, rfl, rfl⟩
  | _ => exact .inl ⟨lock', hl, hc, rfl, rfl⟩

end Frames

end LockService
