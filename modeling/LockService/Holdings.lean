import LockService.KeepAlive

/-!
# What a client owns

A client owns a path when the server's lock for it lists the client; the mode is the lock's status
(`owns_iff`). While files keep existing only the client's own calls change that, and the end of its
session: an acquired path is added (`owns_acquireLock`), a released one goes (`owns_releaseLock`),
and whatever others do leaves it as it was (`owns_foreign`).
-/

namespace LockService

section Owns

variable {cfg : Config} {s s' : State} {c path : Str}

theorem Owns.mem_locks {mode : LockStatus} (h : Owns s c path mode) : path ∈ s.locks := by
  obtain ⟨lock, hlock, -⟩ := h
  obtain ⟨l, hl, -⟩ := Option.bind_eq_some_iff.mp hlock
  exact mem_iff_exists_getElem?.mpr ⟨l, hl⟩

theorem Owns.mode_unique {d : Str} {mode mode' : LockStatus} (h : Owns s c path mode)
    (h' : Owns s d path mode') : mode = mode' := by
  obtain ⟨lock, hlock, rfl, -⟩ := h
  obtain ⟨lock', hlock', rfl, -⟩ := h'
  rw [Option.some.inj (hlock.symm.trans hlock')]

/-- What a client owns exists. -/
theorem Owns.isExists {mode : LockStatus} (hs : s.WellFormed) (ha : s.Aligned cfg)
    (h : Owns s c path mode) : isExists cfg s.files path = true := by
  obtain ⟨lock, hlock, -, hc⟩ := h
  obtain ⟨l, hl, hl'⟩ := Option.bind_eq_some_iff.mp hlock
  obtain ⟨lock', h', hp⟩ := hs.lockTable hl
  obtain rfl := Option.some.inj (hl'.symm.trans h')
  exact hp ▸ (ha hl' hc).2.1

theorem owns_of_ownedLock (hs : s.WellFormed) (ha : s.Aligned cfg) {ptr : SessionPtr}
    {session : Session} (h : s.Registered c ptr session) {l : LockPtr} {lock : Lock}
    (ho : ownedLock s session c path = .ok (l, lock)) : Owns s c path lock.status := by
  obtain ⟨hl, hlock, hown⟩ := ownedLock_eq_ok.mp ho
  have hc := (hs.consistent hlock).owner_iff.mp hown
  have hreg := (ha hlock hc).1
  rw [hs.path_eq h.2 hl hlock] at hreg
  exact ⟨lock, lockOf_of_getElem? hreg hlock, rfl, hc⟩

theorem owns_iff (hs : s.WellFormed) {mode : LockStatus} :
    Owns s c path mode ↔ (mode = .exclusive ∨ mode = .shared) ∧
      (s.table path).modeOf c = some mode.toMode := by
  rcases hlock : s.lockOf path with _ | lock
  · simp [Owns, State.table, hlock, RWLock.modeOf]
  have hrep := (consistent_of_lockOf hs hlock).represents
  have hown : Owns s c path mode ↔ lock.status = mode ∧ c ∈ lock.owners := by
    simp [Owns, hlock]
  rw [hown, table_eq_of_lockOf hlock]
  rcases hv : lock.view with _ | d | ⟨cs, hcs⟩ <;> rw [hv] at hrep
  · simp [RWLock.modeOf, hrep.2 c]
  · rw [hrep.1, hrep.2]
    simp only [RWLock.modeOf]
    split_ifs with hd
    · rcases mode <;> simp [LockStatus.toMode, hd]
    · simp [hd]
  · rw [hrep.1, hrep.2]
    simp only [RWLock.modeOf]
    split_ifs with hc
    · rcases mode <;> simp [LockStatus.toMode, hc]
    · simp [hc]

theorem owns_congr (hs : s.WellFormed) (hs' : s'.WellFormed)
    (h : (s'.table path).modeOf c = (s.table path).modeOf c) (mode : LockStatus) :
    Owns s' c path mode ↔ Owns s c path mode := by
  rw [owns_iff hs, owns_iff hs', h]

end Owns

/-- The effect changes whether, or how, a client owns a path. -/
def Action.Concerns (c path : Str) (a : Action) : Prop :=
  (∃ mode, a = .grant c path mode) ∨ a = .release c path

/-- A request of another client, or what a thread or Raft does, short of the end of a session of
the client's. -/
def Event.Foreign (s : State) (c : Str) : Event → Prop
  | .initSession _ d _ | .closeSession d | .openLock d _ _ | .deleteLock d _ | .acquireLock d _ _
  | .releaseLock d _ | .read d _ | .write d _ _ _ | .keepAlive _ _ d _ _ => d ≠ c
  | .maintainLoop i now now' => ∀ thread session, s.threads[i]? = some thread →
    s.Registered c thread.session session → timeUntilExpire session now now' ≠ 0
  | .maintainStart _ | .replicate _ => True

section Frames

variable {cfg : Config} {s s' : State} {c path : Str} {Q : Action → Prop} {mode : LockStatus}

theorem modeOf_moves {t t' : RWLock.Table Str Str} {a : Action} (h : a.Moves t t')
    (hno : ¬ a.Concerns c path) : (t' path).modeOf c = (t path).modeOf c := by
  cases a with
  | grant d p m =>
    rw [RWLock.Table.modeOf_acquire h, if_neg]
    rintro ⟨rfl, rfl⟩
    exact hno (.inl ⟨m, rfl⟩)
  | release d p =>
    rw [RWLock.Table.modeOf_release h, if_neg]
    rintro ⟨rfl, rfl⟩
    exact hno (.inr rfl)
  | _ => rw [show t' = t from h]

theorem modeOf_run {t t' : RWLock.Table Str Str}
    (h : Relation.ReflTransGen (fun t t' => ∃ a, Q a ∧ a.Moves t t') t t')
    (hno : ∀ a, Q a → ¬ a.Concerns c path) : (t' path).modeOf c = (t path).modeOf c := by
  induction h with
  | refl => rfl
  | tail _ hstep ih =>
    obtain ⟨a, hQa, hm⟩ := hstep
    rw [modeOf_moves hm (hno a hQa), ih]

theorem owns_trace {files : FileTree} (hQ : ∀ f, Q (.replicate f) → f = files)
    (hf : Persists cfg s.files files) (hs : s.WellFormed) (ha : s.Aligned cfg)
    (h : Trace cfg Q s s') (hno : ∀ a, Q a → ¬ a.Concerns c path) :
    Owns s' c path mode ↔ Owns s c path mode :=
  owns_congr hs (h.wellFormed hs) (modeOf_run (trace_moves hQ hf hs ha h) hno) mode

/-- The threads and the channels hold no locks. -/
theorem owns_note (hs : s.WellFormed) (ha : s.Aligned cfg) (h : Trace cfg (· = .note) s s') :
    Owns s' c path mode ↔ Owns s c path mode :=
  owns_trace (by simp) (fun _ => id : Persists cfg s.files s.files) hs ha h
    (by rintro a rfl; simp [Action.Concerns])

/-- Another client's event, or a thread that finds the lease running, takes nothing away. -/
theorem owns_foreign {e : Event} (hs : s.WellFormed) (ha : s.Aligned cfg)
    (hf : Persists cfg s.files s'.files) (he : e.Foreign s c) (h : next cfg s e = some s') :
    Owns s' c path mode ↔ Owns s c path mode := by
  have htrace := next_trace hs h
  by_cases hno : ∀ a, Permits s s' a e → ¬ a.Concerns c path
  · exact owns_trace (fun _ => permits_replicate) hf hs ha htrace hno
  push Not at hno
  obtain ⟨a, hp, hcon⟩ := hno
  cases e with
  | maintainLoop i now now' =>
    rw [← survivor_eq h]
    refine owns_note hs ha (maintainLoop_running fun thread session hi hsession => ?_)
    rcases hp with rfl | ⟨thread', d, hi', hd, hends⟩
    · simp [Action.Concerns] at hcon
    obtain rfl := Option.some.inj (hi.symm.trans hi')
    obtain rfl : d = c := by
      rcases hcon with ⟨m, rfl⟩ | rfl <;> simp [Action.Ends] at hends
      exact hends.symm
    exact he thread session hi ⟨hd, hsession⟩
  | _ =>
    rcases hcon with ⟨m, rfl⟩ | rfl <;>
      simp [Permits, Action.Ends, Action.Claims] at hp <;> simp_all [Event.Foreign]

/-- The calls that may enter a client. -/
def Event.Starts (c : Str) : Event → Prop
  | .initSession _ d _ | .keepAlive _ _ d _ _ => d = c
  | _ => False

theorem mem_sessions_next {e : Event} (hs : s.WellFormed) (he : ¬ e.Starts c)
    (h : next cfg s e = some s') (hc : c ∈ s'.sessions) : c ∈ s.sessions := by
  refine mem_sessions_of_trace (next_trace hs h) (fun hp => he ?_) hc
  cases e <;> simp_all [Permits, Action.Ends, Action.Claims, Event.Starts]

/-- The calls that neither acquire nor release. -/
def Event.Quiet : Event → Prop
  | .initSession _ _ _ | .openLock _ _ _ | .deleteLock _ _ | .read _ _ | .write _ _ _ _
  | .maintainStart _ | .replicate _ => True
  | _ => False

theorem owns_quiet {e : Event} (hs : s.WellFormed) (ha : s.Aligned cfg)
    (hf : Persists cfg s.files s'.files) (he : e.Quiet) (h : next cfg s e = some s') :
    Owns s' c path mode ↔ Owns s c path mode := by
  refine owns_trace (fun _ => permits_replicate) hf hs ha (next_trace hs h) fun a hp hcon => ?_
  rcases hcon with ⟨m, rfl⟩ | rfl <;> cases e <;> simp_all [Permits, Event.Quiet]

end Frames

section Calls

variable {cfg : Config} {s s' : State} {c path : Str} {mode : LockStatus}

theorem owns_acquireLock (hs : s.WellFormed) (ha : s.Aligned cfg)
    (h : (acquireLock cfg s c path mode).1 = .ok .ok) {p : Str} {m : LockStatus} :
    Owns (acquireLock cfg s c path mode).2 c p m ↔ if p = path then m = mode else Owns s c p m := by
  have hmode := ((acquireLock_ok_iff hs mode).mp h).2.lockable
  have hs' := (acquireLock_trace cfg c path hs mode).wellFormed hs
  rcases acquireLock_moves c path hs ha mode with hr | ⟨-, hm⟩
  · exact absurd h hr.1
  rw [owns_iff hs', RWLock.Table.modeOf_acquire hm]
  split_ifs with hp hp' hp'
  · rcases hmode with rfl | rfl <;> rcases m <;> simp [LockStatus.toMode]
  · exact absurd hp.2 hp'
  · exact absurd ⟨rfl, hp'⟩ hp
  · exact (owns_iff hs).symm

theorem acquireLock_unchanged (hs : s.WellFormed)
    (h : (acquireLock cfg s c path mode).1 ≠ .ok .ok) : (acquireLock cfg s c path mode).2 = s := by
  refine (acquireLock_refused hs ?_).2
  by_contra hno
  push Not at hno
  exact h ((acquireLock_ok_iff hs mode).mpr ⟨(hs.registered_or_none c).resolve_left hno.1, hno.2⟩)

/-- What is acquired again is acquired as it was. -/
theorem Owns.mode_acquired (hs : s.WellFormed) {mode' : LockStatus} (h : Owns s c path mode')
    (hok : (acquireLock cfg s c path mode).1 = .ok .ok) : mode' = mode := by
  obtain ⟨lock, hlock, rfl, hc⟩ := h
  obtain ⟨hne, hshared⟩ := ((acquireLock_ok_iff hs mode).mp hok).2.available lock hlock
  have hcons := consistent_of_lockOf hs hlock
  rcases hcons.status_cases with hst | hst | hst
  · exact absurd hc (hcons.free_iff.mp hst c)
  · exact absurd hst hne
  · rw [hst, hshared hst]

theorem owns_releaseLock (hs : s.WellFormed) (ha : s.Aligned cfg)
    (h : (releaseLock cfg s c path).1 = .ok .ok) {p : Str} {m : LockStatus} :
    Owns (releaseLock cfg s c path).2 c p m ↔ p ≠ path ∧ Owns s c p m := by
  have hs' : (releaseLock cfg s c path).2.WellFormed := (releaseLock_trace hs).wellFormed hs
  rcases releaseLock_moves c path hs ha with hr | ⟨-, hm⟩
  · exact absurd h hr.1
  rw [owns_iff hs', RWLock.Table.modeOf_release hm]
  split_ifs with hp
  · simp [hp.2]
  · rw [and_iff_right fun hpp => hp ⟨rfl, hpp⟩]
    exact (owns_iff hs).symm

theorem releaseLock_unchanged (hs : s.WellFormed) (h : (releaseLock cfg s c path).1 ≠ .ok .ok) :
    (releaseLock cfg s c path).2 = s := by
  rcases releaseLock_cases cfg c path hs with ⟨hr, -⟩ | ⟨_, _, _, _, -, -, -, -, -, -, hr⟩
  · exact hr.2
  · exact absurd (congrArg Prod.fst hr) h

/-- The end of a session takes from the client no more than what its loop reaches. -/
theorem owns_endSession (hs : s.WellFormed) {ptr : SessionPtr} {session : Session}
    (h : s.Registered c ptr session) (hp : path ∉ reached cfg s session c)
    (hs' : (endSession cfg s ptr).survivor = some s') :
    Owns s' c path mode ↔ Owns s c path mode := by
  obtain ⟨-, hr⟩ := endSession_survivor hs h hs'
  have hlock : s'.lockOf path = s.lockOf path := by rw [hr.lockOf_ended hs h, if_neg hp]
  rw [Owns, Owns, hlock]

theorem owns_closeSession (hs : s.WellFormed) (hp : ∀ ptr session, s.Registered c ptr session →
      session.terminated = false → path ∉ reached cfg s session c)
    (h : next cfg s (.closeSession c) = some s') : Owns s' c path mode ↔ Owns s c path mode := by
  rcases closeSession_survivor hs h with ⟨-, rfl⟩ | ⟨-, ptr, session, hreg, ht, hend⟩
  · rfl
  · exact owns_endSession hs hreg (hp ptr session hreg ht) hend

theorem keepAlive_noClaims_trace (hs : s.WellFormed) (leader isCancelled : Bool) {locks : Claims}
    (hn : locks.entries = []) (now : ℤ) :
    Trace cfg (fun a => a = .start c ∨ a = .note) s
      (RPC.keepAlive cfg leader isCancelled s c locks now).2 := by
  unfold RPC.keepAlive
  split_ifs
  · exact .refl s
  · refine andThen_trace hs (attemptExtendSession_trace.mono fun a => .inr) fun lease t _ ht => ?_
    split_ifs
    · refine andThen_trace ht ?_ fun _ t _ _ => .refl t
      unfold handleJeopardy
      refine andThen_trace ht ((createSession_trace ht now).mono fun a => .inl) fun _ t _ ht => ?_
      split_ifs
      · exact .refl t
      · rw [hn, claimLocks, Result.andThen_ok]
        exact andThen_trace ht ((maintainStart_trace ht _).mono fun a => .inr) fun _ t _ _ =>
          attemptExtendSession_trace.mono fun a => .inr
    · exact .refl t
  · exact .refl s

/-- A `keep_alive` without claims gives and takes no locks. -/
theorem owns_keepAlive (hs : s.WellFormed) (ha : s.Aligned cfg) {leader isCancelled : Bool}
    {locks : Claims} (hn : locks.entries = []) {now : ℤ}
    (h : next cfg s (.keepAlive leader isCancelled c locks now) = some s') :
    Owns s' c path mode ↔ Owns s c path mode := by
  rw [← survivor_eq h]
  have hkeep : Persists cfg s.files s.files := fun _ => id
  refine owns_trace (by simp) hkeep hs ha
    (keepAlive_noClaims_trace hs leader isCancelled hn now) ?_
  rintro a (rfl | rfl) <;> simp [Action.Concerns]

theorem handleJeopardy_noClaims (hs : s.WellFormed) {locks : Claims} (hn : locks.entries = [])
    (now : ℤ) : ∃ lease s', handleJeopardy cfg s c locks now = (.ok lease, s') := by
  by_cases hl : s.Live c
  · exact ⟨-1, s, by rw [handleJeopardy, createSession_live hl]; rfl⟩
  have hno : ∀ p m, (p, m) ∈ locks.entries → Acquirable cfg s p m := by simp [hn]
  rcases hs.registered_or_none c with h | ⟨ptr, session, h⟩
  · obtain ⟨t, locks', -, -, -, he⟩ :=
      handleJeopardy_granted hs hl (registered_start_new h now) hno
    exact ⟨_, _, he⟩
  · obtain ⟨t, locks', -, -, -, he⟩ :=
      handleJeopardy_granted hs hl (registered_start_old h now) hno
    exact ⟨_, _, he⟩

/-- A leader answers a `keep_alive` without claims, or has it wait. -/
theorem keepAlive_noClaims (hs : s.WellFormed) {locks : Claims} (hn : locks.entries = [])
    (now : ℤ) : RPC.keepAlive cfg true false s c locks now = (.error .blocked, s) ∨
      ∃ lease s', RPC.keepAlive cfg true false s c locks now = (.ok (.ok, lease), s') := by
  rcases hs.registered_or_none c with h | ⟨ptr, session, h⟩
  · obtain ⟨lease, s', he⟩ := @handleJeopardy_noClaims cfg s c hs locks hn now
    exact .inr ⟨_, _, by rw [keepAlive_new h, he, Result.andThen_ok]⟩
  by_cases hb : session.blockReply = 0
  · exact .inl (keepAlive_blocked h hb locks now)
  right
  obtain ⟨t, rfl, -, he⟩ := keepAlive_reply cfg h hb locks now
  have ht : (s.setSession ptr { session with
      leaseLength := extended session, blockReply := session.blockReply - 1 }).WellFormed :=
    hs.setSession h.2 rfl fun hl => hs.sessionLocks h.2 hl
  rw [he]
  split_ifs
  · obtain ⟨lease, s', hj⟩ := @handleJeopardy_noClaims cfg _ c ht locks hn now
    exact ⟨_, _, by rw [hj, Result.andThen_ok]⟩
  · exact ⟨_, _, rfl⟩

end Calls

end LockService
