import LockService.LockTable

/-!
# What the end of a session releases

The loop of `end_session` takes the session's paths in order and releases each until a release is
refused. So it releases a prefix of them, those before the first path that is gone or whose lock
does not list the client, and leaves the rest (`endSession_released`). A path the session
has only opened is enough to stop it (`not_freesAll_opened`).
-/

namespace LockService

/-- What `release_lock` asks about a path of the session. -/
def releasable (cfg : Config) (s : State) (session : Session) (c path : Str) : Bool :=
  isExists cfg s.files path && (ownedLock s session c path).isOk

/-- The paths `end_session` gets to release. -/
def reached (cfg : Config) (s : State) (session : Session) (c : Str) : List Str :=
  session.locks.keys.takeWhile (releasable cfg s session c)

/-- The paths were released by the client, one by one. -/
structure Released (s : State) (c : Str) (ptr : SessionPtr) (session : Session) (ps : List Str)
    (s' : State) : Prop where
  locks : ∀ p, s'.locks[p]? = if p ∈ ps then session.locks[p]? else s.locks[p]?
  lockHeap : ∀ l, s'.lockHeap[l]? = if ∃ p ∈ ps, session.locks[p]? = some l
    then s.lockHeap[l]?.map (·.without c) else s.lockHeap[l]?
  sessions : s'.sessions = s.sessions
  session : ∃ locks, s'.sessionHeap[ptr]? = some { session with locks } ∧
    ∀ p, locks[p]? = if p ∈ ps then none else session.locks[p]?
  others : ∀ ptr', ptr' ≠ ptr → s'.sessionHeap[ptr']? = s.sessionHeap[ptr']?
  threads : s'.threads = s.threads
  files : s'.files = s.files

section Loop

variable {cfg : Config} {s s' : State} {c path : Str} {ptr : SessionPtr} {session : Session}
  {l : LockPtr} {lock : Lock}

theorem isOk_ownedLock : (ownedLock s session c path).isOk = true ↔
    ∃ l lock, session.locks[path]? = some l ∧ s.lockHeap[l]? = some lock ∧
      lock.owners[c]? = some true := by
  rcases h : ownedLock s session c path with m | ⟨l, lock⟩
  · simp only [Except.isOk, Except.toBool, Bool.false_eq_true, false_iff]
    rintro ⟨l, lock, h'⟩
    rw [ownedLock_eq_ok.mpr h'] at h
    cases h
  · simp only [Except.isOk, Except.toBool, true_iff]
    exact ⟨l, lock, ownedLock_eq_ok.mp h⟩

theorem releasable_iff : releasable cfg s session c path = true ↔
    isExists cfg s.files path = true ∧ ∃ l lock, session.locks[path]? = some l ∧
      s.lockHeap[l]? = some lock ∧ lock.owners[c]? = some true := by
  rw [releasable, Bool.and_eq_true, isOk_ownedLock]

variable (cfg path) in
theorem releaseLock_releasable (hs : s.WellFormed) (h : s.Registered c ptr session) :
    (∃ m, releaseLock cfg s c path = refuse s m) ∧ releasable cfg s session c path = false ∨
      releasable cfg s session c path = true ∧ path ∉ s.locks ∧
        (releaseLock cfg s c path) = (.error .endIterator, s) ∨
      ∃ l lock, releasable cfg s session c path = true ∧ path ∈ s.locks ∧
        session.locks[path]? = some l ∧ s.lockHeap[l]? = some lock ∧ c ∈ lock.owners ∧
        releaseLock cfg s c path = (.ok .ok, s.release ptr session c path l lock) := by
  rw [releaseLock, withSession_registered h]
  by_cases hx : isExists cfg s.files path = true
  · rw [if_pos hx]
    rcases ho : ownedLock s session c path with m | ⟨l, lock⟩
    · exact .inl ⟨⟨m, rfl⟩, by simp [releasable, hx, ho, Except.isOk, Except.toBool]⟩
    · have hr : releasable cfg s session c path = true := by
        simp [releasable, hx, ho, Except.isOk, Except.toBool]
      obtain ⟨hl, hlock, hown⟩ := ownedLock_eq_ok.mp ho
      dsimp only
      split_ifs with hp
      · exact .inr (.inr ⟨l, lock, hr, hp, hl, hlock, (hs.consistent hlock).owner_iff.mp hown,
          rfl⟩)
      · exact .inr (.inl ⟨hr, hp, rfl⟩)
  · rw [if_neg hx]
    exact .inl ⟨⟨_, rfl⟩, by simp [releasable, hx]⟩

theorem Released.nil (h : s.sessionHeap[ptr]? = some session) : Released s c ptr session [] s where
  locks p := by simp
  lockHeap l := by simp
  sessions := rfl
  session := ⟨session.locks, h, by simp⟩
  others _ _ := rfl
  threads := rfl
  files := rfl

theorem registered_release (h : s.Registered c ptr session) :
    (s.release ptr session c path l lock).Registered c ptr
      { session with locks := session.locks.erase path } :=
  ⟨h.1, by rw [State.release, getElem?_store h.2, if_pos rfl]⟩

/-- A release leaves what the session has at its other paths as it was. -/
theorem releasable_release (hs : s.WellFormed) (h : s.Registered c ptr session)
    (hl : session.locks[path]? = some l) (hlock : s.lockHeap[l]? = some lock) {p : Str}
    (hp : p ≠ path) :
    releasable cfg (s.release ptr session c path l lock)
      { session with locks := session.locks.erase path } c p = releasable cfg s session c p := by
  rw [Bool.eq_iff_iff, releasable_iff, releasable_iff]
  simp only [State.release, getElem?_erase_eq, if_neg hp]
  refine and_congr_right fun _ => exists_congr fun k => exists_congr fun lock₁ =>
    and_congr_right fun hk => ?_
  rw [getElem?_store hlock, if_neg]
  rintro rfl
  exact hp (by rw [← hs.path_eq h.2 hk hlock, hs.path_eq h.2 hl hlock])

theorem Released.cons (hs : s.WellFormed) (h : s.Registered c ptr session)
    (hl : session.locks[path]? = some l) (hlock : s.lockHeap[l]? = some lock) {ps : List Str}
    (hp : path ∉ ps)
    (hr : Released (s.release ptr session c path l lock) c ptr
      { session with locks := session.locks.erase path } ps s') :
    Released s c ptr session (path :: ps) s' where
  locks p := by
    rw [hr.locks]
    simp only [State.release, List.mem_cons, getElem?_erase_eq, getElem?_insert_eq]
    by_cases hpp : p = path
    · subst hpp
      simp [hp, hl]
    · simp [hpp]
  lockHeap k := by
    rw [hr.lockHeap]
    simp only [State.release, getElem?_erase_eq, getElem?_store hlock, List.mem_cons]
    by_cases hk : k = l
    · subst hk
      have hno : ¬ ∃ p ∈ ps, (if p = path then none else session.locks[p]?) = some k := by
        rintro ⟨p, hmem, hpk⟩
        split_ifs at hpk with hpp
        exact hpp (by rw [← hs.path_eq h.2 hpk hlock, hs.path_eq h.2 hl hlock])
      rw [if_neg hno, if_pos rfl, if_pos ⟨path, by simp, hl⟩, hlock, Option.map_some]
    · rw [if_neg hk]
      congr 1
      rw [eq_iff_iff]
      constructor
      · rintro ⟨p, hmem, hpk⟩
        split_ifs at hpk
        exact ⟨p, List.mem_cons_of_mem _ hmem, hpk⟩
      · rintro ⟨p, hmem, hpk⟩
        rcases List.mem_cons.mp hmem with rfl | hps
        · exact absurd (Option.some.inj (hpk.symm.trans hl)) hk
        · refine ⟨p, hps, ?_⟩
          rwa [if_neg]
          rintro rfl
          exact hp hps
  sessions := hr.sessions
  session := by
    obtain ⟨locks, hsession, hlocks⟩ := hr.session
    refine ⟨locks, hsession, fun p => ?_⟩
    rw [hlocks]
    simp only [getElem?_erase_eq, List.mem_cons]
    by_cases hpp : p = path <;> simp [hpp]
  others ptr' hne := by
    rw [hr.others ptr' hne, State.release, getElem?_store h.2, if_neg hne]
  threads := hr.threads
  files := hr.files

/-- The loop releases a prefix of the session's paths, unless one of them is not in the server's
table any more. -/
theorem releaseLoop_spec :
    ∀ (ks : List Str) {fuel : ℕ} {s : State} {session : Session}, s.WellFormed →
      s.Registered c ptr session → session.locks.keys = ks → ks.length < fuel →
      (∃ p ∈ reached cfg s session c, p ∉ s.locks) ∧
        (releaseLoop cfg ptr fuel s).1 = .error .endIterator ∨
      (∀ p ∈ reached cfg s session c, p ∈ s.locks) ∧
        ∃ s', releaseLoop cfg ptr fuel s = (.ok (), s') ∧
          Released s c ptr session (reached cfg s session c) s'
  | ks, 0, s, session, _, _, _, hfuel => by omega
  | [], fuel + 1, s, session, hs, h, hks, _ => by
    rw [releaseLoop, h.2]
    simp only [hks, List.head?_nil, reached, List.takeWhile_nil]
    exact .inr ⟨by simp, s, rfl, .nil h.2⟩
  | p :: ks, fuel + 1, s, session, hs, h, hks, hfuel => by
    rw [releaseLoop, h.2]
    simp only [hks, List.head?_cons, hs.clientId_eq h]
    rcases releaseLock_releasable cfg p hs h with
      ⟨⟨m, hr⟩, hno⟩ | ⟨hyes, hp, hr⟩ | ⟨l, lock, hyes, hp, hl, hlock, hc, hr⟩
    · rw [reached, hks, List.takeWhile_cons_of_neg (by simp [hno])]
      refine .inr ⟨by simp, s, ?_, .nil h.2⟩
      rw [hr, refuse, Result.andThen_ok, if_neg (Status.aborted_ne_ok m)]
    · rw [hr, reached, hks, List.takeWhile_cons_of_pos hyes]
      exact .inl ⟨⟨p, by simp, hp⟩, rfl⟩
    · have hs₁ := hs.release h hl hlock hc
      have h₁ : (s.release ptr session c p l lock).Registered c ptr _ := registered_release h
      have hks₁ : (session.locks.erase p).keys = ks := keys_erase_head hks
      have hnd : p ∉ ks := by
        rw [← hks₁, Std.ExtTreeMap.mem_keys, mem_erase_eq]
        exact fun h => h.1 rfl
      have hreached : reached cfg s session c =
          p :: reached cfg (s.release ptr session c p l lock)
            { session with locks := session.locks.erase p } c := by
        rw [reached, hks, List.takeWhile_cons_of_pos hyes, reached, hks₁]
        refine congrArg _ (takeWhile_congr fun q hq => ?_)
        exact (releasable_release hs h hl hlock (by rintro rfl; exact hnd hq)).symm
      rw [hr, Result.andThen_ok, if_pos rfl, hreached]
      have hlocks : ∀ q, q ∈ (s.release ptr session c p l lock).locks ↔ q = p ∨ q ∈ s.locks :=
        fun q => mem_insert_eq
      rcases releaseLoop_spec ks hs₁ h₁ hks₁ (by simpa using hfuel) with
        ⟨⟨q, hq, hql⟩, he⟩ | ⟨hall, s', he, hrel⟩
      · refine .inl ⟨⟨q, List.mem_cons_of_mem _ hq, fun h => hql ((hlocks q).mpr (.inr h))⟩, he⟩
      · refine .inr ⟨fun q hq => ?_, s', he, .cons hs h hl hlock (fun hmem => hnd ?_) hrel⟩
        · rcases List.mem_cons.mp hq with rfl | hq
          · exact hp
          · exact ((hlocks q).mp (hall q hq)).elim (fun h => h ▸ hp) id
        · rw [reached, hks₁] at hmem
          exact (List.takeWhile_subset _) hmem

variable (cfg) in
/-- `end_session` dereferences `end()`, at a path that is not in the server's table any more, or
releases what its loop reaches. -/
theorem endSession_released (hs : s.WellFormed) (h : s.Registered c ptr session) :
    (∃ p ∈ reached cfg s session c, p ∉ s.locks) ∧
        (endSession cfg s ptr).1 = .error .endIterator ∨
      (∀ p ∈ reached cfg s session c, p ∈ s.locks) ∧
        ∃ s', endSession cfg s ptr = (.ok (), s') ∧
          Released (s.terminate ptr session) c ptr { session with terminated := true }
            (reached cfg s session c) s' := by
  have h₁ := registered_terminate h
  have hs₁ : (s.terminate ptr session).WellFormed := hs.terminate h
  have hcount :
      (s.terminate ptr session).lockCount session.clientId = session.locks.keys.length := by
    rw [hs.clientId_eq h, State.lockCount, h₁.1, Option.bind_some, h₁.2,
      Std.ExtTreeMap.length_keys]
  rw [endSession, h.2]
  simp only [hcount]
  exact releaseLoop_spec session.locks.keys hs₁ h₁ rfl (Nat.lt_succ_self _)

/-- The server outlives the call only in the second case. -/
theorem endSession_survivor (hs : s.WellFormed) (h : s.Registered c ptr session)
    (hs' : (endSession cfg s ptr).survivor = some s') :
    endSession cfg s ptr = (.ok (), s') ∧
      Released (s.terminate ptr session) c ptr { session with terminated := true }
        (reached cfg s session c) s' := by
  rcases endSession_released cfg hs h with ⟨-, hfault⟩ | ⟨-, t, he, hr⟩
  · rcases hr : endSession cfg s ptr with ⟨f | u, t⟩
    · rw [hr] at hfault
      obtain rfl := Except.error.inj hfault
      simp [hr, Result.survivor, Fault.isFatal] at hs'
    · simp [hr] at hfault
  · rw [he] at hs'
    obtain rfl := Option.some.inj hs'
    exact ⟨he, hr⟩

/-- `close_session`, where the server outlives it, declines or has ended the session. -/
theorem closeSession_survivor (hs : s.WellFormed) (h : next cfg s (.closeSession c) = some s') :
    (closeSession cfg s c).1 ≠ .ok .ok ∧ s' = s ∨
      (closeSession cfg s c).1 = .ok .ok ∧ ∃ ptr session, s.Registered c ptr session ∧
        session.terminated = false ∧ (endSession cfg s ptr).survivor = some s' := by
  replace h : (closeSession cfg s c).survivor = some s' := h
  unfold closeSession at h ⊢
  rcases hs.registered_or_none c with hn | ⟨ptr, session, hreg⟩
  · simp only [hn] at h ⊢
    exact .inl ⟨by simp [refuse], (Option.some.inj h).symm⟩
  simp only [hreg.1, hreg.2] at h ⊢
  rcases ht : session.terminated with _ | _
  · simp only [ht, Bool.false_eq_true, if_false] at h ⊢
    have hend : (endSession cfg s ptr).survivor = some s' := by
      rcases survivor_andThen h with h | ⟨u, t, he, h⟩
      · exact h
      · rw [he, ← Option.some.inj h]
        rfl
    refine .inr ⟨?_, ptr, session, hreg, ht, hend⟩
    rw [(endSession_survivor hs hreg hend).1, Result.andThen_ok]
  · simp only [ht, if_true] at h ⊢
    exact .inl ⟨by simp [refuse], (Option.some.inj h).symm⟩

/-- A turn of a thread, where the server outlives it, has no effect on any table or has ended the
session it maintains. -/
theorem maintainLoop_survivor {i : ℕ} {now now' : ℤ} (hs : s.WellFormed)
    (h : next cfg s (.maintainLoop i now now') = some s') :
    Trace cfg (· = .note) s s' ∨ ∃ thread c session t, s.threads[i]? = some thread ∧
      thread.phase = .looping ∧ s.Registered c thread.session session ∧
      timeUntilExpire session now now' = 0 ∧
      (endSession cfg s thread.session).survivor = some t ∧ Trace cfg (· = .note) t s' := by
  replace h : (maintainLoop cfg s i now now').survivor = some s' := h
  unfold maintainLoop at h
  rcases hi : s.threads[i]? with _ | thread
  · rw [hi] at h
    exact .inl (survivor_eq h ▸ .refl s)
  obtain ⟨c, hc⟩ := hs.maintained hi
  obtain ⟨session, hsession, rfl⟩ := hs.registered hc
  simp only [hi, hsession] at h
  split_ifs at h with hphase hexp
  · right
    refine ⟨thread, session.clientId, session, ?_⟩
    rcases survivor_andThen h with h | ⟨u, t, hr, h⟩
    · exact ⟨s', rfl, hphase, ⟨hc, hsession⟩, hexp, h, .refl s'⟩
    refine ⟨t, rfl, hphase, ⟨hc, hsession⟩, hexp, by rw [hr]; rfl, ?_⟩
    have hthreads := endSession_threads cfg hs hc
    have ht := (@endSession_trace cfg _ _ _ hs hc).wellFormed hs
    rw [hr] at hthreads ht
    refine survivor_eq h ▸ andThen_trace ht putReply_trace fun _ t' hr' _ => ?_
    refine .single (.phase ?_ _) rfl
    have hput : (putReply t thread.session).2.threads = t.threads := putReply_threads
    rw [hr'] at hput
    rwa [hput, hthreads]
  · exact .inl (survivor_eq h ▸ putReply_trace)
  · exact .inl (survivor_eq h ▸ .refl s)
  · exact .inl (survivor_eq h ▸ .refl s)

theorem Released.lockOf (hs : s.WellFormed) (h : s.Registered c ptr session) {ps : List Str}
    (hr : Released s c ptr session ps s') (p : Str) :
    s'.lockOf p = if p ∈ ps
      then (session.locks[p]?.bind fun l => s.lockHeap[l]?).map (·.without c)
      else s.lockOf p := by
  rw [State.lockOf, hr.locks]
  split_ifs with hp
  · rcases hl : session.locks[p]? with _ | l
    · rfl
    · rw [Option.bind_some, hr.lockHeap, if_pos ⟨p, hp, hl⟩, Option.bind_some]
  · rw [State.lockOf]
    rcases hl : s.locks[p]? with _ | l
    · rfl
    obtain ⟨lock, hlock, hpath⟩ := hs.lockTable hl
    rw [Option.bind_some, hr.lockHeap, if_neg, Option.bind_some]
    rintro ⟨q, hq, hlq⟩
    rw [← hpath, hs.path_eq h.2 hlq hlock] at hp
    exact hp hq

/-- The same after the end of a session, of which the release is the rest. -/
theorem Released.lockOf_ended (hs : s.WellFormed) (h : s.Registered c ptr session) {ps : List Str}
    (hr : Released (s.terminate ptr session) c ptr { session with terminated := true } ps s')
    (p : Str) : s'.lockOf p = if p ∈ ps
      then (session.locks[p]?.bind fun l => s.lockHeap[l]?).map (·.without c)
      else s.lockOf p :=
  hr.lockOf (hs.terminate h) (registered_terminate h) p

end Loop

section Claim

variable {cfg : Config} {s s' : State} {c path : Str} {ptr : SessionPtr} {session : Session}

/-- A session ends: it is closed, or a turn of its thread finds the lease run out. -/
inductive EndsSession (cfg : Config) (s : State) (c : Str) (s' : State) : Prop where
  | close (h : closeSession cfg s c = (.ok .ok, s'))
  | expire {i : ℕ} {thread : Thread} {session : Session} {now now' : ℤ}
    (hi : s.threads[i]? = some thread) (hphase : thread.phase = .looping)
    (hr : s.Registered c thread.session session) (ht : timeUntilExpire session now now' = 0)
    (h : maintainLoop cfg s i now now' = (.ok (), s'))

/-- The client owns nothing any more, what it held alone is free and the others keep theirs. -/
structure FreesAll (s : State) (c : Str) (s' : State) : Prop where
  disowned : ∀ p lock, s'.lockOf p = some lock → c ∉ lock.owners
  exclusive : ∀ p lock, s.lockOf p = some lock → lock.status = .exclusive → c ∈ lock.owners →
    ∃ lock', s'.lockOf p = some lock' ∧ lock'.status = .free
  sole : ∀ p lock, s.lockOf p = some lock → (∀ d, d ∈ lock.owners ↔ d = c) →
    ∃ lock', s'.lockOf p = some lock' ∧ lock'.status = .free
  others : ∀ p d, d ≠ c → ((∃ lock, s'.lockOf p = some lock ∧ d ∈ lock.owners) ↔
    ∃ lock, s.lockOf p = some lock ∧ d ∈ lock.owners)

/-- The path is in the session, and it and every path before it can be released. -/
def Reaches (cfg : Config) (s : State) (session : Session) (c path : Str) : Prop :=
  path ∈ session.locks ∧ ∀ q ∈ session.locks, (compare q path).isLE →
    releasable cfg s session c q = true

/-- Every lock the client owns is reached; and where the session has another lock for a path than
the server's table, the two have the same other owners. -/
structure ReleasesAll (cfg : Config) (s : State) (session : Session) (c : Str) : Prop where
  reaches : ∀ p lock, s.lockOf p = some lock → c ∈ lock.owners → Reaches cfg s session c p
  agrees : ∀ p l lock lock', Reaches cfg s session c p → session.locks[p]? = some l →
    s.lockHeap[l]? = some lock' → s.lockOf p = some lock →
    ∀ d, d ≠ c → (d ∈ lock'.owners ↔ d ∈ lock.owners)

theorem mem_reached : path ∈ reached cfg s session c ↔ Reaches cfg s session c path := by
  rw [reached, mem_takeWhile_iff session.locks.ordered_keys, Std.ExtTreeMap.mem_keys]
  simp only [Std.ExtTreeMap.mem_keys]
  rfl

theorem endSession_of_endsSession (hs : s.WellFormed) (he : EndsSession cfg s c s') :
    ∃ ptr session t, s.Registered c ptr session ∧ endSession cfg s ptr = (.ok (), t) ∧
      s'.lockOf = t.lockOf := by
  cases he with
  | close h =>
    rcases hs.registered_or_none c with hn | ⟨ptr, session, hr⟩
    · simp [closeSession, hn, refuse] at h
    · simp only [closeSession, hr.1, hr.2] at h
      split_ifs at h with ht
      · simp [refuse] at h
      · rcases hr' : endSession cfg s ptr with ⟨_ | _, t⟩
        · simp [hr'] at h
        · simp only [hr', Result.andThen_ok, Prod.mk.injEq, true_and] at h
          exact ⟨ptr, session, t, hr, hr', by rw [h]⟩
  | @expire i thread session now now' hi hphase hr ht h =>
    simp only [maintainLoop, hi, hphase, hr.2, ht, if_true] at h
    rcases hr' : endSession cfg s thread.session with ⟨_ | _, t⟩
    · simp [hr'] at h
    · refine ⟨_, session, t, hr, hr', ?_⟩
      rw [hr', Result.andThen_ok] at h
      rcases hp : putReply t thread.session with ⟨_ | _, t'⟩
      · simp [hp] at h
      · simp only [hp, Result.andThen_ok, Prod.mk.injEq, true_and] at h
        subst h
        have hl : (putReply t thread.session).2.lockOf = t.lockOf := by
          unfold putReply
          split <;> rfl
        rw [hp] at hl
        exact hl

/-- What a reached path has in the server's table, before and after. -/
theorem reaches_lock (hs : s.WellFormed) {p : Str}
    (hp : Reaches cfg s session c p) (hreg : p ∈ s.locks) :
    ∃ l lock lock', session.locks[p]? = some l ∧ s.lockHeap[l]? = some lock' ∧
      c ∈ lock'.owners ∧ s.lockOf p = some lock := by
  obtain ⟨hmem, hall⟩ := hp
  obtain ⟨-, l, lock', hl, hlock, hc⟩ :=
    releasable_iff.mp (hall p hmem (by simp [Std.ReflOrd.compare_self]))
  obtain ⟨k, hk⟩ := mem_iff_exists_getElem?.mp hreg
  obtain ⟨lock, hlock', -⟩ := hs.lockTable hk
  exact ⟨l, lock, lock', hl, hlock, (hs.consistent hlock).owner_iff.mp hc,
    lockOf_of_getElem? hk hlock'⟩

theorem freesAll_of_releasesAll (hs : s.WellFormed)
    (hreg : ∀ p, Reaches cfg s session c p → p ∈ s.locks)
    (hlock : ∀ p, s'.lockOf p = if p ∈ reached cfg s session c
      then (session.locks[p]?.bind fun l => s.lockHeap[l]?).map (·.without c) else s.lockOf p)
    (hr : ReleasesAll cfg s session c) : FreesAll s c s' := by
  have hsole : ∀ p lock, s.lockOf p = some lock → (∀ d, d ∈ lock.owners ↔ d = c) →
      ∃ lock', s'.lockOf p = some lock' ∧ lock'.status = .free := by
    intro p lock hp hown
    have hreach := hr.reaches p lock hp ((hown c).mpr rfl)
    obtain ⟨l, lock₁, lock', hl, hl', hc, hp'⟩ := reaches_lock hs hreach (hreg p hreach)
    refine ⟨lock'.without c, by rw [hlock, if_pos (mem_reached.mpr hreach), hl, Option.bind_some,
      hl', Option.map_some], ?_⟩
    refine ((hs.consistent hl').without hc).free_iff.mpr fun d hd => ?_
    obtain ⟨hdc, hd'⟩ : d ≠ c ∧ d ∈ lock'.owners := by rwa [Lock.without, mem_erase_eq] at hd
    exact hdc ((hown d).mp ((hr.agrees p l lock lock' hreach hl hl' hp d hdc).mp hd'))
  refine ⟨fun p lock hp hc => ?_, fun p lock hp hst hc => ?_, hsole, fun p d hd => ?_⟩
  · rw [hlock] at hp
    split_ifs at hp with hreach
    · obtain ⟨lock', -, rfl⟩ := Option.map_eq_some_iff.mp hp
      rw [Lock.without, mem_erase_eq] at hc
      exact hc.1 rfl
    · exact hreach (mem_reached.mpr (hr.reaches p lock hp hc))
  · have hcons := consistent_of_lockOf hs hp
    exact hsole p lock hp fun d =>
      ⟨fun hd => hcons.eq_of_exclusive hst hc hd, fun hd => hd ▸ hc⟩
  · rw [hlock]
    split_ifs with hreach
    · have hreach := mem_reached.mp hreach
      obtain ⟨l, lock, lock', hl, hl', -, hp⟩ := reaches_lock hs hreach (hreg p hreach)
      have hag := hr.agrees p l lock lock' hreach hl hl' hp d hd
      simp only [hl, hl', hp, Option.bind_some, Option.map_some, Option.some.injEq,
        exists_eq_left', ← hag, Lock.without, mem_erase_eq, ne_eq, hd, not_false_eq_true, true_and]
    · exact Iff.rfl

theorem releasesAll_of_freesAll
    (hlock : ∀ p, s'.lockOf p = if p ∈ reached cfg s session c
      then (session.locks[p]?.bind fun l => s.lockHeap[l]?).map (·.without c) else s.lockOf p)
    (hf : FreesAll s c s') : ReleasesAll cfg s session c := by
  refine ⟨fun p lock hp hc => ?_, fun p l lock lock' hreach hl hl' hp d hd => ?_⟩
  · by_contra hno
    refine hf.disowned p lock ?_ hc
    rw [hlock, if_neg (fun h => hno (mem_reached.mp h)), hp]
  · have := hf.others p d hd
    rw [hlock, if_pos (mem_reached.mpr hreach)] at this
    simpa only [hl, hl', hp, Option.bind_some, Option.map_some, Option.some.injEq,
      exists_eq_left', Lock.without, mem_erase_eq, ne_eq, hd, not_false_eq_true, true_and]
      using this

/-- When a session ends, the client owns nothing any more exactly if the loop reached everything
it owned. -/
theorem freesAll_iff (hr : Reachable cfg s) (he : EndsSession cfg s c s') :
    FreesAll s c s' ↔ ∃ ptr session, s.Registered c ptr session ∧ ReleasesAll cfg s session c := by
  have hs := hr.wellFormed
  obtain ⟨ptr, session, t, h, hend, hl⟩ := endSession_of_endsSession hs he
  rcases endSession_released cfg hs h with ⟨-, hfault⟩ | ⟨hreg, t', ht, hrel⟩
  · simp [hend] at hfault
  obtain rfl : t = t' := congrArg Prod.snd (hend.symm.trans ht)
  have hlock : ∀ p, s'.lockOf p = if p ∈ reached cfg s session c
      then (session.locks[p]?.bind fun l => s.lockHeap[l]?).map (·.without c)
      else s.lockOf p := fun p => (congrFun hl p).trans (hrel.lockOf_ended hs h p)
  constructor
  · exact fun hf => ⟨ptr, session, h, releasesAll_of_freesAll hlock hf⟩
  · rintro ⟨ptr', session', h', hrel'⟩
    obtain ⟨rfl, rfl⟩ := h.unique h'
    exact freesAll_of_releasesAll hs (fun p hp => hreg p (mem_reached.mpr hp)) hlock hrel'

theorem freesAll_iff_one_lock : ∃ s s', EndsSession sampleConfig s [1] s' ∧
    (FreesAll s [1] s' ↔
      ∃ ptr session, s.Registered [1] ptr session ∧ ReleasesAll sampleConfig s session [1]) := by
  obtain ⟨s, hs, hok⟩ := (Option.any_eq_true _ _).mp (by decide :
    (Run.run (next sampleConfig) (.initial (sampleFiles [ascii ['a']]))
      [.initSession true [1] 0, .acquireLock [1] (ascii ['a']) .exclusive]).any
      fun s => (closeSession sampleConfig s [1]).1 = .ok .ok)
  have he : EndsSession sampleConfig s [1] (closeSession sampleConfig s [1]).2 :=
    .close (Prod.ext (by simpa using hok) rfl)
  exact ⟨s, _, he, freesAll_iff ⟨_, _, hs⟩ he⟩

/-- The session opened `0` and holds `a` alone; closed, it is refused `0` and keeps `a`. -/
theorem not_freesAll_opened : ∃ s s', Reachable sampleConfig s ∧
    EndsSession sampleConfig s [1] s' ∧ ¬ FreesAll s [1] s' := by
  obtain ⟨s, hs, hok⟩ := (Option.any_eq_true _ _).mp (by decide :
    (Run.run (next sampleConfig) (.initial (sampleFiles [ascii ['a']]))
      [.initSession true [1] 0, .openLock [1] (ascii ['0']) (.committed 7),
        .acquireLock [1] (ascii ['a']) .exclusive]).any
      fun s => (closeSession sampleConfig s [1]).1 = .ok .ok ∧
        ((closeSession sampleConfig s [1]).2.lockOf (ascii ['a'])).any
          fun lock => [1] ∈ lock.owners)
  simp only [decide_eq_true_eq] at hok
  obtain ⟨lock, hlock, hc⟩ := (Option.any_eq_true _ _).mp hok.2
  refine ⟨s, _, ⟨_, _, hs⟩, .close (Prod.ext hok.1 rfl), fun hf => ?_⟩
  exact hf.disowned _ lock hlock (by simpa using hc)

end Claim

end LockService
