import LockService.EndSession

/-!
# Claiming locks at a new leader

A claim of `handle_jeopardy` is granted when its path can be acquired, and it touches nothing else
(`Granted`). Claims of different paths do not get in each other's way, so where every claimed path
can be acquired every claim is granted, in whatever order the map is iterated
(`claimLocks_granted`). Where one cannot, the handler ends the session and goes on, and in the end
it extends the lease of whatever session the client has.
-/

namespace LockService

/-- The client's claim of a path was granted. -/
structure Granted (s : State) (c : Str) (ptr : SessionPtr) (session : Session) (p : Str)
    (m : LockStatus) (s' : State) : Prop where
  sessions : s'.sessions = s.sessions
  others : ∀ ptr', ptr' ≠ ptr → s'.sessionHeap[ptr']? = s.sessionHeap[ptr']?
  threads : s'.threads = s.threads
  files : s'.files = s.files
  locks : ∀ q, q ≠ p → s'.locks[q]? = s.locks[q]?
  lockOf : ∀ q, q ≠ p → s'.lockOf q = s.lockOf q
  held : ∃ l lock locks, s'.locks[p]? = some l ∧ s'.lockHeap[l]? = some lock ∧ lock.status = m ∧
    (∀ d, d ∈ lock.owners ↔ d = c ∨ d ∈ (s.table p).owners) ∧
    s'.sessionHeap[ptr]? = some { session with locks } ∧
    (∀ q, locks[q]? = if q = p then some l else session.locks[q]?) ∧
    ∀ k lock', k ≠ l → (s.lockHeap[k]? = some lock' → s'.lockHeap[k]? = some lock') ∧
      ∀ d, s'.lockHeap[k]? = some lock' → d ∈ lock'.owners → s.lockHeap[k]? = some lock'

section Granted

variable {cfg : Config} {s s' : State} {c p : Str} {m : LockStatus} {ptr : SessionPtr}
  {session : Session}

theorem granted_grant (hs : s.WellFormed) (h : s.Registered c ptr session) {l : LockPtr}
    {lock : Lock} (hl : s.locks[p]? = some l) (hlock : s.lockHeap[l]? = some lock) :
    Granted s c ptr session p m (s.grant ptr session c p l lock m) where
  sessions := rfl
  others ptr' hne := by rw [State.grant, getElem?_store h.2, if_neg hne]
  threads := rfl
  files := rfl
  locks q hq := rfl
  lockOf q hq := by rw [lockOf_grant hs hl hlock, if_neg hq]
  held := by
    refine ⟨l, lock.grantedTo c m, session.locks.insert p l, hl, ?_, rfl, fun d => ?_, ?_, ?_, ?_⟩
    · rw [State.grant, getElem?_store hlock, if_pos rfl]
    · rw [table_eq_of_lockOf (lockOf_of_getElem? hl hlock), (hs.consistent hlock).mem_view,
        Lock.grantedTo, mem_insert_eq]
    · rw [State.grant, getElem?_store h.2, if_pos rfl]
    · exact fun q => getElem?_insert_eq _ _ _ _
    · intro k lock' hk
      simp only [State.grant, getElem?_store hlock, if_neg hk]
      exact ⟨id, fun _ h _ => h⟩

/-- The lock made for a path that was not in the table is one with no owner. -/
theorem Granted.of_enter (hs : s.WellFormed) (h : s.Registered c ptr session)
    (hg : Granted (s.enter ptr session p) c ptr
      { session with locks := session.locks.insertIfNew p s.lockHeap.length } p m s') :
    Granted s c ptr session p m s' where
  sessions := hg.sessions
  others ptr' hne := by rw [hg.others ptr' hne, State.enter, getElem?_store h.2, if_neg hne]
  threads := hg.threads
  files := hg.files
  locks q hq := by rw [hg.locks q hq, State.enter, getElem?_insertIfNew_eq, if_neg hq]
  lockOf q hq := by rw [hg.lockOf q hq, lockOf_enter hs, if_neg fun h => hq h.1]
  held := by
    obtain ⟨l, lock, locks, hl, hlock, hst, hown, hsession, hlocks, hheap⟩ := hg.held
    rw [table_enter hs] at hown
    refine ⟨l, lock, locks, hl, hlock, hst, hown, hsession, fun q => ?_,
      fun k lock' hk => ⟨fun hk' => ?_, fun d hk' hd => ?_⟩⟩
    · rw [hlocks, getElem?_insertIfNew_eq]
      split_ifs <;> rfl
    · exact (hheap k lock' hk).1 (getElem?_alloc_of_some hk' _)
    · have hk₁ := (hheap k lock' hk).2 d hk' hd
      rw [State.enter, getElem?_alloc] at hk₁
      split_ifs at hk₁
      · obtain rfl := Option.some.inj hk₁
        simp at hd
      · exact hk₁

theorem acquireLock_spec (hs : s.WellFormed) (h : s.Registered c ptr session)
    (ha : Acquirable cfg s p m) :
    ∃ s', acquireLock cfg s c p m = (.ok .ok, s') ∧ Granted s c ptr session p m s' := by
  obtain ⟨session', l, lock, h', hl, hlock, -, he⟩ := acquireLock_granted hs h ha
  refine ⟨_, he, ?_⟩
  have hg := granted_grant (m := m) (hs.ready h p) h' hl hlock
  unfold State.ready at hg h' ⊢
  split_ifs at hg h' ⊢ with hp
  · obtain rfl := Option.some.inj (h.2.symm.trans h'.2)
    exact hg
  · obtain rfl := Option.some.inj ((registered_enter h p).2.symm.trans h'.2)
    exact hg.of_enter hs h

theorem Granted.registered (hg : Granted s c ptr session p m s') (h : s.Registered c ptr session) :
    ∃ locks, s'.Registered c ptr { session with locks } := by
  obtain ⟨l, lock, locks, -, -, -, -, hsession, -⟩ := hg.held
  exact ⟨locks, by rw [hg.sessions, h.1], hsession⟩

theorem Granted.acquirable_iff (hg : Granted s c ptr session p m s') {q : Str} (hq : q ≠ p)
    (m' : LockStatus) : Acquirable cfg s' q m' ↔ Acquirable cfg s q m' :=
  acquirable_congr hg.files (hg.lockOf q hq) m'

end Granted

/-- The client is a recorded owner of the path's lock, which is in the mode. -/
def Owns (s : State) (c path : Str) (mode : LockStatus) : Prop :=
  ∃ lock, s.lockOf path = some lock ∧ lock.status = mode ∧ c ∈ lock.owners

/-- The claims of a list were all granted. -/
structure AllGranted (s : State) (c : Str) (ptr : SessionPtr) (session : Session)
    (locks : List (Str × LockStatus)) (s' : State) : Prop where
  sessions : s'.sessions = s.sessions
  others : ∀ ptr', ptr' ≠ ptr → s'.sessionHeap[ptr']? = s.sessionHeap[ptr']?
  threads : s'.threads = s.threads
  files : s'.files = s.files
  session : ∃ locks', s'.sessionHeap[ptr]? = some { session with locks := locks' } ∧
    ∀ q, q ∈ locks' ↔ q ∈ session.locks ∨ q ∈ locks.map Prod.fst
  lockOf : ∀ q, q ∉ locks.map Prod.fst → s'.lockOf q = s.lockOf q
  held : ∀ p m, (p, m) ∈ locks → ∃ lock, s'.lockOf p = some lock ∧ lock.status = m ∧
    ∀ d, d ∈ lock.owners ↔ d = c ∨ d ∈ (s.table p).owners

section Claims

variable {cfg : Config} {s s' : State} {c : Str} {ptr : SessionPtr} {session : Session}

theorem AllGranted.nil (h : s.sessionHeap[ptr]? = some session) :
    AllGranted s c ptr session [] s :=
  ⟨rfl, fun _ _ => rfl, rfl, rfl, ⟨session.locks, h, by simp⟩, fun _ _ => rfl, by simp⟩

theorem AllGranted.cons {t : State} {p : Str} {m : LockStatus} {locks : List (Str × LockStatus)}
    (hp : p ∉ locks.map Prod.fst) {locks₁ : Dict LockPtr}
    (hg : Granted s c ptr session p m t)
    (hsession : t.sessionHeap[ptr]? = some { session with locks := locks₁ })
    (ha : AllGranted t c ptr { session with locks := locks₁ } locks s') :
    AllGranted s c ptr session ((p, m) :: locks) s' where
  sessions := ha.sessions.trans hg.sessions
  others ptr' hne := (ha.others ptr' hne).trans (hg.others ptr' hne)
  threads := ha.threads.trans hg.threads
  files := ha.files.trans hg.files
  session := by
    obtain ⟨l, lock, locks₂, -, -, -, -, hs₂, hl₂, -⟩ := hg.held
    obtain ⟨locks', hs', hl'⟩ := ha.session
    refine ⟨locks', hs', fun q => ?_⟩
    have he : locks₁ = locks₂ :=
      congrArg Session.locks (Option.some.inj (hsession.symm.trans hs₂))
    have hq : q ∈ locks₁ ↔ q = p ∨ q ∈ session.locks := by
      rw [he, mem_iff_exists_getElem?, mem_iff_exists_getElem?, hl₂]
      split_ifs with hqp <;> simp [hqp]
    rw [hl', hq, List.map_cons, List.mem_cons]
    tauto
  lockOf q hq := by
    simp only [List.map_cons, List.mem_cons, not_or] at hq
    rw [ha.lockOf q hq.2, hg.lockOf q hq.1]
  held q m' hmem := by
    rcases List.mem_cons.mp hmem with he | htail
    · obtain ⟨rfl, rfl⟩ := Prod.mk.inj he
      obtain ⟨l, lock, -, hl, hlock, hst, hown, -⟩ := hg.held
      exact ⟨lock, by rw [ha.lockOf q hp, lockOf_of_getElem? hl hlock], hst, hown⟩
    · have hq : q ≠ p := by
        rintro rfl
        exact hp (List.mem_map.mpr ⟨(q, m'), htail, rfl⟩)
      have ht : t.table q = s.table q := by rw [State.table, State.table, hg.lockOf q hq]
      rw [← ht]
      exact ha.held q m' htail

theorem claimLocks_granted :
    ∀ {locks : List (Str × LockStatus)} {s : State} {session : Session}, s.WellFormed →
      s.Registered c ptr session → (locks.map Prod.fst).Nodup →
      (∀ p m, (p, m) ∈ locks → Acquirable cfg s p m) →
      ∃ s', claimLocks cfg c locks s = (.ok (), s') ∧ AllGranted s c ptr session locks s'
  | [], s, session, _, h, _, _ => ⟨s, rfl, .nil h.2⟩
  | (p, m) :: locks, s, session, hs, h, hnd, ha => by
    rw [List.map_cons, List.nodup_cons] at hnd
    obtain ⟨t, ht, hg⟩ := acquireLock_spec hs h (ha p m (by simp))
    obtain ⟨locks₁, h₁⟩ := hg.registered h
    have hst : t.WellFormed := by
      have := (acquireLock_trace cfg c p hs m).wellFormed hs
      rwa [ht] at this
    obtain ⟨s', he, hall⟩ := claimLocks_granted hst h₁ hnd.2 fun q m' hmem =>
      (hg.acquirable_iff (by
        rintro rfl
        exact hnd.1 (List.mem_map.mpr ⟨(q, m'), hmem, rfl⟩)) m').mpr
          (ha q m' (List.mem_cons_of_mem _ hmem))
    refine ⟨s', ?_, .cons hnd.1 hg h₁.2 hall⟩
    rw [claimLocks, ht, Result.andThen_ok, if_pos rfl, he]

end Claims

section Handler

variable {cfg : Config} {s s' : State} {c : Str} {ptr : SessionPtr} {session : Session}

theorem createSession_start (hs : s.WellFormed) (hl : ¬ s.Live c) (now : ℤ) :
    createSession s c now = (.ok .ok, s.start c now) := by
  unfold createSession
  rcases hs.registered_or_none c with h | ⟨ptr, session, h⟩
  · rw [h]
  · rcases ht : session.terminated with _ | _
    · exact absurd ⟨ptr, session, h, ht⟩ hl
    · simp only [h.1, h.2, ht, if_true]

theorem registered_start_new (hn : s.sessions[c]? = none) (now : ℤ) :
    (s.start c now).Registered c s.sessionHeap.length
      ⟨c, now, defaultLeaseExtension, 0, ∅, false⟩ := by
  refine ⟨?_, List.getElem?_concat_length⟩
  rw [State.start, getElem?_insertIfNew_eq, if_pos rfl, hn, Option.getD_none]

theorem registered_start_old (h : s.Registered c ptr session) (now : ℤ) :
    (s.start c now).Registered c ptr session := by
  refine ⟨?_, getElem?_alloc_of_some h.2 _⟩
  rw [State.start, getElem?_insertIfNew_eq, if_pos rfl, h.1, Option.getD_some]

theorem thread_start {now : ℤ} (h : (s.start c now).sessions[c]? = some ptr) :
    (s.start c now).threads[s.threads.length]? = some ⟨ptr, .launched⟩ := by
  rw [State.start, getElem?_insertIfNew_eq, if_pos rfl, Option.some.injEq] at h
  rw [State.start, List.getElem?_concat_length, Std.ExtTreeMap.getD_eq_getD_getElem?, h]

/-- What `attempt_extend_session` answers about a session with a reply waiting. -/
def extended (session : Session) : ℤ :=
  if session.terminated then session.leaseLength else session.leaseLength + defaultLeaseExtension

/-- The end of `handle_jeopardy`, once the loop is through. -/
theorem handleJeopardy_eq (hs : s.WellFormed) (hl : ¬ s.Live c) {locks : Claims} {now : ℤ}
    (hc : claimLocks cfg c locks.entries (s.start c now) = (.ok (), s'))
    (h : s'.Registered c ptr session) (hst : s'.sessions = (s.start c now).sessions)
    (ht : s'.threads = (s.start c now).threads) :
    handleJeopardy cfg s c locks now = (.ok (extended session),
      (s'.setSession ptr { session with leaseLength := extended session }).setPhase
        s.threads.length ⟨ptr, .launched⟩ .looping) := by
  have hthread := thread_start (hst ▸ h.1)
  rw [handleJeopardy, createSession_start hs hl, Result.andThen_ok, if_neg (by simp), hc,
    Result.andThen_ok, maintainStart, ht, hthread]
  simp only [if_true, putReply, h.2, Result.andThen_ok]
  rw [attemptExtendSession]
  simp only [State.setPhase, State.setSession, h.1, getElem?_store h.2, if_true]
  rw [if_neg (by simp)]
  simp [extended]

theorem attemptExtendSession_lease {lease : ℤ} (hs : s.Leased) (hc : c ∈ s.sessions)
    (h : attemptExtendSession s c = (.ok lease, s')) : (defaultLeaseExtension : ℤ) ≤ lease := by
  obtain ⟨ptr, hptr⟩ := mem_iff_exists_getElem?.mp hc
  unfold attemptExtendSession at h
  simp only [hptr] at h
  split at h
  · simp at h
  rename_i session hsession
  have hle := hs ptr session hsession
  split_ifs at h with hb ht
  · simp at h
  · obtain rfl : session.leaseLength = lease := by simpa [ht] using congrArg Prod.fst h
    exact hle
  · obtain rfl : session.leaseLength + defaultLeaseExtension = lease := by
      simpa [ht] using congrArg Prod.fst h
    omega

/-- Once there is no session in its way, the handler never answers -1. -/
theorem handleJeopardy_lease (hr : Reachable cfg s) (hl : ¬ s.Live c) {locks : Claims}
    {now lease : ℤ} (h : handleJeopardy cfg s c locks now = (.ok lease, s')) :
    (defaultLeaseExtension : ℤ) ≤ lease := by
  have hs := hr.wellFormed
  have hstart : Trace cfg (fun _ => True) s (s.start c now) := by
    refine .single (.start c now fun ptr session h => ?_) trivial
    by_contra ht
    exact hl ⟨ptr, session, h, by simpa using ht⟩
  have hc : c ∈ (s.start c now).sessions := by
    rw [mem_iff_exists_getElem?, State.start, getElem?_insertIfNew_eq, if_pos rfl]
    exact ⟨_, rfl⟩
  rw [handleJeopardy, createSession_start hs hl, Result.andThen_ok, if_neg (by simp)] at h
  have ht₁ : Trace cfg (Action.Claims c locks.entries) _ _ :=
    claimLocks_trace locks.entries (hstart.wellFormed hs)
  rcases hr₁ : claimLocks cfg c locks.entries (s.start c now) with ⟨_ | _, t⟩
  · simp [hr₁] at h
  rw [hr₁] at ht₁
  rw [hr₁, Result.andThen_ok] at h
  have ht₂ : Trace cfg (· = .note) _ _ :=
    maintainStart_trace (ht₁.wellFormed (hstart.wellFormed hs)) s.threads.length
  rcases hr₂ : maintainStart t s.threads.length with ⟨_ | _, t'⟩
  · simp [hr₂] at h
  rw [hr₂] at ht₂
  rw [hr₂, Result.andThen_ok] at h
  have htrace : Trace cfg (fun _ => True) s t' :=
    hstart.trans ((ht₁.mono fun _ _ => trivial).trans (ht₂.mono fun _ _ => trivial))
  refine attemptExtendSession_lease ?_ ?_ h
  · exact (htrace.invariant (fun _ _ _ _ hI _ he => leased_effect hI he) hs hr.leased).2
  · obtain ⟨ptr, hptr⟩ := mem_iff_exists_getElem?.mp hc
    exact mem_iff_exists_getElem?.mpr ⟨ptr, trace_registered ht₂ (trace_registered ht₁ hptr)⟩

/-- The answer is a lease only with every claim granted, and -1, with nothing held and no session,
where a claim cannot be. -/
def AllOrNothing (cfg : Config) (s : State) (c : Str) (locks : Claims) (r : Result ℤ) : Prop :=
  (∀ lease s', r = (.ok lease, s') → 0 ≤ lease →
    s'.Live c ∧ ∀ p m, (p, m) ∈ locks.entries → Owns s' c p m) ∧
  ((∃ p m, (p, m) ∈ locks.entries ∧ ¬ Acquirable cfg s p m) →
    ∃ s', r = (.ok (-1), s') ∧ (∀ p m, (p, m) ∈ locks.entries → ∀ m', ¬ Owns s' c p m') ∧
      ¬ s'.Live c)

theorem acquirable_start {now : ℤ} {p : Str} {m : LockStatus} :
    Acquirable cfg (s.start c now) p m ↔ Acquirable cfg s p m :=
  ⟨fun h => ⟨h.1, h.2, h.3⟩, fun h => ⟨h.1, h.2, h.3⟩⟩

/-- Where every claim can be granted, the client ends with the session it has an entry for, all the
claims, and that session's lease. -/
theorem handleJeopardy_granted (hs : s.WellFormed) (hl : ¬ s.Live c) {locks : Claims} {now : ℤ}
    (h : (s.start c now).Registered c ptr session)
    (ha : ∀ p m, (p, m) ∈ locks.entries → Acquirable cfg s p m) :
    ∃ t locks', AllGranted (s.start c now) c ptr session locks.entries t ∧
      t.Registered c ptr { session with locks := locks' } ∧
      (∀ q, q ∈ locks' ↔ q ∈ session.locks ∨ q ∈ locks.entries.map Prod.fst) ∧
      handleJeopardy cfg s c locks now = (.ok (extended session),
        (t.setSession ptr
          { session with locks := locks', leaseLength := extended session }).setPhase
          s.threads.length ⟨ptr, .launched⟩ .looping) := by
  obtain ⟨t, hc, hall⟩ := claimLocks_granted (hs.start c now) h locks.nodup fun p m hmem =>
    acquirable_start.mpr (ha p m hmem)
  obtain ⟨locks', ht, hlocks⟩ := hall.session
  have hreg : t.Registered c ptr { session with locks := locks' } := ⟨hall.sessions ▸ h.1, ht⟩
  exact ⟨t, locks', hall, hreg, hlocks,
    handleJeopardy_eq hs hl hc hreg hall.sessions hall.threads⟩

theorem registered_setSession_setPhase {session' : Session} {i : ℕ} {thread : Thread}
    {phase : Phase} (h : s.Registered c ptr session) :
    ((s.setSession ptr session').setPhase i thread phase).Registered c ptr session' :=
  ⟨h.1, by rw [State.setPhase, State.setSession, getElem?_store h.2, if_pos rfl]⟩

theorem allOrNothing_iff (hr : Reachable cfg s) (hl : ¬ s.Live c) (locks : Claims) (now : ℤ) :
    AllOrNothing cfg s c locks (handleJeopardy cfg s c locks now) ↔
      s.sessions[c]? = none ∧ ∀ p m, (p, m) ∈ locks.entries → Acquirable cfg s p m := by
  have hs := hr.wellFormed
  constructor
  · rintro ⟨hlease, hnone⟩
    have hall : ∀ p m, (p, m) ∈ locks.entries → Acquirable cfg s p m := by
      by_contra hno
      push Not at hno
      obtain ⟨s', h, -⟩ := hnone hno
      have := handleJeopardy_lease hr hl h
      simp [defaultLeaseExtension] at this
    refine ⟨?_, hall⟩
    rcases hs.registered_or_none c with h | ⟨ptr, session, h⟩
    · exact h
    obtain ⟨t, locks', -, ht, -, he⟩ :=
      handleJeopardy_granted hs hl (registered_start_old h now) hall
    have hpos := handleJeopardy_lease hr hl he
    obtain ⟨ptr', session', hreg', hlive⟩ :=
      (hlease _ _ he (by simp only [defaultLeaseExtension] at hpos; omega)).1
    obtain ⟨rfl, rfl⟩ := (registered_setSession_setPhase ht).unique hreg'
    exact absurd ⟨ptr, session, h, hlive⟩ hl
  · rintro ⟨hn, ha⟩
    obtain ⟨t, locks', hall, ht, -, he⟩ :=
      handleJeopardy_granted hs hl (registered_start_new hn now) ha
    refine ⟨fun lease s' h _ => ?_, fun ⟨p, m, hmem, hno⟩ => absurd (ha p m hmem) hno⟩
    obtain rfl := congrArg Prod.snd (he.symm.trans h)
    refine ⟨⟨_, _, registered_setSession_setPhase ht, rfl⟩, fun p m hmem => ?_⟩
    obtain ⟨lock, hlk, hst, hown⟩ := hall.held p m hmem
    exact ⟨lock, hlk, hst, (hown c).mpr (.inl rfl)⟩

theorem reachable_initial (files : FileTree) : Reachable cfg (.initial files) :=
  ⟨files, [], rfl⟩

theorem not_live_initial (files : FileTree) : ¬ (State.initial files).Live c := by
  rintro ⟨ptr, session, h, -⟩
  simp [State.Registered, State.initial] at h

theorem acquirable_initial {files : FileTree} {p : Str} {m : LockStatus}
    (hm : m = .exclusive ∨ m = .shared) (hx : isExists cfg files p = true) :
    Acquirable cfg (.initial files) p m :=
  ⟨hm, hx, fun lock h => by simp [State.lockOf, State.initial] at h⟩

/-- A server that has two files and has given out no locks. -/
def sampleTwoFiles : State := .initial (sampleFiles [ascii ['a'], ascii ['b']])

/-- One of the files claimed in each mode. -/
def sampleClaims : Claims := ⟨[(ascii ['a'], .exclusive), (ascii ['b'], .shared)], by decide⟩

theorem acquirable_sampleClaims (p : Str) (m : LockStatus) (h : (p, m) ∈ sampleClaims.entries) :
    Acquirable sampleConfig sampleTwoFiles p m := by
  simp only [sampleClaims, List.mem_cons, Prod.mk.injEq, List.not_mem_nil, or_false] at h
  rcases h with ⟨rfl, rfl⟩ | ⟨rfl, rfl⟩
  · exact acquirable_initial (.inl rfl) (by decide)
  · exact acquirable_initial (.inr rfl) (by decide)

theorem allOrNothing_iff_two_claims : AllOrNothing sampleConfig sampleTwoFiles [1] sampleClaims
    (handleJeopardy sampleConfig sampleTwoFiles [1] sampleClaims 0) :=
  (allOrNothing_iff (reachable_initial _) (not_live_initial _) _ _).mpr
    ⟨by decide, acquirable_sampleClaims⟩

/-- The claim of `b`, which is not there, is refused after that of `a`; the answer is a lease. -/
theorem not_allOrNothing_missing_path : ∃ s locks, Reachable sampleConfig s ∧ ¬ s.Live [1] ∧
    ¬ AllOrNothing sampleConfig s [1] locks (handleJeopardy sampleConfig s [1] locks 0) := by
  refine ⟨.initial (sampleFiles [ascii ['a']]),
    ⟨[(ascii ['a'], .exclusive), (ascii ['b'], .exclusive)], by decide⟩, reachable_initial _,
    not_live_initial _, fun h => ?_⟩
  obtain ⟨s', hs', -⟩ := h.2 ⟨ascii ['b'], .exclusive, by simp, fun ha =>
    absurd ha.isPresent (by decide)⟩
  have hlease : (handleJeopardy sampleConfig (.initial (sampleFiles [ascii ['a']])) [1]
      ⟨[(ascii ['a'], .exclusive), (ascii ['b'], .exclusive)], by decide⟩ 0).1 = .ok 15000 := by
    decide
  simp [hs'] at hlease

end Handler

end LockService
