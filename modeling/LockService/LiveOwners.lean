import LockService.Jeopardy

/-!
# Owners whose sessions are over

Every owner of a lock has a live session as long as three things do not happen: a client whose
session is over is granted a lock, a session ends whose loop leaves some lock of its client behind,
and a client claims a lock after one of its claims was refused (`Orderly`). The invariant is about
every lock object, whether `info::locks` has it or only some session; `handle_jeopardy`'s loop keeps
it in two phases, before the first refused claim (`claimLocks_live`) and after it
(`claimLocks_refused`).
-/

namespace LockService

/-- Every owner of any lock has a session that is not over. -/
def OwnersLive (s : State) : Prop :=
  ∀ (l : LockPtr) lock c, s.lockHeap[l]? = some lock → c ∈ lock.owners → s.Live c

/-- Every lock that lists the client is the one its session has at a path the loop of `end_session`
gets to. -/
def ReleasesOwned (cfg : Config) (s : State) (session : Session) (c : Str) : Prop :=
  ∀ (l : LockPtr) lock, s.lockHeap[l]? = some lock → c ∈ lock.owners →
    ∃ p, Reaches cfg s session c p ∧ session.locks[p]? = some l

section Effects

variable {cfg : Config} {s s' : State} {c : Str} {Q : Action → Prop}

theorem ownersLive_initial (files : FileTree) : OwnersLive (.initial files) := by
  intro l lock c h
  simp [State.initial] at h

theorem ownersLive_effect {a : Action} (hs : s.WellFormed) (hI : OwnersLive s)
    (he : Effect cfg s a s') (ht : ∀ c, a ≠ .terminate c)
    (hg : ∀ c p m, a = .grant c p m → s.Live c) : OwnersLive s' := by
  intro l lock' c hl hc
  refine live_effect hs ?_ he (ht c)
  rcases effect_owner hs he hl hc with ⟨lock, hlock, hc', -⟩ | ha
  · exact hI l lock c hlock hc'
  · exact hg c _ _ ha

theorem ownersLive_trace (hs : s.WellFormed) (hI : OwnersLive s) (h : Trace cfg Q s s')
    (ht : ∀ c, ¬ Q (.terminate c)) (hg : ∀ c p m, Q (.grant c p m) → s.Live c) :
    OwnersLive s' := by
  refine (h.invariant (I := fun t => OwnersLive t ∧ ∀ c p m, Q (.grant c p m) → t.Live c)
    (fun t a t' htw hI hQ he => ⟨?_, fun c p m hQ' => ?_⟩) hs ⟨hI, hg⟩).2.1
  · refine ownersLive_effect htw hI.1 he (fun c hc => ht c (hc ▸ hQ)) fun c p m ha => ?_
    exact hI.2 c p m (ha ▸ hQ)
  · exact live_effect htw (hI.2 c p m hQ') he fun hc => ht c (hc ▸ hQ)

theorem ownersLive_note (hs : s.WellFormed) (hI : OwnersLive s) (h : Trace cfg (· = .note) s s') :
    OwnersLive s' :=
  ownersLive_trace hs hI h (by simp) (by simp)

/-- A client without a live session owns nothing. -/
theorem OwnersLive.not_owner (hI : OwnersLive s) (hc : ¬ s.Live c) {l : LockPtr} {lock : Lock}
    (hl : s.lockHeap[l]? = some lock) : c ∉ lock.owners :=
  fun h => hc (hI l lock c hl h)

theorem OwnersLive.releasesOwned (hI : OwnersLive s) (hc : ¬ s.Live c) (session : Session) :
    ReleasesOwned cfg s session c :=
  fun _ _ hl h => absurd h (hI.not_owner hc hl)

end Effects

section Ending

variable {cfg : Config} {s s' : State} {c : Str} {ptr : SessionPtr} {session : Session}

/-- A session ends with nothing left of its client's, in a state where its loop gets to all the
client owns. -/
theorem endSession_ownersLive (hs : s.WellFormed) (hI : OwnersLive s)
    (h : s.Registered c ptr session) (hrel : ReleasesOwned cfg s session c)
    (hs' : (endSession cfg s ptr).survivor = some s') :
    endSession cfg s ptr = (.ok (), s') ∧ OwnersLive s' ∧ s'.Ended c ∧ s'.files = s.files ∧
      ∀ p, ¬ Reaches cfg s session c p → s'.lockOf p = s.lockOf p := by
  have hend := @endSession_ended cfg _ _ _ hs h.1
  have htrace := @endSession_trace cfg _ _ _ hs h.1
  obtain ⟨he, hr⟩ := endSession_survivor hs h hs'
  rw [he] at hend htrace
  refine ⟨he, fun l lock' d hl hd => ?_, hend, hr.files, fun p hp => ?_⟩
  · rw [hr.lockHeap] at hl
    have hheap : (s.terminate ptr session).lockHeap = s.lockHeap := rfl
    by_cases hdc : d = c
    · subst hdc
      split_ifs at hl with hreach
      · obtain ⟨lock, -, rfl⟩ := Option.map_eq_some_iff.mp hl
        rw [Lock.without, mem_erase_eq] at hd
        exact absurd rfl hd.1
      · obtain ⟨p, hp, hpl⟩ := hrel l lock' hl hd
        exact absurd ⟨p, mem_reached.mpr hp, hpl⟩ hreach
    · have hlive : s.Live d := by
        split_ifs at hl with hreach
        · obtain ⟨lock, hlock, rfl⟩ := Option.map_eq_some_iff.mp hl
          rw [Lock.without, mem_erase_eq] at hd
          exact hI l lock d hlock hd.2
        · exact hI l lock' d hl hd
      refine live_trace hs hlive htrace ?_
      rintro (he | ⟨p, he⟩)
      · exact hdc (Action.terminate.inj he)
      · cases he
  · rw [hr.lockOf_ended hs h, if_neg fun hmem => hp (mem_reached.mp hmem)]

end Ending

section Claiming

variable {cfg : Config} {s s' : State} {c : Str} {ptr : SessionPtr} {session : Session}

theorem OwnersLive.not_reaches (hs : s.WellFormed) (hI : OwnersLive s) (hc : ¬ s.Live c)
    (p : Str) : ¬ Reaches cfg s session c p := by
  rintro ⟨hp, hall⟩
  obtain ⟨-, l, lock, -, hlock, hown⟩ :=
    releasable_iff.mp (hall p hp (by simp [Std.ReflOrd.compare_self]))
  exact hI.not_owner hc hlock ((hs.consistent hlock).owner_iff.mp hown)

/-- A loop none of whose claims can be granted ends the session, as often as there are claims. -/
theorem claimLocks_refused :
    ∀ (locks : List (Str × LockStatus)) {s : State} {ptr : SessionPtr} {session : Session},
      s.WellFormed → OwnersLive s → s.Registered c ptr session → ReleasesOwned cfg s session c →
      (∀ p m, (p, m) ∈ locks → ¬ Acquirable cfg s p m ∧ ¬ Reaches cfg s session c p) → ∀ {s'},
      (claimLocks cfg c locks s).survivor = some s' → OwnersLive s'
  | [], s, ptr, session, _, hI, _, _, _, s', h => by
    obtain rfl := Option.some.inj h
    exact hI
  | (p, m) :: locks, s, ptr, session, hs, hI, hreg, hrel, hno, s', h => by
    have hr := acquireLock_refused (c := c) hs (.inr (hno p m (List.mem_cons_self ..)).1)
    rw [claimLocks] at h
    rcases survivor_andThen h with h | ⟨status, t, ht, h'⟩
    · rwa [← survivor_eq h, hr.2]
    obtain rfl : t = s := by
      rw [ht] at hr
      exact hr.2
    rw [ht] at hr
    rw [if_neg fun hok => hr.1 (by rw [hok]), hreg.1] at h'
    rcases survivor_andThen h' with h | ⟨u, t', ht', h⟩
    · exact (endSession_ownersLive hs hI hreg hrel h).2.1
    obtain ⟨-, hIt, hend, hfiles, hlock⟩ :=
      @endSession_ownersLive _ _ t' _ _ _ hs hI hreg hrel (by rw [ht']; rfl)
    have hst := (@endSession_trace cfg _ _ _ hs hreg.1).wellFormed hs
    rw [ht'] at hst
    obtain ⟨ptr', session', hreg', -⟩ := id hend
    refine claimLocks_refused locks hst hIt hreg' (hIt.releasesOwned hend.not_live session')
      (fun q m' hmem => ⟨fun ha => ?_, hIt.not_reaches hst hend.not_live q⟩) h
    obtain ⟨hna, hnr⟩ := hno q m' (List.mem_cons_of_mem _ hmem)
    exact hna ((acquirable_congr hfiles (hlock q hnr) m').mp ha)

/-- A session whose client has released nothing: what it has is what the client owns, and
`end_session` would release all of it. -/
structure Claiming (cfg : Config) (c : Str) (ptr : SessionPtr) (s : State) (session : Session) :
    Prop where
  wellFormed : s.WellFormed
  ownersLive : OwnersLive s
  registered : s.Registered c ptr session
  live : session.terminated = false
  releasable : ∀ p, p ∈ session.locks → releasable cfg s session c p = true
  owned : ∀ (l : LockPtr) lock, s.lockHeap[l]? = some lock → c ∈ lock.owners →
    ∃ p : Str, session.locks[p]? = some l

theorem Claiming.releasesOwned (h : Claiming cfg c ptr s session) :
    ReleasesOwned cfg s session c := by
  intro l lock hl hc
  obtain ⟨p, hp⟩ := h.owned l lock hl hc
  exact ⟨p, ⟨mem_iff_exists_getElem?.mpr ⟨l, hp⟩, fun q hq _ => h.releasable q hq⟩, hp⟩

theorem Claiming.granted {p : Str} {m : LockStatus} (h : Claiming cfg c ptr s session)
    (hp : p ∉ session.locks) (ha : Acquirable cfg s p m)
    (hs' : s'.WellFormed) (hI' : OwnersLive s') (hg : Granted s c ptr session p m s') :
    ∃ locks, Claiming cfg c ptr s' { session with locks } ∧
      ∀ q, q ∈ locks ↔ q = p ∨ q ∈ session.locks := by
  obtain ⟨l, lock, locks, hl, hlock, -, hown, hsession, hlocks, hheap⟩ := hg.held
  have hreg : s'.Registered c ptr { session with locks } := ⟨hg.sessions ▸ h.registered.1, hsession⟩
  have hpl : locks[p]? = some l := by rw [hlocks, if_pos rfl]
  refine ⟨locks, ⟨hs', hI', hreg, h.live, fun q hq => ?_, fun k lock' hk hc => ?_⟩, fun q => ?_⟩
  · rw [releasable_iff]
    by_cases hqp : q = p
    · subst hqp
      refine ⟨hg.files ▸ ha.isPresent, l, lock, hpl, hlock, ?_⟩
      exact (hs'.consistent hlock).owner_iff.mpr ((hown c).mpr (.inl rfl))
    · obtain ⟨k, hk⟩ := mem_iff_exists_getElem?.mp hq
      have hk₁ : session.locks[q]? = some k := by rwa [hlocks, if_neg hqp] at hk
      obtain ⟨hx, k', lock', hk', hlock', ho⟩ :=
        releasable_iff.mp (h.releasable q (mem_iff_exists_getElem?.mpr ⟨k, hk₁⟩))
      obtain rfl := Option.some.inj (hk₁.symm.trans hk')
      have hkl : k ≠ l := by
        rintro rfl
        exact hqp (by rw [← hs'.path_eq hsession hk hlock, hs'.path_eq hsession hpl hlock])
      exact ⟨hg.files ▸ hx, k, lock', hk, (hheap k lock' hkl).1 hlock', ho⟩
  · by_cases hkl : k = l
    · exact ⟨p, hkl ▸ hpl⟩
    · obtain ⟨q, hq⟩ := h.owned k lock' ((hheap k lock' hkl).2 c hk hc) hc
      refine ⟨q, ?_⟩
      rw [hlocks, if_neg, hq]
      rintro rfl
      exact hp (mem_iff_exists_getElem?.mpr ⟨k, hq⟩)
  · rw [mem_iff_exists_getElem?, mem_iff_exists_getElem?, hlocks]
    split_ifs with hqp <;> simp [hqp]

/-- The loop, before a claim is refused. -/
theorem claimLocks_live :
    ∀ (locks : List (Str × LockStatus)) {s : State} {session : Session},
      Claiming cfg c ptr s session → (∀ p ∈ locks.map Prod.fst, p ∉ session.locks) →
      (locks.map Prod.fst).Nodup →
      (locks.Pairwise fun a b => ¬ Acquirable cfg s a.1 a.2 → ¬ Acquirable cfg s b.1 b.2) → ∀ {s'},
      (claimLocks cfg c locks s).survivor = some s' → OwnersLive s'
  | [], s, session, hc, _, _, _, s', h => by
    obtain rfl := Option.some.inj h
    exact hc.ownersLive
  | (p, m) :: locks, s, session, hc, hfresh, hnd, hpair, s', h => by
    have hs := hc.wellFormed
    rw [List.map_cons, List.nodup_cons] at hnd
    rw [List.pairwise_cons] at hpair
    by_cases ha : Acquirable cfg s p m
    · obtain ⟨t, ht, hg⟩ := acquireLock_spec hs hc.registered ha
      have htrace := acquireLock_trace cfg c p hs m
      rw [ht] at htrace
      have hIt : OwnersLive t := ownersLive_trace hs hc.ownersLive htrace (by simp) (by
        rintro d p' m' (hd | hd) <;> cases hd
        exact ⟨ptr, session, hc.registered, hc.live⟩)
      obtain ⟨locks', hct, hkeys⟩ :=
        hc.granted (hfresh p (by simp)) ha (htrace.wellFormed hs) hIt hg
      have hne : ∀ q ∈ locks.map Prod.fst, q ≠ p := by
        rintro q hq rfl
        exact hnd.1 hq
      rw [claimLocks, ht, Result.andThen_ok, if_pos rfl] at h
      refine claimLocks_live locks hct (fun q hq => ?_) hnd.2 ?_ h
      · rw [hkeys, not_or]
        exact ⟨hne q hq, hfresh q (List.mem_cons_of_mem _ hq)⟩
      · refine hpair.2.imp_of_mem fun {a b} hmema hmemb hab => ?_
        rw [hg.acquirable_iff (hne _ (List.mem_map_of_mem hmema)),
          hg.acquirable_iff (hne _ (List.mem_map_of_mem hmemb))]
        exact hab
    · refine claimLocks_refused ((p, m) :: locks) hs hc.ownersLive hc.registered hc.releasesOwned
        (fun q m' hmem => ⟨?_, fun hreach => ?_⟩) h
      · rcases List.mem_cons.mp hmem with he | hmem
        · obtain ⟨rfl, rfl⟩ := Prod.mk.inj he
          exact ha
        · exact hpair.1 (q, m') hmem ha
      · exact hfresh q (List.mem_map.mpr ⟨(q, m'), hmem, rfl⟩) hreach.1

theorem claiming_start (hs : s.WellFormed) (hI : OwnersLive s) (hn : s.sessions[c]? = none)
    (now : ℤ) : Claiming cfg c s.sessionHeap.length (s.start c now)
      ⟨c, now, defaultLeaseExtension, 0, ∅, false⟩ := by
  have hlive : ¬ s.Live c := by
    rintro ⟨ptr, session, h, -⟩
    simp [h.1] at hn
  refine ⟨hs.start c now, ?_, registered_start_new hn now, rfl, by simp, fun l lock hl hc => ?_⟩
  · exact @ownersLive_effect cfg _ _ _ hs hI (.start c now fun ptr session h => by simp [h.1] at hn)
      (by simp) (by simp)
  · exact absurd hc (hI.not_owner hlive hl)

theorem handleJeopardy_ownersLive (hs : s.WellFormed) (hI : OwnersLive s) (hlive : ¬ s.Live c)
    {locks : Claims} {now : ℤ}
    (hended : s.Ended c → ∀ p m, (p, m) ∈ locks.entries → ¬ Acquirable cfg s p m)
    (hnew : c ∉ s.sessions → locks.entries.Pairwise fun a b =>
      ¬ Acquirable cfg s a.1 a.2 → ¬ Acquirable cfg s b.1 b.2)
    (h : (handleJeopardy cfg s c locks now).survivor = some s') : OwnersLive s' := by
  have hterm : ∀ ptr session, s.Registered c ptr session → session.terminated = true := by
    intro ptr session hr
    by_contra ht
    exact hlive ⟨ptr, session, hr, by simpa using ht⟩
  have hstart : Effect cfg s (.start c) (s.start c now) := .start c now hterm
  have hclaims : ∀ t, (claimLocks cfg c locks.entries (s.start c now)).survivor = some t →
      OwnersLive t := by
    intro t ht
    rcases hs.registered_or_none c with hn | ⟨ptr, session, hreg⟩
    · refine claimLocks_live locks.entries (claiming_start hs hI hn now) (by simp) locks.nodup ?_ ht
      simp only [acquirable_start]
      exact hnew fun hc => by
        obtain ⟨ptr, hptr⟩ := mem_iff_exists_getElem?.mp hc
        simp [hptr] at hn
    · have hend : s.Ended c := ⟨ptr, session, hreg, hterm ptr session hreg⟩
      have hno := (ended_effect hs hend hstart).not_live
      have hI' : OwnersLive (s.start c now) := ownersLive_effect hs hI hstart (by simp) (by simp)
      refine claimLocks_refused locks.entries (hs.start c now) hI' (registered_start_old hreg now)
        (hI'.releasesOwned hno session)
        (fun p m hmem => ⟨?_, hI'.not_reaches (hs.start c now) hno p⟩) ht
      rw [acquirable_start]
      exact hended hend p m hmem
  have ht : Trace cfg (Action.Claims c locks.entries) (s.start c now) _ :=
    claimLocks_trace locks.entries (hs.start c now)
  rw [handleJeopardy, createSession_start hs hlive, Result.andThen_ok, if_neg (by simp)] at h
  rcases survivor_andThen h with h | ⟨u, t, hr, h⟩
  · exact hclaims s' h
  rw [hr] at ht
  have hst : t.WellFormed := ht.wellFormed (hs.start c now)
  rw [← survivor_eq h]
  refine @ownersLive_note cfg _ _ hst (hclaims t (by rw [hr]; rfl)) ?_
  exact andThen_trace hst (maintainStart_trace hst _) fun _ _ _ _ => attemptExtendSession_trace

end Claiming

/-- The call starts to claim the client's locks: the client has no session that is not over, and
none with a reply waiting and a lease that `int32_t` holds. -/
def Rejoins (s : State) (leader isCancelled : Bool) (c : Str) : Prop :=
  leader = true ∧ isCancelled = false ∧ ¬ s.Live c ∧ ∀ ptr session, s.Registered c ptr session →
    session.blockReply ≠ 0 ∧ toInt32 session.leaseLength < 0

/-- No lock is granted to a client whose session is over, a session that ends lets go of all its
client owns, and no claim can be granted after one that cannot. -/
def Orderly (cfg : Config) (s : State) : Event → Prop
  | .acquireLock c p m => Acquirable cfg s p m → ¬ s.Ended c
  | .closeSession c => ∀ ptr session, s.Registered c ptr session → session.terminated = false →
      ReleasesOwned cfg s session c
  | .maintainLoop i now now' => ∀ thread session, s.threads[i]? = some thread →
      thread.phase = .looping → s.sessionHeap[thread.session]? = some session →
      timeUntilExpire session now now' = 0 → ReleasesOwned cfg s session session.clientId
  | .keepAlive leader isCancelled c locks _ => Rejoins s leader isCancelled c →
      (s.Ended c → ∀ p m, (p, m) ∈ locks.entries → ¬ Acquirable cfg s p m) ∧
      (c ∉ s.sessions → locks.entries.Pairwise fun a b =>
        ¬ Acquirable cfg s a.1 a.2 → ¬ Acquirable cfg s b.1 b.2)
  | _ => True

section Runs

variable {cfg : Config} {s s' : State} {c : Str}

/-- What an extended lease leaves as it was. -/
structure Extended (s s' : State) : Prop where
  lockOf : s'.lockOf = s.lockOf
  files : s'.files = s.files
  sessions : s'.sessions = s.sessions
  has : ∀ c p l, s'.Has c p l → s.Has c p l

theorem attemptExtendSession_extended : Extended s (attemptExtendSession s c).2 := by
  have hrefl : Extended s s := ⟨rfl, rfl, rfl, fun _ _ _ => id⟩
  unfold attemptExtendSession
  split
  · exact hrefl
  split
  · exact hrefl
  rename_i ptr hptr _ session hsession
  by_cases hb : session.blockReply = 0
  · rw [if_pos hb]
    exact hrefl
  rw [if_neg hb]
  refine ⟨rfl, rfl, rfl, fun d p l hx => ?_⟩
  obtain ⟨ptr', session', ⟨hreg, h'⟩, hl⟩ := hx
  simp only [State.setSession, getElem?_store hsession] at h'
  by_cases hp : ptr' = ptr
  · rw [if_pos hp] at h'
    obtain rfl := Option.some.inj h'
    exact ⟨ptr, session, ⟨hp ▸ hreg, hsession⟩, hl⟩
  · rw [if_neg hp] at h'
    exact ⟨ptr', session', ⟨hreg, h'⟩, hl⟩

/-- What a negative lease says of a client without a live session. -/
theorem lease_of_attempt {lease : ℤ} (hlive : ¬ s.Live c)
    (h : attemptExtendSession s c = (.ok lease, s')) (hlease : toInt32 lease < 0)
    {ptr : SessionPtr} {session : Session} (hr : s.Registered c ptr session) :
    session.blockReply ≠ 0 ∧ toInt32 session.leaseLength < 0 := by
  have hterm : session.terminated = true := by
    by_contra ht
    exact hlive ⟨ptr, session, hr, by simpa using ht⟩
  simp only [attemptExtendSession, hr.1, hr.2, hterm, if_true] at h
  split_ifs at h with hb
  · simp at h
  · obtain ⟨rfl, -⟩ : session.leaseLength = lease ∧ _ := by simpa using h
    exact ⟨hb, hlease⟩

/-- A `keep_alive` has no effect on the tables, or it comes to `handle_jeopardy`. -/
theorem keepAlive_cases (hs : s.WellFormed) (leader isCancelled : Bool) (locks : Claims) (now : ℤ) :
    Trace cfg (· = .note) s (RPC.keepAlive cfg leader isCancelled s c locks now).2 ∨
      ∃ t, Rejoins s leader isCancelled c ∧ Trace cfg (· = .note) s t ∧ Extended s t ∧ ¬ t.Live c ∧
        RPC.keepAlive cfg leader isCancelled s c locks now =
          (handleJeopardy cfg t c locks now).andThen
            fun lease s => (.ok (.ok, toInt32 lease), s) := by
  by_cases hlive : s.Live c
  · exact .inl (keepAlive_live_trace hs hlive _ _ _ _)
  have hnote : Trace cfg (· = .note) s (attemptExtendSession s c).2 := attemptExtendSession_trace
  have hext : Extended s (attemptExtendSession s c).2 := attemptExtendSession_extended
  unfold RPC.keepAlive
  split_ifs with hl hc
  · exact .inl (.refl s)
  swap
  · exact .inl (.refl s)
  rcases ht : attemptExtendSession s c with ⟨f | lease, t⟩ <;> rw [ht] at hnote hext
  · exact .inl hnote
  rw [Result.andThen_ok]
  split_ifs with hlease
  · refine .inr ⟨t, ⟨by simpa using hl, by simpa using hc, hlive,
      fun ptr session hr => lease_of_attempt hlive ht hlease hr⟩, hnote, hext, fun hlt => ?_, rfl⟩
    obtain ⟨ptr, session, hr, -⟩ := id hlt
    have hptr : s.sessions[c]? = some ptr := hext.sessions ▸ hr.1
    exact hlive (live_of_trace hs (mem_iff_exists_getElem?.mpr ⟨ptr, hptr⟩) hnote hlt)
  · exact .inl hnote

theorem keepAlive_ownersLive (hs : s.WellFormed) (hI : OwnersLive s) {leader isCancelled : Bool}
    {locks : Claims} {now : ℤ}
    (ho : Orderly cfg s (.keepAlive leader isCancelled c locks now))
    (h : (RPC.keepAlive cfg leader isCancelled s c locks now).survivor = some s') :
    OwnersLive s' := by
  rcases @keepAlive_cases cfg _ c hs leader isCancelled locks now with
    hnote | ⟨t, hrejoin, hnote, hext, hlivet, he⟩
  · rw [← survivor_eq h]
    exact ownersLive_note hs hI hnote
  obtain ⟨hended, hnew⟩ := ho hrejoin
  have hacq : ∀ p m, Acquirable cfg t p m ↔ Acquirable cfg s p m := fun p m =>
    acquirable_congr hext.files (congrFun hext.lockOf p) m
  have hend : ∀ s', (handleJeopardy cfg t c locks now).survivor = some s' → OwnersLive s' := by
    refine fun s' => handleJeopardy_ownersLive (hnote.wellFormed hs) (ownersLive_note hs hI hnote)
      hlivet (fun hend p m hpm => ?_) fun hn => ?_
    · obtain ⟨ptr, session, hr, -⟩ := hend
      have hptr : s.sessions[c]? = some ptr := hext.sessions ▸ hr.1
      rw [hacq]
      exact hended ((hs.live_or_ended (mem_iff_exists_getElem?.mpr ⟨ptr, hptr⟩)).resolve_left
        hrejoin.2.2.1) p m hpm
    · simp only [hacq]
      exact hnew (hext.sessions ▸ hn)
  rw [he] at h
  rcases survivor_andThen h with h | ⟨lease, t', ht', h⟩
  · exact hend s' h
  · obtain rfl := Option.some.inj h
    exact hend _ (by rw [ht']; rfl)

theorem ownersLive_next {e : Event} (hs : s.WellFormed) (hI : OwnersLive s) (ho : Orderly cfg s e)
    (h : next cfg s e = some s') : OwnersLive s' := by
  have htrace := next_trace hs h
  cases e with
  | acquireLock c p m =>
    rw [← survivor_eq h]
    rcases acquireLock_cases cfg c p hs m with hr | ⟨ptr, session, hreg, ha⟩
    · rwa [hr.2]
    have hlive : s.Live c := (hs.live_or_ended
      (mem_iff_exists_getElem?.mpr ⟨ptr, hreg.1⟩)).resolve_right (ho ha)
    refine ownersLive_trace hs hI (acquireLock_trace cfg c p hs m) (by simp) ?_
    rintro d p' m' (hd | hd) <;> cases hd
    exact hlive
  | closeSession c =>
    rcases closeSession_survivor hs h with ⟨-, rfl⟩ | ⟨-, ptr, session, hreg, ht, hend⟩
    · exact hI
    · exact (endSession_ownersLive hs hI hreg (ho ptr session hreg ht) hend).2.1
  | keepAlive leader isCancelled c locks now => exact keepAlive_ownersLive hs hI ho h
  | maintainLoop i now now' =>
    rcases maintainLoop_survivor hs h with
      hnote | ⟨thread, c, session, t, hi, hphase, hreg, hexp, hend, hnote⟩
    · exact ownersLive_note hs hI hnote
    have hrel := ho thread session hi hphase hreg.2 hexp
    rw [hs.clientId_eq hreg] at hrel
    have htw := (survivor_eq hend ▸ @endSession_trace cfg _ _ _ hs hreg.1).wellFormed hs
    exact ownersLive_note htw (endSession_ownersLive hs hI hreg hrel hend).2.1 hnote
  | initSession => exact ownersLive_trace hs hI htrace (by simp [Permits]) (by simp [Permits])
  | openLock => exact ownersLive_trace hs hI htrace (by simp [Permits]) (by simp [Permits])
  | deleteLock => exact ownersLive_trace hs hI htrace (by simp [Permits]) (by simp [Permits])
  | releaseLock => exact ownersLive_trace hs hI htrace (by simp [Permits]) (by simp [Permits])
  | read => exact ownersLive_trace hs hI htrace (by simp [Permits]) (by simp [Permits])
  | write => exact ownersLive_trace hs hI htrace (by simp [Permits]) (by simp [Permits])
  | maintainStart => exact ownersLive_trace hs hI htrace (by simp [Permits]) (by simp [Permits])
  | replicate => exact ownersLive_trace hs hI htrace (by simp [Permits]) (by simp [Permits])

/-- The owners `info::locks` lists have a session that is not over. -/
def LiveOwners (s : State) : Prop :=
  ∀ p lock c, s.lockOf p = some lock → c ∈ lock.owners → s.Live c

theorem OwnersLive.liveOwners (hI : OwnersLive s) : LiveOwners s := by
  intro p lock c hp hc
  obtain ⟨l, -, hl⟩ := Option.bind_eq_some_iff.mp hp
  exact hI l lock c hl hc

theorem liveOwners_run {files : FileTree} {es : List Event}
    (ho : Run.Along (next cfg) (fun s e _ => Orderly cfg s e) (.initial files) es)
    (h : Run.run (next cfg) (.initial files) es = some s) : LiveOwners s := by
  refine (Run.invariant (I := fun t => t.WellFormed ∧ OwnersLive t) ?_
    ⟨.initial files, ownersLive_initial files⟩ ho h).2.liveOwners
  rintro t e t' ⟨ht, hI⟩ ho hn
  exact ⟨wellFormed_next ht hn, ownersLive_next ht hI ho hn⟩

theorem next_initSession {files : FileTree} {now : ℤ}
    (h : next cfg (.initial files) (.initSession true c now) = some s) :
    s = (State.initial files).start c now := by
  replace h : (RPC.initSession true (.initial files) c now).survivor = some s := h
  rw [RPC.initSession, if_pos rfl,
    createSession_start (.initial files) (not_live_initial files)] at h
  exact (Option.some.inj h).symm

theorem live_initSession {files : FileTree} {now : ℤ}
    (h : next cfg (.initial files) (.initSession true c now) = some s) : s.Live c := by
  rw [next_initSession h]
  exact ⟨_, _, registered_start_new (by simp [State.initial]) now, rfl⟩

theorem liveOwners_run_one_holder : ∃ s, Run.run (next sampleConfig)
    (.initial (sampleFiles [ascii ['a']]))
    [.initSession true [1] 0, .acquireLock [1] (ascii ['a']) .exclusive] = some s ∧
    LiveOwners s := by
  obtain ⟨s, hs⟩ := Option.isSome_iff_exists.mp (by decide : (Run.run (next sampleConfig)
    (.initial (sampleFiles [ascii ['a']]))
    [.initSession true [1] 0, .acquireLock [1] (ascii ['a']) .exclusive]).isSome)
  have ho : Run.Along (next sampleConfig) (fun s e _ => Orderly sampleConfig s e)
      (.initial (sampleFiles [ascii ['a']]))
      [.initSession true [1] 0, .acquireLock [1] (ascii ['a']) .exclusive] := fun s₁ h₁ =>
    ⟨trivial, fun _ _ => ⟨fun _ he => he.not_live (live_initSession h₁), trivial⟩⟩
  exact ⟨s, hs, liveOwners_run ho hs⟩

/-- A session that was closed acquires a lock. -/
theorem not_liveOwners_closed : ∃ s, Reachable sampleConfig s ∧ ¬ LiveOwners s := by
  obtain ⟨s, hs, hok⟩ := (Option.any_eq_true _ _).mp (by decide :
    (Run.run (next sampleConfig) (.initial (sampleFiles [ascii ['a']]))
      [.initSession true [1] 0, .closeSession [1],
        .acquireLock [1] (ascii ['a']) .exclusive]).any
      fun s => (s.lockOf (ascii ['a'])).any (fun lock => [1] ∈ lock.owners) ∧
        (s.sessions[([1] : Str)]?.bind fun ptr => s.sessionHeap[ptr]?).any
          fun session => session.terminated = true)
  simp only [decide_eq_true_eq] at hok
  obtain ⟨lock, hlock, hc⟩ := (Option.any_eq_true _ _).mp hok.1
  obtain ⟨session, hsession, ht⟩ := (Option.any_eq_true _ _).mp hok.2
  obtain ⟨ptr, hptr, hsession⟩ := Option.bind_eq_some_iff.mp hsession
  refine ⟨s, ⟨_, _, hs⟩, fun h => ?_⟩
  exact State.Ended.not_live ⟨ptr, session, ⟨hptr, hsession⟩, by simpa using ht⟩
    (h _ lock [1] hlock (by simpa using hc))

end Runs

end LockService
