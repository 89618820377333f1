import LockService.Failover
import LockService.Requests
import Mathlib.Algebra.Group.Int.Defs

/-!
# What a keep_alive answer is worth

A lease comes back from an entry as long as its channel holds a reply, and nothing asks whether the
session is over by then; nor does the loop of claims stop at the end of the session. So an answer
is to be believed from a live session whose lease an `int32_t` holds, or from a server that has no
entry for the client and grants all it claims (`truthful_iff`).
-/

namespace LockService

/-- An OK with a lease tells of a session that is not over and of where its lease ends, and one
that is over gets no such answer. -/
structure Truthful (s : State) (c : Str) (r : Result (Status × ℤ)) : Prop where
  current : ∀ lease s', r = (.ok (.ok, lease), s') → 0 ≤ lease →
    ∃ ptr session, s'.Registered c ptr session ∧ session.terminated = false ∧
      session.startTime + lease * 1000000 = session.startTime + session.leaseLength * 1000000
  ended : s.Ended c → ∀ lease s', r = (.ok (.ok, lease), s') → lease < 0

/-- Either the client has no entry and all its claims can be granted, or it has one with no reply
waiting, or a live one with a lease that fits, or else the lease comes out negative. -/
structure Honest (cfg : Config) (s : State) (c : Str) (locks : Claims) : Prop where
  unknown : c ∉ s.sessions → ∀ p m, (p, m) ∈ locks.entries → Acquirable cfg s p m
  ended : ∀ ptr session, s.Registered c ptr session → session.terminated = true →
    session.blockReply ≠ 0 → toInt32 session.leaseLength < 0
  live : ∀ ptr session, s.Registered c ptr session → session.terminated = false →
    session.blockReply ≠ 0 → toInt32 (session.leaseLength + defaultLeaseExtension) < 0 ∨
      session.leaseLength + defaultLeaseExtension < 2 ^ 31

theorem toInt32_eq_iff {v : ℤ} (h : 0 ≤ v) (h' : 0 ≤ toInt32 v) : toInt32 v = v ↔ v < 2 ^ 31 := by
  unfold toInt32 Int.bmod at h' ⊢
  dsimp only at h' ⊢
  split_ifs at h' ⊢ <;> omega

section Lease

variable {cfg : Config} {s s' : State} {c : Str} {ptr : SessionPtr} {session : Session} {n : ℤ}

/-- The length of the lease in the client's entry. -/
def State.Leases (s : State) (c : Str) (n : ℤ) : Prop :=
  ∃ ptr session, s.Registered c ptr session ∧ session.leaseLength = n

theorem leases_set {session₁ : Session} (h : s.sessionHeap[ptr]? = some session)
    (he : session₁.leaseLength = session.leaseLength) (hl : s.Leases c n) :
    (s.setSession ptr session₁).Leases c n := by
  obtain ⟨ptr', session', ⟨hreg, h'⟩, rfl⟩ := hl
  by_cases hp : ptr' = ptr
  · subst hp
    obtain rfl := Option.some.inj (h.symm.trans h')
    exact ⟨ptr', session₁, ⟨hreg, by rw [State.setSession, getElem?_store h, if_pos rfl]⟩, he⟩
  · exact ⟨ptr', session', ⟨hreg, by rw [State.setSession, getElem?_store h, if_neg hp, h']⟩, rfl⟩

theorem leases_start (now : ℤ) {d : Str} (hl : s.Leases c n) : (s.start d now).Leases c n := by
  obtain ⟨ptr, session, ⟨hreg, h⟩, rfl⟩ := hl
  refine ⟨ptr, session, ⟨?_, getElem?_alloc_of_some h _⟩, rfl⟩
  rw [State.start, getElem?_insertIfNew_eq]
  split_ifs with hd
  · rw [← hd, hreg, Option.getD_some]
  · exact hreg

/-- Claims and the end of a session leave the lease alone. -/
theorem leases_effect {a : Action} {locks : List (Str × LockStatus)} (ha : a.Claims c locks)
    (he : Effect cfg s a s') (hl : s.Leases c n) : s'.Leases c n := by
  cases he with
  | terminate h => exact leases_set h.2 rfl hl
  | enter h => exact leases_set h.2 rfl hl
  | grant h => exact leases_set h.2 rfl hl
  | release h => exact leases_set h.2 rfl hl
  | start d now h => exact leases_start now hl
  | forget h => simp [Action.Claims, Action.Ends] at ha
  | note h => simp [Action.Claims, Action.Ends] at ha
  | phase h => simp [Action.Claims, Action.Ends] at ha
  | replicate files => simp [Action.Claims, Action.Ends] at ha

theorem leases_maintainStart {i : ℕ} (hl : s.Leases c n) : (maintainStart s i).2.Leases c n := by
  unfold maintainStart
  split
  · exact hl
  split_ifs
  · unfold putReply
    split
    · exact hl
    · rename_i session h
      exact leases_set h rfl hl
  · exact hl

theorem attemptExtendSession_ended {lease : ℤ} (he : s.Ended c) (hl : s.Leases c n)
    (h : attemptExtendSession s c = (.ok lease, s')) : lease = n := by
  obtain ⟨ptr, session, hreg, ht⟩ := he
  obtain ⟨ptr', session', hreg', rfl⟩ := hl
  obtain ⟨rfl, rfl⟩ := hreg.unique hreg'
  simp only [attemptExtendSession, hreg.1, hreg.2, ht, if_true] at h
  split_ifs at h with hb
  · simp at h
  · exact ((Except.ok.inj (congrArg Prod.fst h)).symm)

/-- Claiming again with an entry left by a session that is over extends nothing. -/
theorem handleJeopardy_ended {locks : Claims} {now lease : ℤ} (hs : s.WellFormed) (he : s.Ended c)
    (hl : s.Leases c n) (h : handleJeopardy cfg s c locks now = (.ok lease, s')) : lease = n := by
  have hlive := he.not_live
  have hstart : Effect cfg s (.start c) (s.start c now) := .start c now fun ptr session hr => by
    by_contra ht
    exact hlive ⟨ptr, session, hr, by simpa using ht⟩
  have hs₁ := hs.start c now
  have he₁ := ended_effect hs he hstart
  have ht₁ : Trace cfg (Action.Claims c locks.entries) _ _ := claimLocks_trace locks.entries hs₁
  rw [handleJeopardy, createSession_start hs hlive, Result.andThen_ok, if_neg (by simp)] at h
  rcases hr₁ : claimLocks cfg c locks.entries (s.start c now) with ⟨_ | _, t⟩
  · simp [hr₁] at h
  rw [hr₁] at ht₁
  rw [hr₁, Result.andThen_ok] at h
  obtain ⟨hst, hlt⟩ := ht₁.invariant (I := fun t => t.Leases c n)
    (fun _ _ _ _ hI ha he => leases_effect ha he hI) hs₁ (leases_start now hl)
  have ht₂ : Trace cfg (· = .note) _ _ := maintainStart_trace hst s.threads.length
  rcases hr₂ : maintainStart t s.threads.length with ⟨_ | _, t'⟩
  · simp [hr₂] at h
  have hlt' := leases_maintainStart (i := s.threads.length) hlt
  rw [hr₂] at ht₂ hlt'
  rw [hr₂, Result.andThen_ok] at h
  exact attemptExtendSession_ended (ended_trace hst (ended_trace hs₁ he₁ ht₁) ht₂) hlt' h

end Lease

section Refused

variable {cfg : Config} {s s' : State} {c : Str} {ptr : SessionPtr} {session : Session}

/-- The claims come through where the session's paths are in the table, and a claim that cannot be
granted ends the session for good. -/
theorem claimLocks_ended :
    ∀ {locks : List (Str × LockStatus)} {s : State} {session : Session}, s.WellFormed →
      s.Registered c ptr session → (locks.map Prod.fst).Nodup →
      (∀ p ∈ session.locks, p ∈ s.locks) →
      ∃ t, claimLocks cfg c locks s = (.ok (), t) ∧
        ((s.Ended c ∨ ∃ p m, (p, m) ∈ locks ∧ ¬ Acquirable cfg s p m) → t.Ended c)
  | [], s, session, _, _, _, _ => ⟨s, rfl, by simp⟩
  | (p, m) :: locks, s, session, hs, h, hnd, htab => by
    rw [List.map_cons, List.nodup_cons] at hnd
    have hne : ∀ {q m'}, (q, m') ∈ locks → q ≠ p := by
      rintro q m' hmem rfl
      exact hnd.1 (List.mem_map.mpr ⟨(q, m'), hmem, rfl⟩)
    by_cases ha : Acquirable cfg s p m
    · obtain ⟨t, ht, hg⟩ := acquireLock_spec hs h ha
      have htrace := acquireLock_trace cfg c p hs m
      rw [ht] at htrace
      obtain ⟨l, lock, locks₁, hl, -, -, -, hsession, hlocks, -⟩ := hg.held
      have h₁ : t.Registered c ptr { session with locks := locks₁ } :=
        ⟨by rw [hg.sessions, h.1], hsession⟩
      have htab₁ : ∀ q ∈ locks₁, q ∈ t.locks := by
        intro q hq
        by_cases hqp : q = p
        · exact mem_iff_exists_getElem?.mpr ⟨l, hqp ▸ hl⟩
        · rw [mem_iff_exists_getElem?, hlocks, if_neg hqp, ← mem_iff_exists_getElem?] at hq
          rw [mem_iff_exists_getElem?, hg.locks q hqp, ← mem_iff_exists_getElem?]
          exact htab q hq
      obtain ⟨s', he, hend⟩ := claimLocks_ended (htrace.wellFormed hs) h₁ hnd.2 htab₁
      refine ⟨s', by rw [claimLocks, ht, Result.andThen_ok, if_pos rfl, he], ?_⟩
      rintro (hs' | ⟨q, m', hmem, hno⟩)
      · exact hend (.inl (ended_trace hs hs' htrace))
      · rcases List.mem_cons.mp hmem with hq | hmem
        · obtain ⟨rfl, rfl⟩ := Prod.mk.inj hq
          exact absurd ha hno
        · exact hend (.inr ⟨q, m', hmem, fun hq => hno ((hg.acquirable_iff (hne hmem) m').mp hq)⟩)
    · obtain ⟨status, hstatus, hr⟩ := acquireLock_declined hs (.inr ha)
      have hreached : ∀ q ∈ reached cfg s session c, q ∈ session.locks := fun q hq =>
        (mem_reached.mp hq).1
      rcases endSession_released cfg hs h with ⟨⟨q, hq, hno⟩, -⟩ | ⟨-, t, he, hrel⟩
      · exact absurd (htab q (hreached q hq)) hno
      have htrace := @endSession_trace cfg s c ptr hs h.1
      have hended := @endSession_ended cfg s c ptr hs h.1
      rw [he] at htrace hended
      obtain ⟨locks₁, hsession, hlocks⟩ := hrel.session
      have h₁ : t.Registered c ptr { session with terminated := true, locks := locks₁ } :=
        ⟨trace_registered htrace h.1, hsession⟩
      have htab₁ : ∀ q ∈ locks₁, q ∈ t.locks := by
        intro q hq
        rw [mem_iff_exists_getElem?, hlocks] at hq
        rw [mem_iff_exists_getElem?, hrel.locks]
        split_ifs at hq ⊢ with hmem
        · simp at hq
        · exact mem_iff_exists_getElem?.mp (htab q (mem_iff_exists_getElem?.mpr hq))
      obtain ⟨s', he', hend⟩ := claimLocks_ended (htrace.wellFormed hs) h₁ hnd.2 htab₁
      refine ⟨s', ?_, fun _ => hend (.inl hended)⟩
      rw [claimLocks, hr, Result.andThen_ok, if_neg hstatus]
      simp only [h.1, he, Result.andThen_ok, he']

end Refused

section Answer

variable {cfg : Config} {s s' : State} {c : Str} {ptr : SessionPtr} {session : Session}

theorem truthful_of_neg {r : Result (Status × ℤ)}
    (h : ∀ lease s', r = (.ok (.ok, lease), s') → lease < 0) : Truthful s c r :=
  ⟨fun lease s' hr hpos => absurd (h lease s' hr) (not_lt.mpr hpos), fun _ => h⟩

theorem claimLocks_tables (hs : s.WellFormed) (locks : List (Str × LockStatus)) :
    (claimLocks cfg c locks s).2.sessions = s.sessions ∧
      (claimLocks cfg c locks s).2.threads = s.threads := by
  refine ((claimLocks_trace locks hs).invariant
    (I := fun t => t.sessions = s.sessions ∧ t.threads = s.threads) ?_ hs ⟨rfl, rfl⟩).2
  rintro t a t' - ht ha he
  cases he with
  | start c now h => simp [Action.Claims, Action.Ends] at ha
  | phase h phase => simp [Action.Claims, Action.Ends] at ha
  | _ => exact ht

theorem truthful_new (hs : s.WellFormed) (hn : s.sessions[c]? = none) (locks : Claims) (now : ℤ) :
    Truthful s c (RPC.keepAlive cfg true false s c locks now) ↔
      ∀ p m, (p, m) ∈ locks.entries → Acquirable cfg s p m := by
  have hlive : ¬ s.Live c := by
    rintro ⟨ptr, session, h, -⟩
    simp [h.1] at hn
  have hreg := registered_start_new hn now
  rw [keepAlive_new hn]
  constructor
  · intro htrue
    by_contra hno
    push Not at hno
    obtain ⟨t, hclaim, hend⟩ := @claimLocks_ended cfg _ _ _ _ _ (hs.start c now) hreg locks.nodup
      (by simp)
    obtain ⟨hst, ht⟩ := @claimLocks_tables cfg _ c (hs.start c now) locks.entries
    have hlease := ((@claimLocks_trace cfg c locks.entries _ (hs.start c now)).invariant
      (I := fun t => t.Leases c defaultLeaseExtension)
      (fun _ _ _ _ hI ha he => leases_effect ha he hI) (hs.start c now) ⟨_, _, hreg, rfl⟩).2
    rw [hclaim] at hst ht hlease
    obtain ⟨ptr, session, h, hterm⟩ := hend (.inr (by simpa only [acquirable_start] using hno))
    obtain ⟨ptr', session', h', hlen⟩ := hlease
    obtain ⟨rfl, rfl⟩ := h.unique h'
    have he := handleJeopardy_eq hs hlive hclaim h hst ht
    rw [he, extended, hterm, if_pos rfl, hlen] at htrue
    obtain ⟨ptr₁, session₁, h₁, hnot, -⟩ := htrue.current _ _ rfl (by decide)
    obtain ⟨rfl, rfl⟩ := (registered_setSession_setPhase h).unique h₁
    simp at hnot
  · intro ha
    obtain ⟨t, locks', -, h, -, he⟩ := handleJeopardy_granted hs hlive hreg ha
    rw [he, Result.andThen_ok]
    refine ⟨fun lease s' hr _ => ?_, fun hend => ?_⟩
    · obtain ⟨hok, rfl⟩ := Prod.mk.inj hr
      obtain rfl : _ = lease := (Prod.mk.inj (Except.ok.inj hok)).2
      exact ⟨_, _, registered_setSession_setPhase h, rfl, rfl⟩
    · obtain ⟨ptr, session, h, -⟩ := hend
      simp [h.1] at hn

theorem keepAlive_blocked (h : s.Registered c ptr session) (hb : session.blockReply = 0)
    (locks : Claims) (now : ℤ) :
    RPC.keepAlive cfg true false s c locks now = (.error .blocked, s) := by
  simp [RPC.keepAlive, attemptExtendSession, h.1, h.2, hb]

variable (cfg) in
/-- A reply waiting, the answer is the lease, unless that comes out negative. -/
theorem keepAlive_reply (h : s.Registered c ptr session) (hb : session.blockReply ≠ 0)
    (locks : Claims) (now : ℤ) :
    ∃ t, t = s.setSession ptr { session with
        leaseLength := extended session, blockReply := session.blockReply - 1 } ∧
      t.Registered c ptr { session with
        leaseLength := extended session, blockReply := session.blockReply - 1 } ∧
      RPC.keepAlive cfg true false s c locks now =
        if toInt32 (extended session) < 0 then
          (handleJeopardy cfg t c locks now).andThen fun lease s => (.ok (.ok, toInt32 lease), s)
        else (.ok (.ok, toInt32 (extended session)), t) := by
  refine ⟨_, rfl, registered_setSession h _, ?_⟩
  simp only [RPC.keepAlive, attemptExtendSession, h.1, h.2, hb, extended, not_true, if_false,
    Bool.false_eq_true, Result.andThen_ok]
  rfl

theorem truthful_ended (hs : s.WellFormed) (h : s.Registered c ptr session)
    (ht : session.terminated = true) (locks : Claims) (now : ℤ) :
    Truthful s c (RPC.keepAlive cfg true false s c locks now) ↔
      (session.blockReply ≠ 0 → toInt32 session.leaseLength < 0) := by
  by_cases hb : session.blockReply = 0
  · rw [keepAlive_blocked h hb]
    exact iff_of_true (truthful_of_neg fun lease s' hr => by simp at hr) fun hne => absurd hb hne
  obtain ⟨t, rfl, hreg, he⟩ := keepAlive_reply cfg h hb locks now
  have hext : extended session = session.leaseLength := if_pos ht
  simp only [he, hext, ne_eq, hb, not_false_eq_true, true_imp_iff] at hreg ⊢
  split_ifs with hneg
  · refine iff_of_true (truthful_of_neg fun lease s' hr => ?_) hneg
    have hst : (s.setSession ptr { session with
        leaseLength := session.leaseLength, blockReply := session.blockReply - 1 }).WellFormed :=
      hs.setSession h.2 rfl fun hl => hs.sessionLocks h.2 hl
    rcases hj : handleJeopardy cfg _ c locks now with ⟨f | lease', t'⟩
    · rw [hj] at hr
      simp at hr
    · obtain rfl := handleJeopardy_ended hst ⟨_, _, hreg, ht⟩ ⟨_, _, hreg, rfl⟩ hj
      rw [hj, Result.andThen_ok] at hr
      obtain rfl : _ = lease := (Prod.mk.inj (Except.ok.inj (Prod.mk.inj hr).1)).2
      exact hneg
  · refine iff_of_false (fun htrue => hneg ?_) hneg
    exact htrue.ended ⟨ptr, session, h, ht⟩ _ _ rfl

theorem truthful_live (hl : s.Leased) (h : s.Registered c ptr session)
    (ht : session.terminated = false) (locks : Claims) (now : ℤ) :
    Truthful s c (RPC.keepAlive cfg true false s c locks now) ↔
      (session.blockReply ≠ 0 → toInt32 (session.leaseLength + defaultLeaseExtension) < 0 ∨
        session.leaseLength + defaultLeaseExtension < 2 ^ 31) := by
  by_cases hb : session.blockReply = 0
  · rw [keepAlive_blocked h hb]
    exact iff_of_true (truthful_of_neg fun lease s' hr => by simp at hr) fun hne => absurd hb hne
  obtain ⟨t, rfl, hreg, he⟩ := keepAlive_reply cfg h hb locks now
  have hext : extended session = session.leaseLength + defaultLeaseExtension :=
    if_neg (by simp [ht])
  simp only [he, hext, ne_eq, hb, not_false_eq_true, true_imp_iff] at hreg ⊢
  split_ifs with hneg
  · refine iff_of_true (truthful_of_neg fun lease s' hr => ?_) (.inl hneg)
    rw [handleJeopardy, createSession_live ⟨_, _, hreg, ht⟩, refuse, Result.andThen_ok,
      if_pos (by simp), Result.andThen_ok] at hr
    obtain rfl : _ = lease := (Prod.mk.inj (Except.ok.inj (Prod.mk.inj hr).1)).2
    decide
  have hlen := hl ptr session h.2
  have hpos : 0 ≤ session.leaseLength + defaultLeaseExtension := by
    simp only [defaultLeaseExtension] at hlen ⊢
    omega
  rw [or_iff_right hneg, ← toInt32_eq_iff hpos (not_lt.mp hneg)]
  constructor
  · intro htrue
    obtain ⟨ptr', session', h', -, hend⟩ := htrue.current _ _ rfl (not_lt.mp hneg)
    obtain ⟨rfl, rfl⟩ := hreg.unique h'
    simp only at hend
    omega
  · intro hfit
    refine ⟨fun lease s' hr _ => ?_, fun hend => absurd ⟨ptr, session, h, ht⟩ hend.not_live⟩
    obtain ⟨hok, rfl⟩ := Prod.mk.inj hr
    obtain rfl : _ = lease := (Prod.mk.inj (Except.ok.inj hok)).2
    exact ⟨_, _, hreg, ht, by rw [hfit]⟩

/-- A `keep_alive` is answered truthfully just where the server knows the client, or can grant all
it claims. -/
theorem truthful_iff (hr : Reachable cfg s) (leader isCancelled : Bool) (locks : Claims) (now : ℤ) :
    Truthful s c (RPC.keepAlive cfg leader isCancelled s c locks now) ↔
      (leader = true → isCancelled = false → Honest cfg s c locks) := by
  have hs := hr.wellFormed
  rcases leader with _ | _
  · exact iff_of_true (truthful_of_neg fun lease s' h => by simp [RPC.keepAlive] at h) (by simp)
  rcases isCancelled with _ | _
  swap
  · refine iff_of_true (truthful_of_neg fun lease s' h => ?_) (by simp)
    simp [RPC.keepAlive, Status.ok] at h
  simp only [true_imp_iff]
  rcases hs.registered_or_none c with hn | ⟨ptr, session, h⟩
  · have hreg : ∀ ptr session, ¬ s.Registered c ptr session := fun ptr session h => by
      simp [h.1] at hn
    rw [truthful_new hs hn]
    exact ⟨fun ha => ⟨fun _ => ha, fun ptr session h => absurd h (hreg ptr session),
      fun ptr session h => absurd h (hreg ptr session)⟩, fun hh => hh.unknown
        (notMem_sessions_of_none hn)⟩
  have hc : c ∉ s.sessions → ∀ p m, (p, m) ∈ locks.entries → Acquirable cfg s p m :=
    fun hno => absurd (mem_sessions_of_registered h) hno
  rcases ht : session.terminated with _ | _
  · rw [truthful_live hr.leased h ht]
    refine ⟨fun hlive => ⟨hc, fun ptr' session' h' ht' => ?_, fun ptr' session' h' _ => ?_⟩,
      fun hh => hh.live ptr session h ht⟩
    · simp [← (h.unique h').2, ht] at ht'
    · exact (h.unique h').2 ▸ hlive
  · rw [truthful_ended hs h ht]
    refine ⟨fun hended => ⟨hc, fun ptr' session' h' _ => ?_, fun ptr' session' h' ht' => ?_⟩,
      fun hh => hh.ended ptr session h ht⟩
    · exact (h.unique h').2 ▸ hended
    · simp [← (h.unique h').2, ht] at ht'

theorem truthful_iff_two_claims : Truthful sampleTwoFiles [1]
    (RPC.keepAlive sampleConfig true false sampleTwoFiles [1] sampleClaims 0) := by
  refine (truthful_iff (reachable_initial _) true false _ 0).mpr fun _ _ =>
    ⟨fun _ => acquirable_sampleClaims, fun ptr session h => ?_, fun ptr session h => ?_⟩
  · simp [State.Registered, State.initial] at h
  · simp [State.Registered, State.initial] at h

/-- A closed session still has the first reply of its thread, and hands it out. -/
theorem not_truthful_closed : ∃ s, Reachable sampleConfig s ∧
    ¬ Truthful s [1] (RPC.keepAlive sampleConfig true false s [1] ⟨[], List.nodup_nil⟩ 0) := by
  obtain ⟨s, hs, hf⟩ := (Option.any_eq_true _ _).mp (by decide :
    (Run.run (next sampleConfig) (.initial .empty)
      [.initSession true [1] 0, .maintainStart 0, .closeSession [1]]).any
      fun s => ((s.sessions[([1] : Str)]?.bind fun ptr => s.sessionHeap[ptr]?).any (·.terminated)) ∧
        (RPC.keepAlive sampleConfig true false s [1] ⟨[], List.nodup_nil⟩ 0).1 = .ok (.ok, 15000))
  simp only [decide_eq_true_eq] at hf
  obtain ⟨session, hsession, ht⟩ := (Option.any_eq_true _ _).mp hf.1
  obtain ⟨ptr, hptr, hsession⟩ := Option.bind_eq_some_iff.mp hsession
  refine ⟨s, ⟨_, _, hs⟩, fun htrue => ?_⟩
  have := htrue.ended ⟨ptr, session, ⟨hptr, hsession⟩, ht⟩ 15000 _ (Prod.ext hf.2 rfl)
  omega

end Answer

end LockService
