import LockService.ClientLocks
import LockService.Ledger

/-!
# The client's lease and the server's

The client counts its lease from before it asks for a session and the server from when it grants
one, for longer, so a session that is new on both sides ends at the client first; the lease a
`keep_alive` carries is the server's, and counts from the same starts (`leasing_next`). A session
that the server has over from before is not new there, and has another start.
-/

namespace LockService

/-- When the lease of a session ends, in nanoseconds. -/
def Session.leaseEnd (session : Session) : ℤ := session.startTime + session.leaseLength * 1000000

/-- A session object is of a session that is over, with a lease to a time. -/
def State.EndedAt (s : State) (ptr : SessionPtr) (t : ℤ) : Prop :=
  ∃ session, s.sessionHeap[ptr]? = some session ∧ session.terminated = true ∧ session.leaseEnd = t

section Ended

variable {cfg : Config} {s s' : State} {c : Str} {ptr : SessionPtr} {t : ℤ}

theorem endedAt_set {ptr₀ : SessionPtr} {session₀ session₁ : Session}
    (h₀ : s.sessionHeap[ptr₀]? = some session₀)
    (h : session₀.terminated = true → session₁.terminated = true ∧
      session₁.leaseEnd = session₀.leaseEnd) (he : s.EndedAt ptr t) :
    (s.setSession ptr₀ session₁).EndedAt ptr t := by
  obtain ⟨session, hsession, hterm, rfl⟩ := he
  rw [State.EndedAt, State.setSession]
  by_cases hp : ptr = ptr₀
  · subst hp
    obtain rfl := Option.some.inj (h₀.symm.trans hsession)
    exact ⟨session₁, by rw [getElem?_store h₀, if_pos rfl], h hterm⟩
  · exact ⟨session, by rw [getElem?_store h₀, if_neg hp, hsession], hterm, rfl⟩

theorem endedAt_effect {a : Action} (ha : a ≠ .note) (he : Effect cfg s a s')
    (h : s.EndedAt ptr t) : s'.EndedAt ptr t := by
  cases he with
  | start d now hd =>
    obtain ⟨session, hsession, hterm⟩ := h
    exact ⟨session, getElem?_alloc_of_some hsession _, hterm⟩
  | terminate hr => exact endedAt_set hr.2 (fun _ => ⟨rfl, rfl⟩) h
  | enter hr => exact endedAt_set hr.2 (fun ht => ⟨ht, rfl⟩) h
  | grant hr => exact endedAt_set hr.2 (fun ht => ⟨ht, rfl⟩) h
  | release hr => exact endedAt_set hr.2 (fun ht => ⟨ht, rfl⟩) h
  | forget hr => exact endedAt_set hr.2 (fun ht => ⟨ht, rfl⟩) h
  | note => exact absurd rfl ha
  | phase => exact absurd rfl ha
  | replicate => exact h

theorem andThen_invariant {α β : Type} {I : State → Prop} {r : Result α}
    {k : α → State → Result β} (hr : I r.2) (hk : ∀ a t, I t → I (k a t).2) :
    I (r.andThen k).2 := by
  rcases r with ⟨f | a, t⟩
  · exact hr
  · exact hk a t hr

theorem endedAt_putReply {q : SessionPtr} (h : s.EndedAt ptr t) :
    (putReply s q).2.EndedAt ptr t := by
  unfold putReply
  split
  · exact h
  · rename_i session hsession
    exact endedAt_set hsession (fun ht => ⟨ht, rfl⟩) h

/-- A reply to a session that is over extends nothing. -/
theorem endedAt_move {e : Event} (h : Move cfg e s s') (he : s.EndedAt ptr t) :
    s'.EndedAt ptr t := by
  cases h with
  | effect hnote _ h => exact endedAt_effect hnote h he
  | start =>
    obtain ⟨session, hsession, hterm⟩ := he
    exact ⟨session, getElem?_alloc_of_some hsession _, hterm⟩
  | launch _ _ h => exact endedAt_set h (fun ht => ⟨ht, rfl⟩) he
  | reply _ _ _ h => exact endedAt_set h (fun ht => ⟨ht, rfl⟩) he
  | last _ h => exact endedAt_set h (fun ht => ⟨ht, rfl⟩) he
  | extend _ h =>
    refine endedAt_set h.2 (fun ht => ⟨ht, ?_⟩) he
    simp [Session.leaseEnd, Session.extend, extended, ht]

theorem endedAt_next {e : Event} (hs : s.WellFormed) (h : next cfg s e = some s')
    (he : s.EndedAt ptr t) : s'.EndedAt ptr t :=
  (next_invariant (fun _ _ _ hI h => endedAt_move h hI) hs he h).2

end Ended

section Entry

variable {cfg : Config} {s s' : State} {c : Str} {ptr : SessionPtr} {session session' : Session}
  {Q : Action → Prop}

/-- The client's entry stays the same session. -/
theorem registered_trace (hs : s.WellFormed) (h : Trace cfg Q s s')
    (hr : s.Registered c ptr session) :
    ∃ session', s'.Registered c ptr session' ∧ session.Evolves session' := by
  refine (h.invariant (I := fun t => ∃ session', t.Registered c ptr session' ∧
    session.Evolves session') ?_ hs ⟨session, hr, .refl session⟩).2
  rintro t a t' ht ⟨session₁, h₁, hev⟩ - he
  have hptr := effect_registered he h₁.1
  obtain ⟨session₂, h₂, -⟩ := (ht.effect he).registered hptr
  refine ⟨session₂, ⟨hptr, h₂⟩, ?_⟩
  rcases effect_sessions he h₂ with ⟨session₀, h₀, hev'⟩ | ⟨d, now, -, rfl, -⟩
  · obtain rfl := Option.some.inj (h₁.2.symm.trans h₀)
    exact ⟨hev'.clientId.trans hev.clientId, hev'.startTime.trans hev.startTime,
      hev.leaseLength.trans hev'.leaseLength, fun h => hev'.terminated (hev.terminated h)⟩
  · have := h₁.2
    simp at this

theorem Session.Evolves.leaseEnd_le (h : session.Evolves session') :
    session.leaseEnd ≤ session'.leaseEnd := by
  have hstart := h.startTime
  have hlease := h.leaseLength
  unfold Session.leaseEnd
  omega

/-- The end of a session leaves the end of its lease where it is. -/
theorem endedAt_of_endSession (hs : s.WellFormed) (h : s.Registered c ptr session) :
    (endSession cfg s ptr).2.EndedAt ptr session.leaseEnd := by
  have htrace := @endSession_trace cfg s c ptr hs h.1
  obtain ⟨session', h', hev⟩ := registered_trace hs htrace h
  obtain ⟨ptr₁, session₁, h₁, ht⟩ := @endSession_ended cfg s c ptr hs h.1
  obtain ⟨rfl, rfl⟩ := h'.unique h₁
  obtain ⟨-, ptr₂, session₂, h₂, hlease⟩ := htrace.invariant
    (I := fun t => t.Leases c session.leaseLength)
    (fun _ _ _ _ hI ha he => @leases_effect _ _ _ _ _ _ [] (.inr ha) he hI) hs
    ⟨ptr, session, h, rfl⟩
  obtain ⟨rfl, rfl⟩ := h'.unique h₂
  refine ⟨_, h'.2, ht, ?_⟩
  rw [Session.leaseEnd, Session.leaseEnd, hev.startTime, hlease]

/-- A session that a step ends was ended by its client or by a thread, when its lease was over. -/
theorem leaseEnd_le_of_maintainLoop (hs : s.WellFormed) (hr : s.Registered c ptr session)
    (hlive : session.terminated = false) {i : ℕ} {now now' clock : ℤ} (hnow : now ≤ clock)
    (hnow' : now' ≤ clock) (h : next cfg s (.maintainLoop i now now') = some s')
    (hr' : s'.Registered c ptr session') (ht : session'.terminated = true) :
    session'.leaseEnd ≤ clock := by
  have hnot : ¬ s'.Live c := (show s'.Ended c from ⟨ptr, session', hr', ht⟩).not_live
  have hl : s.Live c := ⟨ptr, session, hr, hlive⟩
  by_cases hp : Permits s s' (.terminate c) (.maintainLoop i now now')
  swap
  · exact absurd (live_trace hs hl (next_trace hs h) hp) hnot
  obtain ⟨thread, d, hi, hd, hends⟩ : ∃ thread d, s.threads[i]? = some thread ∧
      s.sessions[d]? = some thread.session ∧ Action.Ends d (.terminate c) := by
    simpa [Permits] using hp
  obtain rfl : c = d := by simpa [Action.Ends] using hends
  obtain rfl : ptr = thread.session := Option.some.inj (hr.1.symm.trans hd)
  by_cases hzero : timeUntilExpire session now now' = 0
  swap
  · have hnote : Trace cfg (· = .note) s (maintainLoop cfg s i now now').2 := by
      refine maintainLoop_running fun thread' session₁ hi' h₁ => ?_
      obtain rfl := Option.some.inj (hi.symm.trans hi')
      rwa [← Option.some.inj (hr.2.symm.trans h₁)]
    exact absurd (live_trace hs hl (survivor_eq h ▸ hnote) (by simp)) hnot
  have hend : session.leaseEnd ≤ clock := by
    simp only [timeUntilExpire] at hzero
    unfold Session.leaseEnd
    split_ifs at hzero <;> omega
  have he : s' = s ∨ s'.EndedAt thread.session session.leaseEnd := by
    rw [← survivor_eq h, maintainLoop]
    simp only [hi, hr.2, hzero, if_true]
    split_ifs
    · right
      refine andThen_invariant (I := fun u => u.EndedAt thread.session session.leaseEnd)
        (endedAt_of_endSession hs hr) fun _ u hu => ?_
      exact andThen_invariant (I := fun u => u.EndedAt thread.session session.leaseEnd)
        (endedAt_putReply hu) fun _ _ hu => hu
    · exact .inl rfl
  rcases he with rfl | ⟨session₁, h₁, -, hlease⟩
  · exact absurd hl hnot
  · rw [Option.some.inj (hr'.2.symm.trans h₁), hlease]
    exact hend

theorem toInt32_le {v : ℤ} (h : 0 ≤ v) : toInt32 v ≤ v := by
  unfold toInt32 Int.bmod
  dsimp only
  split_ifs <;> omega

theorem leaseLength_le_extended : session.leaseLength ≤ extended session := by
  unfold extended
  split_ifs
  · exact Int.le_refl _
  · unfold defaultLeaseExtension
    omega

theorem handleJeopardy_lease_le (hs : s.WellFormed) (hl : s.Leased) {locks : Claims}
    (hn : locks.entries = []) {now lease : ℤ}
    (h : handleJeopardy cfg s c locks now = (.ok lease, s')) :
    ∃ ptr session, s'.Registered c ptr session ∧ toInt32 lease ≤ session.leaseLength := by
  by_cases hlive : s.Live c
  · rw [handleJeopardy, createSession_live hlive] at h
    obtain ⟨hlease, rfl⟩ := Prod.mk.inj h
    obtain rfl : -1 = lease := Except.ok.inj hlease
    obtain ⟨ptr, session, hreg, -⟩ := hlive
    have hle := hl ptr session hreg.2
    simp only [defaultLeaseExtension] at hle
    exact ⟨ptr, session, hreg, by rw [show toInt32 (-1) = -1 by decide]; omega⟩
  have hno : ∀ p m, (p, m) ∈ locks.entries → Acquirable cfg s p m := by simp [hn]
  have hgranted : ∀ {ptr session}, (s.start c now).Registered c ptr session →
      (0 : ℤ) ≤ session.leaseLength →
      ∃ ptr session, s'.Registered c ptr session ∧ toInt32 lease ≤ session.leaseLength := by
    intro ptr session hreg hpos
    obtain ⟨t, locks', -, ht, -, he⟩ := handleJeopardy_granted hs hlive hreg hno
    obtain ⟨hlease, rfl⟩ := Prod.mk.inj (he.symm.trans h)
    obtain rfl : extended session = lease := Except.ok.inj hlease
    exact ⟨_, _, registered_setSession_setPhase ht,
      toInt32_le (hpos.trans leaseLength_le_extended)⟩
  rcases hs.registered_or_none c with hnone | ⟨ptr, session, hreg⟩
  · exact hgranted (registered_start_new hnone now) (by simp)
  · have hle := hl ptr session hreg.2
    exact hgranted (registered_start_old hreg now) (by omega)

/-- The lease of an answer is no longer than that of the entry. -/
theorem keepAlive_lease_le (hs : s.WellFormed) (hl : s.Leased) {locks : Claims}
    (hn : locks.entries = []) {now lease : ℤ}
    (h : RPC.keepAlive cfg true false s c locks now = (.ok (.ok, lease), s')) :
    ∃ ptr session, s'.Registered c ptr session ∧ lease ≤ session.leaseLength := by
  have hjeopardy : ∀ {t : State}, t.WellFormed → t.Leased →
      (handleJeopardy cfg t c locks now).andThen
        (fun lease s => ((.ok (.ok, toInt32 lease), s) : Result (Status × ℤ))) =
          (.ok (.ok, lease), s') →
      ∃ ptr session, s'.Registered c ptr session ∧ lease ≤ session.leaseLength := by
    intro t ht htl h
    rcases hj : handleJeopardy cfg t c locks now with ⟨f | lease', u⟩
    · simp [hj] at h
    rw [hj, Result.andThen_ok] at h
    obtain ⟨hlease, rfl⟩ := Prod.mk.inj h
    obtain rfl : toInt32 lease' = lease := (Prod.mk.inj (Except.ok.inj hlease)).2
    exact handleJeopardy_lease_le ht htl hn hj
  rcases hs.registered_or_none c with hnone | ⟨ptr, session, hreg⟩
  · rw [keepAlive_new hnone] at h
    exact hjeopardy hs hl h
  by_cases hb : session.blockReply = 0
  · simp [keepAlive_blocked hreg hb] at h
  obtain ⟨t, rfl, ht, he⟩ := keepAlive_reply cfg hreg hb locks now
  have hle := hl ptr session hreg.2
  rw [he] at h
  split_ifs at h
  · refine hjeopardy ?_ ?_ h
    · exact hs.setSession hreg.2 rfl fun hl => hs.sessionLocks hreg.2 hl
    intro q session₁ hq
    rw [State.setSession, getElem?_store hreg.2] at hq
    split_ifs at hq
    · obtain rfl := Option.some.inj hq
      exact hle.trans leaseLength_le_extended
    · exact hl q session₁ hq
  · obtain ⟨hlease, rfl⟩ := Prod.mk.inj h
    obtain rfl : toInt32 (extended session) = lease := (Prod.mk.inj (Except.ok.inj hlease)).2
    refine ⟨ptr, _, ht, toInt32_le ?_⟩
    have : session.leaseLength ≤ extended session := leaseLength_le_extended
    omega

end Entry

namespace Service

variable {ι : Type*} [DecidableEq ι]

/-- A step, and whether the client then has a session open, which it was granted and has not
closed. -/
def nextOpen (D : Deployment ι) (p : Service ι × Bool) (e : Event ι) : Option (Service ι × Bool) :=
  (p.1.next D e).map fun w => (w, match e with
    | .startSession => false
    | .initSession => w.client.master.isSome
    | .closeSession => p.2 && ! p.1.closes D
    | _ => p.2)

/-- The lease of a client with a session open ends no later than that of its entry, and the entry
is not of a session that was over before. -/
def LeaseWithin (D : Deployment ι) (i : ι) (p : Service ι × Bool) : Prop :=
  p.2 = true → p.1.client.expired = false → ∃ s ptr session, p.1.cluster.servers i = some s ∧
    s.Registered D.address ptr session ∧ p.1.client.deadline ≤ session.leaseEnd ∧
    (session.terminated = true → session.leaseEnd ≤ p.1.clock)

/-- The node goes on and alone leads, nobody else has the client's address, the client is answered
in time, and the threads of the node read no clock that is ahead. -/
def OneClock (D : Deployment ι) (i : ι) (w : Service ι) (e : Event ι) (w' : Service ι) : Prop :=
  Calm i e w' ∧ match e with
  | .cluster (.deliver j (.maintainLoop _ now now')) => j = i → now ≤ w.clock ∧ now' ≤ w.clock
  | .cluster (.deliver j e) => j = i → ∀ s, w.cluster.servers i = some s → e.Foreign s D.address
  | _ => True

/-- A session is asked for where the client has no entry of one that is over. -/
def AsksAnew (D : Deployment ι) (i : ι) (w : Service ι) : Event ι → Prop
  | .initSession => ∀ s ptr session, w.cluster.servers i = some s →
    s.Registered D.address ptr session → session.terminated = false
  | _ => True

/-- The client's entry at a server covers its lease. -/
def Covers (D : Deployment ι) (client : Client ι) (clock : ℤ) (s : State) : Prop :=
  ∃ ptr session, s.Registered D.address ptr session ∧ client.leaseStart ≤ session.startTime ∧
    client.deadline ≤ session.leaseEnd ∧ (session.terminated = true → session.leaseEnd ≤ clock)

/-- What the step relation keeps on a common clock. -/
structure Leasing (D : Deployment ι) (i : ι) (p : Service ι × Bool) : Prop where
  led : Led D i p.1
  asking : p.1.asking.isSome → p.2 = false ∧ p.1.client.leaseLength = defaultLeaseDuration ∧
    p.1.client.leaseStart ≤ p.1.clock
  server : ∃ s, p.1.cluster.servers i = some s ∧ s.Leased ∧
    (p.2 = true → Covers D p.1.client p.1.clock s)

section Step

variable {D : Deployment ι} {w w' : Service ι} {i : ι} {s s' : State} {client : Client ι}
  {clock : ℤ}

omit [DecidableEq ι] in
theorem Covers.mono (h : Covers D client clock s) {clock' : ℤ} (hle : clock ≤ clock') :
    Covers D client clock' s := by
  obtain ⟨ptr, session, hreg, hstart, hend, hterm⟩ := h
  exact ⟨ptr, session, hreg, hstart, hend, fun ht => (hterm ht).trans hle⟩

omit [DecidableEq ι] in
/-- Whatever a server does, its lease for the client ends no sooner, and it ends no session of the
client's before. -/
theorem Covers.next {cfg : Config} {e : LockService.Event} (hs : s.WellFormed)
    (h : Covers D client clock s) (hn : LockService.next cfg s e = some s')
    (hover : ∀ ptr session session', s.Registered D.address ptr session →
      session.terminated = false → s'.Registered D.address ptr session' →
      session'.terminated = true → session'.leaseEnd ≤ clock) : Covers D client clock s' := by
  obtain ⟨ptr, session, hreg, hstart, hend, hterm⟩ := h
  obtain ⟨session', hreg', hev⟩ := registered_trace hs (next_trace hs hn) hreg
  refine ⟨ptr, session', hreg', hev.startTime ▸ hstart, hend.trans hev.leaseEnd_le, fun ht' => ?_⟩
  rcases ht : session.terminated with _ | _
  · exact hover ptr session session' hreg ht hreg' ht'
  · obtain ⟨session₁, h₁, -, hlease⟩ := endedAt_next hs hn ⟨session, hreg.2, ht, rfl⟩
    rw [Option.some.inj (hreg'.2.symm.trans h₁), hlease]
    exact hterm ht

omit [DecidableEq ι] in
/-- A request that cannot end the client's session does not. -/
theorem Covers.quiet {cfg : Config} {e : LockService.Event} (hs : s.WellFormed)
    (h : Covers D client clock s) (hn : LockService.next cfg s e = some s')
    (hno : ¬ Permits s s' (.terminate D.address) e) : Covers D client clock s' := by
  refine h.next hs hn fun ptr session session' hreg ht hreg' ht' => ?_
  have hlive : s'.Live D.address := live_trace hs ⟨ptr, session, hreg, ht⟩ (next_trace hs hn) hno
  exact absurd hlive (show s'.Ended D.address from ⟨ptr, session', hreg', ht'⟩).not_live

theorem leased_next {cfg : Config} {e : LockService.Event} (hs : s.WellFormed) (hl : s.Leased)
    (h : LockService.next cfg s e = some s') : s'.Leased :=
  ((next_trace hs h).invariant (fun _ _ _ _ hI _ he => leased_effect hI he) hs hl).2

omit [DecidableEq ι] in
/-- A new session covers the lease of a client that asked for it. -/
theorem covers_granted (hs : s.WellFormed)
    (hnew : ∀ ptr session, s.Registered D.address ptr session → session.terminated = false)
    (hok : (createSession s D.address clock).1 = .ok .ok)
    (hlease : client.leaseLength = defaultLeaseDuration) (hstart : client.leaseStart ≤ clock) :
    Covers D client clock (createSession s D.address clock).2 := by
  rcases hs.registered_or_none D.address with hnone | ⟨ptr, session, hreg⟩
  swap
  · have hlive : s.Live D.address := ⟨ptr, session, hreg, hnew ptr session hreg⟩
    simp [createSession_live hlive, refuse] at hok
  have hlive : ¬ s.Live D.address := by
    rintro ⟨ptr, session, h, -⟩
    simp [h.1] at hnone
  rw [createSession_start hs hlive]
  refine ⟨_, _, registered_start_new hnone clock, hstart, ?_, by simp⟩
  unfold Client.deadline Session.leaseEnd
  simp only [hlease, defaultLeaseDuration, defaultLeaseExtension]
  omega

omit [DecidableEq ι] in
/-- The lease a `keep_alive` carries is covered by the entry it comes from. -/
theorem covers_extended {cfg : Config} (hs : s.WellFormed) (hl : s.Leased)
    (h : Covers D client clock s) {now lease : ℤ}
    (hr : RPC.keepAlive cfg true false s D.address noClaims now = (.ok (.ok, lease), s')) :
    Covers D { client with leaseLength := lease } clock s' := by
  have hn : LockService.next cfg s (.keepAlive true false D.address noClaims now) = some s' := by
    rw [LockService.next, hr, Result.survivor]
  have htrace := @keepAlive_noClaims_trace cfg s D.address hs true false noClaims rfl now
  rw [hr] at htrace
  obtain ⟨ptr, session, hreg, hstart, -, hterm⟩ := h.next hs hn
    fun ptr session session' hreg ht hreg' ht' => by
      have hlive : s'.Live D.address := live_trace hs ⟨ptr, session, hreg, ht⟩ htrace (by simp)
      exact absurd hlive (show s'.Ended D.address from ⟨ptr, session', hreg', ht'⟩).not_live
  obtain ⟨ptr', session', hreg', hlease⟩ := keepAlive_lease_le hs hl rfl hr
  obtain ⟨rfl, rfl⟩ := hreg.unique hreg'
  refine ⟨ptr, session, hreg, hstart, ?_, hterm⟩
  unfold Client.deadline Session.leaseEnd
  dsimp only
  omega

/-- What others ask for ends no session of the client's. -/
theorem not_permits_of_foreign {c : Str} {e : LockService.Event} {leader : Bool}
    (hf : e.Foreign s c) (hl : ∀ t now now', e ≠ .maintainLoop t now now') :
    ¬ Permits s s' (.terminate c) (e.under leader) := by
  intro hp
  cases e with
  | maintainLoop t now now' => exact hl t now now' rfl
  | closeSession d => exact hf (by simpa [Permits, Action.Ends, LockService.Event.under,
      eq_comm] using hp)
  | keepAlive l isCancelled d locks now =>
    exact hf (by simpa [Permits, Action.Ends, Action.Claims, LockService.Event.under,
      eq_comm] using hp)
  | _ => simp [Permits, LockService.Event.under] at hp

/-- When the client has a session open after a step. -/
theorem open_of_nextOpen {o : Bool} {e : Event ι} (h : nextOpen D (w, o) e = some (w', true)) :
    e ≠ .startSession ∧ (e = .initSession → w'.client.master.isSome) ∧
      (e = .closeSession → w.closes D = false) ∧ (e ≠ .initSession → o = true) := by
  obtain ⟨w₁, -, hp⟩ := Option.map_eq_some_iff.mp h
  obtain ⟨rfl, ho⟩ := Prod.mk.inj hp
  cases e <;> simp_all

omit [DecidableEq ι] in
/-- What the client and the leader exchange while a session is open keeps its lease covered. -/
theorem covers_exchange {e : Event ι} (hs : s.WellFormed) (hl : s.Leased)
    (hserver : w.cluster.servers i = some s) (hx : Exchange D i w s e client s')
    (hclock : OneClock D i w e w') (hanew : AsksAnew D i w e) (hstart : e ≠ .startSession)
    (hclose : e = .closeSession → w.closes D = false)
    (hinit : e = .initSession → w.client.master = none ∧ client.master.isSome ∧
      w.client.leaseLength = defaultLeaseDuration ∧ w.client.leaseStart ≤ w.clock)
    (hcov : e ≠ .initSession → Covers D w.client w.clock s) : Covers D client w.clock s' := by
  have hquiet : ∀ {call}, LockService.next (D.cfg i) s call = some s' → e ≠ .initSession →
      ¬ Permits s s' (.terminate D.address) call → Covers D w.client w.clock s' :=
    fun hcall hne hno => (hcov hne).quiet hs hcall hno
  cases hx with
  | idle =>
    refine hcov fun he => ?_
    obtain ⟨hnone, hsome, -⟩ := hinit he
    simp [hnone] at hsome
  | @served call _ hcall =>
    have hclock := hclock.2
    cases call with
    | maintainLoop t now now' =>
      obtain ⟨hnow, hnow'⟩ := hclock rfl
      exact (hcov (by simp)).next hs hcall fun ptr session session' hreg ht hreg' ht' =>
        leaseEnd_le_of_maintainLoop hs hreg ht hnow hnow' hcall hreg' ht'
    | _ =>
      exact hquiet hcall (by simp) (not_permits_of_foreign (hclock rfl s hserver) (by simp))
  | starting => exact absurd rfl hstart
  | granted hcall hok =>
    obtain ⟨-, -, hlease, hstart⟩ := hinit rfl
    have hgranted := covers_granted hs (fun ptr session => hanew s ptr session hserver) hok hlease
      hstart
    obtain rfl := survivor_eq hcall
    exact hgranted
  | denied hcall =>
    obtain ⟨hnone, hsome, -⟩ := hinit rfl
    simp [hnone] at hsome
  | closed hcall hok =>
    rcases closeSession_survivor hs hcall with ⟨-, rfl⟩ | ⟨hclosed, -⟩
    · exact hcov (by simp)
    · simp [hok.mpr hclosed] at hclose
  | opened hcall => exact hquiet hcall (by simp) (by simp [Permits])
  | deleted hcall => exact hquiet hcall (by simp) (by simp [Permits])
  | written hcall => exact hquiet hcall (by simp) (by simp [Permits])
  | acquired hcall =>
    have h := hquiet hcall (by simp) (by simp [Permits])
    split_ifs <;> exact h
  | released _ hcall =>
    have h := hquiet hcall (by simp) (by simp [Permits])
    split_ifs <;> exact h
  | read _ hcall =>
    have h := hquiet hcall (by simp) (by simp [Permits])
    split_ifs <;> exact h
  | extended hr => exact covers_extended hs hl (hcov (by simp)) hr

/-- One step keeps the client's lease within the server's. -/
theorem leasing_next {o o' : Bool} {e : Event ι} (hw : Leasing D i (w, o))
    (h : nextOpen D (w, o) e = some (w', o')) (hclock : OneClock D i w e w')
    (hanew : AsksAnew D i w e) : Leasing D i (w', o') := by
  have hopen : o' = true → _ := fun ho => open_of_nextOpen (ho ▸ h)
  obtain ⟨w₁, hn, hp⟩ := Option.map_eq_some_iff.mp h
  obtain ⟨rfl, ho'⟩ := Prod.mk.inj hp
  replace hn : w.next D e = some w₁ := hn
  obtain ⟨s, hs, hl, hcov⟩ := hw.server
  obtain ⟨t, ht, hwf⟩ := hw.led.server
  obtain rfl := Option.some.inj (hs.symm.trans ht)
  obtain ⟨hled, hle, hask, s', hs', hx⟩ := hw.led.step hs hn hclock.1
  have hasking : w.asking.isSome → o = false ∧ w.client.leaseLength = defaultLeaseDuration ∧
      w.client.leaseStart ≤ w.clock := hw.asking
  refine ⟨hled, fun h => ?_, s', hs', ?_, fun ho => ?_⟩
  · rcases hask h with rfl | ⟨hasked, hclient⟩
    · simp only [next] at hn
      split_ifs at hn
      obtain rfl := Option.some.inj hn
      exact ⟨ho'.symm, rfl, Int.le_refl _⟩
    · obtain ⟨rfl, hlease, hstart⟩ := hasking hasked
      rw [hclient]
      refine ⟨?_, hlease, hstart.trans hle⟩
      rw [← ho']
      have hnone : w.client.master = none := (hw.led.asking hasked).2
      cases e <;> simp [hclient, hnone]
  · rcases hx.served_or_same with rfl | ⟨call, hcall⟩
    · exact hl
    · exact leased_next hwf hl hcall
  · obtain ⟨hstart, hmaster, hclose, hopened⟩ := hopen ho
    refine Covers.mono ?_ hle
    refine covers_exchange hwf hl hs hx hclock hanew hstart hclose ?_ fun he => hcov (hopened he)
    rintro rfl
    rcases hnodes : w.asking with _ | nodes
    · simp [next, initSession, hnodes] at hn
    · have hasked : w.asking.isSome := by simp [hnodes]
      exact ⟨(hw.led.asking hasked).2, hmaster rfl, (hasking hasked).2⟩

end Step

section Runs

variable {D : Deployment ι} {i : ι}

theorem leasing_initial (D : Deployment ι) (i : ι) (files : ι → FileTree) (clock : ℤ) :
    Leasing D i (initial files (fun j => decide (j = i)) clock, false) where
  led := .initial D i files clock
  asking := by simp [initial]
  server := ⟨.initial (files i), rfl, fun _ _ h => by simp [State.initial] at h, by simp⟩

/-- In a run on a common clock in which sessions are only asked for anew, the client's lease stays
within the server's. -/
theorem leaseWithin_of_asksAnew {files : ι → FileTree} {clock : ℤ} {es : List (Event ι)}
    {p : Service ι × Bool}
    (h : Run.Along (nextOpen D)
      (fun p e p' => OneClock D i p.1 e p'.1 ∧ AsksAnew D i p.1 e)
      (initial files (fun j => decide (j = i)) clock, false) es)
    (hrun : Run.run (nextOpen D) (initial files (fun j => decide (j = i)) clock, false) es =
      some p) : LeaseWithin D i p := by
  have hp : Leasing D i p := by
    refine Run.invariant (I := Leasing D i) ?_ (leasing_initial D i files clock) h hrun
    exact fun t e t' hI hP hn => leasing_next hI hn hP.1 hP.2
  intro ho _
  obtain ⟨s, hs, -, hcov⟩ := hp.server
  obtain ⟨ptr, session, hreg, -, hend, hterm⟩ := hcov ho
  exact ⟨s, ptr, session, hs, hreg, hend, hterm⟩

/-- A session is kept alive past the lease it started with. -/
theorem leaseWithin_of_asksAnew_extended : ∃ p, Run.run (nextOpen sampleDeployment)
      (sampleService, false) [.startSession, .initSession, .tick 11000000000,
        .cluster (.deliver () (.maintainStart 0)), .keepAlive 0 false] = some p ∧
    p.2 = true ∧ LeaseWithin sampleDeployment () p := by
  obtain ⟨p, hp, ho⟩ := (Option.any_eq_true _ _).mp (by decide :
    (Run.run (nextOpen sampleDeployment) (sampleService, false) [.startSession, .initSession,
      .tick 11000000000, .cluster (.deliver () (.maintainStart 0)), .keepAlive 0 false]).any
      fun p => p.2)
  refine ⟨p, hp, ho, leaseWithin_of_asksAnew ?_ hp⟩
  intro p₁ h₁
  obtain rfl := Option.some.inj h₁
  refine ⟨⟨⟨⟨by decide, trivial⟩, trivial⟩, trivial⟩, fun p₂ h₂ => ?_⟩
  obtain rfl := Option.some.inj h₂
  refine ⟨⟨⟨⟨by decide, trivial⟩, trivial⟩, fun s ptr session hs hreg => ?_⟩, fun p₃ h₃ => ?_⟩
  · obtain rfl : State.initial (sampleFiles [ascii ['a']]) = s := Option.some.inj hs
    simp [State.Registered, State.initial] at hreg
  obtain rfl := Option.some.inj h₃
  refine ⟨⟨⟨⟨by decide, trivial⟩, trivial⟩, trivial⟩, fun p₄ h₄ => ?_⟩
  obtain rfl := Option.some.inj h₄
  refine ⟨⟨⟨⟨by decide, trivial⟩, fun _ _ _ => trivial⟩, trivial⟩, fun p₅ h₅ => ?_⟩
  obtain rfl := Option.some.inj h₅
  exact ⟨⟨⟨⟨by decide, rfl⟩, trivial⟩, trivial⟩, trivial⟩

/-- The client closes its session after a second and starts another nine seconds later: the server
has the one that is over for it, to the end of its lease. -/
theorem not_leaseWithin_started_again : ∃ es p,
    Run.Along (nextOpen sampleDeployment) (fun p e p' => OneClock sampleDeployment () p.1 e p'.1)
      (sampleService, false) es ∧
    Run.run (nextOpen sampleDeployment) (sampleService, false) es = some p ∧
      ¬ LeaseWithin sampleDeployment () p := by
  obtain ⟨p, hp, hf⟩ := (Option.any_eq_true _ _).mp (by decide :
    (Run.run (nextOpen sampleDeployment) (sampleService, false) [.startSession, .initSession,
      .tick 1000000000, .closeSession, .tick 10000000000, .startSession, .initSession]).any
      fun p => p.2 = true ∧ p.1.client.expired = false ∧ (p.1.cluster.servers ()).any fun s =>
        (s.sessions[([1] : Str)]?.bind fun ptr => s.sessionHeap[ptr]?).any fun session =>
          session.leaseEnd < p.1.client.deadline)
  refine ⟨_, p, ?_, hp, fun hwithin => ?_⟩
  · intro p₁ h₁
    obtain rfl := Option.some.inj h₁
    refine ⟨⟨⟨by decide, trivial⟩, trivial⟩, fun p₂ h₂ => ?_⟩
    obtain rfl := Option.some.inj h₂
    refine ⟨⟨⟨by decide, trivial⟩, trivial⟩, fun p₃ h₃ => ?_⟩
    obtain rfl := Option.some.inj h₃
    refine ⟨⟨⟨by decide, trivial⟩, trivial⟩, fun p₄ h₄ => ?_⟩
    obtain rfl := Option.some.inj h₄
    refine ⟨⟨⟨by decide, trivial⟩, trivial⟩, fun p₅ h₅ => ?_⟩
    obtain rfl := Option.some.inj h₅
    refine ⟨⟨⟨by decide, trivial⟩, trivial⟩, fun p₆ h₆ => ?_⟩
    obtain rfl := Option.some.inj h₆
    refine ⟨⟨⟨by decide, trivial⟩, trivial⟩, fun p₇ h₇ => ?_⟩
    obtain rfl := Option.some.inj h₇
    exact ⟨⟨⟨by decide, trivial⟩, trivial⟩, trivial⟩
  simp only [decide_eq_true_eq] at hf
  obtain ⟨ho, hexp, hf⟩ := hf
  obtain ⟨s, ptr, session, hs, hreg, hle, -⟩ := hwithin ho hexp
  simp only [hs, Option.any_some, Option.any_eq_true, decide_eq_true_eq,
    Option.bind_eq_some_iff] at hf
  obtain ⟨session', ⟨ptr', hptr, hsession⟩, hlt⟩ := hf
  obtain ⟨rfl, rfl⟩ := hreg.unique ⟨hptr, hsession⟩
  omega

end Runs

end Service

end LockService
