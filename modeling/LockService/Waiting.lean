import LockService.Reclaim

/-!
# Which keep_alives are answered

A `keep_alive` waits in `attempt_extend_session` until there is a reply in its session's channel.
Only the threads on the session put one there, and each puts its last when it returns, just after
the lease is over. So one that waits is answered by then as long as a thread on the session goes on,
and waits for ever once they have all returned (`unblocked_iff`): a client that is timed out is
answered once for each reply left in the channel, and then not before it has started a session.
-/

namespace LockService

/-- A `keep_alive` of the client has to wait. -/
def State.Blocked (s : State) (c : Str) : Prop := (attemptExtendSession s c).1 = .error .blocked

/-- A reply is in the session's channel, or a thread on it has not returned. -/
def State.Expects (s : State) (ptr : SessionPtr) (session : Session) : Prop :=
  session.blockReply ≠ 0 ∨ ∃ (i : ℕ) (thread : Thread), s.threads[i]? = some thread ∧
    thread.session = ptr ∧ thread.phase ≠ .returned

/-- The event takes no reply for the client and starts no session. -/
def State.Waits (s : State) (c : Str) : Event → Prop
  | .initSession leader d _ => leader = true → d ≠ c
  | .keepAlive leader isCancelled d _ _ => leader = true → isCancelled = false → d = c → s.Blocked c
  | _ => True

/-- The lease and the replies of the client's session, and the threads on it, are as they were. -/
structure Undisturbed (c : Str) (ptr : SessionPtr) (s t : State) : Prop where
  wellFormed : t.WellFormed
  registered : t.sessions[c]? = some ptr
  session : ∀ session, s.sessionHeap[ptr]? = some session → ∃ session',
    t.sessionHeap[ptr]? = some session' ∧ session'.leaseEnd = session.leaseEnd ∧
      session'.blockReply = session.blockReply
  threads : ∀ (i : ℕ) (thread : Thread), thread.session = ptr →
    (t.threads[i]? = some thread ↔ s.threads[i]? = some thread)

section Undisturbed

variable {cfg : Config} {s t t' : State} {c d : Str} {ptr q : SessionPtr} {session : Session}

theorem blocked_iff (h : s.Registered c ptr session) : s.Blocked c ↔ session.blockReply = 0 := by
  simp only [State.Blocked, attemptExtendSession, h.1, h.2]
  split_ifs with hb <;> simp [hb]

theorem Undisturbed.refl (hs : s.WellFormed) (hc : s.sessions[c]? = some ptr) :
    Undisturbed c ptr s s :=
  ⟨hs, hc, fun session h => ⟨session, h, rfl, rfl⟩, fun _ _ _ => Iff.rfl⟩

theorem Undisturbed.trans (h : Undisturbed c ptr s t) (h' : Undisturbed c ptr t t') :
    Undisturbed c ptr s t' where
  wellFormed := h'.wellFormed
  registered := h'.registered
  session session h₀ := by
    obtain ⟨session₁, h₁, hend, hb⟩ := h.session session h₀
    obtain ⟨session₂, h₂, hend', hb'⟩ := h'.session session₁ h₁
    exact ⟨session₂, h₂, hend'.trans hend, hb'.trans hb⟩
  threads i thread hptr := (h'.threads i thread hptr).trans (h.threads i thread hptr)

theorem Undisturbed.ne (h : Undisturbed c ptr s t) (hq : t.sessions[d]? = some q) (hd : d ≠ c) :
    q ≠ ptr := by
  rintro rfl
  exact hd (h.wellFormed.eq_of_ptr hq h.registered)

theorem Undisturbed.expects_iff (h : Undisturbed c ptr s t) {session' : Session}
    (hb : session'.blockReply = session.blockReply) :
    t.Expects ptr session' ↔ s.Expects ptr session := by
  refine or_congr (by rw [hb]) ⟨?_, ?_⟩ <;> rintro ⟨i, thread, hi, hptr, hgoing⟩
  · exact ⟨i, thread, (h.threads i thread hptr).mp hi, hptr, hgoing⟩
  · exact ⟨i, thread, (h.threads i thread hptr).mpr hi, hptr, hgoing⟩

theorem Undisturbed.andThen {α β : Type} {r : Result α} {k : α → State → Result β}
    (hr : Undisturbed c ptr s r.2)
    (hk : ∀ a t, r = (.ok a, t) → Undisturbed c ptr s t → Undisturbed c ptr s (k a t).2) :
    Undisturbed c ptr s (r.andThen k).2 := by
  rcases r with ⟨f | a, t⟩
  · exact hr
  · exact hk a t rfl hr

theorem Undisturbed.setSession (session' : Session) (h : Undisturbed c ptr s t) (hq : q ≠ ptr)
    (hsession : t.sessionHeap[q]? = some session) (hc : session'.clientId = session.clientId)
    (hl : session'.locks = session.locks) : Undisturbed c ptr s (t.setSession q session') where
  wellFormed := h.wellFormed.setSession hsession hc fun hp =>
    h.wellFormed.sessionLocks hsession (hl ▸ hp)
  registered := h.registered
  session session₀ h₀ := by
    obtain ⟨session₁, h₁, hsame⟩ := h.session session₀ h₀
    exact ⟨session₁, by rwa [State.setSession, List.getElem?_set_ne hq], hsame⟩
  threads := h.threads

theorem Undisturbed.setPhase {i : ℕ} {thread : Thread} (h : Undisturbed c ptr s t)
    (hi : t.threads[i]? = some thread) (hq : thread.session ≠ ptr) (phase : Phase) :
    Undisturbed c ptr s (t.setPhase i thread phase) where
  wellFormed := h.wellFormed.setPhase hi phase
  registered := h.registered
  session := h.session
  threads j thread' hptr := by
    rw [← h.threads j thread' hptr, State.setPhase, getElem?_store hi]
    split_ifs with hj
    · subst hj
      rw [hi, Option.some.injEq, Option.some.injEq]
      constructor <;> rintro rfl <;> exact absurd hptr hq
    · exact Iff.rfl

/-- The new thread is on the other client's session, or on the new one. -/
theorem Undisturbed.start (h : Undisturbed c ptr s t) (hd : d ≠ c) (now : ℤ) :
    Undisturbed c ptr s (t.start d now) where
  wellFormed := h.wellFormed.start d now
  registered := by
    rw [State.start, getElem?_insertIfNew_eq, if_neg (Ne.symm hd), h.registered]
  session session h₀ := by
    obtain ⟨session', h', hsame⟩ := h.session session h₀
    exact ⟨session', getElem?_alloc_of_some h' _, hsame⟩
  threads i thread hptr := by
    rw [← h.threads i thread hptr]
    refine ⟨fun hi => ?_, fun hi => getElem?_alloc_of_some hi _⟩
    rcases threads_start hi with ⟨-, rfl⟩ | hi
    swap
    · exact hi
    obtain ⟨session, hsession, -⟩ := h.wellFormed.registered h.registered
    rw [Std.ExtTreeMap.getD_eq_getD_getElem?] at hptr
    rcases h.wellFormed.registered_or_none d with hnone | ⟨q, session', hreg⟩
    · rw [hnone, Option.getD_none] at hptr
      simp [← hptr] at hsession
    · rw [hreg.1, Option.getD_some] at hptr
      exact absurd hptr (h.ne hreg.1 hd)

theorem Undisturbed.effect {a : Action} (h : Undisturbed c ptr s t) (hnote : a ≠ .note)
    (hstart : ∀ c, a ≠ .start c) (he : Effect cfg t a t') : Undisturbed c ptr s t' where
  wellFormed := h.wellFormed.effect he
  registered := effect_registered he h.registered
  session session h₀ := by
    obtain ⟨session₁, h₁, hend, hb⟩ := h.session session h₀
    obtain ⟨session', h', -⟩ :=
      (h.wellFormed.effect he).registered (effect_registered he h.registered)
    obtain ⟨session₂, h₂, hr⟩ := effect_rests hnote hstart he h'
    obtain rfl := Option.some.inj (h₁.symm.trans h₂)
    refine ⟨session', h', ?_, hr.blockReply.trans hb⟩
    rw [← hend, Session.leaseEnd, Session.leaseEnd, hr.startTime, hr.leaseLength]
  threads i thread hptr := by
    rw [← h.threads i thread hptr, (effect_tables hnote hstart he).1]

theorem Undisturbed.trace {Q : Action → Prop} (h : Undisturbed c ptr s t) (ht : Trace cfg Q t t')
    (hnote : ¬ Q .note) (hstart : ∀ c, ¬ Q (.start c)) : Undisturbed c ptr s t' := by
  refine (ht.invariant (I := Undisturbed c ptr s) (fun _ a _ _ h ha he => h.effect ?_ ?_ he)
    h.wellFormed h).2
  · rintro rfl
    exact hnote ha
  · rintro c rfl
    exact hstart c ha

theorem Undisturbed.maintainStart (h : Undisturbed c ptr s t) {i : ℕ}
    (hi : ∀ thread, t.threads[i]? = some thread → thread.session = ptr → thread.phase ≠ .launched) :
    Undisturbed c ptr s (maintainStart t i).2 := by
  unfold LockService.maintainStart
  split
  · exact h
  rename_i thread hthread
  split_ifs with hphase
  swap
  · exact h
  have hq : thread.session ≠ ptr := fun hptr => hi thread hthread hptr hphase
  unfold putReply
  split
  · exact h
  · rename_i session hsession
    exact (h.setSession session.replied hq hsession rfl rfl).setPhase hthread hq _

theorem Undisturbed.attemptExtendSession (h : Undisturbed c ptr s t) (hd : d ≠ c) :
    Undisturbed c ptr s (attemptExtendSession t d).2 := by
  unfold LockService.attemptExtendSession
  split
  · exact h
  rename_i q hq
  split
  · exact h
  rename_i session hsession
  by_cases hb : session.blockReply = 0
  · rw [if_pos hb]
    exact h
  · rw [if_neg hb]
    exact h.setSession _ (h.ne hq hd) hsession rfl rfl

theorem Undisturbed.createSession (h : Undisturbed c ptr s t) (hd : d ≠ c) (now : ℤ) :
    Undisturbed c ptr s (createSession t d now).2 := by
  by_cases hl : t.Live d
  · rw [createSession_live hl]
    exact h
  · rw [createSession_start h.wellFormed hl]
    exact h.start hd now

theorem undisturbed_handleJeopardy (hs : s.WellFormed) (hc : s.sessions[c]? = some ptr) (hd : d ≠ c)
    (locks : Claims) (now : ℤ) : Undisturbed c ptr s (handleJeopardy cfg s d locks now).2 := by
  unfold handleJeopardy
  refine ((Undisturbed.refl hs hc).createSession hd now).andThen fun status t₁ _ h₁ => ?_
  split_ifs
  · exact h₁
  refine (h₁.trace (@claimLocks_trace cfg d locks.entries _ h₁.wellFormed) ?_ ?_).andThen
    fun _ t₂ _ h₂ => ?_
  · simp [Action.Claims, Action.Ends]
  · simp [Action.Claims, Action.Ends]
  refine (h₂.maintainStart fun thread hthread hptr => ?_).andThen fun _ t₃ _ h₃ =>
    h₃.attemptExtendSession hd
  have := (h₂.threads _ thread hptr).mp hthread
  simp at this

theorem undisturbed_keepAlive (hs : s.WellFormed) (hc : s.sessions[c]? = some ptr) (hd : d ≠ c)
    (leader isCancelled : Bool) (locks : Claims) (now : ℤ) :
    Undisturbed c ptr s (RPC.keepAlive cfg leader isCancelled s d locks now).2 := by
  have hrefl := Undisturbed.refl hs hc
  unfold RPC.keepAlive
  split_ifs
  · exact hrefl
  · refine (hrefl.attemptExtendSession hd).andThen fun lease t _ ht => ?_
    split_ifs
    · exact (ht.trans (undisturbed_handleJeopardy ht.wellFormed ht.registered hd locks now)).andThen
        fun _ _ _ h => h
    · exact ht
  · exact hrefl

/-- An event that lets the client wait leaves its session's lease and replies as they are, unless it
is a step of a thread on the session. -/
theorem undisturbed_next {e : Event} (hs : s.WellFormed) (hc : s.sessions[c]? = some ptr)
    (hwaits : s.Waits c e)
    (hstart : ∀ i thread, e = .maintainStart i → s.threads[i]? = some thread →
      thread.session = ptr → thread.phase ≠ .launched)
    (hloop : ∀ i now now', e ≠ .maintainLoop i now now') (h : next cfg s e = some t) :
    Undisturbed c ptr s t := by
  have hrefl := Undisturbed.refl hs hc
  cases e with
  | initSession leader d now =>
    rw [← survivor_eq h, RPC.initSession]
    split_ifs with hleader
    · exact hrefl.createSession (hwaits hleader) now
    · exact hrefl
  | keepAlive leader isCancelled d locks now =>
    rw [← survivor_eq h]
    by_cases hd : d = c
    swap
    · exact undisturbed_keepAlive hs hc hd leader isCancelled locks now
    subst hd
    obtain ⟨session, hsession, -⟩ := hs.registered hc
    rcases leader with _ | _
    · exact hrefl
    rcases isCancelled with _ | _
    · rw [keepAlive_blocked ⟨hc, hsession⟩ ((blocked_iff ⟨hc, hsession⟩).mp (hwaits rfl rfl rfl))]
      exact hrefl
    · exact hrefl
  | maintainStart i =>
    exact survivor_eq h ▸ hrefl.maintainStart fun thread => hstart i thread rfl
  | maintainLoop i now now' => exact absurd rfl (hloop i now now')
  | _ =>
    refine hrefl.trace (next_trace hs h) ?_ ?_
    · simp [Permits, Action.Ends]
    · simp [Permits, Action.Ends]

end Undisturbed

section Expects

variable {cfg : Config} {s s' : State} {c : Str} {ptr : SessionPtr} {session : Session}

/-- The lease ends when it did, and a reply is to be expected if it was before. -/
structure Waited (c : Str) (ptr : SessionPtr) (session : Session) (s s' : State) : Prop where
  wellFormed : s'.WellFormed
  session : ∃ session', s'.Registered c ptr session' ∧ session'.leaseEnd = session.leaseEnd ∧
    (s'.Expects ptr session' ↔ s.Expects ptr session)

theorem Undisturbed.waited (h : Undisturbed c ptr s s')
    (hsession : s.sessionHeap[ptr]? = some session) : Waited c ptr session s s' := by
  obtain ⟨session', h', hend, hb⟩ := h.session session hsession
  exact ⟨h.wellFormed, session', ⟨h.registered, h'⟩, hend, h.expects_iff hb⟩

/-- A thread that is launched starts with a reply. -/
theorem waited_maintainStart (hs : s.WellFormed) (hreg : s.Registered c ptr session) {i : ℕ}
    {thread : Thread} (hi : s.threads[i]? = some thread) (hptr : thread.session = ptr)
    (hphase : thread.phase = .launched) (h : next cfg s (.maintainStart i) = some s') :
    Waited c ptr session s s' := by
  subst hptr
  have hs' := wellFormed_next hs h
  rw [← survivor_eq h] at hs' ⊢
  simp only [maintainStart, hi, hphase, if_true, putReply, hreg.2, Result.andThen_ok] at hs' ⊢
  refine ⟨hs', session.replied, registered_setSession_setPhase hreg, rfl, iff_of_true ?_ ?_⟩
  · exact .inl (Nat.succ_ne_zero _)
  · exact .inr ⟨i, thread, hi, rfl, by simp [hphase]⟩

theorem waited_maintainLoop (hs : s.WellFormed) (hreg : s.Registered c ptr session) {i : ℕ}
    {now now' : ℤ} (h : next cfg s (.maintainLoop i now now') = some s') :
    Waited c ptr session s s' := by
  have hs' := wellFormed_next hs h
  have hrefl : Waited c ptr session s s := (Undisturbed.refl hs hreg.1).waited hreg.2
  by_cases hi : ∃ thread, s.threads[i]? = some thread ∧ thread.phase = .looping
  swap
  · have hsame : (maintainLoop cfg s i now now').2 = s := by
      rcases hthread : s.threads[i]? with _ | thread
      · simp only [maintainLoop, hthread]
      · have hphase : thread.phase ≠ .looping := fun hphase => hi ⟨thread, hthread, hphase⟩
        simp only [maintainLoop, hthread, if_neg hphase]
    rwa [← survivor_eq h, show (maintainLoop cfg s i now now').2 = s from hsame]
  obtain ⟨thread, hi, hphase⟩ := hi
  obtain ⟨d, hd⟩ := hs.maintained hi
  obtain ⟨session₀, h₀, -⟩ := hs.registered hd
  by_cases hptr : thread.session = ptr
  · subst hptr
    obtain rfl := Option.some.inj (hreg.2.symm.trans h₀)
    have hexpects : s.Expects thread.session session :=
      .inr ⟨i, thread, hi, rfl, by simp [hphase]⟩
    rcases turn_cases hs hi hphase hreg.2 h with ⟨-, ht⟩ | ⟨-, rfl | rfl⟩
    · obtain ⟨session', h', -, hend, hb⟩ := ht.session
      refine ⟨hs', session', ⟨ht.sessions ▸ hreg.1, h'⟩, hend, iff_of_true ?_ hexpects⟩
      exact .inl (by omega)
    · refine ⟨hs', session.replied, registered_setSession hreg _, rfl, iff_of_true ?_ hexpects⟩
      exact .inl (Nat.succ_ne_zero _)
    · exact hrefl
  · rcases turn_cases hs hi hphase h₀ h with ⟨-, ht⟩ | ⟨-, rfl | rfl⟩
    · have hkept : Undisturbed c ptr s (s.setPhase i thread .returned) :=
        (Undisturbed.refl hs hreg.1).setPhase hi hptr _
      refine Undisturbed.waited ⟨hs', ht.sessions ▸ hreg.1, fun session₁ h₁ => ?_, ?_⟩ hreg.2
      · exact ⟨session₁, (ht.others ptr (Ne.symm hptr)).trans h₁, rfl, rfl⟩
      · intro j thread' hthread'
        rw [ht.threads]
        exact hkept.threads j thread' hthread'
    · exact ((Undisturbed.refl hs hreg.1).setSession session₀.replied hptr h₀ rfl rfl).waited hreg.2
    · exact hrefl

theorem waited_next {e : Event} (hs : s.WellFormed) (hreg : s.Registered c ptr session)
    (hwaits : s.Waits c e) (h : next cfg s e = some s') : Waited c ptr session s s' := by
  by_cases hloop : ∃ i now now', e = .maintainLoop i now now'
  · obtain ⟨i, now, now', rfl⟩ := hloop
    exact waited_maintainLoop hs hreg h
  by_cases hstart : ∃ i thread, e = .maintainStart i ∧ s.threads[i]? = some thread ∧
      thread.session = ptr ∧ thread.phase = .launched
  · obtain ⟨i, thread, rfl, hi, hptr, hphase⟩ := hstart
    exact waited_maintainStart hs hreg hi hptr hphase h
  refine (undisturbed_next hs hreg.1 hwaits ?_ ?_ h).waited hreg.2
  · exact fun i thread he hi hptr hphase => hstart ⟨i, thread, he, hi, hptr, hphase⟩
  · exact fun i now now' he => hloop ⟨i, now, now', he⟩

theorem Waited.trans {s'' : State} (h : Waited c ptr session s s')
    (h' : ∀ session', s'.Registered c ptr session' → Waited c ptr session' s' s'') :
    Waited c ptr session s s'' := by
  obtain ⟨session', hreg', hend, hiff⟩ := h.session
  obtain ⟨hs'', session'', hreg'', hend', hiff'⟩ := h' session' hreg'
  exact ⟨hs'', session'', hreg'', hend'.trans hend, hiff'.trans hiff⟩

end Expects

namespace Clocked

/-- The event takes no reply for the client and starts no session. -/
def Waits (c : Str) (w : Clocked) : Event → Prop
  | .serve e => w.state.Waits c e
  | _ => True

/-- The threads on the client's session that go on have woken up lately. -/
def Roused (c : Str) (delay : ℤ) (w : Clocked) : Prop :=
  ∀ i thread, w.state.threads[i]? = some thread → w.state.sessions[c]? = some thread.session →
    thread.phase ≠ .returned → ∃ pause, w.pauses i = some pause ∧ w.clock < pause.read + delay

variable {cfg : Config} {w w' : Clocked} {c : Str} {ptr : SessionPtr} {session : Session}

theorem waited_run {es : List Event} (hs : w.state.WellFormed)
    (hreg : w.state.Registered c ptr session)
    (hwaits : Run.Along (next cfg) (fun w e _ => Waits c w e) w es)
    (h : Run.run (next cfg) w es = some w') : Waited c ptr session w.state w'.state := by
  refine Run.invariant (I := fun w' => Waited c ptr session w.state w'.state) ?_
    ((Undisturbed.refl hs hreg.1).waited hreg.2) hwaits h
  intro w₁ e w₂ hI hw hn
  refine hI.trans fun session₁ hreg₁ => ?_
  cases e with
  | tick now =>
    simp only [next] at hn
    split_ifs at hn
    obtain rfl := Option.some.inj hn
    exact (Undisturbed.refl hI.wellFormed hreg₁.1).waited hreg₁.2
  | serve e =>
    simp only [next] at hn
    split_ifs at hn
    obtain ⟨state, hstate, rfl⟩ := Option.map_eq_some_iff.mp hn
    exact LockService.waited_next hI.wellFormed hreg₁ hw hstate
  | turn i now' =>
    obtain ⟨-, -, -, state, hstate, rfl⟩ := turn_spec hn
    exact LockService.waited_next (e := .maintainLoop i w₁.clock now') hI.wellFormed hreg₁ trivial
      hstate

/-- Once the lease is over and its threads have all woken up after that, the reply that was to be
expected is there. -/
theorem blockReply_of_expects (ha : Awake w.pauses w.state)
    (hreg : w.state.Registered c ptr session) {delay : ℤ} (hroused : Roused c delay w)
    (hlate : session.leaseEnd + delay ≤ w.clock) (hexpects : w.state.Expects ptr session) :
    session.blockReply ≠ 0 := by
  rcases hexpects with hb | ⟨i, thread, hi, rfl, hgoing⟩
  · exact hb
  obtain ⟨pause, hpause, hrecent⟩ := hroused i thread hi hreg.1 hgoing
  rcases hphase : thread.phase with _ | _ | _
  · simp [ha.launched hi hphase] at hpause
  · have hruns := ha.runs hi hphase hpause hreg.2
    omega
  · exact absurd hphase hgoing

/-- A session that is not over has a thread that goes on. -/
theorem expects_of_live (hp : Paced Ahead w.clock w.pauses w.state)
    (hreg : w.state.Registered c ptr session) (hlive : session.terminated = false) :
    w.state.Expects ptr session := by
  obtain ⟨i, thread, hi, rfl⟩ := hp.attended hreg hlive
  refine .inr ⟨i, thread, hi, rfl, fun hphase => ?_⟩
  have hfits := hp.fits hi hreg.2 hlive
  rw [hphase] at hfits
  exact hfits

/-- A `keep_alive` that waits is answered by the time the lease is over and the session's threads
have woken up, just when a reply is in the channel or a thread goes on, as it does as long as the
session is not over. -/
theorem unblocked_iff {files : FileTree} {clock delay : ℤ} {es es' : List Event}
    (h : Run.run (next cfg) (initial files clock) es = some w)
    (h' : Run.run (next cfg) w es' = some w') (hreg : w.state.Registered c ptr session)
    (hwaits : Run.Along (next cfg) (fun w e _ => Waits c w e) w es')
    (hroused : Roused c delay w') (hlate : session.leaseEnd + delay ≤ w'.clock) :
    (¬ w'.state.Blocked c ↔ w.state.Expects ptr session) ∧
      (session.terminated = false → w.state.Expects ptr session) := by
  have hrun : Run.run (next cfg) (initial files clock) (es ++ es') = some w' :=
    Run.run_append_eq_some.mpr ⟨w, h, h'⟩
  obtain ⟨hs, hp⟩ := ahead_run h
  obtain ⟨session', hreg', hend, hiff⟩ := (waited_run hs hreg hwaits h').session
  refine ⟨?_, expects_of_live hp hreg⟩
  rw [blocked_iff hreg', ← hiff]
  constructor
  · exact Or.inl
  · exact blockReply_of_expects (awake_run hrun) hreg' hroused (by omega)

/-- A client closes its session and asks again: it is answered when the lease would have ended. -/
theorem unblocked_iff_closed : ∃ w w' ptr session,
    Run.run (next sampleConfig) (initial .empty 0)
      [.serve (.initSession true [1] 0), .serve (.maintainStart 0),
        .serve (.keepAlive true false [1] ⟨[], List.nodup_nil⟩ 0),
        .serve (.closeSession [1])] = some w ∧
    w.state.Registered [1] ptr session ∧ session.terminated = true ∧ w.state.Blocked [1] ∧
    Run.run (next sampleConfig) w [.tick 30000000000, .turn 0 30000000000] = some w' ∧
    ¬ w'.state.Blocked [1] := by
  obtain ⟨w, hw, hcheck⟩ := (Option.any_eq_true _ _).mp (by decide +kernel :
    (Run.run (next sampleConfig) (initial .empty 0)
      [.serve (.initSession true [1] 0), .serve (.maintainStart 0),
        .serve (.keepAlive true false [1] ⟨[], List.nodup_nil⟩ 0),
        .serve (.closeSession [1])]).any fun w =>
      (w.state.sessions[([1] : Str)]?).any fun ptr => (w.state.sessionHeap[ptr]?).any fun session =>
        session.terminated = true ∧ session.blockReply = 0 ∧ session.leaseEnd = 30000000000 ∧
        (w.state.threads[0]?).any (fun thread => thread.session = ptr ∧ thread.phase = .looping) ∧
        (Run.run (next sampleConfig) w [.tick 30000000000, .turn 0 30000000000]).any fun w' =>
          w'.clock = 30000000000 ∧ w'.state.threads.all fun thread => thread.phase = .returned)
  simp only [decide_eq_true_eq, Option.any_eq_true, List.all_eq_true] at hcheck
  obtain ⟨ptr, hptr, session, hsession, hterm, hb, hend, ⟨thread, hi, hon, hphase⟩, w', hw',
    hclock, hreturned⟩ := hcheck
  have hreg : w.state.Registered [1] ptr session := ⟨hptr, hsession⟩
  refine ⟨w, w', ptr, session, hw, hreg, hterm, (blocked_iff hreg).mpr hb, hw', ?_⟩
  have hlate : session.leaseEnd + 0 ≤ w'.clock := by omega
  refine (unblocked_iff hw hw' hreg ?_ ?_ hlate).1.mpr
    (.inr ⟨0, thread, hi, hon, by simp [hphase]⟩)
  · exact fun _ _ => ⟨trivial, fun _ _ => ⟨trivial, trivial⟩⟩
  · intro i thread hi _ hgoing
    exact absurd (hreturned thread (List.mem_of_getElem? hi)) hgoing

end Clocked

end LockService
