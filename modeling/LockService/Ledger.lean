import LockService.KeepAlive

/-!
# What becomes of a lease and its replies

A session's lease and the replies in its channel are touched by few: the thread that maintains it
puts a reply when it starts, in the last second of the lease and when it ends, and a `keep_alive`
takes a reply and extends the lease. Whatever event the server takes is made of these moves and of
effects that touch neither (`event_moves`).
-/

namespace LockService

/-- The event may create a session for the client, at a time. -/
def Event.Creates (c : Str) (now : ℤ) : Event → Prop
  | .initSession leader d t => leader = true ∧ d = c ∧ t = now
  | .keepAlive leader isCancelled d _ t => leader = true ∧ isCancelled = false ∧ d = c ∧ t = now
  | _ => False

/-- The event may take a reply for the client. -/
def Event.Extends (c : Str) : Event → Prop
  | .keepAlive leader isCancelled d _ _ => leader = true ∧ isCancelled = false ∧ d = c
  | _ => False

def Session.replied (session : Session) : Session :=
  { session with blockReply := session.blockReply + 1 }

/-- The session after a `keep_alive` has taken a reply. -/
def Session.extend (session : Session) : Session :=
  { session with leaseLength := extended session, blockReply := session.blockReply - 1 }

/-- The session goes on with the same lease and the same replies. -/
structure Session.Rests (session session' : Session) : Prop where
  clientId : session'.clientId = session.clientId
  startTime : session'.startTime = session.startTime
  leaseLength : session'.leaseLength = session.leaseLength
  blockReply : session'.blockReply = session.blockReply
  live : session'.terminated = false → session.terminated = false

theorem Session.Rests.refl (session : Session) : session.Rests session := ⟨rfl, rfl, rfl, rfl, id⟩

/-- One thing an event does, by whether it touches a lease or a reply. -/
inductive Move (cfg : Config) (e : Event) (s : State) : State → Prop where
  | effect {a : Action} {s' : State} (hnote : a ≠ .note) (hstart : ∀ c, a ≠ .start c)
    (h : Effect cfg s a s') : Move cfg e s s'
  | start {c : Str} {now : ℤ} (he : e.Creates c now)
    (h : ∀ ptr session, s.Registered c ptr session → session.terminated = true) :
    Move cfg e s (s.start c now)
  | launch {i : ℕ} {thread : Thread} {session : Session} (hi : s.threads[i]? = some thread)
    (hphase : thread.phase = .launched) (h : s.sessionHeap[thread.session]? = some session) :
    Move cfg e s ((s.setSession thread.session session.replied).setPhase i thread .looping)
  | reply {i : ℕ} {now now' : ℤ} {thread : Thread} {session : Session}
    (he : e = .maintainLoop i now now') (hi : s.threads[i]? = some thread)
    (hphase : thread.phase = .looping) (h : s.sessionHeap[thread.session]? = some session)
    (hne : timeUntilExpire session now now' ≠ 0)
    (hle : timeUntilExpire session now now' ≤ 1000000000) :
    Move cfg e s (s.setSession thread.session session.replied)
  | last {i : ℕ} {thread : Thread} {session : Session} (hi : s.threads[i]? = some thread)
    (h : s.sessionHeap[thread.session]? = some session) (ht : session.terminated = true) :
    Move cfg e s ((s.setSession thread.session session.replied).setPhase i thread .returned)
  | extend {c : Str} {ptr : SessionPtr} {session : Session} (he : e.Extends c)
    (h : s.Registered c ptr session) (hb : session.blockReply ≠ 0) :
    Move cfg e s (s.setSession ptr session.extend)

def Moves (cfg : Config) (e : Event) : State → State → Prop :=
  Relation.ReflTransGen (Move cfg e)

section Moves

variable {cfg : Config} {e : Event} {s s' : State} {c : Str} {ptr : SessionPtr} {session : Session}
  {Q : Action → Prop}

theorem rests_of_set {session₀ session₁ : Session} {q : SessionPtr}
    (h₀ : s.sessionHeap[ptr]? = some session₀)
    (h : (s.sessionHeap.set ptr session₁)[q]? = some session) (hr : session₀.Rests session₁) :
    ∃ session', s.sessionHeap[q]? = some session' ∧ session'.Rests session := by
  rw [getElem?_store h₀] at h
  split_ifs at h with hq
  · exact ⟨session₀, hq ▸ h₀, Option.some.inj h ▸ hr⟩
  · exact ⟨session, h, .refl _⟩

theorem effect_rests {a : Action} (hnote : a ≠ .note) (hstart : ∀ c, a ≠ .start c)
    (h : Effect cfg s a s') {session' : Session} (h' : s'.sessionHeap[ptr]? = some session') :
    ∃ session, s.sessionHeap[ptr]? = some session ∧ session.Rests session' := by
  cases h with
  | start c => exact absurd rfl (hstart c)
  | terminate h => exact rests_of_set h.2 h' ⟨rfl, rfl, rfl, rfl, by simp⟩
  | enter h => exact rests_of_set h.2 h' ⟨rfl, rfl, rfl, rfl, id⟩
  | grant h => exact rests_of_set h.2 h' ⟨rfl, rfl, rfl, rfl, id⟩
  | release h => exact rests_of_set h.2 h' ⟨rfl, rfl, rfl, rfl, id⟩
  | forget h => exact rests_of_set h.2 h' ⟨rfl, rfl, rfl, rfl, id⟩
  | note => exact absurd rfl hnote
  | phase => exact absurd rfl hnote
  | replicate => exact ⟨session', h', .refl _⟩

theorem effect_tables {a : Action} (hnote : a ≠ .note) (hstart : ∀ c, a ≠ .start c)
    (h : Effect cfg s a s') : s'.threads = s.threads ∧ s'.sessions = s.sessions := by
  cases h with
  | start c => exact absurd rfl (hstart c)
  | phase => exact absurd rfl hnote
  | _ => exact ⟨rfl, rfl⟩

theorem Move.wellFormed (hs : s.WellFormed) (h : Move cfg e s s') : s'.WellFormed := by
  have hset : ∀ {ptr session} (f : Session → Session), s.sessionHeap[ptr]? = some session →
      (f session).clientId = session.clientId → (f session).locks = session.locks →
      (s.setSession ptr (f session)).WellFormed :=
    fun f h hc hl => hs.setSession h hc fun hp => hs.sessionLocks h (hl ▸ hp)
  cases h with
  | effect _ _ h => exact hs.effect h
  | start => exact hs.start _ _
  | launch hi _ h => exact (hset Session.replied h rfl rfl).setPhase hi _
  | reply _ _ _ h => exact hset Session.replied h rfl rfl
  | last hi h => exact (hset Session.replied h rfl rfl).setPhase hi _
  | extend _ h => exact hset Session.extend h.2 rfl rfl

theorem Moves.refl (s : State) : Moves cfg e s s := Relation.ReflTransGen.refl

theorem Moves.single (h : Move cfg e s s') : Moves cfg e s s' := Relation.ReflTransGen.single h

theorem Moves.trans {s'' : State} (h : Moves cfg e s s') (h' : Moves cfg e s' s'') :
    Moves cfg e s s'' := Relation.ReflTransGen.trans h h'

theorem Moves.invariant {I : State → Prop}
    (step : ∀ s s', s.WellFormed → I s → Move cfg e s s' → I s') (h : Moves cfg e s s')
    (hs : s.WellFormed) (hI : I s) : s'.WellFormed ∧ I s' := by
  induction h with
  | refl => exact ⟨hs, hI⟩
  | tail _ h ih => exact ⟨h.wellFormed ih.1, step _ _ ih.1 ih.2 h⟩

theorem Moves.wellFormed (h : Moves cfg e s s') (hs : s.WellFormed) : s'.WellFormed :=
  (h.invariant (I := fun _ => True) (fun _ _ _ _ _ => trivial) hs trivial).1

/-- Effects that neither note anything nor start a session are moves of any event. -/
theorem moves_of_trace (h : Trace cfg Q s s') (hnote : ¬ Q .note) (hstart : ∀ c, ¬ Q (.start c)) :
    Moves cfg e s s' := by
  refine Relation.ReflTransGen.mono ?_ s s' h
  intro t t' ⟨a, ha, he⟩
  refine .effect ?_ (fun c => ?_) he
  · rintro rfl
    exact hnote ha
  · rintro rfl
    exact hstart c ha

theorem andThen_moves {α β : Type} {r : Result α} {k : α → State → Result β}
    (hs : s.WellFormed) (hr : Moves cfg e s r.2)
    (hk : ∀ a t, r = (.ok a, t) → t.WellFormed → Moves cfg e t (k a t).2) :
    Moves cfg e s (r.andThen k).2 := by
  rcases r with ⟨f | a, t⟩
  · exact hr
  · exact hr.trans (hk a t rfl (hr.wellFormed hs))

theorem createSession_moves (hs : s.WellFormed) {now : ℤ} (he : e.Creates c now) :
    Moves cfg e s (createSession s c now).2 := by
  by_cases hl : s.Live c
  · rw [createSession_live hl]
    exact .refl s
  · rw [createSession_start hs hl]
    refine .single (.start he fun ptr session hr => ?_)
    by_contra hterm
    exact hl ⟨ptr, session, hr, by simpa using hterm⟩

theorem maintainStart_moves (s : State) (i : ℕ) : Moves cfg e s (maintainStart s i).2 := by
  unfold maintainStart
  split
  · exact .refl s
  rename_i thread hi
  split_ifs with hphase
  · unfold putReply
    split
    · exact .refl s
    · rename_i session h
      exact .single (.launch hi hphase h)
  · exact .refl s

theorem attemptExtendSession_moves (he : e.Extends c) :
    Moves cfg e s (attemptExtendSession s c).2 := by
  unfold attemptExtendSession
  split
  · exact .refl s
  rename_i ptr hptr
  split
  · exact .refl s
  rename_i session hsession
  by_cases hb : session.blockReply = 0
  · rw [if_pos hb]
    exact .refl s
  · rw [if_neg hb]
    exact .single (.extend he ⟨hptr, hsession⟩ hb)

theorem handleJeopardy_moves (hs : s.WellFormed) {locks : Claims} {now : ℤ}
    (he : e.Creates c now) (he' : e.Extends c) :
    Moves cfg e s (handleJeopardy cfg s c locks now).2 := by
  unfold handleJeopardy
  refine andThen_moves hs (createSession_moves hs he) fun status t _ ht => ?_
  split_ifs
  · exact .refl t
  refine andThen_moves ht (moves_of_trace (@claimLocks_trace cfg c locks.entries _ ht) ?_ ?_)
    fun _ u _ hu => ?_
  · simp [Action.Claims, Action.Ends]
  · simp [Action.Claims, Action.Ends]
  exact andThen_moves hu (maintainStart_moves u _) fun _ v _ _ => attemptExtendSession_moves he'

/-- A time-out ends the session, puts a last reply and takes no other move. -/
theorem maintainLoop_timedOut (hs : s.WellFormed) {i : ℕ} {thread : Thread} {now now' : ℤ}
    (hi : s.threads[i]? = some thread) (hphase : thread.phase = .looping)
    (h : s.sessionHeap[thread.session]? = some session)
    (hzero : timeUntilExpire session now now' = 0) :
    Moves cfg e s (maintainLoop cfg s i now now').2 := by
  obtain ⟨c, hc⟩ := hs.maintained hi
  simp only [maintainLoop, hi, hphase, h, hzero, if_true]
  refine andThen_moves hs (moves_of_trace (@endSession_trace cfg _ _ _ hs hc) ?_ ?_)
    fun _ t hr ht => ?_
  · simp [Action.Ends]
  · simp [Action.Ends]
  have hth := endSession_threads cfg hs hc
  obtain ⟨ptr, session', hreg, hterm⟩ := @endSession_ended cfg _ _ _ hs hc
  have hptr := trace_registered (@endSession_trace cfg _ _ _ hs hc) hc
  rw [hr] at hth hreg hptr
  obtain rfl := Option.some.inj (hreg.1.symm.trans hptr)
  unfold putReply
  rw [hreg.2]
  exact .single (.last (hth ▸ hi) hreg.2 hterm)

/-- A time-out leaves the thread on a session that is over. -/
theorem maintainLoop_over (hs : s.WellFormed) {i : ℕ} {thread : Thread} {now now' : ℤ}
    (hi : s.threads[i]? = some thread) (hphase : thread.phase = .looping)
    (h : s.sessionHeap[thread.session]? = some session)
    (hzero : timeUntilExpire session now now' = 0) :
    ∃ thread' session', (maintainLoop cfg s i now now').2.threads[i]? = some thread' ∧
      (maintainLoop cfg s i now now').2.sessionHeap[thread'.session]? = some session' ∧
      session'.terminated = true := by
  obtain ⟨c, hc⟩ := hs.maintained hi
  have hth := endSession_threads cfg hs hc
  obtain ⟨ptr, session', hreg, hterm⟩ := @endSession_ended cfg _ _ _ hs hc
  have hptr := trace_registered (@endSession_trace cfg _ _ _ hs hc) hc
  obtain rfl := Option.some.inj (hreg.1.symm.trans hptr)
  simp only [maintainLoop, hi, hphase, h, hzero, if_true]
  rcases hr : endSession cfg s thread.session with ⟨f | _, t⟩ <;> rw [hr] at hth hreg
  · exact ⟨thread, session', hth ▸ hi, hreg.2, hterm⟩
  · have hi' : t.threads[i]? = some thread := hth ▸ hi
    have hreg' : t.sessionHeap[thread.session]? = some session' := hreg.2
    simp only [Result.andThen_ok, putReply, hreg', State.setPhase, State.setSession,
      getElem?_store hi']
    refine ⟨_, session'.replied, rfl, ?_, hterm⟩
    simp only [getElem?_store hreg', if_true]
    rfl

theorem maintainLoop_moves (hs : s.WellFormed) (i : ℕ) (now now' : ℤ) :
    Moves cfg (.maintainLoop i now now') s (maintainLoop cfg s i now now').2 := by
  rcases hi : s.threads[i]? with _ | thread
  · simp only [maintainLoop, hi]
    exact .refl s
  by_cases hphase : thread.phase = .looping
  swap
  · simp only [maintainLoop, hi, if_neg hphase]
    exact .refl s
  rcases hsession : s.sessionHeap[thread.session]? with _ | session
  · simp only [maintainLoop, hi, hphase, if_true, hsession]
    exact .refl s
  by_cases hzero : timeUntilExpire session now now' = 0
  · exact maintainLoop_timedOut hs hi hphase hsession hzero
  simp only [maintainLoop, hi, hphase, if_true, hsession, if_neg hzero]
  split_ifs with hle
  · simp only [putReply, hsession]
    exact .single (.reply rfl hi hphase hsession hzero hle)
  · exact .refl s

/-- Whatever the event is, it is made of moves. -/
theorem event_moves (hs : s.WellFormed) (h : next cfg s e = some s') : Moves cfg e s s' := by
  cases e with
  | initSession leader c now =>
    rw [← survivor_eq h, RPC.initSession]
    split_ifs with hleader
    · exact createSession_moves hs ⟨hleader, rfl, rfl⟩
    · exact .refl s
  | keepAlive leader isCancelled c locks now =>
    rw [← survivor_eq h, RPC.keepAlive]
    rcases leader with _ | _
    · exact .refl s
    rcases isCancelled with _ | _
    swap
    · exact .refl s
    refine andThen_moves hs (attemptExtendSession_moves ⟨rfl, rfl, rfl⟩) fun lease t _ ht => ?_
    split_ifs
    · refine andThen_moves ht (handleJeopardy_moves ht ?_ ?_) fun _ u _ _ => .refl u
      · exact ⟨rfl, rfl, rfl, rfl⟩
      · exact ⟨rfl, rfl, rfl⟩
    · exact .refl t
  | maintainStart i => exact survivor_eq h ▸ maintainStart_moves s i
  | maintainLoop i now now' => exact survivor_eq h ▸ maintainLoop_moves hs i now now'
  | _ =>
    refine moves_of_trace (next_trace hs h) ?_ ?_
    · simp [Permits, Action.Ends]
    · simp [Permits, Action.Ends]

/-- What every move of an event preserves, the event does. -/
theorem next_invariant {I : State → Prop}
    (step : ∀ s s', s.WellFormed → I s → Move cfg e s s' → I s') (hs : s.WellFormed) (hI : I s)
    (h : next cfg s e = some s') : s'.WellFormed ∧ I s' :=
  (event_moves hs h).invariant step hs hI

end Moves

end LockService
