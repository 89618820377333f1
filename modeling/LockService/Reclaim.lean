import LockService.LeaseTimes
import LockService.LiveOwners

/-!
# What becomes of a client that falls silent

A turn that finds a lease over ends the session and the thread (`turn_cases`), so the lease of a
session whose thread goes on ran at the thread's last first reading (`Awake`). Without a
`keep_alive` the lease stays what it is, and a thread that wakes up after its end finds it over.
-/

namespace LockService

/-- What a turn that finds the lease over leaves: the thread has returned, its session is over with
one more reply, and the other sessions and threads are as they were. -/
structure TimedOut (s : State) (i : ℕ) (thread : Thread) (session : Session) (s' : State) :
    Prop where
  threads : s'.threads = s.threads.set i { thread with phase := .returned }
  sessions : s'.sessions = s.sessions
  session : ∃ session', s'.sessionHeap[thread.session]? = some session' ∧
    session'.terminated = true ∧ session'.leaseEnd = session.leaseEnd ∧
    session'.blockReply = session.blockReply + 1
  others : ∀ ptr, ptr ≠ thread.session → s'.sessionHeap[ptr]? = s.sessionHeap[ptr]?

/-- A turn times the session out, or goes on and may put a reply. -/
theorem turn_cases {cfg : Config} {s s' : State} (hs : s.WellFormed) {i : ℕ} {thread : Thread}
    {session : Session} {now now' : ℤ} (hi : s.threads[i]? = some thread)
    (hphase : thread.phase = .looping) (h : s.sessionHeap[thread.session]? = some session)
    (hn : next cfg s (.maintainLoop i now now') = some s') :
    (timeUntilExpire session now now' = 0 ∧ TimedOut s i thread session s') ∨
      (timeUntilExpire session now now' ≠ 0 ∧
        (s' = s.setSession thread.session session.replied ∨ s' = s)) := by
  obtain ⟨c, hc⟩ := hs.maintained hi
  replace hn : (maintainLoop cfg s i now now').survivor = some s' := hn
  simp only [maintainLoop, hi, hphase, h, if_true] at hn
  split_ifs at hn with hzero hle
  · refine .inl ⟨hzero, ?_⟩
    rcases hr : endSession cfg s thread.session with ⟨f | _, t⟩
    · obtain rfl := endSession_fault hs hc (congrArg Prod.fst hr)
      simp [hr, Result.survivor, Fault.isFatal] at hn
    obtain ⟨-, hend⟩ := @endSession_survivor cfg _ t _ _ _ hs ⟨hc, h⟩ (by rw [hr]; rfl)
    obtain ⟨locks, hsession, -⟩ := hend.session
    rw [hr, Result.andThen_ok, putReply, hsession] at hn
    obtain rfl := Option.some.inj hn
    have hheap := fun q => @getElem?_store _ _ _ _ hsession (Session.replied
      { session with terminated := true, locks }) q
    refine ⟨by rw [State.setPhase, State.setSession, hend.threads]; rfl, hend.sessions,
      ⟨_, (hheap _).trans (if_pos rfl), rfl, rfl, rfl⟩, fun q hq => ?_⟩
    refine ((hheap q).trans (if_neg hq)).trans ((hend.others q hq).trans ?_)
    rw [State.terminate, State.setSession, getElem?_store h, if_neg hq]
  · rw [putReply, h] at hn
    exact .inr ⟨hzero, .inl (Option.some.inj hn).symm⟩
  · exact .inr ⟨hzero, .inr (Option.some.inj hn).symm⟩

namespace Clocked

/-- The lease of a session whose thread goes on ran when the thread last woke up. -/
structure Awake (pauses : ℕ → Option Pause) (s : State) : Prop where
  unpaused : ∀ i, s.threads.length ≤ i → pauses i = none
  launched : ∀ {i : ℕ} {thread : Thread}, s.threads[i]? = some thread → thread.phase = .launched →
    pauses i = none
  runs : ∀ {i : ℕ} {thread : Thread} {pause : Pause} {session : Session},
    s.threads[i]? = some thread → thread.phase = .looping → pauses i = some pause →
    s.sessionHeap[thread.session]? = some session → pause.read < session.leaseEnd

/-- The threads on the client's session, if it is not over, have woken up lately. -/
def Watched (c : Str) (delay : ℤ) (w : Clocked) : Prop :=
  ∀ i thread session, w.state.threads[i]? = some thread →
    w.state.Registered c thread.session session → session.terminated = false →
    ∃ pause, w.pauses i = some pause ∧ w.clock < pause.read + delay

/-- The calls and the time-outs let go of what ends with a session. -/
def Settles (cfg : Config) (w : Clocked) : Event → Prop
  | .tick _ => True
  | .serve e => Orderly cfg w.state e
  | .turn i now' => Orderly cfg w.state (.maintainLoop i w.clock now')

section Awake

variable {cfg : Config} {s s' : State} {pauses : ℕ → Option Pause}

theorem Awake.initial (files : FileTree) : Awake (fun _ => none) (.initial files) where
  unpaused _ _ := rfl
  launched _ _ := rfl
  runs h := by simp [State.initial] at h

/-- A change of the sessions that ends none of their leases sooner. -/
theorem Awake.of_heap (h : Awake pauses s) (hth : s'.threads = s.threads)
    (hheap : ∀ (ptr : SessionPtr) (session' : Session), s'.sessionHeap[ptr]? = some session' →
      ∃ session, s.sessionHeap[ptr]? = some session ∧ session.leaseEnd ≤ session'.leaseEnd) :
    Awake pauses s' where
  unpaused i hi := h.unpaused i (hth ▸ hi)
  launched hi := h.launched (hth ▸ hi)
  runs hi hphase hp h' := by
    obtain ⟨session, hsession, hle⟩ := hheap _ _ h'
    exact (h.runs (hth ▸ hi) hphase hp hsession).trans_le hle

theorem Awake.setSession {ptr : SessionPtr} {session : Session} (session' : Session)
    (h : Awake pauses s) (h₀ : s.sessionHeap[ptr]? = some session)
    (hle : session.leaseEnd ≤ session'.leaseEnd) : Awake pauses (s.setSession ptr session') := by
  refine h.of_heap rfl fun q session₁ h₁ => ?_
  rw [State.setSession, getElem?_store h₀] at h₁
  split_ifs at h₁ with hq
  · obtain rfl := Option.some.inj h₁
    exact ⟨session, hq ▸ h₀, hle⟩
  · exact ⟨session₁, h₁, Int.le_refl _⟩

theorem Awake.setPhase {i : ℕ} {thread : Thread} {phase : Phase} (h : Awake pauses s)
    (hi : s.threads[i]? = some thread) (hlaunched : phase ≠ .launched)
    (hlooping : phase = .looping → pauses i = none) :
    Awake pauses (s.setPhase i thread phase) where
  unpaused j hj := h.unpaused j (by simpa [State.setPhase] using hj)
  launched {j thread'} hj hphase := by
    obtain ⟨thread₀, hj₀, -, hsame, hother⟩ := threads_setPhase hi hj
    by_cases hji : j = i
    · exact absurd ((hsame hji).symm.trans hphase) hlaunched
    · exact h.launched hj₀ (hother hji ▸ hphase)
  runs {j thread' pause session} hj hphase hp h' := by
    obtain ⟨thread₀, hj₀, hsession, hsame, hother⟩ := threads_setPhase hi hj
    by_cases hji : j = i
    · subst hji
      rw [hlooping ((hsame rfl).symm.trans hphase)] at hp
      simp at hp
    · exact h.runs hj₀ (hother hji ▸ hphase) hp (hsession ▸ h')

theorem Awake.start (hs : s.WellFormed) (h : Awake pauses s) {c : Str} {now : ℤ} :
    Awake pauses (s.start c now) where
  unpaused i hi := h.unpaused i (by
    have : s.threads.length + 1 ≤ i := by simpa [State.start] using hi
    omega)
  launched hi hphase := by
    rcases threads_start hi with ⟨rfl, -⟩ | hi₀
    · exact h.unpaused _ le_rfl
    · exact h.launched hi₀ hphase
  runs {i thread pause session} hi hphase hp h' := by
    rcases threads_start hi with ⟨rfl, -⟩ | hi₀
    · rw [h.unpaused _ le_rfl] at hp
      simp at hp
    · obtain ⟨d, hd⟩ := hs.maintained hi₀
      obtain ⟨session₀, h₀, -⟩ := hs.registered hd
      rw [State.start, getElem?_alloc_of_some h₀] at h'
      exact h.runs hi₀ hphase hp (h₀.trans h')

theorem Awake.move {e : LockService.Event} (hs : s.WellFormed) (h : Awake pauses s)
    (hm : Move cfg e s s') : Awake pauses s' := by
  cases hm with
  | effect hnote hstart he =>
    obtain ⟨hth, -⟩ := effect_tables hnote hstart he
    refine h.of_heap hth fun ptr session' h' => ?_
    obtain ⟨session, hsession, hr⟩ := effect_rests hnote hstart he h'
    refine ⟨session, hsession, ?_⟩
    rw [Session.leaseEnd, Session.leaseEnd, hr.startTime, hr.leaseLength]
  | start => exact h.start hs
  | @launch i thread session hi hphase h₀ =>
    exact (h.setSession session.replied h₀ (Int.le_refl _)).setPhase hi (by simp)
      fun _ => h.launched hi hphase
  | @reply i now now' thread session _ _ _ h₀ =>
    exact h.setSession session.replied h₀ (Int.le_refl _)
  | @last i thread session hi h₀ =>
    exact (h.setSession session.replied h₀ (Int.le_refl _)).setPhase hi (by simp) (by simp)
  | @extend c ptr session he h₀ hb =>
    refine h.setSession session.extend h₀.2 ?_
    have hle : session.leaseLength ≤ extended session := leaseLength_le_extended
    simp only [Session.leaseEnd, Session.extend]
    omega

/-- The readings of a turn that finds the lease running, or after which the thread has returned. -/
theorem Awake.update {i : ℕ} {thread : Thread} {session : Session} {pause : Pause}
    (h : Awake pauses s) (hi : s.threads[i]? = some thread)
    (h₀ : s.sessionHeap[thread.session]? = some session) (hlaunched : thread.phase ≠ .launched)
    (hruns : thread.phase = .looping → pause.read < session.leaseEnd) :
    Awake (Function.update pauses i (some pause)) s where
  unpaused j hj := by
    have hlt := (List.getElem?_eq_some_iff.mp hi).1
    rw [Function.update_of_ne (by omega)]
    exact h.unpaused j hj
  launched {j thread'} hj hphase := by
    by_cases hji : j = i
    · subst hji
      obtain rfl := Option.some.inj (hi.symm.trans hj)
      exact absurd hphase hlaunched
    · rw [Function.update_of_ne hji]
      exact h.launched hj hphase
  runs {j thread' pause' session'} hj hphase hp h' := by
    by_cases hji : j = i
    · subst hji
      obtain rfl := Option.some.inj (hi.symm.trans hj)
      obtain rfl := Option.some.inj (h₀.symm.trans h')
      rw [Function.update_self] at hp
      exact Option.some.inj hp ▸ hruns hphase
    · rw [Function.update_of_ne hji] at hp
      exact h.runs hj hphase hp h'

end Awake

section Next

variable {cfg : Config} {w w' : Clocked}

theorem awake_turn {i : ℕ} {now' : ℤ} (hs : w.state.WellFormed) (ha : Awake w.pauses w.state)
    (h : w.next cfg (.turn i now') = some w') : Awake w'.pauses w'.state := by
  obtain ⟨-, -, ⟨thread, hi, hphase⟩, state, hstate, rfl⟩ := turn_spec h
  obtain ⟨c, hc⟩ := hs.maintained hi
  obtain ⟨session, hsession, -⟩ := hs.registered hc
  have ha' := (next_invariant (fun _ _ hs hI hm => Awake.move hs hI hm) hs ha hstate).2
  rcases turn_cases hs hi hphase hsession hstate with ⟨-, ht⟩ | ⟨hne, hsame⟩
  · obtain ⟨session', hsession', -⟩ := ht.session
    have hi' : state.threads[i]? = some { thread with phase := .returned } := by
      rw [ht.threads, getElem?_store hi, if_pos rfl]
    exact ha'.update hi' hsession' (by simp) (by simp)
  · have hruns : w.clock < session.leaseEnd := by
      by_contra hno
      exact hne (if_neg hno)
    rcases hsame with rfl | rfl
    · have hsession' : (w.state.setSession thread.session session.replied).sessionHeap[
          thread.session]? = some session.replied := by
        rw [State.setSession, getElem?_store hsession, if_pos rfl]
      exact ha'.update hi hsession' (by simp [hphase]) fun _ => hruns
    · exact ha'.update hi hsession (by simp [hphase]) fun _ => hruns

theorem awake_next {e : Event} (hs : w.state.WellFormed) (ha : Awake w.pauses w.state)
    (h : w.next cfg e = some w') : w'.state.WellFormed ∧ Awake w'.pauses w'.state := by
  cases e with
  | tick now =>
    simp only [next] at h
    split_ifs at h
    obtain rfl := Option.some.inj h
    exact ⟨hs, ha⟩
  | serve e =>
    simp only [next] at h
    split_ifs at h
    obtain ⟨state, hstate, rfl⟩ := Option.map_eq_some_iff.mp h
    exact next_invariant (fun _ _ hs hI hm => Awake.move hs hI hm) hs ha hstate
  | turn i now' =>
    refine ⟨?_, awake_turn hs ha h⟩
    obtain ⟨-, -, -, state, hstate, rfl⟩ := turn_spec h
    exact wellFormed_next hs hstate

/-- A step of the clocked server is one of the server's, or leaves its state as it was. -/
theorem state_cases {e : Event} (h : w.next cfg e = some w') : w'.state = w.state ∨
    ∃ e', LockService.next cfg w.state e' = some w'.state ∧
      (Settles cfg w e → Orderly cfg w.state e') := by
  cases e with
  | tick now =>
    simp only [next] at h
    split_ifs at h
    obtain rfl := Option.some.inj h
    exact .inl rfl
  | serve e =>
    simp only [next] at h
    split_ifs at h
    obtain ⟨state, hstate, rfl⟩ := Option.map_eq_some_iff.mp h
    exact .inr ⟨e, hstate, id⟩
  | turn i now' =>
    obtain ⟨-, -, -, state, hstate, rfl⟩ := turn_spec h
    exact .inr ⟨_, hstate, id⟩

end Next

section Runs

variable {cfg : Config} {w w' : Clocked} {c : Str} {delay : ℤ}

theorem awake_run {files : FileTree} {clock : ℤ} {es : List Event}
    (h : Run.run (next cfg) (initial files clock) es = some w) : Awake w.pauses w.state := by
  refine (Run.invariant (I := fun w => w.state.WellFormed ∧ Awake w.pauses w.state) ?_
    ⟨.initial files, .initial files⟩ Run.along_true h).2
  exact fun w e w' hI _ hn => awake_next hI.1 hI.2 hn

theorem ended_run {es : List Event} (hs : w.state.WellFormed) (he : w.state.Ended c)
    (h : Run.run (next cfg) w es = some w') : w'.state.Ended c := by
  refine (Run.invariant (I := fun w => w.state.WellFormed ∧ w.state.Ended c) ?_ ⟨hs, he⟩
    Run.along_true h).2
  rintro w e w' ⟨hs, he⟩ - hn
  rcases state_cases hn with hstate | ⟨e', hn, -⟩
  · exact ⟨hstate ▸ hs, hstate ▸ he⟩
  · exact ⟨wellFormed_next hs hn, ended_trace hs he (next_trace hs hn)⟩

theorem ownersLive_run {files : FileTree} {clock : ℤ} {es : List Event}
    (ho : Run.Along (next cfg) (fun w e _ => Settles cfg w e) (initial files clock) es)
    (h : Run.run (next cfg) (initial files clock) es = some w) : OwnersLive w.state := by
  refine (Run.invariant (I := fun w => w.state.WellFormed ∧ OwnersLive w.state) ?_
    ⟨.initial files, ownersLive_initial files⟩ ho h).2
  rintro w e w' ⟨hs, hI⟩ ho hn
  rcases state_cases hn with hstate | ⟨e', hn, hord⟩
  · exact ⟨hstate ▸ hs, hstate ▸ hI⟩
  · exact ⟨wellFormed_next hs hn, ownersLive_next hs hI (hord ho) hn⟩

/-- A session that is still not over has a thread that last woke up before the end of its lease. -/
theorem lt_of_live (hp : Paced Ahead w'.clock w'.pauses w'.state) (ha : Awake w'.pauses w'.state)
    {ptr : SessionPtr} {session : Session} (hreg : w'.state.Registered c ptr session)
    (hlive : session.terminated = false) (hwatched : Watched c delay w') :
    w'.clock < session.leaseEnd + delay := by
  obtain ⟨i, thread, hi, rfl⟩ := hp.attended hreg hlive
  obtain ⟨pause, hpause, hlate⟩ := hwatched i thread session hi hreg hlive
  have hfits := hp.fits hi hreg.2 hlive
  rcases hphase : thread.phase with _ | _ | _ <;> rw [hphase] at hfits
  · simp [ha.launched hi hphase] at hpause
  · have hruns := ha.runs hi hphase hpause hreg.2
    omega
  · exact absurd hfits id

/-- A client that asks for nothing more is timed out when its lease is over, as soon as its session's
thread wakes up, and then nothing is locked for it. -/
theorem reclaimed_of_silent {files : FileTree} {clock : ℤ} {es es' : List Event} {ptr : SessionPtr}
    {session : Session} (h : Run.run (next cfg) (initial files clock) es = some w)
    (h' : Run.run (next cfg) w es' = some w') (hreg : w.state.Registered c ptr session)
    (hsilent : ∀ e ∈ es', ¬ e.Asks c) (hwatched : Watched c delay w')
    (hlate : session.leaseEnd + delay ≤ w'.clock) :
    ¬ w'.state.Live c ∧
      (Run.Along (next cfg) (fun w e _ => Settles cfg w e) (initial files clock) (es ++ es') →
        ∀ p lock, w'.state.lockOf p = some lock → c ∉ lock.owners) := by
  have hrun : Run.run (next cfg) (initial files clock) (es ++ es') = some w' :=
    Run.run_append_eq_some.mpr ⟨w, h, h'⟩
  obtain ⟨hs, -⟩ := ahead_run h
  obtain ⟨-, hp'⟩ := ahead_run hrun
  have hover : ¬ w'.state.Live c := by
    rintro ⟨ptr', session', hreg', hlive'⟩
    have hsame := Run.invariant (P := fun _ e _ => ¬ e.Asks c)
      (I := fun w => w.state.WellFormed ∧
        ∃ session₁, w.state.Registered c ptr session₁ ∧ session₁.leaseEnd = session.leaseEnd)
      (fun _ _ _ hI hP hn => leaseEnd_next hP hI.1 hI.2 hn) ⟨hs, session, hreg, rfl⟩
      (Run.along_of_forall hsilent) h'
    obtain ⟨-, session₁, hreg₁, hend⟩ := hsame
    obtain ⟨rfl, rfl⟩ := hreg'.unique hreg₁
    have hlt := lt_of_live hp' (awake_run hrun) hreg₁ hlive' hwatched
    omega
  refine ⟨hover, fun ho p lock hlock hown => hover ?_⟩
  exact (ownersLive_run ho hrun).liveOwners p lock c hlock hown

/-- A client acquires a lock and is not heard of again: at 16 s the lock is nobody's. -/
theorem reclaimed_of_silent_owner : ∃ w w' : Clocked,
    Run.run (next sampleConfig) (initial (sampleFiles [ascii ['a']]) 0)
      [.serve (.initSession true [1] 0), .serve (.maintainStart 0),
        .serve (.acquireLock [1] (ascii ['a']) .exclusive)] = some w ∧
    (∃ lock, w.state.lockOf (ascii ['a']) = some lock ∧ [1] ∈ lock.owners) ∧
    Run.run (next sampleConfig) w [.tick 15000000000, .turn 0 16000000000] = some w' ∧
    ∀ p lock, w'.state.lockOf p = some lock → [1] ∉ lock.owners := by
  obtain ⟨w, hw, hcheck⟩ := (Option.any_eq_true _ _).mp (by decide +kernel :
    (Run.run (next sampleConfig) (initial (sampleFiles [ascii ['a']]) 0)
      [.serve (.initSession true [1] 0), .serve (.maintainStart 0),
        .serve (.acquireLock [1] (ascii ['a']) .exclusive)]).any fun w =>
      ((w.state.sessions[([1] : Str)]?).any fun ptr => (w.state.sessionHeap[ptr]?).any
          fun session => session.leaseEnd = 15000000000) ∧
        (w.state.lockOf (ascii ['a'])).any (fun lock => [1] ∈ lock.owners) ∧
        w.state.lockHeap.length = 1 ∧ w.state.sessionHeap.all (fun session =>
          session.terminated = false ∧ (reached sampleConfig w.state session session.clientId).any
            fun p => session.locks[p]? = some 0) ∧
        (Run.run (next sampleConfig) w [.tick 15000000000, .turn 0 16000000000]).any fun w' =>
          w'.clock = 16000000000 ∧ w'.state.sessionHeap.all (·.terminated))
  simp only [decide_eq_true_eq, Option.any_eq_true, List.all_eq_true, List.any_eq_true] at hcheck
  obtain ⟨⟨ptr, hptr, session, hsession, hend⟩, hlock, hone, hreached, w', hw', hclock', hover⟩ :=
    hcheck
  have hlate : session.leaseEnd + 1000000000 ≤ w'.clock := by omega
  refine ⟨w, w', hw, hlock, hw',
    (reclaimed_of_silent hw hw' ⟨hptr, hsession⟩ ?_ ?_ hlate).2 ?_⟩
  · simp [Event.Asks]
  · intro i thread session hi hreg hlive
    simp [hover session (List.mem_of_getElem? hreg.2)] at hlive
  refine Run.Along.append ?_ hw fun w₄ h₄ => ⟨trivial, fun w₅ h₅ => ⟨?_, trivial⟩⟩
  · obtain ⟨w₁, h₁, hw⟩ := Run.run_cons_eq_some.mp hw
    obtain ⟨w₂, h₂, hw⟩ := Run.run_cons_eq_some.mp hw
    have hs : w₂.state.WellFormed :=
      (ahead_run (Run.run_cons_eq_some.mpr ⟨w₁, h₁, Run.run_cons_eq_some.mpr
        ⟨w₂, h₂, show Run.run _ w₂ [] = some w₂ from rfl⟩⟩)).1
    intro t₁ ht₁
    obtain rfl := Option.some.inj (h₁.symm.trans ht₁)
    refine ⟨trivial, fun t₂ ht₂ => ?_⟩
    obtain rfl := Option.some.inj (h₂.symm.trans ht₂)
    refine ⟨trivial, fun t₃ ht₃ => ⟨fun _ hend => ?_, trivial⟩⟩
    obtain ⟨ptr, session, hreg, hterm⟩ := ended_run hs hend hw
    simp [(hreached session (List.mem_of_getElem? hreg.2)).1] at hterm
  · obtain rfl : { w with clock := 15000000000 } = w₄ := by
      simp only [next] at h₄
      split_ifs at h₄
      exact Option.some.inj h₄
    intro thread session _ _ hsession _ l lock hl _
    obtain ⟨p, hp, h₀⟩ := (hreached session (List.mem_of_getElem? hsession)).2
    have hlt : l < w.state.lockHeap.length := (List.getElem?_eq_some_iff.mp hl).1
    obtain rfl : l = 0 := Nat.lt_one_iff.mp (hone ▸ hlt)
    exact ⟨p, mem_reached.mp hp, h₀⟩

end Runs

end Clocked

end LockService
