import LockService.Leases
import Mathlib.Logic.Function.Basic

/-!
# The server and its clock

Time passes between the calls, and a turn of a thread reads the clock twice and then sleeps for a
second or more. What the leases come to depends on these readings. A lease and the replies waiting
for it are changed by the turns of the session's own thread alone, and what every such turn keeps
true of them, with the last readings, holds between any two events (`paced_next`).
-/

namespace LockService

/-- Whether an event that is not a turn of a thread happens at a time. -/
def Event.isAt (clock : ℤ) : Event → Bool
  | .initSession _ _ now => now = clock
  | .keepAlive _ _ _ _ now => now = clock
  | .maintainLoop _ _ _ => false
  | _ => true

/-- The two readings of a thread's last turn: it sleeps since the second. -/
structure Pause where
  read : ℤ
  since : ℤ

structure Clocked where
  state : State
  clock : ℤ
  pauses : ℕ → Option Pause

namespace Clocked

inductive Event where
  | tick (now : ℤ)
  | serve (e : LockService.Event)
  | turn (i : ℕ) (now' : ℤ)

/-- The thread is in its loop and has slept for a second. -/
def rested (w : Clocked) (i : ℕ) : Bool :=
  w.state.threads[i]?.any (fun thread => thread.phase = .looping) &&
    (w.pauses i).all fun pause => pause.since + 1000000000 ≤ w.clock

def next (cfg : Config) (w : Clocked) : Event → Option Clocked
  | .tick now => if w.clock ≤ now then some { w with clock := now } else none
  | .serve e =>
    if e.isAt w.clock then (LockService.next cfg w.state e).map fun state => { w with state }
    else none
  | .turn i now' =>
    if w.rested i ∧ w.clock ≤ now' then
      (LockService.next cfg w.state (.maintainLoop i w.clock now')).map fun state =>
        ⟨state, now', Function.update w.pauses i (some ⟨w.clock, now'⟩)⟩
    else none

def initial (files : FileTree) (clock : ℤ) : Clocked := ⟨.initial files, clock, fun _ => none⟩

end Clocked

/-- Where the lease ends once every reply in the channel has extended it. -/
def Session.promised (session : Session) : ℤ :=
  session.leaseEnd + session.blockReply * 15000000000

/-- The start, the promised end and the last readings of a session's thread fit together. -/
def Session.Fits (P : Str → ℤ → ℤ → Option Pause → Prop) (session : Session)
    (pause : Option Pause) : Phase → Prop
  | .launched =>
    pause = none ∧ session.leaseLength = defaultLeaseExtension ∧ session.blockReply = 0
  | .looping => P session.clientId session.startTime session.promised pause
  | .returned => False

/-- Every live session has one thread, and what it was promised fits the thread's last readings. -/
structure Paced (P : Str → ℤ → ℤ → Option Pause → Prop) (clock : ℤ) (pauses : ℕ → Option Pause)
    (s : State) : Prop where
  alone : ∀ {i j : ℕ} {thread thread' : Thread} {session : Session},
    s.threads[i]? = some thread → s.threads[j]? = some thread' →
    thread.session = thread'.session → s.sessionHeap[thread.session]? = some session →
    session.terminated = false → i = j
  attended : ∀ {c : Str} {ptr : SessionPtr} {session : Session}, s.Registered c ptr session →
    session.terminated = false → ∃ (i : ℕ) (thread : Thread), s.threads[i]? = some thread ∧
      thread.session = ptr
  fits : ∀ {i : ℕ} {thread : Thread} {session : Session}, s.threads[i]? = some thread →
    s.sessionHeap[thread.session]? = some session → session.terminated = false →
    session.Fits P (pauses i) thread.phase
  started : ∀ {ptr : SessionPtr} {session : Session}, s.sessionHeap[ptr]? = some session →
    session.startTime ≤ clock
  unpaused : ∀ i, s.threads.length ≤ i → pauses i = none
  since : ∀ i pause, pauses i = some pause → pause.since ≤ clock

section Paced

variable {P : Str → ℤ → ℤ → Option Pause → Prop} {cfg : Config} {s s' : State} {clock : ℤ}
  {pauses : ℕ → Option Pause} {c : Str} {i : ℕ} {thread : Thread} {ptr : SessionPtr}
  {session session' : Session}

theorem Paced.initial (files : FileTree) (clock : ℤ) :
    Paced P clock (fun _ => none) (.initial files) where
  alone h := by simp [State.initial] at h
  attended h := by simp [State.Registered, State.initial] at h
  fits h := by simp [State.initial] at h
  started h := by simp [State.initial] at h
  unpaused i _ := rfl
  since i pause h := by simp at h

theorem Paced.mono (hp : Paced P clock pauses s) {clock' : ℤ} (hle : clock ≤ clock') :
    Paced P clock' pauses s :=
  { hp with
    started := fun h => (hp.started h).trans hle
    since := fun i pause h => (hp.since i pause h).trans hle }

/-- A change of the sessions alone, each of which still fits while it is live. -/
theorem Paced.of_heap (hp : Paced P clock pauses s) (hth : s'.threads = s.threads)
    (hsess : s'.sessions = s.sessions)
    (h : ∀ (ptr : SessionPtr) (session' : Session), s'.sessionHeap[ptr]? = some session' →
      ∃ session, s.sessionHeap[ptr]? = some session ∧ session'.startTime = session.startTime ∧
        (session'.terminated = false → session.terminated = false ∧
          ∀ phase pause, session.Fits P pause phase → session'.Fits P pause phase)) :
    Paced P clock pauses s' where
  alone hi hj he h' hlive := by
    obtain ⟨session, hsession, -, hl⟩ := h _ _ h'
    exact hp.alone (hth ▸ hi) (hth ▸ hj) he hsession (hl hlive).1
  attended hreg hlive := by
    obtain ⟨session, hsession, -, hl⟩ := h _ _ hreg.2
    rw [hth]
    exact hp.attended ⟨hsess ▸ hreg.1, hsession⟩ (hl hlive).1
  fits hi h' hlive := by
    obtain ⟨session, hsession, -, hl⟩ := h _ _ h'
    exact (hl hlive).2 _ _ (hp.fits (hth ▸ hi) hsession (hl hlive).1)
  started h' := by
    obtain ⟨session, hsession, hstart, -⟩ := h _ _ h'
    exact hstart ▸ hp.started hsession
  unpaused i hi := hp.unpaused i (hth ▸ hi)
  since := hp.since

theorem threads_setPhase {j : ℕ} {thread' : Thread} {phase : Phase}
    (hi : s.threads[i]? = some thread)
    (h : (s.setPhase i thread phase).threads[j]? = some thread') :
    ∃ thread₀, s.threads[j]? = some thread₀ ∧ thread'.session = thread₀.session ∧
      (j = i → thread'.phase = phase) ∧ (j ≠ i → thread' = thread₀) := by
  rw [State.setPhase, getElem?_store hi] at h
  split_ifs at h with hj
  · obtain rfl := Option.some.inj h
    exact ⟨thread, hj ▸ hi, rfl, fun _ => rfl, fun hne => absurd hj hne⟩
  · exact ⟨thread', h, rfl, fun he => absurd he hj, fun _ => rfl⟩

theorem heap_setSession {q : SessionPtr} {session₁ : Session}
    (h : s.sessionHeap[ptr]? = some session) (hstart : session'.startTime = session.startTime)
    (hterm : session'.terminated = session.terminated)
    (h₁ : (s.setSession ptr session').sessionHeap[q]? = some session₁) :
    ∃ session₀, s.sessionHeap[q]? = some session₀ ∧ session₁.startTime = session₀.startTime ∧
      session₁.terminated = session₀.terminated ∧ (q = ptr → session₁ = session') ∧
      (q ≠ ptr → session₁ = session₀) := by
  rw [State.setSession, getElem?_store h] at h₁
  split_ifs at h₁ with hq
  · obtain rfl := Option.some.inj h₁
    exact ⟨session, hq ▸ h, hstart, hterm, fun _ => rfl, fun hne => absurd hq hne⟩
  · exact ⟨session₁, h₁, rfl, rfl, fun he => absurd he hq, fun _ => rfl⟩

theorem setPhase_self (hi : s.threads[i]? = some thread) :
    s.setPhase i thread thread.phase = s := by
  obtain ⟨hlt, rfl⟩ := List.getElem?_eq_some_iff.mp hi
  show { s with threads := s.threads.set i s.threads[i] } = s
  rw [List.set_getElem_self]

theorem setSession_self (h : s.sessionHeap[ptr]? = some session) :
    s.setSession ptr session = s := by
  obtain ⟨hlt, rfl⟩ := List.getElem?_eq_some_iff.mp h
  rw [State.setSession, List.set_getElem_self]

/-- A thread goes on to a phase and its session is changed, and they fit. -/
theorem Paced.update (hp : Paced P clock pauses s) (session' : Session) (phase : Phase)
    {pause : Option Pause} (hi : s.threads[i]? = some thread)
    (h : s.sessionHeap[thread.session]? = some session)
    (hstart : session'.startTime = session.startTime)
    (hterm : session'.terminated = session.terminated)
    (hsince : ∀ p, pause = some p → p.since ≤ clock)
    (hfits : session.terminated = false → session'.Fits P pause phase) :
    Paced P clock (Function.update pauses i pause)
      ((s.setSession thread.session session').setPhase i thread phase) where
  alone {j k thread₁ thread₂ session₁} hj hk he h₁ hlive := by
    obtain ⟨thread₁', hj', hse₁, -⟩ := threads_setPhase hi hj
    obtain ⟨thread₂', hk', hse₂, -⟩ := threads_setPhase hi hk
    obtain ⟨session₀, h₀, -, ht, -⟩ := heap_setSession h hstart hterm h₁
    exact hp.alone hj' hk' (by rw [← hse₁, he, hse₂]) (hse₁ ▸ h₀) (ht ▸ hlive)
  attended {d q session₁} hreg hlive := by
    obtain ⟨session₀, h₀, -, ht, -⟩ := heap_setSession h hstart hterm hreg.2
    obtain ⟨j, thread₀, hj, rfl⟩ := hp.attended ⟨hreg.1, h₀⟩ (ht ▸ hlive)
    by_cases hji : j = i
    · subst hji
      obtain rfl := Option.some.inj (hi.symm.trans hj)
      refine ⟨j, { thread with phase }, ?_, rfl⟩
      simp only [State.setPhase, State.setSession, getElem?_store hi, if_true]
    · refine ⟨j, thread₀, ?_, rfl⟩
      simp only [State.setPhase, State.setSession, getElem?_store hi, if_neg hji, hj]
  fits {j thread₁ session₁} hj h₁ hlive := by
    obtain ⟨thread₀, hj', hse, hsame, hother⟩ := threads_setPhase hi hj
    obtain ⟨session₀, h₀, -, ht, hthis, hrest⟩ := heap_setSession h hstart hterm h₁
    by_cases hji : j = i
    · subst hji
      obtain rfl := Option.some.inj (hi.symm.trans hj')
      rw [hse] at h₀ hthis
      obtain rfl := Option.some.inj (h.symm.trans h₀)
      rw [hthis rfl, hsame rfl, Function.update_self]
      exact hfits (ht ▸ hlive)
    · obtain rfl := hother hji
      rw [Function.update_of_ne hji]
      by_cases hq : thread₁.session = thread.session
      · exact absurd (hp.alone hj' hi hq h₀ (ht ▸ hlive)) hji
      · rw [hrest hq]
        exact hp.fits hj' h₀ (ht ▸ hlive)
  started {q session₁} h₁ := by
    obtain ⟨session₀, h₀, hst, -⟩ := heap_setSession h hstart hterm h₁
    exact hst ▸ hp.started h₀
  unpaused j hj := by
    have hlen : s.threads.length ≤ j := by simpa [State.setPhase, State.setSession] using hj
    have hlt := (List.getElem?_eq_some_iff.mp hi).1
    rw [Function.update_of_ne (by omega)]
    exact hp.unpaused j hlen
  since j p hj := by
    by_cases hji : j = i
    · subst hji
      rw [Function.update_self] at hj
      exact hsince p hj
    · rw [Function.update_of_ne hji] at hj
      exact hp.since j p hj

theorem threads_start {now : ℤ} (h : (s.start c now).threads[i]? = some thread) :
    (i = s.threads.length ∧ thread = ⟨s.sessions.getD c s.sessionHeap.length, .launched⟩) ∨
      s.threads[i]? = some thread := by
  rw [State.start, getElem?_alloc] at h
  split_ifs at h with hi
  · exact .inl ⟨hi, (Option.some.inj h).symm⟩
  · exact .inr h

theorem heap_start {now : ℤ} (h : (s.start c now).sessionHeap[ptr]? = some session) :
    (ptr = s.sessionHeap.length ∧ session = ⟨c, now, defaultLeaseExtension, 0, ∅, false⟩) ∨
      s.sessionHeap[ptr]? = some session := by
  rw [State.start, getElem?_alloc] at h
  split_ifs at h with hptr
  · exact .inl ⟨hptr, (Option.some.inj h).symm⟩
  · exact .inr h

/-- No thread there was is on the new session, and the new thread is on no other live one. -/
theorem live_of_start (hs : s.WellFormed)
    (hnew : ∀ ptr session, s.Registered c ptr session → session.terminated = true) {now : ℤ}
    (hi : (s.start c now).threads[i]? = some thread)
    (h : (s.start c now).sessionHeap[thread.session]? = some session)
    (hlive : session.terminated = false) :
    (i = s.threads.length ∧ thread = ⟨s.sessionHeap.length, .launched⟩ ∧
      session = ⟨c, now, defaultLeaseExtension, 0, ∅, false⟩) ∨
    (s.threads[i]? = some thread ∧ s.sessionHeap[thread.session]? = some session) := by
  rcases threads_start hi with ⟨rfl, rfl⟩ | hi'
  · left
    rw [Std.ExtTreeMap.getD_eq_getD_getElem?] at h ⊢
    rcases hs.registered_or_none c with hnone | ⟨ptr, session₀, hreg⟩
    · rw [hnone, Option.getD_none] at h ⊢
      rcases heap_start h with ⟨-, rfl⟩ | h
      · exact ⟨rfl, rfl, rfl⟩
      · simp at h
    · rw [hreg.1, Option.getD_some] at h
      rw [State.start, getElem?_alloc_of_some hreg.2] at h
      obtain rfl := Option.some.inj h
      simp [hnew ptr _ hreg] at hlive
  · right
    obtain ⟨d, hd⟩ := hs.maintained hi'
    obtain ⟨session₀, h₀, -⟩ := hs.registered hd
    rw [State.start, getElem?_alloc_of_some h₀] at h
    exact ⟨hi', h₀.trans h⟩

/-- A new session comes with a new thread, unless the client has one that is over. -/
theorem Paced.start (hs : s.WellFormed) (hp : Paced P clock pauses s)
    (hnew : ∀ ptr session, s.Registered c ptr session → session.terminated = true) :
    Paced P clock pauses (s.start c clock) where
  alone {j k thread₁ thread₂ session₁} hj hk he h₁ hlive := by
    have hlt : ∀ {q : SessionPtr}, s.sessionHeap[q]? = some session₁ →
        q ≠ s.sessionHeap.length := fun h he => by simp [he] at h
    rcases live_of_start hs hnew hj h₁ hlive with ⟨rfl, rfl, rfl⟩ | ⟨hj', h₁'⟩ <;>
      rcases live_of_start hs hnew hk (he ▸ h₁) hlive with ⟨rfl, rfl, -⟩ | ⟨hk', h₂'⟩
    · rfl
    · exact absurd he.symm (hlt h₂')
    · exact absurd he (hlt h₁')
    · exact hp.alone hj' hk' he h₁' hlive
  attended {d q session₁} hreg hlive := by
    by_cases hd : d = c
    · subst hd
      exact ⟨_, _, thread_start hreg.1, rfl⟩
    · have hq : s.sessions[d]? = some q := by
        have hreg' := hreg.1
        rwa [State.start, getElem?_insertIfNew_eq, if_neg hd] at hreg'
      obtain ⟨session₀, h₀, -⟩ := hs.registered hq
      have h₁ := hreg.2
      rw [State.start, getElem?_alloc_of_some h₀] at h₁
      obtain ⟨j, thread₁, hj, rfl⟩ := hp.attended ⟨hq, h₀.trans h₁⟩ hlive
      exact ⟨j, thread₁, getElem?_alloc_of_some hj _, rfl⟩
  fits {j thread₁ session₁} hj h₁ hlive := by
    rcases live_of_start hs hnew hj h₁ hlive with ⟨rfl, rfl, rfl⟩ | ⟨hj', h₁'⟩
    · exact ⟨hp.unpaused _ le_rfl, rfl, rfl⟩
    · exact hp.fits hj' h₁' hlive
  started {q session₁} h₁ := by
    rcases heap_start h₁ with ⟨-, rfl⟩ | h₁'
    · exact Int.le_refl _
    · exact hp.started h₁'
  unpaused j hj := by
    have hlen : s.threads.length + 1 ≤ j := by simpa [State.start] using hj
    exact hp.unpaused j (by omega)
  since := hp.since

theorem Session.Fits.of_rests {phase : Phase} {pause : Option Pause} (hr : session.Rests session')
    (hf : session.Fits P pause phase) : session'.Fits P pause phase := by
  cases phase with
  | launched => exact ⟨hf.1, hr.leaseLength.trans hf.2.1, hr.blockReply.trans hf.2.2⟩
  | looping =>
    have hsame : session'.promised = session.promised := by
      rw [Session.promised, Session.leaseEnd, hr.startTime, hr.leaseLength, hr.blockReply]
      rfl
    show P session'.clientId session'.startTime session'.promised pause
    rw [hr.clientId, hr.startTime, hsame]
    exact hf
  | returned => exact hf

theorem promised_replied : session.replied.promised = session.promised + 15000000000 := by
  simp only [Session.promised, Session.leaseEnd, Session.replied]
  push_cast
  omega

theorem promised_extend (hlive : session.terminated = false) (hb : session.blockReply ≠ 0) :
    session.extend.promised = session.promised := by
  have hext : extended session = session.leaseLength + defaultLeaseExtension :=
    if_neg (by simp [hlive])
  simp only [Session.promised, Session.leaseEnd, Session.extend, hext, defaultLeaseExtension]
  omega

/-- Between the turns a session is promised the first reply when its thread starts, and nothing
else. -/
theorem Paced.move {e : Event} (hP : ∀ c start, P c start (start + 30000000000) none)
    (he : e.isAt clock = true) (hs : s.WellFormed) (hp : Paced P clock pauses s)
    (h : Move cfg e s s') : Paced P clock pauses s' := by
  cases h with
  | effect hnote hstart h =>
    obtain ⟨hth, hsess⟩ := effect_tables hnote hstart h
    refine hp.of_heap hth hsess fun ptr session' h' => ?_
    obtain ⟨session, hsession, hr⟩ := effect_rests hnote hstart h h'
    exact ⟨session, hsession, hr.startTime, fun hl => ⟨hr.live hl, fun _ _ => .of_rests hr⟩⟩
  | @start c now hc h =>
    have hnow : now = clock := by
      cases e <;> simp_all [Event.Creates, Event.isAt]
    subst hnow
    exact hp.start hs h
  | @launch i thread session hi hphase h =>
    rw [← Function.update_eq_self i pauses]
    refine hp.update session.replied .looping hi h rfl rfl (hp.since i) fun hlive => ?_
    have hf := hp.fits hi h hlive
    rw [hphase] at hf
    obtain ⟨hpause, hlen, hb⟩ := hf
    have hpromised : session.replied.promised = session.startTime + 30000000000 := by
      rw [promised_replied, Session.promised, Session.leaseEnd, hlen, hb, defaultLeaseExtension]
      omega
    show P session.clientId session.startTime session.replied.promised (pauses i)
    rw [hpause, hpromised]
    exact hP session.clientId session.startTime
  | reply he' =>
    subst he'
    simp [Event.isAt] at he
  | @last i thread session hi h ht =>
    rw [← Function.update_eq_self i pauses]
    refine hp.update session.replied .returned hi h rfl rfl (hp.since i) fun hlive => ?_
    simp [ht] at hlive
  | @extend c ptr session hc h hb =>
    refine hp.of_heap rfl rfl fun q session' h' => ?_
    rw [State.setSession, getElem?_store h.2] at h'
    split_ifs at h' with hq
    · obtain rfl := Option.some.inj h'
      subst hq
      refine ⟨session, h.2, rfl, fun hl => ⟨hl, fun phase pause hf => ?_⟩⟩
      have hlive : session.terminated = false := hl
      cases phase with
      | launched => exact absurd hf.2.2 hb
      | looping =>
        show P session.clientId session.startTime session.extend.promised pause
        rw [promised_extend hlive hb]
        exact hf
      | returned => exact hf
    · exact ⟨session', h', rfl, fun hlive => ⟨hlive, fun _ _ hf => hf⟩⟩

end Paced

namespace Clocked

/-- The session that is not over and whose thread, in its loop, has the turn. -/
def turning (w : Clocked) (i : ℕ) : Option Session :=
  (w.state.threads[i]?.filter fun thread => thread.phase = .looping).bind fun thread =>
    w.state.sessionHeap[thread.session]?.filter fun session => !session.terminated

/-- What a turn that does not end the session owes to its new readings. -/
def Keeps (P : Str → ℤ → ℤ → Option Pause → Prop) (w : Clocked) : Event → Prop
  | .turn i now' => ∀ session ∈ w.turning i, session.startTime ≤ w.clock →
    timeUntilExpire session w.clock now' ≠ 0 →
    P session.clientId session.startTime session.promised (w.pauses i) →
    P session.clientId session.startTime
      (if timeUntilExpire session w.clock now' ≤ 1000000000 then
        session.promised + 15000000000 else session.promised) (some ⟨w.clock, now'⟩)
  | _ => True

section Next

variable {P : Str → ℤ → ℤ → Option Pause → Prop} {cfg : Config} {w w' : Clocked} {i : ℕ} {now' : ℤ}

theorem mem_turning {session : Session} : session ∈ w.turning i ↔
    ∃ thread, w.state.threads[i]? = some thread ∧ thread.phase = .looping ∧
      w.state.sessionHeap[thread.session]? = some session ∧ session.terminated = false := by
  simp [turning, Option.bind_eq_some_iff, Option.filter_eq_some_iff, and_assoc]

theorem turn_spec (h : w.next cfg (.turn i now') = some w') :
    w.clock ≤ now' ∧ (∀ pause, w.pauses i = some pause → pause.since + 1000000000 ≤ w.clock) ∧
      (∃ thread, w.state.threads[i]? = some thread ∧ thread.phase = .looping) ∧
      ∃ state, LockService.next cfg w.state (.maintainLoop i w.clock now') = some state ∧
        w' = ⟨state, now', Function.update w.pauses i (some ⟨w.clock, now'⟩)⟩ := by
  simp only [next] at h
  split_ifs at h with hguard
  obtain ⟨hrested, hle⟩ := hguard
  obtain ⟨state, hstate, rfl⟩ := Option.map_eq_some_iff.mp h
  simp only [rested, Bool.and_eq_true, Option.any_eq_true, decide_eq_true_eq] at hrested
  refine ⟨hle, fun pause hp => ?_, hrested.1, state, hstate, rfl⟩
  simpa [hp] using hrested.2

theorem paced_turn (hs : w.state.WellFormed) (hp : Paced P w.clock w.pauses w.state)
    (hP : ∀ c start, P c start (start + 30000000000) none) (hkeeps : w.Keeps P (.turn i now'))
    (h : w.next cfg (.turn i now') = some w') : Paced P w'.clock w'.pauses w'.state := by
  obtain ⟨hle, -, ⟨thread, hi, hphase⟩, state, hstate, rfl⟩ := turn_spec h
  obtain ⟨c, hc⟩ := hs.maintained hi
  obtain ⟨session, hsession, -⟩ := hs.registered hc
  have hsince : ∀ p, some (⟨w.clock, now'⟩ : Pause) = some p → p.since ≤ now' := by
    intro p hp
    exact (Option.some.inj hp) ▸ Int.le_refl _
  rw [← survivor_eq hstate]
  dsimp only
  by_cases hzero : timeUntilExpire session w.clock now' = 0
  · have hm : Moves cfg (.closeSession c) w.state _ :=
      maintainLoop_timedOut hs hi hphase hsession hzero
    have hp' := (hm.invariant (fun _ _ hs hI h => Paced.move hP rfl hs hI h) hs hp).2.mono hle
    obtain ⟨thread', session', hi', h', hterm⟩ :=
      @maintainLoop_over cfg _ _ hs _ _ _ _ hi hphase hsession hzero
    rw [← setPhase_self hi', ← setSession_self h']
    refine hp'.update session' thread'.phase hi' h' rfl rfl hsince fun hlive => ?_
    simp [hterm] at hlive
  have hstarted := hp.started hsession
  replace hp := hp.mono hle
  have hfits : session.terminated = false → P session.clientId session.startTime
      (if timeUntilExpire session w.clock now' ≤ 1000000000 then
        session.promised + 15000000000 else session.promised) (some ⟨w.clock, now'⟩) := by
    intro hlive
    have hf := hp.fits hi hsession hlive
    rw [hphase] at hf
    exact hkeeps session (mem_turning.mpr ⟨thread, hi, hphase, hsession, hlive⟩)
      hstarted hzero hf
  simp only [maintainLoop, hi, hphase, hsession, if_true, if_neg hzero]
  split_ifs at hfits ⊢ with hlate
  · simp only [putReply, hsession]
    have hp' := hp.update session.replied .looping hi hsession rfl rfl hsince fun hlive => by
      show P session.clientId session.startTime session.replied.promised _
      rw [promised_replied]
      exact hfits hlive
    have hi' : (w.state.setSession thread.session session.replied).threads[i]? = some thread := hi
    rwa [← hphase, setPhase_self hi'] at hp'
  · have hp' := hp.update session .looping hi hsession rfl rfl hsince hfits
    rwa [← hphase, setSession_self hsession, setPhase_self hi] at hp'

/-- What every turn keeps holds after any event. -/
theorem paced_next (hP : ∀ c start, P c start (start + 30000000000) none)
    (hs : w.state.WellFormed) (hp : Paced P w.clock w.pauses w.state) {e : Event}
    (hkeeps : w.Keeps P e) (h : w.next cfg e = some w') :
    w'.state.WellFormed ∧ Paced P w'.clock w'.pauses w'.state := by
  cases e with
  | tick now =>
    simp only [next] at h
    split_ifs at h with hle
    obtain rfl := Option.some.inj h
    exact ⟨hs, hp.mono hle⟩
  | serve e =>
    simp only [next] at h
    split_ifs at h with hat
    obtain ⟨state, hstate, rfl⟩ := Option.map_eq_some_iff.mp h
    exact next_invariant (fun _ _ hs hI h => Paced.move hP hat hs hI h) hs hp hstate
  | turn i now' =>
    refine ⟨?_, paced_turn hs hp hP hkeeps h⟩
    obtain ⟨-, -, -, state, hstate, rfl⟩ := turn_spec h
    exact wellFormed_next hs hstate

end Next

end Clocked

end LockService
