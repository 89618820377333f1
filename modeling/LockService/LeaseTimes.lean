import LockService.Clocked

/-!
# How long a lease can run

Whatever the client does and however the thread sleeps, a lease never ends more than 31 s ahead,
and counting every reply in the channel it does not either: a reply is put in the last second of
the lease, when at most one other can be waiting (`ahead_le`). A thread that wakes up with more than
a second left sleeps for up to two, so a client that takes every reply at once is timed out all the
same unless each of the ends its lease can have is met in its last second (`spared_iff_punctual`).
-/

namespace LockService

namespace Clocked

section Ahead

variable {cfg : Config} {w w' : Clocked} {c : Str} {ptr : SessionPtr} {session : Session}

/-- The end a session is promised is at most 31 s after its thread last read the clock. -/
def Ahead (_ : Str) (start promised : ℤ) : Option Pause → Prop
  | none => promised = start + 30000000000
  | some pause => promised ≤ pause.since + 31000000000

theorem ahead_keeps {e : Event} (h : w.next cfg e = some w') : w.Keeps Ahead e := by
  cases e with
  | turn i now' =>
    obtain ⟨hle, hrested, -⟩ := turn_spec h
    intro session _ hstarted hne hahead
    have hpromised : session.promised ≤ w.clock + 30000000000 := by
      rcases hpause : w.pauses i with _ | pause <;> rw [hpause] at hahead
      · have hend : session.promised = session.startTime + 30000000000 := hahead
        omega
      · have hend : session.promised ≤ pause.since + 31000000000 := hahead
        have := hrested pause hpause
        omega
    show _ ≤ now' + 31000000000
    split_ifs with hlast
    · have hover : session.leaseEnd > w.clock := by
        by_contra hno
        exact hne (if_neg hno)
      have hleft : timeUntilExpire session w.clock now' = session.leaseEnd - now' := if_pos hover
      rw [hleft] at hlast
      rw [Session.promised] at hpromised ⊢
      omega
    · omega
  | _ => trivial

/-- The event may take a reply for the client. -/
def Event.Asks (c : Str) : Event → Prop
  | .serve e => e.Extends c
  | _ => False

theorem leaseEnd_move {e : LockService.Event} {s s' : State} {t : ℤ} (hno : ¬ e.Extends c)
    (hs : s.WellFormed) (h : Move cfg e s s')
    (hend : ∃ session, s.Registered c ptr session ∧ session.leaseEnd = t) :
    ∃ session, s'.Registered c ptr session ∧ session.leaseEnd = t := by
  obtain ⟨session, hreg, rfl⟩ := hend
  have hset : ∀ {q session₀ session₁}, s.sessionHeap[q]? = some session₀ →
      (q = ptr → session₁.leaseEnd = session₀.leaseEnd) →
      ∃ session', (s.setSession q session₁).Registered c ptr session' ∧
        session'.leaseEnd = session.leaseEnd := by
    intro q session₀ session₁ h₀ he
    by_cases hq : ptr = q
    · subst hq
      obtain rfl := Option.some.inj (hreg.2.symm.trans h₀)
      exact ⟨session₁, registered_setSession hreg session₁, he rfl⟩
    · exact ⟨session, ⟨hreg.1, by rw [State.setSession, getElem?_store h₀, if_neg hq, hreg.2]⟩, rfl⟩
  cases h with
  | effect hnote hstart h =>
    have hptr := effect_registered h hreg.1
    obtain ⟨session', h', -⟩ := (hs.effect h).registered hptr
    obtain ⟨session₀, h₀, hr⟩ := effect_rests hnote hstart h h'
    obtain rfl := Option.some.inj (hreg.2.symm.trans h₀)
    refine ⟨session', ⟨hptr, h'⟩, ?_⟩
    rw [Session.leaseEnd, hr.startTime, hr.leaseLength]
    rfl
  | @start d now _ h =>
    have he : Effect cfg s (.start d) (s.start d now) := .start d now h
    exact ⟨session, ⟨effect_registered he hreg.1, getElem?_alloc_of_some hreg.2 _⟩, rfl⟩
  | launch _ _ h => exact hset h fun _ => rfl
  | reply _ _ _ h => exact hset h fun _ => rfl
  | last _ h => exact hset h fun _ => rfl
  | @extend d q session₀ he h hb =>
    refine hset h.2 fun hq => ?_
    subst hq
    obtain rfl := hs.eq_of_ptr h.1 hreg.1
    exact absurd he hno

theorem leaseEnd_next {e : Event} {t : ℤ} (hno : ¬ e.Asks c) (hs : w.state.WellFormed)
    (hend : ∃ session, w.state.Registered c ptr session ∧ session.leaseEnd = t)
    (h : w.next cfg e = some w') : w'.state.WellFormed ∧
      ∃ session, w'.state.Registered c ptr session ∧ session.leaseEnd = t := by
  cases e with
  | tick now =>
    simp only [next] at h
    split_ifs at h
    obtain rfl := Option.some.inj h
    exact ⟨hs, hend⟩
  | serve e =>
    simp only [next] at h
    split_ifs at h
    obtain ⟨state, hstate, rfl⟩ := Option.map_eq_some_iff.mp h
    exact next_invariant (fun _ _ hs hI h => leaseEnd_move hno hs h hI) hs hend hstate
  | turn i now' =>
    obtain ⟨-, -, -, state, hstate, rfl⟩ := turn_spec h
    refine next_invariant (fun _ _ hs hI h => leaseEnd_move ?_ hs h hI) hs hend hstate
    simp [LockService.Event.Extends]

theorem ahead_run {files : FileTree} {clock : ℤ} {es : List Event}
    (h : Run.run (next cfg) (initial files clock) es = some w) :
    w.state.WellFormed ∧ Paced Ahead w.clock w.pauses w.state := by
  refine Run.invariant (I := fun w => w.state.WellFormed ∧ Paced Ahead w.clock w.pauses w.state)
    ?_ ⟨.initial files, .initial files clock⟩ Run.along_true h
  intro w e w' ⟨hs, hp⟩ _ hn
  exact paced_next (fun _ _ => rfl) hs hp (ahead_keeps hn) hn

theorem promised_le (hp : Paced Ahead w.clock w.pauses w.state)
    (hreg : w.state.Registered c ptr session) (hlive : session.terminated = false) :
    session.promised ≤ w.clock + 31000000000 := by
  obtain ⟨i, thread, hi, rfl⟩ := hp.attended hreg hlive
  have hstarted := hp.started hreg.2
  have hfits := hp.fits hi hreg.2 hlive
  rcases hphase : thread.phase with _ | _ | _ <;> rw [hphase] at hfits
  · obtain ⟨-, hlen, hb⟩ := hfits
    rw [Session.promised, Session.leaseEnd, hlen, hb, defaultLeaseExtension]
    omega
  · rcases hpause : w.pauses i with _ | pause <;> rw [hpause] at hfits
    · have hend : session.promised = session.startTime + 30000000000 := hfits
      omega
    · have hend : session.promised ≤ pause.since + 31000000000 := hfits
      have := hp.since i pause hpause
      omega
  · exact absurd hfits id

/-- A lease and what waits in the channel end at most 31 s from now, and without the client the
lease stays what it is. -/
theorem ahead_le {files : FileTree} {clock : ℤ} {es : List Event}
    (h : Run.run (next cfg) (initial files clock) es = some w)
    (hreg : w.state.Registered c ptr session) (hlive : session.terminated = false) :
    session.leaseEnd ≤ w.clock + 31000000000 ∧
      session.leaseEnd + session.blockReply * 15000000000 ≤ w.clock + 31000000000 ∧
      ∀ es' w' session', (∀ e ∈ es', ¬ e.Asks c) → Run.run (next cfg) w es' = some w' →
        w'.state.Registered c ptr session' → session'.leaseEnd ≤ w.clock + 31000000000 := by
  obtain ⟨hs, hp⟩ := ahead_run h
  have hpromised := promised_le hp hreg hlive
  rw [Session.promised] at hpromised
  refine ⟨by omega, hpromised, fun es' w' session' hno hrun hreg' => ?_⟩
  have hlater := Run.invariant (P := fun _ e _ => ¬ e.Asks c)
    (I := fun w => w.state.WellFormed ∧
      ∃ session₁, w.state.Registered c ptr session₁ ∧ session₁.leaseEnd = session.leaseEnd)
    (fun _ _ _ hI hP hn => leaseEnd_next hP hI.1 hI.2 hn) ⟨hs, session, hreg, rfl⟩
    (Run.along_of_forall hno) hrun
  obtain ⟨-, session₁, hreg₁, he⟩ := hlater
  obtain ⟨-, rfl⟩ := hreg'.unique hreg₁
  omega

/-- A client that never answers, when the second reply is put: the bound is met. -/
theorem ahead_le_unanswered : ∃ w ptr session, Run.run (next sampleConfig) (initial .empty 0)
      [.serve (.initSession true [1] 0), .serve (.maintainStart 0), .tick 14000000000,
        .turn 0 14000000000] = some w ∧
    w.state.Registered [1] ptr session ∧ session.promised = w.clock + 31000000000 ∧
    session.leaseEnd ≤ w.clock + 31000000000 := by
  obtain ⟨w, hw, hcheck⟩ := (Option.any_eq_true _ _).mp (by decide +kernel :
    (Run.run (next sampleConfig) (initial .empty 0)
      [.serve (.initSession true [1] 0), .serve (.maintainStart 0), .tick 14000000000,
        .turn 0 14000000000]).any fun w =>
      (w.state.sessions[([1] : Str)]?).any fun ptr => (w.state.sessionHeap[ptr]?).any fun session =>
        session.terminated = false ∧ session.promised = w.clock + 31000000000)
  simp only [Option.any_eq_true, decide_eq_true_eq] at hcheck
  obtain ⟨ptr, hptr, session, hsession, hlive, hpromised⟩ := hcheck
  exact ⟨w, ptr, session, hw, ⟨hptr, hsession⟩, hpromised, (ahead_le hw ⟨hptr, hsession⟩ hlive).1⟩

end Ahead

section Responsive

variable (c : Str)

/-- A condition on every turn on a session of the client's that is not over. -/
def AtTurns (Q : Clocked → ℕ → ℤ → Session → Prop) (w : Clocked) : Event → Prop
  | .turn i now' => ∀ session ∈ w.turning i, session.clientId = c → Q w i now' session
  | _ => True

instance {Q : Clocked → ℕ → ℤ → Session → Prop}
    [∀ w i now' session, Decidable (Q w i now' session)] (w : Clocked) :
    ∀ e, Decidable (AtTurns c Q w e)
  | .tick _ => isTrue trivial
  | .serve _ => isTrue trivial
  | .turn i now' => decidable_of_iff
      ((w.turning i).all fun session => decide (session.clientId = c → Q w i now' session)) <| by
    simp only [AtTurns, Option.all_eq_true, decide_eq_true_eq]
    rfl

/-- The client has taken every reply when its session's thread wakes up, within two seconds. -/
abbrev Responsive : Clocked → Event → Prop := AtTurns c fun w i _ session =>
  session.blockReply = 0 ∧ (w.pauses i).all fun pause => w.clock < pause.since + 2000000000

/-- No turn times the client out. -/
abbrev Spared : Clocked → Event → Prop := AtTurns c fun w _ now' session =>
  timeUntilExpire session w.clock now' ≠ 0

/-- The first after a time of the ends a lease can have once the first reply was taken: 30 s after
the start, 45 s, and so on. -/
def endAfter (start now : ℤ) : ℤ := start + 15000000000 * max 2 ((now - start) / 15000000000 + 1)

/-- The end that has to be met next: the one after that if the last turn met one in its last
second. -/
def due (start : ℤ) : Option Pause → ℤ
  | none => start + 30000000000
  | some pause =>
    if endAfter start pause.read ≤ pause.since + 1000000000 then
      endAfter start pause.read + 15000000000
    else endAfter start pause.read

/-- The thread reads the clock before the end that is due, and not again just at it. -/
abbrev Punctual : Clocked → Event → Prop := AtTurns c fun w i now' session =>
  w.clock < due session.startTime (w.pauses i) ∧ now' ≠ due session.startTime (w.pauses i)

/-- The client was promised the end that is due. -/
def OnTime (d : Str) (start promised : ℤ) (pause : Option Pause) : Prop :=
  d = c → promised = due start pause ∧ ∀ p ∈ pause, p.read ≤ p.since

variable {c} {cfg : Config} {w w' : Clocked}

theorem endAfter_due {start now : ℤ} {pause : Option Pause} (hnow : now < due start pause)
    (hread : ∀ p ∈ pause, p.read ≤ p.since ∧ p.since + 1000000000 ≤ now) :
    endAfter start now = due start pause := by
  rcases pause with _ | pause
  · simp only [due, endAfter] at *
    omega
  · obtain ⟨hle, hslept⟩ := hread pause rfl
    unfold due at *
    dsimp only at *
    split_ifs at * <;> unfold endAfter at * <;> omega

/-- With every reply taken, the end the session was promised is the end of its lease. -/
theorem leaseEnd_of_responsive {i : ℕ} {now' : ℤ} {session : Session}
    (hr : Responsive c w (.turn i now')) (hturn : session ∈ w.turning i)
    (hc : session.clientId = c)
    (hon : OnTime c session.clientId session.startTime session.promised (w.pauses i)) :
    session.leaseEnd = due session.startTime (w.pauses i) := by
  have hpromised := (hon hc).1
  rw [Session.promised, (hr session hturn hc).1] at hpromised
  omega

theorem onTime_keeps {e : Event} (hr : Responsive c w e) (h : w.next cfg e = some w') :
    w.Keeps (OnTime c) e := by
  cases e with
  | turn i now' =>
    obtain ⟨hle, hrested, -⟩ := turn_spec h
    intro session hturn _ hne hon hc
    have hend := leaseEnd_of_responsive hr hturn hc hon
    obtain ⟨hpromised, hread⟩ := hon hc
    have hover : session.leaseEnd > w.clock := by
      by_contra hno
      exact hne (if_neg hno)
    have hleft : timeUntilExpire session w.clock now' = session.leaseEnd - now' := if_pos hover
    have hmet : endAfter session.startTime w.clock = due session.startTime (w.pauses i) :=
      endAfter_due (by omega) fun p hp => ⟨hread p hp, hrested p hp⟩
    refine ⟨?_, fun p hp => ?_⟩
    · have hdue : due session.startTime (some ⟨w.clock, now'⟩) =
          if endAfter session.startTime w.clock ≤ now' + 1000000000 then
            endAfter session.startTime w.clock + 15000000000
          else endAfter session.startTime w.clock := rfl
      rw [hdue, hmet, hleft, hpromised, hend]
      split_ifs <;> omega
    · obtain rfl := Option.some.inj hp
      exact hle
  | _ => trivial

theorem spared_iff {e : Event} (hr : Responsive c w e)
    (hp : Paced (OnTime c) w.clock w.pauses w.state) : Spared c w e ↔ Punctual c w e := by
  cases e with
  | turn i now' =>
    refine forall_congr' fun session => forall_congr' fun hturn => forall_congr' fun hc => ?_
    obtain ⟨thread, hi, hphase, hsession, hlive⟩ := mem_turning.mp hturn
    have hon := hp.fits hi hsession hlive
    rw [hphase] at hon
    have hend := leaseEnd_of_responsive hr hturn hc hon
    show timeUntilExpire session w.clock now' ≠ 0 ↔ w.clock < due session.startTime (w.pauses i) ∧
      now' ≠ due session.startTime (w.pauses i)
    rw [← hend, timeUntilExpire, Session.leaseEnd]
    split_ifs <;> omega
  | _ => exact Iff.rfl

/-- A client that takes every reply is spared just when its session's thread is punctual. -/
theorem spared_iff_punctual {files : FileTree} {clock : ℤ} {es : List Event}
    (hr : Run.Along (next cfg) (fun w e _ => Responsive c w e) (initial files clock) es) :
    Run.Along (next cfg) (fun w e _ => Spared c w e) (initial files clock) es ↔
      Run.Along (next cfg) (fun w e _ => Punctual c w e) (initial files clock) es := by
  refine Run.along_congr (I := fun w => w.state.WellFormed ∧
    Paced (OnTime c) w.clock w.pauses w.state) ?_ ⟨.initial files, .initial files clock⟩ hr
  intro w e w' hI hr h
  refine ⟨spared_iff hr hI.2, fun _ => ?_⟩
  exact paced_next (fun _ _ _ => ⟨rfl, by simp⟩) hI.1 hI.2 (onTime_keeps hr h) h

end Responsive

/-- A client that takes its replies as they come, and a thread that wakes up at these times. -/
def sampleTurns (times : List ℤ) : List Event :=
  [.serve (.initSession true [1] 0), .serve (.maintainStart 0),
    .serve (.keepAlive true false [1] ⟨[], List.nodup_nil⟩ 0)] ++ times.flatMap fun now =>
    [.tick now, .turn 0 now, .serve (.keepAlive true false [1] ⟨[], List.nodup_nil⟩ now)]

/-- Sleeps of a second meet the end in its last second. -/
theorem spared_iff_punctual_each_second : Run.Along (next sampleConfig)
    (fun w e _ => Spared [1] w e) (initial .empty 0)
    (sampleTurns ((List.range 32).map fun k : ℕ => 1000000000 * (k : ℤ))) :=
  (spared_iff_punctual (by decide +kernel)).mpr (by decide +kernel)

/-- With sleeps of 1.9 s the last begins 1.5 s before the lease ends. -/
theorem not_spared_overslept :
    Run.Along (next sampleConfig) (fun w e _ => Responsive [1] w e) (initial .empty 0)
      (sampleTurns ((List.range 17).map fun k : ℕ => 1900000000 * (k : ℤ))) ∧
    ¬ Run.Along (next sampleConfig) (fun w e _ => Spared [1] w e) (initial .empty 0)
      (sampleTurns ((List.range 17).map fun k : ℕ => 1900000000 * (k : ℤ))) := by
  decide +kernel

end Clocked

end LockService
