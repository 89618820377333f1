import LockService.Requests

/-!
# Whether a created session is a new one

`create_session` makes a session and then inserts it, which changes nothing where the client has an
entry; the thread it launches works on the entry. So the session is new exactly for a client that
never had one here (`fresh_iff`), and for a client that comes back the call is answered OK and
leaves the client with the session that is over.
-/

namespace LockService

/-- After the call the client has a session of its own that starts now, with a thread on it, and no
other is created for the client until that one is over. -/
def Fresh (cfg : Config) (s : State) (c : Str) (now : ℤ) : Prop :=
  ∃ ptr, (createSession s c now).2.Registered c ptr ⟨c, now, defaultLeaseExtension, 0, ∅, false⟩ ∧
    (createSession s c now).2.threads = s.threads ++ [⟨ptr, .launched⟩] ∧
    ∀ es t session now', Run.run (next cfg) (createSession s c now).2 es = some t →
      t.sessionHeap[ptr]? = some session → session.terminated = false →
      (createSession t c now').1 = .ok (.aborted "Client has an existing session.")

section Fresh

variable {cfg : Config} {s t : State} {c : Str} {ptr : SessionPtr} {now : ℤ}

/-- A client's entry is the same to the end of a run. -/
theorem run_registered (hs : s.WellFormed) (hc : s.sessions[c]? = some ptr) {es : List Event}
    (h : Run.run (next cfg) s es = some t) : t.WellFormed ∧ t.sessions[c]? = some ptr := by
  refine Run.invariant (I := fun u => u.WellFormed ∧ u.sessions[c]? = some ptr) ?_ ⟨hs, hc⟩
    Run.along_true h
  intro u e u' ⟨hu, hc⟩ _ hn
  exact ⟨wellFormed_next hu hn, trace_registered (next_trace hu hn) hc⟩

theorem not_live_of_created (hok : (createSession s c now).1 = .ok .ok) : ¬ s.Live c := by
  intro hl
  rw [createSession_live hl] at hok
  exact absurd hok (by simp [refuse])

/-- The session is new when the client has no entry, and otherwise the old one is there. -/
theorem fresh_iff (hr : Reachable cfg s) (hok : (createSession s c now).1 = .ok .ok) :
    Fresh cfg s c now ↔ c ∉ s.sessions := by
  have hs := hr.wellFormed
  have hlive := not_live_of_created hok
  have hstart : createSession s c now = (.ok .ok, s.start c now) := createSession_start hs hlive now
  rw [Fresh, hstart]
  rcases hs.registered_or_none c with hnone | ⟨ptr, session, hreg⟩
  · refine iff_of_true ⟨s.sessionHeap.length, registered_start_new hnone now, ?_, ?_⟩
      (notMem_sessions_of_none hnone)
    · rw [State.start]
      dsimp only
      rw [Std.ExtTreeMap.getD_eq_getD_getElem?, hnone]
      rfl
    · intro es t session now' hrun hsession hterm
      have hstartWF := hs.start c now
      obtain ⟨ht, hc⟩ := run_registered hstartWF (registered_start_new hnone now).1 hrun
      rw [createSession_live ⟨_, session, ⟨hc, hsession⟩, hterm⟩]
      rfl
  · refine iff_of_false ?_ (not_not.mpr (mem_sessions_of_registered hreg))
    rintro ⟨ptr', hreg', -⟩
    obtain ⟨rfl, hsame⟩ := (registered_start_old hreg now).unique hreg'
    exact hlive ⟨ptr, session, hreg, by rw [hsame]⟩

end Fresh

theorem fresh_iff_first : Fresh sampleConfig (.initial .empty) [1] 5 :=
  (fresh_iff (reachable_initial _) (by decide)).mpr (by decide)

/-- A client that closed its session and starts again is answered OK, and its session is over. -/
theorem not_fresh_again : ∃ s, Reachable sampleConfig s ∧
    (createSession s [1] 10).1 = .ok .ok ∧ (createSession s [1] 10).2.Ended [1] ∧
    ¬ Fresh sampleConfig s [1] 10 := by
  obtain ⟨s, hs, hcheck⟩ := (Option.any_eq_true _ _).mp (by decide :
    (Run.run (next sampleConfig) (.initial .empty)
      [.initSession true [1] 0, .maintainStart 0, .closeSession [1]]).any fun s =>
        ([1] : Str) ∈ s.sessions ∧ (createSession s [1] 10).1 = .ok .ok)
  obtain ⟨hc, hok⟩ := of_decide_eq_true hcheck
  have hr : Reachable sampleConfig s := ⟨_, _, hs⟩
  have hlive := not_live_of_created hok
  obtain ⟨ptr, session, hreg, hterm⟩ := (hr.wellFormed.live_or_ended hc).resolve_left hlive
  refine ⟨s, hr, hok, ⟨ptr, session, ?_, hterm⟩, fun hf => (fresh_iff hr hok).mp hf hc⟩
  rw [createSession_start hr.wellFormed hlive]
  exact registered_start_old hreg 10

end LockService
