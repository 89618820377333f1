import LockService.Traces

/-!
# Acknowledged requests and the entries behind them

`write` and `open_lock` hand an entry to Raft and go on whatever comes of it, so they answer OK as
soon as they get that far (`call_of_appends`): the answer tells that the entry was committed only
where it was, or where the handler had refused before (`acknowledged_iff`). While every entry is
committed a path that was opened exists, and then no second `open_lock` of it is answered OK.
-/

namespace LockService

/-- A request that appends a `WRITE` entry to the log. -/
inductive Request where
  | write (clientId path content : Str)
  | openLock (clientId path : Str)

namespace Request

def call (cfg : Config) (s : State) (answer : RaftAnswer) : Request → Result Status
  | write clientId path content => LockService.write cfg s clientId path content answer
  | openLock clientId path => LockService.openLock cfg s clientId path answer

/-- The entry it appends. -/
def entry : Request → OpPayload
  | write _ path content => ⟨.write, path, content⟩
  | openLock _ path => ⟨.write, path, []⟩

/-- The handler does not refuse before it gets to `append_log`. -/
def Accepted (cfg : Config) (s : State) : Request → Prop
  | write clientId path _ => ∃ ptr session l lock, s.Registered clientId ptr session ∧
      isExists cfg s.files path = true ∧ ownedLock s session clientId path = .ok (l, lock)
  | openLock clientId path => (∃ ptr session, s.Registered clientId ptr session) ∧
      isExists cfg s.files path = false

/-- An entry of the request reaches Raft. -/
def Appends (cfg : Config) (s : State) (r : Request) : Prop := r.Accepted cfg s ∧ r.entry.Fits

end Request

instance (cfg : Config) (s : State) : (r : Request) → Decidable (r.Accepted cfg s)
  | .write c path _ => decidable_of_iff
    ((s.sessions[c]?.bind fun ptr => s.sessionHeap[ptr]?).any fun session =>
      isExists cfg s.files path && (ownedLock s session c path).isOk) <| by
    simp only [Option.any_eq_true, Option.bind_eq_some_iff, Bool.and_eq_true, Request.Accepted,
      State.Registered]
    constructor
    · rintro ⟨session, ⟨ptr, hptr, hsession⟩, hx, ho⟩
      rcases hown : ownedLock s session c path with m | ⟨l, lock⟩
      · simp [hown, Except.isOk, Except.toBool] at ho
      · exact ⟨ptr, session, l, lock, ⟨hptr, hsession⟩, hx, hown⟩
    · rintro ⟨ptr, session, l, lock, ⟨hptr, hsession⟩, hx, hown⟩
      exact ⟨session, ⟨ptr, hptr, hsession⟩, hx, by simp [hown, Except.isOk, Except.toBool]⟩
  | .openLock c path => decidable_of_iff
    ((s.sessions[c]?.bind fun ptr => s.sessionHeap[ptr]?).isSome = true ∧
      isExists cfg s.files path = false) <| by
    simp only [Option.isSome_iff_exists, Option.bind_eq_some_iff, Request.Accepted,
      State.Registered]
    constructor
    · rintro ⟨⟨session, ptr, hptr, hsession⟩, hx⟩
      exact ⟨⟨ptr, session, hptr, hsession⟩, hx⟩
    · rintro ⟨⟨ptr, session, hptr, hsession⟩, hx⟩
      exact ⟨⟨session, ptr, hptr, hsession⟩, hx⟩

instance (cfg : Config) (s : State) (r : Request) : Decidable (r.Appends cfg s) :=
  inferInstanceAs (Decidable (_ ∧ _))

/-- The entry was accepted and committed. -/
def RaftAnswer.IsCommitted (answer : RaftAnswer) : Prop := ∃ random, answer = .committed random

/-- An OK tells that the entry was committed, and where it was not, no table has changed. -/
def Acknowledged (cfg : Config) (s : State) (r : Request) (answer : RaftAnswer) : Prop :=
  ((r.call cfg s answer).1 = .ok .ok → answer.IsCommitted) ∧
  (¬ answer.IsCommitted → (r.call cfg s answer).1 ≠ .ok .ok ∧
    (r.call cfg s answer).2.locks = s.locks ∧
    (r.call cfg s answer).2.sessionHeap.map Session.locks = s.sessionHeap.map Session.locks)

/-- The entry was committed, or none reaches Raft. -/
def Replicated (cfg : Config) (s : State) (r : Request) (answer : RaftAnswer) : Prop :=
  answer.IsCommitted ∨ ¬ r.Appends cfg s

section Append

variable {cfg : Config} {s s' : State} {files files' : FileTree} {payload : OpPayload}
  {answer : RaftAnswer} {r : Request}

theorem fits_of_appendLog (h : appendLog cfg files payload answer = .ok files') :
    payload.Fits := by
  unfold appendLog at h
  split at h
  · cases h
  · rename_i log hlog
    exact (isSome_encLog payload).mp (by simp [hlog])

/-- Without a commit the append has no effect and no result. -/
theorem appendLog_not_committed (hf : payload.Fits) (ha : ¬ answer.IsCommitted) :
    appendLog cfg files payload answer = .ok files := by
  obtain ⟨log, hlog⟩ := Option.isSome_iff_exists.mp ((isSome_encLog payload).mpr hf)
  unfold appendLog
  rw [hlog]
  rcases answer with _ | _ | random
  · rfl
  · rfl
  · exact absurd ⟨random, rfl⟩ ha

/-- With one it is what the state machine makes of the entry, and what that throws ends the
process. -/
theorem appendLog_commit {random : ℕ} (hf : payload.Fits) :
    appendLog cfg files payload (.committed random) =
      (commitFiles cfg files payload random).mapError fun _ => .stateMachine := by
  obtain ⟨log, hlog⟩ := Option.isSome_iff_exists.mp ((isSome_encLog payload).mpr hf)
  simp only [appendLog, hlog, decLog_encLog hlog]

theorem appendLog_committed {random : ℕ}
    (h : appendLog cfg files payload (.committed random) = .ok files') :
    commitFiles cfg files payload random = .ok files' := by
  rw [appendLog_commit (fits_of_appendLog h)] at h
  rcases hc : commitFiles cfg files payload random with f | files''
  · simp [hc, Except.mapError] at h
  · simpa [hc, Except.mapError] using h

/-- An answer OK means no more than that the entry got to Raft. -/
theorem call_of_appends (h : r.Appends cfg s) (ha : ¬ answer.IsCommitted) :
    (r.call cfg s answer).1 = .ok .ok := by
  obtain ⟨hacc, hfits⟩ := h
  rcases r with ⟨c, path, content⟩ | ⟨c, path⟩
  · obtain ⟨ptr, session, l, lock, h, hx, ho⟩ := hacc
    have happ : appendLog cfg s.files ⟨.write, path, content⟩ answer = .ok s.files :=
      appendLog_not_committed hfits ha
    simp only [Request.call, write, withSession_registered h, if_pos hx, ho, happ]
  · obtain ⟨⟨ptr, session, h⟩, hx⟩ := hacc
    have happ : appendLog cfg s.files ⟨.write, path, []⟩ answer = .ok s.files :=
      appendLog_not_committed hfits ha
    rw [Request.call, openLock, withSession_registered h, if_neg (by simp [hx]), happ]

theorem refused_of_not_appends (hs : s.WellFormed) (answer : RaftAnswer) (h : ¬ r.Appends cfg s) :
    (r.call cfg s answer).Refused s := by
  rcases r with ⟨c, path, content⟩ | ⟨c, path⟩
  · rcases write_cases cfg c path hs content answer with
      hr | ⟨ptr, session, l, lock, files, hreg, hx, ho, hf, -⟩
    · exact hr
    · exact absurd ⟨⟨ptr, session, l, lock, hreg, hx, ho⟩, fits_of_appendLog hf⟩ h
  · rcases openLock_cases cfg c path hs answer with
      hr | ⟨ptr, session, files, hreg, hx, hf, -⟩
    · exact hr
    · exact absurd ⟨⟨⟨ptr, session, hreg⟩, hx⟩, fits_of_appendLog hf⟩ h

theorem acknowledged_iff_replicated (hs : s.WellFormed) :
    Acknowledged cfg s r answer ↔ Replicated cfg s r answer := by
  constructor
  · rintro ⟨hok, -⟩
    by_contra hno
    rw [Replicated, not_or, not_not] at hno
    exact hno.1 (hok (call_of_appends hno.2 hno.1))
  · intro h
    refine ⟨fun hok => h.resolve_right fun hn => (refused_of_not_appends hs answer hn).1 hok,
      fun ha => ?_⟩
    have hr := refused_of_not_appends hs answer (h.resolve_left ha)
    exact ⟨hr.1, by rw [hr.2], by rw [hr.2]⟩

end Append

/-- The event is an `open_lock` of the path and answered OK. -/
def Event.opens (cfg : Config) (s : State) (path : Str) : Event → Bool
  | .openLock c p answer => p = path ∧ (LockService.openLock cfg s c p answer).1 = .ok .ok
  | _ => false

/-- How many `open_lock`s of a path a run answers OK. -/
def okOpens (cfg : Config) (path : Str) : State → List Event → ℕ
  | _, [] => 0
  | s, e :: es => (if e.opens cfg s path then 1 else 0) +
      match next cfg s e with
      | none => 0
      | some s' => okOpens cfg path s' es

/-- An `open_lock` of the path has its entry committed, with a temporary file that does not take
the name of a directory; and the step does not take the path away. -/
structure KeepsOpened (cfg : Config) (path : Str) (s : State) (e : Event) (s' : State) : Prop where
  replicated : ∀ c answer, e = .openLock c path answer → Replicated cfg s (.openLock c path) answer
  tempFree : ∀ c random, e = .openLock c path (.committed random) →
    TempFree s.files (cfg.mappedPath path) random
  kept : isExists cfg s.files path = true → isExists cfg s'.files path = true

section Opens

variable {cfg : Config} {s s' : State} {path : Str} {e : Event}

theorem opens_eq_true (h : e.opens cfg s path = true) :
    ∃ c answer, e = .openLock c path answer ∧ (openLock cfg s c path answer).1 = .ok .ok := by
  unfold Event.opens at h
  split at h
  · rename_i c p answer
    obtain ⟨rfl, hok⟩ := of_decide_eq_true h
    exact ⟨c, answer, rfl, hok⟩
  · cases h

theorem not_opens_of_exists (hs : s.WellFormed) (hx : isExists cfg s.files path = true) :
    e.opens cfg s path = false := by
  rcases ho : e.opens cfg s path with _ | _
  · rfl
  · obtain ⟨c, answer, -, hok⟩ := opens_eq_true ho
    rcases openLock_cases cfg c path hs answer with hr | ⟨_, _, _, -, hx', -⟩
    · exact absurd hok hr.1
    · simp [hx'] at hx

/-- A path just opened exists. -/
theorem exists_of_opens (hs : s.WellFormed) (ho : e.opens cfg s path = true)
    (h : next cfg s e = some s') (hk : KeepsOpened cfg path s e s') :
    isExists cfg s'.files path = true := by
  obtain ⟨c, answer, rfl, hok⟩ := opens_eq_true ho
  rcases openLock_cases cfg c path hs answer with hr | ⟨ptr, session, files, hreg, hx, hf, he⟩
  · exact absurd hok hr.1
  obtain ⟨random, rfl⟩ := (hk.replicated c answer rfl).resolve_right
    fun hn => hn ⟨⟨⟨ptr, session, hreg⟩, hx⟩, fits_of_appendLog hf⟩
  have hfiles : s'.files = files := by
    rw [← survivor_eq h, he]
    rfl
  rw [hfiles]
  exact isPresent_of_commitWrite (mappedPath_ne_nil cfg path) (hk.tempFree c random rfl)
    (appendLog_committed hf)

theorem okOpens_of_exists :
    ∀ (es : List Event) {s : State}, s.WellFormed → isExists cfg s.files path = true →
      Run.Along (next cfg) (KeepsOpened cfg path) s es → okOpens cfg path s es = 0
  | [], _, _, _, _ => rfl
  | e :: es, s, hs, hx, h => by
    rw [okOpens, not_opens_of_exists hs hx, if_neg Bool.false_ne_true, Nat.zero_add]
    split
    · rfl
    · rename_i s' hn
      obtain ⟨hk, h⟩ := h s' hn
      exact okOpens_of_exists es (wellFormed_next hs hn) (hk.kept hx) h

theorem okOpens_le_one :
    ∀ (es : List Event) {s : State}, s.WellFormed →
      Run.Along (next cfg) (KeepsOpened cfg path) s es → okOpens cfg path s es ≤ 1
  | [], _, _, _ => Nat.zero_le 1
  | e :: es, s, hs, h => by
    rw [okOpens]
    rcases hn : next cfg s e with _ | s'
    · split_ifs <;> simp
    obtain ⟨hk, h⟩ := h s' hn
    have hs' := wellFormed_next hs hn
    split_ifs with ho
    · simp only
      rw [okOpens_of_exists es hs' (exists_of_opens hs ho hn hk) h]
    · have := okOpens_le_one es hs' h
      simpa using this

variable (cfg) in
theorem acknowledged_iff :
    (∀ s r answer, Reachable cfg s →
      (Acknowledged cfg s r answer ↔ Replicated cfg s r answer)) ∧
    ∀ s path es, Reachable cfg s → Run.Along (next cfg) (KeepsOpened cfg path) s es →
      okOpens cfg path s es ≤ 1 :=
  ⟨fun _ _ _ hr => acknowledged_iff_replicated hr.wellFormed,
    fun _ _ es hr => okOpens_le_one es hr.wellFormed⟩

theorem acknowledged_iff_one_open : ∃ s,
    Run.run (next sampleConfig) (.initial (sampleFiles [])) [.initSession true [1] 0] = some s ∧
      (Acknowledged sampleConfig s (.openLock [1] (ascii ['b'])) .rejected ↔
        Replicated sampleConfig s (.openLock [1] (ascii ['b'])) .rejected) ∧
      okOpens sampleConfig (ascii ['b']) s [.openLock [1] (ascii ['b']) (.committed 0)] ≤ 1 := by
  obtain ⟨s, hs, hx⟩ := (Option.any_eq_true _ _).mp (by decide :
    (Run.run (next sampleConfig) (.initial (sampleFiles [])) [.initSession true [1] 0]).any
      fun s => isExists sampleConfig s.files (ascii ['b']) = false ∧
        TempFree s.files (sampleConfig.mappedPath (ascii ['b'])) 0)
  obtain ⟨hx, htemp⟩ := of_decide_eq_true hx
  have hr : Reachable sampleConfig s := ⟨_, _, hs⟩
  refine ⟨s, hs, (acknowledged_iff sampleConfig).1 s _ _ hr,
    (acknowledged_iff sampleConfig).2 s _ _ hr fun s' _ => ⟨⟨?_, ?_, ?_⟩, trivial⟩⟩
  · rintro c answer he
    cases he
    exact .inl ⟨0, rfl⟩
  · rintro c random he
    cases he
    exact htemp
  · intro h
    simp [hx] at h

/-- The leader refuses the entry, and `open_lock` is answered OK. -/
theorem not_acknowledged_rejected : ∃ s, Reachable sampleConfig s ∧
    ¬ Acknowledged sampleConfig s (.openLock [1] (ascii ['b'])) .rejected := by
  obtain ⟨s, hs, hok⟩ := (Option.any_eq_true _ _).mp (by decide :
    (Run.run (next sampleConfig) (.initial (sampleFiles [])) [.initSession true [1] 0]).any
      fun s => (openLock sampleConfig s [1] (ascii ['b']) .rejected).1 = .ok .ok)
  refine ⟨s, ⟨_, _, hs⟩, fun h => ?_⟩
  obtain ⟨random, hr⟩ := h.1 (of_decide_eq_true hok)
  cases hr

end Opens

end LockService
