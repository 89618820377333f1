import LockService.Jeopardy

/-!
# Whether a request is answered, and what a failed one leaves

The tables never send a handler to a missing object, so a request goes without an answer for one
of few reasons, each with its own check on the state it meets (`Answerable`, `answered_iff`): a
read of a path that is not there throws what nothing catches, an entry does not fit the log or
cannot be committed, `remove` throws, or a release finds its path gone from the server's table.
Whatever fails does so before it changes anything (`unchanged_of_fails`).
-/

namespace LockService

open FileTree

/-- A request, with what the clock or Raft yields in it. -/
inductive Invocation where
  | createSession (clientId : Str) (now : ℤ)
  | closeSession (clientId : Str)
  | openLock (clientId path : Str) (answer : RaftAnswer)
  | deleteLock (clientId path : Str)
  | acquireLock (clientId path : Str) (mode : LockStatus)
  | releaseLock (clientId path : Str)
  | read (clientId path : Str)
  | write (clientId path content : Str) (answer : RaftAnswer)

def Result.withoutContent (r : Result Status) : Result (Status × Str) :=
  r.andThen fun status s => (.ok (status, []), s)

/-- The handler's status, and the content of a read. -/
def serve (cfg : Config) (s : State) : Invocation → Result (Status × Str)
  | .createSession c now => (createSession s c now).withoutContent
  | .closeSession c => (closeSession cfg s c).withoutContent
  | .openLock c path answer => (openLock cfg s c path answer).withoutContent
  | .deleteLock c path => (deleteLock cfg s c path).withoutContent
  | .acquireLock c path mode => (acquireLock cfg s c path mode).withoutContent
  | .releaseLock c path => (releaseLock cfg s c path).withoutContent
  | .read c path => read cfg s c path
  | .write c path content answer => (write cfg s c path content answer).withoutContent

/-- The handler returned. -/
def Result.Answered {α : Type} (r : Result α) : Prop := ∃ a, r.1 = .ok a

theorem answered_withoutContent {r : Result Status} : r.withoutContent.Answered ↔ r.Answered := by
  obtain ⟨_ | status, s⟩ := r
  · simp [Result.Answered, Result.withoutContent]
  · simp [Result.Answered, Result.withoutContent]

@[simp]
theorem answered_ok {α : Type} (a : α) (s : State) : Result.Answered (.ok a, s) := ⟨a, rfl⟩

@[simp]
theorem not_answered_error {α : Type} (f : Fault) (s : State) :
    ¬ Result.Answered ((.error f, s) : Result α) := by
  rintro ⟨a, h⟩
  cases h

/-- The entry fits the buffer of the log and, where it is committed, no regular file is in the way
of its directories. -/
def Appendable (cfg : Config) (files : FileTree) (payload : OpPayload) (answer : RaftAnswer) :
    Prop :=
  payload.Fits ∧ ∀ random, answer = .committed random →
    ∀ a ∈ madeDirs (cfg.mappedPath payload.path), ∀ content, files.node a ≠ some (.file content)

/-- What a request needs of the state it meets to be answered. -/
def Answerable (cfg : Config) (s : State) : Invocation → Prop
  | .createSession _ _ => True
  | .closeSession c => ∀ ptr session, s.Registered c ptr session → session.terminated = false →
    ∀ p ∈ reached cfg s session c, p ∈ s.locks
  | .openLock c path answer => c ∈ s.sessions → isExists cfg s.files path = false →
    Appendable cfg s.files ⟨.write, path, []⟩ answer
  | .deleteLock c path => ∀ ptr session, s.Registered c ptr session →
    ∀ l lock, session.locks[path]? = some l → s.lockHeap[l]? = some lock →
      lock.status = .exclusive → isExists cfg s.files path = false →
      ¬ RemoveFails cfg s.files path
  | .acquireLock _ _ _ => True
  | .releaseLock c path => ∀ ptr session, s.Registered c ptr session →
    releasable cfg s session c path = true → path ∈ s.locks
  | .read c path => c ∈ s.sessions → isExists cfg s.files path = true
  | .write c path content answer => ∀ ptr session, s.Registered c ptr session →
    releasable cfg s session c path = true →
    Appendable cfg s.files ⟨.write, path, content⟩ answer

section Answered

variable {cfg : Config} {s : State} {c path : Str} {ptr : SessionPtr} {session : Session}

theorem answered_appendLog {files : FileTree} {content : Str} {answer : RaftAnswer} :
    (∃ files', appendLog cfg files ⟨.write, path, content⟩ answer = .ok files') ↔
      Appendable cfg files ⟨.write, path, content⟩ answer := by
  unfold Appendable appendLog
  rcases he : encLog ⟨.write, path, content⟩ with _ | log
  · have hf : ¬ OpPayload.Fits ⟨.write, path, content⟩ := by simp [← isSome_encLog, he]
    simp [hf]
  have hf : OpPayload.Fits ⟨.write, path, content⟩ := by simp [← isSome_encLog, he]
  rcases answer with _ | _ | random
  · simp [hf]
  · simp [hf]
  have hmade := isSome_createDirectories (cSegments (cfg.mappedPath path).dropLast) (t := files)
    (m := [])
  simp only [decLog_encLog he, hf, RaftAnswer.committed.injEq, forall_eq', true_and, madeDirs,
    ← hmade, commitFiles, commitWrite]
  rcases files.createDirectories [] (cSegments (cfg.mappedPath path).dropLast) with _ | made
  · simp [Except.mapError]
  · simp [Except.mapError]

theorem isExists_iff_readContent {files : FileTree} :
    (∃ content, readContent cfg files path = .ok content) ↔ isExists cfg files path = true := by
  unfold readContent FileTree.read isExists isPresent
  rcases files.walk [] (cfg.cPath path) with e | m
  · simp [Except.isOk, Except.toBool]
  · rcases hm : files.node m with _ | _ | content <;> simp [hm, Except.isOk, Except.toBool]

theorem createSession_answered (hs : s.WellFormed) (now : ℤ) :
    (createSession s c now).Answered := by
  unfold createSession
  rcases hs.registered_or_none c with h | ⟨ptr, session, h⟩
  · simp [h]
  · simp only [h.1, h.2]
    split_ifs <;> simp [refuse]

/-- What is asked of the session a client has, asked of one. -/
theorem forall_registered {P : SessionPtr → Session → Prop} (h : s.Registered c ptr session) :
    (∀ ptr session, s.Registered c ptr session → P ptr session) ↔ P ptr session := by
  refine ⟨fun hall => hall ptr session h, fun hP ptr' session' h' => ?_⟩
  obtain ⟨rfl, rfl⟩ := h.unique h'
  exact hP

theorem closeSession_answered (hs : s.WellFormed) :
    (closeSession cfg s c).Answered ↔ Answerable cfg s (.closeSession c) := by
  rw [closeSession, Answerable]
  rcases hs.registered_or_none c with h | ⟨ptr, session, h⟩
  · simp [h, refuse, State.Registered]
  simp only [forall_registered h, h.1, h.2]
  split_ifs with ht
  · simp [refuse, ht]
  rcases endSession_released cfg hs h with ⟨⟨p, hp, hno⟩, he⟩ | ⟨hreg, t, he, -⟩
  · rcases hr : endSession cfg s ptr with ⟨f | u, t⟩
    · simp only [Result.andThen_error, not_answered_error, false_iff]
      exact fun hall => hno (hall (by simpa using ht) p hp)
    · simp [hr] at he
  · simpa [he, ht] using hreg

theorem mem_sessions_of_registered (h : s.Registered c ptr session) : c ∈ s.sessions :=
  mem_iff_exists_getElem?.mpr ⟨ptr, h.1⟩

theorem notMem_sessions_of_none (h : s.sessions[c]? = none) : c ∉ s.sessions := by
  simp [mem_iff_exists_getElem?, h]

theorem openLock_answered (hs : s.WellFormed) (answer : RaftAnswer) :
    (openLock cfg s c path answer).Answered ↔ Answerable cfg s (.openLock c path answer) := by
  rw [openLock, Answerable]
  rcases hs.registered_or_none c with h | ⟨ptr, session, h⟩
  · simp [withSession_none h, notMem_sessions_of_none h]
  rw [withSession_registered h, ← answered_appendLog]
  simp only [mem_sessions_of_registered h, true_imp_iff]
  split_ifs with hx
  · simp [refuse, hx]
  rcases appendLog cfg s.files ⟨.write, path, []⟩ answer with f | files
  · simp [hx]
  · simp [hx]

theorem deleteLock_answered (hs : s.WellFormed) :
    (deleteLock cfg s c path).Answered ↔ Answerable cfg s (.deleteLock c path) := by
  rw [deleteLock, Answerable]
  rcases hs.registered_or_none c with h | ⟨ptr, session, h⟩
  · simp [withSession_none h, State.Registered, h]
  rw [withSession_registered h,
    forall_registered (P := fun _ session => ∀ l lock, session.locks[path]? = some l → _) h]
  rcases hl : session.locks[path]? with _ | l
  · simp [refuse]
  obtain ⟨lock, hlock, -⟩ := hs.sessionLocks h.2 hl
  have hone : ∀ {P : Lock → Prop},
      (∀ l' lock', some l = some l' → s.lockHeap[l']? = some lock' → P lock') ↔ P lock :=
    ⟨fun hall => hall l lock rfl hlock, fun hP l' lock' hl' hlock' => by
      obtain rfl := Option.some.inj hl'
      exact Option.some.inj (hlock.symm.trans hlock') ▸ hP⟩
  rw [hone (P := fun lock => lock.status = .exclusive → _)]
  simp only [hlock]
  split_ifs with hst hx
  · simp [refuse, hst]
  · simp [refuse, hx]
  rw [← removeFile_eq_none_iff]
  rcases removeFile cfg s.files path with _ | files
  · simpa [hx] using hst
  · simp

theorem acquireLock_answered (hs : s.WellFormed) (mode : LockStatus) :
    (acquireLock cfg s c path mode).Answered := by
  by_cases hok : (∃ ptr session, s.Registered c ptr session) ∧ Acquirable cfg s path mode
  · exact ⟨_, (acquireLock_ok_iff hs mode).mpr hok⟩
  · rw [not_and_or] at hok
    obtain ⟨status, -, he⟩ := acquireLock_declined hs
      (hok.imp_left fun hn => (hs.registered_or_none c).resolve_right hn)
    exact ⟨status, congrArg Prod.fst he⟩

theorem releaseLock_answered (hs : s.WellFormed) :
    (releaseLock cfg s c path).Answered ↔ Answerable cfg s (.releaseLock c path) := by
  rw [Answerable]
  rcases hs.registered_or_none c with h | ⟨ptr, session, h⟩
  · simp [releaseLock, withSession_none h, State.Registered, h]
  rw [forall_registered (P := fun _ session => _) h]
  rcases releaseLock_releasable cfg path hs h with
    ⟨⟨m, hr⟩, hno⟩ | ⟨hyes, hp, hr⟩ | ⟨l, lock, hyes, hp, -, -, -, hr⟩
  · simp [hr, refuse, hno]
  · simp [hr, hyes, hp]
  · simp [hr, hp]

theorem read_answered (hs : s.WellFormed) :
    (read cfg s c path).Answered ↔ Answerable cfg s (.read c path) := by
  rw [read, Answerable]
  rcases hs.registered_or_none c with h | ⟨ptr, session, h⟩
  · simp [withSession_none h, notMem_sessions_of_none h]
  rw [withSession_registered h, ← isExists_iff_readContent]
  simp only [mem_sessions_of_registered h, true_imp_iff]
  rcases readContent cfg s.files path with f | content
  · simp
  rcases ownedLock s session c path with m | _
  · simp
  · simp

theorem write_answered (hs : s.WellFormed) (content : Str) (answer : RaftAnswer) :
    (write cfg s c path content answer).Answered ↔
      Answerable cfg s (.write c path content answer) := by
  rw [write, Answerable]
  rcases hs.registered_or_none c with h | ⟨ptr, session, h⟩
  · simp [withSession_none h, State.Registered, h]
  rw [withSession_registered h, ← answered_appendLog,
    forall_registered (P := fun _ session => _ → _) h, releasable]
  split_ifs with hx
  · rcases ownedLock s session c path with m | _
    · simp [refuse, hx, Except.isOk, Except.toBool]
    rcases appendLog cfg s.files ⟨.write, path, content⟩ answer with f | files
    · simp [hx, Except.isOk, Except.toBool]
    · simp
  · simp [refuse, hx]

/-- A request is answered exactly where what it needs holds. -/
theorem answered_iff (hr : Reachable cfg s) (call : Invocation) :
    (serve cfg s call).Answered ↔ Answerable cfg s call := by
  have hs := hr.wellFormed
  cases call with
  | createSession c now =>
    exact answered_withoutContent.trans (iff_of_true (createSession_answered hs now) trivial)
  | closeSession c => exact answered_withoutContent.trans (closeSession_answered hs)
  | openLock c path answer => exact answered_withoutContent.trans (openLock_answered hs answer)
  | deleteLock c path => exact answered_withoutContent.trans (deleteLock_answered hs)
  | acquireLock c path mode =>
    exact answered_withoutContent.trans (iff_of_true (acquireLock_answered hs mode) trivial)
  | releaseLock c path => exact answered_withoutContent.trans (releaseLock_answered hs)
  | read c path => exact read_answered hs
  | write c path content answer =>
    exact answered_withoutContent.trans (write_answered hs content answer)

/-- A session reads a path that was written. -/
theorem answered_iff_written : ∃ s, Reachable sampleConfig s ∧
    ((serve sampleConfig s (.read [1] (ascii ['a']))).Answered ↔
      Answerable sampleConfig s (.read [1] (ascii ['a']))) := by
  obtain ⟨s, hs⟩ := Option.isSome_iff_exists.mp (by decide :
    (Run.run (next sampleConfig) (.initial (sampleFiles [ascii ['a']]))
      [.initSession true [1] 0]).isSome)
  exact ⟨s, ⟨_, _, hs⟩, answered_iff ⟨_, _, hs⟩ _⟩

/-- A session reads a path that is not there: nothing catches what `read_content` throws. -/
theorem not_answered_missing_path : ∃ s, Reachable sampleConfig s ∧
    ¬ (serve sampleConfig s (.read [1] (ascii ['a']))).Answered := by
  obtain ⟨s, hs, hf⟩ := (Option.any_eq_true _ _).mp (by decide :
    (Run.run (next sampleConfig) (.initial .empty) [.initSession true [1] 0]).any
      fun s => (read sampleConfig s [1] (ascii ['a'])).1 = .error .openFailed)
  refine ⟨s, ⟨_, _, hs⟩, fun ⟨reply, h⟩ => ?_⟩
  rw [decide_eq_true_eq] at hf
  rw [serve, hf] at h
  cases h

end Answered

section Unchanged

variable {cfg : Config} {s s' : State} {c path : Str} {f : Fault}

/-- What a call can throw. -/
def Fault.isException : Fault → Bool
  | .outOfRange | .bufferEnd | .openFailed | .filesystem => true
  | .nullPointer | .endIterator | .assertion | .stateMachine | .blocked | .diverges => false

/-- A call that returns a failure, or throws. -/
def Result.Fails {α : Type} (r : Result α) (failure : α → Prop) : Prop :=
  match r.1 with
  | .ok a => failure a
  | .error f => f.isException = true

theorem unchanged_withoutContent {r : Result Status} (h : r.Fails (· ≠ .ok) → r.2 = s) :
    r.withoutContent.Fails (·.1 ≠ .ok) → r.withoutContent.2 = s := by
  obtain ⟨_ | status, t⟩ := r
  · exact h
  · exact h

theorem not_fails_ok {s : State} : ¬ Result.Fails ((.ok .ok, s) : Result Status) (· ≠ .ok) :=
  fun h => h rfl

theorem createSession_unchanged (now : ℤ) (h : (createSession s c now).Fails (· ≠ .ok)) :
    (createSession s c now).2 = s := by
  unfold createSession at h ⊢
  split at h
  · exact absurd h not_fails_ok
  split at h
  · rfl
  split_ifs at h ⊢
  · exact absurd h not_fails_ok
  · rfl

theorem endSession_fault (hs : s.WellFormed) {ptr : SessionPtr} (hptr : s.sessions[c]? = some ptr)
    (h : (endSession cfg s ptr).1 = .error f) : f = .endIterator := by
  obtain ⟨session, hsession, -⟩ := hs.registered hptr
  rcases endSession_released cfg hs ⟨hptr, hsession⟩ with ⟨-, he⟩ | ⟨-, t, he, -⟩
  · exact Except.error.inj (h.symm.trans he)
  · simp [he] at h

/-- What `end_session` has changed is not undone, but it throws nothing. -/
theorem closeSession_unchanged (hs : s.WellFormed) (h : (closeSession cfg s c).Fails (· ≠ .ok)) :
    (closeSession cfg s c).2 = s := by
  unfold closeSession at h ⊢
  split at h
  · rfl
  rename_i ptr hptr
  split at h
  · rfl
  split_ifs at h ⊢
  · rfl
  rcases he : endSession cfg s ptr with ⟨f | u, t⟩
  · obtain rfl := endSession_fault hs hptr (congrArg Prod.fst he)
    rw [he] at h
    exact absurd h (by simp [Result.Fails, Fault.isException])
  · rw [he, Result.andThen_ok] at h
    exact absurd h not_fails_ok

theorem claimLocks_fault :
    ∀ (locks : List (Str × LockStatus)) {s : State}, s.WellFormed → c ∈ s.sessions →
      (claimLocks cfg c locks s).1 = .error f → f = .endIterator
  | [], s, _, _, h => by simp [claimLocks] at h
  | (p, m) :: locks, s, hs, hc, h => by
    obtain ⟨ptr, hptr⟩ := mem_iff_exists_getElem?.mp hc
    have ht := acquireLock_trace cfg c p hs m
    obtain ⟨status, hok⟩ := @acquireLock_answered cfg s c p hs m
    rcases ha : acquireLock cfg s c p m with ⟨r, t⟩
    rw [ha] at ht hok
    obtain rfl : r = .ok status := hok
    have hst := ht.wellFormed hs
    have hptr' := trace_registered ht hptr
    rw [claimLocks, ha, Result.andThen_ok] at h
    split_ifs at h with hstatus
    · exact claimLocks_fault locks hst (mem_iff_exists_getElem?.mpr ⟨ptr, hptr'⟩) h
    simp only [hptr'] at h
    have ht' := @endSession_trace cfg t c ptr hst hptr'
    rcases he : endSession cfg t ptr with ⟨e | u, t'⟩
    · rw [he, Result.andThen_error] at h
      exact endSession_fault hst hptr' ((congrArg Prod.fst he).trans h)
    · rw [he] at ht'
      rw [he, Result.andThen_ok] at h
      exact claimLocks_fault locks (ht'.wellFormed hst)
        (mem_iff_exists_getElem?.mpr ⟨ptr, trace_registered ht' hptr'⟩) h

theorem mem_sessions_createSession (hs : s.WellFormed) (now : ℤ) :
    c ∈ (createSession s c now).2.sessions := by
  rcases hs.registered_or_none c with h | ⟨ptr, session, h⟩
  · rw [createSession, h, mem_iff_exists_getElem?]
    exact ⟨_, (registered_start_new h now).1⟩
  · exact mem_iff_exists_getElem?.mpr
      ⟨ptr, trace_registered (@createSession_trace sampleConfig s c hs now) h.1⟩

theorem maintainStart_fault {i : ℕ} (h : (maintainStart s i).1 = .error f) : f = .nullPointer := by
  unfold maintainStart at h
  split at h
  · simp at h
  split_ifs at h
  · unfold putReply at h
    split at h
    · exact (Except.error.inj h).symm
    · simp at h

theorem attemptExtendSession_fault (h : (attemptExtendSession s c).1 = .error f) :
    f = .nullPointer ∨ f = .blocked := by
  unfold attemptExtendSession at h
  split at h
  · simp at h
  split at h
  · exact .inl (Except.error.inj h).symm
  split_ifs at h
  exact .inr (Except.error.inj h).symm

/-- The handler does not throw: it waits for a reply, or dereferences what is not there. -/
theorem handleJeopardy_fault (hs : s.WellFormed) {locks : Claims} {now : ℤ}
    (h : (handleJeopardy cfg s c locks now).1 = .error f) : f.isException = false := by
  obtain ⟨status, hok⟩ := createSession_answered (c := c) hs now
  have ht := @createSession_trace cfg s c hs now
  have hc := mem_sessions_createSession (c := c) hs now
  rcases hcreate : createSession s c now with ⟨r, t⟩
  rw [hcreate] at hok ht hc
  obtain rfl : r = .ok status := hok
  rw [handleJeopardy, hcreate, Result.andThen_ok] at h
  split_ifs at h with hstatus
  rcases hclaim : claimLocks cfg c locks.entries t with ⟨e | u, t₁⟩
  · rw [hclaim, Result.andThen_error] at h
    obtain rfl := Except.error.inj h
    rw [claimLocks_fault _ (ht.wellFormed hs) hc (congrArg Prod.fst hclaim)]
    rfl
  rw [hclaim, Result.andThen_ok] at h
  rcases hstart : maintainStart t₁ s.threads.length with ⟨e | u, t₂⟩
  · rw [hstart, Result.andThen_error] at h
    obtain rfl := Except.error.inj h
    rw [maintainStart_fault (congrArg Prod.fst hstart)]
    rfl
  rw [hstart, Result.andThen_ok] at h
  rcases attemptExtendSession_fault h with rfl | rfl <;> rfl

/-- A request, or a claim of locks, that fails leaves everything as it was. -/
theorem unchanged_of_fails (hr : Reachable cfg s) :
    (∀ call, (serve cfg s call).Fails (·.1 ≠ .ok) → (serve cfg s call).2 = s) ∧
      ∀ c locks now, (handleJeopardy cfg s c locks now).Fails (· = -1) →
        (handleJeopardy cfg s c locks now).2 = s := by
  have hs := hr.wellFormed
  refine ⟨fun call => ?_, fun c locks now h => ?_⟩
  · cases call with
    | createSession c now => exact unchanged_withoutContent (createSession_unchanged now)
    | closeSession c => exact unchanged_withoutContent (closeSession_unchanged hs)
    | openLock c path answer =>
      refine unchanged_withoutContent fun h => ?_
      rcases openLock_cases cfg c path hs answer with hc | ⟨_, _, _, -, -, -, hc⟩
      · exact hc.2
      · exact absurd (hc ▸ h) not_fails_ok
    | deleteLock c path =>
      refine unchanged_withoutContent fun h => ?_
      rcases deleteLock_cases cfg c path hs with hc | ⟨_, _, _, _, _, -, -, -, -, -, -, hc⟩
      · exact hc.2
      · exact absurd (hc ▸ h) not_fails_ok
    | acquireLock c path mode =>
      refine unchanged_withoutContent fun h => ?_
      rcases acquireLock_cases cfg c path hs mode with hc | ⟨ptr, session, hreg, ha⟩
      · exact hc.2
      · obtain ⟨t, hc, -⟩ := acquireLock_spec hs hreg ha
        exact absurd (hc ▸ h) not_fails_ok
    | releaseLock c path =>
      refine unchanged_withoutContent fun h => ?_
      rcases releaseLock_cases cfg c path hs with ⟨hc, -⟩ | ⟨_, _, _, _, -, -, -, -, -, -, hc⟩
      · exact hc.2
      · exact absurd (hc ▸ h) not_fails_ok
    | read c path => exact fun _ => read_state
    | write c path content answer =>
      refine unchanged_withoutContent fun h => ?_
      rcases write_cases cfg c path hs content answer with hc | ⟨_, _, _, _, _, -, -, -, -, hc⟩
      · exact hc.2
      · exact absurd (hc ▸ h) not_fails_ok
  · by_cases hl : s.Live c
    · rw [handleJeopardy, createSession_live hl]
      rfl
    · rcases hj : handleJeopardy cfg s c locks now with ⟨f | lease, t⟩
      · have hf := handleJeopardy_fault hs (congrArg Prod.fst hj)
        rw [hj] at h
        exact absurd h (by simp [Result.Fails, hf])
      · have hlease := handleJeopardy_lease hr hl hj
        rw [hj] at h
        obtain rfl : lease = -1 := h
        simp [defaultLeaseExtension] at hlease

/-- A client that asks for what another holds is refused. -/
theorem unchanged_of_fails_held : ∃ s, Reachable sampleConfig s ∧
    (serve sampleConfig s (.acquireLock [2] (ascii ['a']) .shared)).2 = s := by
  obtain ⟨s, hs, hf⟩ := (Option.any_eq_true _ _).mp (by decide :
    (Run.run (next sampleConfig) (.initial (sampleFiles [ascii ['a']]))
      [.initSession true [1] 0, .initSession true [2] 0,
        .acquireLock [1] (ascii ['a']) .exclusive]).any
      fun s => (acquireLock sampleConfig s [2] (ascii ['a']) .shared).1 =
        .ok (.aborted "Someone already holds the lock in exclusive mode"))
  refine ⟨s, ⟨_, _, hs⟩, (unchanged_of_fails ⟨_, _, hs⟩).1 _ ?_⟩
  rw [decide_eq_true_eq] at hf
  rcases hr : acquireLock sampleConfig s [2] (ascii ['a']) .shared with ⟨r, t⟩
  rw [hr] at hf
  obtain rfl : r = _ := hf
  simp [serve, hr, Result.withoutContent, Result.Fails]

end Unchanged

end LockService
