import LockService.Effects

/-!
# Every event is a sequence of effects

For each handler: when it answers OK and what the state is then, and that otherwise the state is as
it was (`openLock_cases` and its siblings). A handler, a turn of a thread and so every event makes
only effects of its own kind (`next_trace`), so whatever those effects preserve, the event does.
-/

namespace LockService

/-- One state is reached from another by effects of a kind. -/
def Trace (cfg : Config) (Q : Action → Prop) : State → State → Prop :=
  Relation.ReflTransGen fun s s' => ∃ a, Q a ∧ Effect cfg s a s'

namespace Trace

variable {cfg : Config} {Q : Action → Prop} {s s' s'' : State} {a : Action}

theorem refl (s : State) : Trace cfg Q s s := Relation.ReflTransGen.refl

theorem single (h : Effect cfg s a s') (ha : Q a) : Trace cfg Q s s' :=
  Relation.ReflTransGen.single ⟨a, ha, h⟩

theorem trans (h : Trace cfg Q s s') (h' : Trace cfg Q s' s'') : Trace cfg Q s s'' :=
  Relation.ReflTransGen.trans h h'

theorem mono {Q' : Action → Prop} (hQ : ∀ a, Q a → Q' a) (h : Trace cfg Q s s') :
    Trace cfg Q' s s' :=
  Relation.ReflTransGen.mono (fun _ _ ⟨a, ha, he⟩ => ⟨a, hQ a ha, he⟩) s s' h

theorem invariant {I : State → Prop}
    (step : ∀ s a s', s.WellFormed → I s → Q a → Effect cfg s a s' → I s')
    (h : Trace cfg Q s s') (hs : s.WellFormed) (hI : I s) : s'.WellFormed ∧ I s' := by
  induction h with
  | refl => exact ⟨hs, hI⟩
  | tail _ h ih =>
    obtain ⟨a, ha, he⟩ := h
    exact ⟨ih.1.effect he, step _ a _ ih.1 ih.2 ha he⟩

theorem wellFormed (h : Trace cfg Q s s') (hs : s.WellFormed) : s'.WellFormed :=
  (h.invariant (I := fun _ => True) (fun _ _ _ _ _ _ _ => trivial) hs trivial).1

end Trace

/-- A handler that does not answer OK and leaves the state alone. -/
def Result.Refused (r : Result Status) (s : State) : Prop := r.1 ≠ .ok .ok ∧ r.2 = s

/-- A handler that answers, but not OK, and leaves the state alone. -/
def Result.Declined (r : Result Status) (s : State) : Prop :=
  ∃ status, status ≠ .ok ∧ r = (.ok status, s)

theorem declined_refuse (s : State) (message : String) : (refuse s message).Declined s :=
  ⟨_, Status.aborted_ne_ok message, rfl⟩

theorem declined_noSession (s : State) : Result.Declined (.ok noSession, s) s :=
  ⟨_, Status.aborted_ne_ok _, rfl⟩

theorem Result.Declined.refused {r : Result Status} {s : State} (h : r.Declined s) :
    r.Refused s := by
  obtain ⟨status, hne, rfl⟩ := h
  exact ⟨by simpa using hne, rfl⟩

theorem refused_refuse (s : State) (message : String) : (refuse s message).Refused s :=
  (declined_refuse s message).refused

theorem refused_error (s : State) (f : Fault) : Result.Refused (.error f, s) s := ⟨by simp, rfl⟩

theorem refused_noSession (s : State) : Result.Refused (.ok noSession, s) s :=
  (declined_noSession s).refused

section Handlers

variable {cfg : Config} {s : State} {c path : Str} {ptr : SessionPtr} {session : Session}

theorem withSession_none {α : Type} {refusal : α} {k : SessionPtr → Session → Result α}
    (h : s.sessions[c]? = none) : withSession s c refusal k = (.ok refusal, s) := by
  simp [withSession, h]

theorem withSession_registered {α : Type} {refusal : α} {k : SessionPtr → Session → Result α}
    (h : s.Registered c ptr session) : withSession s c refusal k = k ptr session := by
  simp [withSession, h.1, h.2]

theorem ownedLock_eq_ok {l : LockPtr} {lock : Lock} :
    ownedLock s session c path = .ok (l, lock) ↔
      session.locks[path]? = some l ∧ s.lockHeap[l]? = some lock ∧
        lock.owners[c]? = some true := by
  unfold ownedLock
  split
  · rename_i h
    rw [iff_false_left (by simp), not_and]
    intro hl ⟨hlock, _⟩
    simp [hl, hlock] at h
  · rename_i l' lock' h
    simp only [Option.bind_eq_some_iff, Option.map_eq_some_iff, Prod.mk.injEq] at h
    obtain ⟨l₁, hl, lock₁, hlock, rfl, rfl⟩ := h
    split_ifs with ho
    · simp only [Except.ok.injEq, Prod.mk.injEq]
      constructor
      · rintro ⟨rfl, rfl⟩
        exact ⟨hl, hlock, ho⟩
      · rintro ⟨hl', hlock', -⟩
        obtain rfl := Option.some.inj (hl.symm.trans hl')
        exact ⟨rfl, Option.some.inj (hlock.symm.trans hlock')⟩
    · rw [iff_false_left (by simp), not_and, not_and]
      intro hl' hlock'
      obtain rfl := Option.some.inj (hl.symm.trans hl')
      exact Option.some.inj (hlock.symm.trans hlock') ▸ ho

variable (cfg c path) in
theorem openLock_cases (hs : s.WellFormed) (answer : RaftAnswer) :
    (openLock cfg s c path answer).Refused s ∨
      ∃ ptr session files, s.Registered c ptr session ∧ isExists cfg s.files path = false ∧
        appendLog cfg s.files ⟨.write, path, []⟩ answer = .ok files ∧
        openLock cfg s c path answer = (.ok .ok, { s with files }.enter ptr session path) := by
  unfold openLock
  rcases hs.registered_or_none c with h | ⟨ptr, session, h⟩
  · rw [withSession_none h]
    exact .inl (refused_noSession s)
  rw [withSession_registered h]
  split_ifs with hx
  · exact .inl (refused_refuse s _)
  split
  · exact .inl (refused_error s _)
  · rename_i files hf
    exact .inr ⟨ptr, session, files, h, by simpa using hx, hf, rfl⟩

variable (cfg c path) in
theorem deleteLock_cases (hs : s.WellFormed) :
    (deleteLock cfg s c path).Refused s ∨
      ∃ ptr session l lock files, s.Registered c ptr session ∧ session.locks[path]? = some l ∧
        s.lockHeap[l]? = some lock ∧ lock.status = .exclusive ∧
        isExists cfg s.files path = false ∧ removeFile cfg s.files path = some files ∧
        deleteLock cfg s c path = (.ok .ok, { s with files }.forget ptr session path) := by
  unfold deleteLock
  rcases hs.registered_or_none c with h | ⟨ptr, session, h⟩
  · rw [withSession_none h]
    exact .inl (refused_noSession s)
  rw [withSession_registered h]
  split
  · exact .inl (refused_refuse s _)
  rename_i l hl
  split
  · exact .inl (refused_error s _)
  rename_i lock hlock
  split_ifs with hstatus hx
  · exact .inl (refused_refuse s _)
  · exact .inl (refused_refuse s _)
  split
  · exact .inl (refused_error s _)
  · rename_i files hf
    exact .inr ⟨ptr, session, l, lock, files, h, hl, hlock, by simpa using hstatus,
      by simpa using hx, hf, rfl⟩

variable (cfg c path) in
theorem write_cases (hs : s.WellFormed) (content : Str) (answer : RaftAnswer) :
    (write cfg s c path content answer).Refused s ∨
      ∃ ptr session l lock files, s.Registered c ptr session ∧
        isExists cfg s.files path = true ∧ ownedLock s session c path = .ok (l, lock) ∧
        appendLog cfg s.files ⟨.write, path, content⟩ answer = .ok files ∧
        write cfg s c path content answer = (.ok .ok, { s with files }) := by
  unfold write
  rcases hs.registered_or_none c with h | ⟨ptr, session, h⟩
  · rw [withSession_none h]
    exact .inl (refused_noSession s)
  rw [withSession_registered h]
  split_ifs with hx
  · split
    · exact .inl (refused_refuse s _)
    rename_i l ho
    split
    · exact .inl (refused_error s _)
    · rename_i files hf
      exact .inr ⟨ptr, session, l.1, l.2, files, h, hx, ho, hf, rfl⟩
  · exact .inl (refused_refuse s _)

theorem read_state : (read cfg s c path).2 = s := by
  unfold read withSession
  split
  · rfl
  split
  · rfl
  dsimp only
  split
  · rfl
  · split <;> rfl

/-- What `acquire_lock` asks of a path before it grants it in a mode. -/
structure Acquirable (cfg : Config) (s : State) (path : Str) (mode : LockStatus) : Prop where
  lockable : mode = .exclusive ∨ mode = .shared
  isPresent : isExists cfg s.files path = true
  available : ∀ lock, s.lockOf path = some lock →
    lock.status ≠ .exclusive ∧ (lock.status = .shared → mode = .shared)

theorem acquirable_congr {s' : State} (hf : s'.files = s.files)
    (hl : s'.lockOf path = s.lockOf path) (mode : LockStatus) :
    Acquirable cfg s' path mode ↔ Acquirable cfg s path mode := by
  constructor <;> rintro ⟨h1, h2, h3⟩
  · exact ⟨h1, hf ▸ h2, hl ▸ h3⟩
  · exact ⟨h1, hf ▸ h2, hl ▸ h3⟩

theorem registered_setSession (h : s.Registered c ptr session) (session' : Session) :
    (s.setSession ptr session').Registered c ptr session' :=
  ⟨h.1, by rw [State.setSession, getElem?_store h.2, if_pos rfl]⟩

theorem registered_terminate (h : s.Registered c ptr session) :
    (s.terminate ptr session).Registered c ptr { session with terminated := true } :=
  registered_setSession h _

theorem registered_enter (h : s.Registered c ptr session) (path : Str) :
    (s.enter ptr session path).Registered c ptr
      { session with locks := session.locks.insertIfNew path s.lockHeap.length } :=
  ⟨h.1, by rw [State.enter, getElem?_store h.2, if_pos rfl]⟩

/-- Once the path is in the table, it leads to a lock as free as the one it led to before. -/
theorem ready_lock (hs : s.WellFormed) (h : s.Registered c ptr session) {mode : LockStatus}
    (ha : Acquirable cfg s path mode) :
    ∃ session' l lock, (s.ready ptr session path).Registered c ptr session' ∧
      (s.ready ptr session path).locks[path]? = some l ∧
      (s.ready ptr session path).lockHeap[l]? = some lock ∧
      lock.status ≠ .exclusive ∧ (lock.status = .shared → mode = .shared) := by
  unfold State.ready
  split_ifs with hp
  · obtain ⟨l, hl⟩ := mem_iff_exists_getElem?.mp hp
    obtain ⟨lock, hlock, -⟩ := hs.lockTable hl
    exact ⟨session, l, lock, h, hl, hlock, ha.available lock (by simp [State.lockOf, hl, hlock])⟩
  · have hn : s.locks[path]? = none := Std.ExtTreeMap.getElem?_eq_none hp
    refine ⟨_, s.lockHeap.length, ⟨path, .free, ∅⟩, registered_enter h path, ?_, ?_, by simp,
      by simp⟩
    · rw [State.enter, getElem?_insertIfNew_eq, if_pos rfl, hn, Option.getD_none]
    · exact List.getElem?_concat_length

theorem claimLock_granted {l : LockPtr} {lock : Lock} {mode : LockStatus}
    (h : s.sessionHeap[ptr]? = some session) (hl : s.locks[path]? = some l)
    (hlock : s.lockHeap[l]? = some lock) (hfree : lock.status ≠ .exclusive)
    (hshared : lock.status = .shared → mode = .shared) :
    claimLock s ptr c path mode = (.ok .ok, s.grant ptr session c path l lock mode) := by
  unfold claimLock
  simp only [hl, hlock, h]
  split
  · exact absurd ‹_› hfree
  · rename_i hst
    rw [if_pos (hshared hst), hshared hst]
  · simp only [State.grant, insert_of_getElem? hl]

theorem acquireLock_granted (hs : s.WellFormed) (h : s.Registered c ptr session)
    {mode : LockStatus} (ha : Acquirable cfg s path mode) :
    ∃ session' l lock, (s.ready ptr session path).Registered c ptr session' ∧
      (s.ready ptr session path).locks[path]? = some l ∧
      (s.ready ptr session path).lockHeap[l]? = some lock ∧
      Effect cfg (s.ready ptr session path) (.grant c path mode)
        ((s.ready ptr session path).grant ptr session' c path l lock mode) ∧
      acquireLock cfg s c path mode =
        (.ok .ok, (s.ready ptr session path).grant ptr session' c path l lock mode) := by
  obtain ⟨session', l, lock, h', hl, hlock, hfree, hshared⟩ := ready_lock hs h ha
  have hx : isExists cfg (s.ready ptr session path).files path = true := by
    unfold State.ready
    split_ifs <;> exact ha.isPresent
  refine ⟨session', l, lock, h', hl, hlock,
    .grant h' hl hlock ha.lockable hx hfree hshared, ?_⟩
  have hmode : ¬ (mode ≠ .exclusive ∧ mode ≠ .shared) := by
    rcases ha.lockable with rfl | rfl <;> simp
  rw [acquireLock, withSession_registered h, if_neg hmode, if_pos ha.isPresent,
    claimLock_granted h'.2 hl hlock hfree hshared]

theorem acquireLock_declined (hs : s.WellFormed) {mode : LockStatus}
    (ha : s.sessions[c]? = none ∨ ¬ Acquirable cfg s path mode) :
    (acquireLock cfg s c path mode).Declined s := by
  unfold acquireLock
  rcases hs.registered_or_none c with h | ⟨ptr, session, h⟩
  · rw [withSession_none h]
    exact declined_noSession s
  replace ha := ha.resolve_left (by simp [h.1])
  rw [withSession_registered h]
  split_ifs with hmode hx
  · exact declined_refuse s _
  · have hheld : ∃ lock, s.lockOf path = some lock ∧
        ¬ (lock.status ≠ .exclusive ∧ (lock.status = .shared → mode = .shared)) := by
      by_contra hno
      push Not at hno
      refine ha ⟨?_, hx, fun lock hlock => ?_⟩
      · tauto
      · have := hno lock hlock
        tauto
    obtain ⟨lock, hlock, hst⟩ := hheld
    obtain ⟨l, hl, hlock⟩ := Option.bind_eq_some_iff.mp hlock
    have hp : path ∈ s.locks := mem_iff_exists_getElem?.mpr ⟨l, hl⟩
    rw [State.ready, if_pos hp, claimLock]
    simp only [hl, hlock, h.2]
    split
    · exact declined_refuse s _
    · split_ifs with hm
      · simp_all
      · exact declined_refuse s _
    · simp_all
  · exact declined_refuse s _

theorem acquireLock_refused (hs : s.WellFormed) {mode : LockStatus}
    (ha : s.sessions[c]? = none ∨ ¬ Acquirable cfg s path mode) :
    (acquireLock cfg s c path mode).Refused s :=
  (acquireLock_declined hs ha).refused

variable (cfg c path) in
theorem acquireLock_cases (hs : s.WellFormed) (mode : LockStatus) :
    (acquireLock cfg s c path mode).Refused s ∨
      ∃ ptr session, s.Registered c ptr session ∧ Acquirable cfg s path mode := by
  by_cases ha : Acquirable cfg s path mode
  · rcases hs.registered_or_none c with h | ⟨ptr, session, h⟩
    · exact .inl (acquireLock_refused hs (.inl h))
    · exact .inr ⟨ptr, session, h, ha⟩
  · exact .inl (acquireLock_refused hs (.inr ha))

theorem acquireLock_ok_iff (hs : s.WellFormed) (mode : LockStatus) :
    (acquireLock cfg s c path mode).1 = .ok .ok ↔
      (∃ ptr session, s.Registered c ptr session) ∧ Acquirable cfg s path mode := by
  constructor
  · intro hok
    rcases acquireLock_cases cfg c path hs mode with h | ⟨ptr, session, h, ha⟩
    · exact absurd hok h.1
    · exact ⟨⟨ptr, session, h⟩, ha⟩
  · rintro ⟨⟨ptr, session, h⟩, ha⟩
    obtain ⟨_, _, _, -, -, -, -, he⟩ := acquireLock_granted hs h ha
    rw [he]

/-- What `release_lock` asks for: the session has the path and its lock lists the client. -/
def Releasable (cfg : Config) (s : State) (c path : Str) : Prop :=
  isExists cfg s.files path = true ∧ ∃ ptr session l lock, s.Registered c ptr session ∧
    session.locks[path]? = some l ∧ s.lockHeap[l]? = some lock ∧ lock.owners[c]? = some true

variable (cfg c path) in
theorem releaseLock_cases (hs : s.WellFormed) :
    (releaseLock cfg s c path).Refused s ∧ ¬ (Releasable cfg s c path ∧ path ∈ s.locks) ∨
      ∃ ptr session l lock, s.Registered c ptr session ∧ session.locks[path]? = some l ∧
        s.lockHeap[l]? = some lock ∧ isExists cfg s.files path = true ∧
        lock.owners[c]? = some true ∧ path ∈ s.locks ∧
        releaseLock cfg s c path = (.ok .ok, s.release ptr session c path l lock) := by
  unfold releaseLock
  rcases hs.registered_or_none c with h | ⟨ptr, session, h⟩
  · rw [withSession_none h]
    refine .inl ⟨refused_noSession s, ?_⟩
    rintro ⟨⟨-, _, _, _, _, h', -⟩, -⟩
    simp [h'.1] at h
  rw [withSession_registered h]
  by_cases hx : isExists cfg s.files path = true
  · rw [if_pos hx]
    split
    · rename_i m ho
      refine .inl ⟨refused_refuse s _, ?_⟩
      rintro ⟨⟨-, ptr', session', l, lock, h', hl, hlock, hown⟩, -⟩
      obtain ⟨rfl, rfl⟩ := h.unique h'
      rw [ownedLock_eq_ok.mpr ⟨hl, hlock, hown⟩] at ho
      cases ho
    · rename_i l lock ho
      obtain ⟨hl, hlock, hown⟩ := ownedLock_eq_ok.mp ho
      split_ifs with hp
      · exact .inr ⟨ptr, session, l, lock, h, hl, hlock, hx, hown, hp, rfl⟩
      · exact .inl ⟨refused_error s _, fun hr => hp hr.2⟩
  · rw [if_neg hx]
    exact .inl ⟨refused_refuse s _, fun hr => hx hr.1.1⟩

end Handlers

/-! ### The kinds of effects an event makes -/

namespace Action

/-- What the end of a client's session does. -/
def Ends (c : Str) (a : Action) : Prop := a = .terminate c ∨ ∃ p, a = .release c p

/-- What the claims of a client do, and the end of its session when one is refused. -/
def Claims (c : Str) (locks : List (Str × LockStatus)) (a : Action) : Prop :=
  (∃ p m, (p, m) ∈ locks ∧ (a = .enter c p ∨ a = .grant c p m)) ∨ a.Ends c

end Action

/-- The effects an event may make between two states. -/
def Permits (s s' : State) (a : Action) : Event → Prop
  | .initSession _ c _ => a = .start c
  | .closeSession c => a.Ends c
  | .openLock c p _ => a = .enter c p ∨ a = .replicate s'.files
  | .deleteLock c p => a = .forget c p ∨ a = .replicate s'.files
  | .acquireLock c p m => a = .enter c p ∨ a = .grant c p m
  | .releaseLock c p => a = .release c p
  | .read _ _ => False
  | .write _ _ _ _ => a = .replicate s'.files
  | .keepAlive _ _ c locks _ => a = .start c ∨ a.Claims c locks.entries ∨ a = .note
  | .maintainStart _ => a = .note
  | .maintainLoop i _ _ => a = .note ∨ ∃ thread c, s.threads[i]? = some thread ∧
      s.sessions[c]? = some thread.session ∧ a.Ends c
  | .replicate _ => a = .replicate s'.files

section Traces

variable {cfg : Config} {s s' : State} {c path : Str} {ptr : SessionPtr} {session : Session}
  {Q : Action → Prop}

theorem trace_of_refused {r : Result Status} (h : r.Refused s) : Trace cfg Q s r.2 :=
  h.2 ▸ Trace.refl _

/-- A call that goes on after another, in the state that one leaves. -/
theorem andThen_trace {α β : Type} {r : Result α} {k : α → State → Result β}
    (hs : s.WellFormed) (hr : Trace cfg Q s r.2)
    (hk : ∀ a t, r = (.ok a, t) → t.WellFormed → Trace cfg Q t (k a t).2) :
    Trace cfg Q s (r.andThen k).2 := by
  rcases r with ⟨_ | a, t⟩
  · exact hr
  · exact hr.trans (hk a t rfl (hr.wellFormed hs))

theorem ready_trace (h : s.Registered c ptr session) (path : Str) :
    Trace cfg (· = .enter c path) s (s.ready ptr session path) := by
  unfold State.ready
  split_ifs
  · exact .refl s
  · exact .single (.enter h) rfl

variable (cfg c path) in
theorem acquireLock_trace (hs : s.WellFormed) (mode : LockStatus) :
    Trace cfg (fun a => a = .enter c path ∨ a = .grant c path mode) s
      (acquireLock cfg s c path mode).2 := by
  rcases acquireLock_cases cfg c path hs mode with h | ⟨ptr, session, h, ha⟩
  · exact trace_of_refused h
  · obtain ⟨session', l, lock, -, -, -, he, hr⟩ := acquireLock_granted hs h ha
    rw [hr]
    exact ((ready_trace h path).mono fun _ => .inl).trans (.single he (.inr rfl))

theorem releaseLock_trace (hs : s.WellFormed) :
    Trace cfg (· = .release c path) s (releaseLock cfg s c path).2 := by
  rcases releaseLock_cases cfg c path hs with
    h | ⟨ptr, session, l, lock, h, hl, hlock, hx, ho, hp, hr⟩
  · exact trace_of_refused h.1
  · rw [hr]
    exact .single (.release h hl hlock hx ho hp) rfl

/-- A session keeps its client whatever is released. -/
theorem releaseLock_clientId (hs : s.WellFormed) {d : Str}
    (h : ∀ session, s.sessionHeap[ptr]? = some session → session.clientId = c) :
    ∀ session, (releaseLock cfg s d path).2.sessionHeap[ptr]? = some session →
      session.clientId = c := by
  intro session hsession
  rcases releaseLock_cases cfg d path hs with
    hr | ⟨ptr', session', l, lock, hr, -, -, -, -, -, he⟩
  · exact h session (by rwa [hr.1.2] at hsession)
  · rw [he, State.release, getElem?_store hr.2] at hsession
    split_ifs at hsession with hp
    · obtain rfl := Option.some.inj hsession
      exact h session' (hp ▸ hr.2)
    · exact h session hsession

theorem releaseLoop_trace :
    ∀ (fuel : ℕ) {s : State}, s.WellFormed →
      (∀ session, s.sessionHeap[ptr]? = some session → session.clientId = c) →
      Trace cfg (fun a => ∃ p, a = .release c p) s (releaseLoop cfg ptr fuel s).2
  | 0, s, _, _ => .refl s
  | fuel + 1, s, hs, hc => by
    unfold releaseLoop
    split
    · exact .refl s
    rename_i session hsession
    split
    · exact .refl s
    rename_i p hp
    rw [hc session hsession]
    refine andThen_trace hs ((releaseLock_trace hs).mono fun a ha => ⟨p, ha⟩)
      fun status t hr ht => ?_
    split_ifs
    · refine releaseLoop_trace fuel ht fun session' h' => ?_
      exact releaseLock_clientId hs hc session' (by rw [hr]; exact h')
    · exact .refl t

theorem endSession_trace (hs : s.WellFormed) (hc : s.sessions[c]? = some ptr) :
    Trace cfg (Action.Ends c) s (endSession cfg s ptr).2 := by
  unfold endSession
  split
  · exact .refl s
  rename_i session hsession
  have he : Effect cfg s (.terminate c) (s.terminate ptr session) := .terminate ⟨hc, hsession⟩
  refine Trace.trans (.single he (.inl rfl)) ?_
  refine (releaseLoop_trace _ (hs.effect he) fun session' h' => ?_).mono fun a ha => .inr ha
  rw [State.terminate, State.setSession, getElem?_store hsession, if_pos rfl] at h'
  have hid := hs.clientId_eq ⟨hc, hsession⟩
  rwa [← Option.some.inj h']

theorem closeSession_trace (hs : s.WellFormed) :
    Trace cfg (Action.Ends c) s (closeSession cfg s c).2 := by
  unfold closeSession
  split
  · exact .refl s
  rename_i ptr hc
  split
  · exact .refl s
  split_ifs
  · exact .refl s
  exact andThen_trace hs (endSession_trace hs hc) fun _ t _ _ => .refl t

theorem createSession_trace (hs : s.WellFormed) (now : ℤ) :
    Trace cfg (· = .start c) s (createSession s c now).2 := by
  unfold createSession
  rcases hs.registered_or_none c with h | ⟨ptr, session, h⟩
  · rw [h]
    exact .single (.start c now fun ptr session hr => by simp [hr.1] at h) rfl
  · simp only [h.1, h.2]
    split_ifs with ht
    · refine .single (.start c now fun ptr' session' hr => ?_) rfl
      obtain ⟨rfl, rfl⟩ := h.unique hr
      exact ht
    · exact .refl s

theorem claimLocks_trace :
    ∀ (locks : List (Str × LockStatus)) {s : State}, s.WellFormed →
      Trace cfg (Action.Claims c locks) s (claimLocks cfg c locks s).2
  | [], s, _ => .refl s
  | (p, m) :: locks, s, hs => by
    have hmono : ∀ a, Action.Claims c locks a → Action.Claims c ((p, m) :: locks) a := by
      rintro a (⟨p', m', hmem, ha⟩ | ha)
      · exact .inl ⟨p', m', List.mem_cons_of_mem _ hmem, ha⟩
      · exact .inr ha
    rw [claimLocks]
    refine andThen_trace hs
      ((acquireLock_trace cfg c p hs m).mono fun a ha => .inl ⟨p, m, by simp, ha⟩)
      fun status t _ ht => ?_
    split_ifs
    · exact (claimLocks_trace locks ht).mono hmono
    split
    · exact .refl t
    rename_i ptr hc
    exact andThen_trace ht ((endSession_trace ht hc).mono fun a => .inr)
      fun _ t' _ ht' => (claimLocks_trace locks ht').mono hmono

theorem putReply_trace : Trace cfg (· = .note) s (putReply s ptr).2 := by
  unfold putReply
  split
  · exact .refl s
  · rename_i session h
    exact .single (.note h rfl rfl rfl rfl le_rfl) rfl

theorem attemptExtendSession_trace : Trace cfg (· = .note) s (attemptExtendSession s c).2 := by
  unfold attemptExtendSession
  split
  · exact .refl s
  split
  · exact .refl s
  rename_i session h
  by_cases hb : session.blockReply = 0
  · rw [if_pos hb]
    exact .refl s
  · rw [if_neg hb]
    refine .single (.note h rfl rfl rfl rfl ?_) rfl
    dsimp only
    split_ifs
    · exact le_rfl
    · omega

theorem putReply_threads : (putReply s ptr).2.threads = s.threads := by
  unfold putReply
  split <;> rfl

theorem maintainStart_trace (hs : s.WellFormed) (i : ℕ) :
    Trace cfg (· = .note) s (maintainStart s i).2 := by
  unfold maintainStart
  split
  · exact .refl s
  rename_i thread hi
  split_ifs
  · refine andThen_trace hs putReply_trace fun _ t hr _ => .single (.phase ?_ _) rfl
    have hth : (putReply s thread.session).2.threads = s.threads := putReply_threads
    rw [hr] at hth
    rwa [hth]
  · exact .refl s

variable (cfg) in
theorem endSession_threads (hs : s.WellFormed) (hc : s.sessions[c]? = some ptr) :
    (endSession cfg s ptr).2.threads = s.threads := by
  refine ((endSession_trace hs hc).invariant (I := fun t => t.threads = s.threads) ?_ hs rfl).2
  rintro t a t' - ht ha he
  cases he with
  | start c now h => simp [Action.Ends] at ha
  | phase h phase => simp [Action.Ends] at ha
  | _ => exact ht

theorem maintainLoop_trace (hs : s.WellFormed) (i : ℕ) (now now' : ℤ) :
    Trace cfg (fun a => a = .note ∨ ∃ thread c, s.threads[i]? = some thread ∧
      s.sessions[c]? = some thread.session ∧ a.Ends c) s (maintainLoop cfg s i now now').2 := by
  unfold maintainLoop
  split
  · exact .refl s
  rename_i thread hi
  obtain ⟨c, hc⟩ := hs.maintained hi
  split_ifs
  · split
    · exact .refl s
    split_ifs
    · refine andThen_trace hs ((endSession_trace hs hc).mono fun a ha =>
        .inr ⟨thread, c, hi, hc, ha⟩) fun _ t hr ht => ?_
      refine andThen_trace ht (putReply_trace.mono fun a => .inl) fun _ t' hr' _ => ?_
      refine .single (.phase ?_ _) (.inl rfl)
      have hth : (putReply t thread.session).2.threads = t.threads := putReply_threads
      have hth' := endSession_threads cfg hs hc
      rw [hr'] at hth
      rw [hr] at hth'
      rwa [hth, hth']
    · exact putReply_trace.mono fun a => .inl
    · exact .refl s
  · exact .refl s

theorem handleJeopardy_trace (hs : s.WellFormed) (locks : Claims) (now : ℤ) :
    Trace cfg (fun a => a = .start c ∨ a.Claims c locks.entries ∨ a = .note) s
      (handleJeopardy cfg s c locks now).2 := by
  unfold handleJeopardy
  refine andThen_trace hs ((createSession_trace hs now).mono fun a => .inl) fun status t _ ht => ?_
  split_ifs
  · exact .refl t
  refine andThen_trace ht ((claimLocks_trace _ ht).mono fun a ha => .inr (.inl ha))
    fun _ t' _ ht' => ?_
  refine andThen_trace ht' ((maintainStart_trace ht' _).mono fun a ha => .inr (.inr ha))
    fun _ t'' _ _ => ?_
  exact attemptExtendSession_trace.mono fun a ha => .inr (.inr ha)

theorem keepAlive_trace (hs : s.WellFormed) (leader isCancelled : Bool) (locks : Claims)
    (now : ℤ) :
    Trace cfg (fun a => a = .start c ∨ a.Claims c locks.entries ∨ a = .note) s
      (RPC.keepAlive cfg leader isCancelled s c locks now).2 := by
  unfold RPC.keepAlive
  split_ifs
  · exact .refl s
  · refine andThen_trace hs (attemptExtendSession_trace.mono fun a ha => .inr (.inr ha))
      fun lease t _ ht => ?_
    split_ifs
    · exact andThen_trace ht (handleJeopardy_trace ht locks now) fun _ t' _ _ => .refl t'
    · exact .refl t
  · exact .refl s

theorem survivor_eq {α : Type} {r : Result α} (h : r.survivor = some s') : r.2 = s' := by
  unfold Result.survivor at h
  split at h
  · exact Option.some.inj h
  · split_ifs at h
    exact Option.some.inj h

/-- A call that goes on after another comes to its end only if that one did. -/
theorem survivor_andThen {α β : Type} {r : Result α} {k : α → State → Result β}
    (h : (r.andThen k).survivor = some s') :
    r.survivor = some s' ∨ ∃ a t, r = (.ok a, t) ∧ (k a t).survivor = some s' := by
  rcases r with ⟨f | a, t⟩
  · exact .inl h
  · exact .inr ⟨a, t, rfl, h⟩

theorem next_trace (hs : s.WellFormed) {e : Event} (h : next cfg s e = some s') :
    Trace cfg (Permits s s' · e) s s' := by
  cases e with
  | initSession leader c now =>
    rw [← survivor_eq h, RPC.initSession]
    split_ifs
    · exact createSession_trace hs now
    · exact .refl s
  | closeSession c => exact survivor_eq h ▸ closeSession_trace hs
  | openLock c p answer =>
    have he := survivor_eq h
    rcases openLock_cases cfg c p hs answer with
      hr | ⟨ptr, session, files, hr, -, -, hok⟩
    · exact he ▸ trace_of_refused hr
    · rw [hok] at he
      subst he
      exact .trans (.single (.enter hr) (.inl rfl)) (.single (.replicate files) (.inr rfl))
  | deleteLock c p =>
    have he := survivor_eq h
    rcases deleteLock_cases cfg c p hs with
      hr | ⟨ptr, session, l, lock, files, hr, hl, hlock, hst, hx, -, hok⟩
    · exact he ▸ trace_of_refused hr
    · rw [hok] at he
      subst he
      exact .trans (.single (.forget hr hl hlock hst hx) (.inl rfl))
        (.single (.replicate files) (.inr rfl))
  | acquireLock c p mode => exact survivor_eq h ▸ acquireLock_trace cfg c p hs mode
  | releaseLock c p => exact survivor_eq h ▸ releaseLock_trace hs
  | read c p =>
    rw [← survivor_eq h, read_state]
    exact .refl s
  | write c p content answer =>
    have he := survivor_eq h
    rcases write_cases cfg c p hs content answer with
      hr | ⟨_, _, _, _, files, -, -, -, -, hok⟩
    · exact he ▸ trace_of_refused hr
    · rw [hok] at he
      subst he
      exact .single (.replicate files) rfl
  | keepAlive leader isCancelled c locks now =>
    exact survivor_eq h ▸ keepAlive_trace hs leader isCancelled locks now
  | maintainStart i => exact survivor_eq h ▸ maintainStart_trace hs i
  | maintainLoop i now now' => exact survivor_eq h ▸ maintainLoop_trace hs i now now'
  | replicate files =>
    obtain rfl := Option.some.inj h
    exact .single (.replicate files) rfl

theorem wellFormed_next (hs : s.WellFormed) {e : Event} (h : next cfg s e = some s') :
    s'.WellFormed :=
  (next_trace hs h).wellFormed hs

theorem Reachable.wellFormed (h : Reachable cfg s) : s.WellFormed := by
  obtain ⟨files, es, h⟩ := h
  exact Run.invariant (fun _ _ _ hs _ h => wellFormed_next hs h) (.initial files) Run.along_true h

/-- What the first state has and every effect preserves, every reachable state has. -/
theorem Reachable.invariant {I : State → Prop} (init : ∀ files, I (.initial files))
    (step : ∀ s a s', s.WellFormed → I s → Effect cfg s a s' → I s') (h : Reachable cfg s) :
    I s := by
  obtain ⟨files, es, h⟩ := h
  refine (Run.invariant (I := fun t => t.WellFormed ∧ I t) (fun t e t' ht _ hn => ?_)
    ⟨.initial files, init files⟩ Run.along_true h).2
  exact (next_trace ht.1 hn).invariant (fun s a s' hs hI _ he => step s a s' hs hI he) ht.1 ht.2

/-- Only `create_session` enters a client. -/
theorem mem_sessions_of_trace (h : Trace cfg Q s s') (hno : ¬ Q (.start c))
    (hc : c ∈ s'.sessions) : c ∈ s.sessions := by
  induction h with
  | refl => exact hc
  | @tail t t' _ he ih =>
    obtain ⟨a, hQ, he⟩ := he
    refine ih ?_
    cases he with
    | start d now h =>
      rw [mem_iff_exists_getElem?, State.start, getElem?_insertIfNew_eq, if_neg] at hc
      · exact mem_iff_exists_getElem?.mpr hc
      · rintro rfl
        exact hno hQ
    | _ => exact hc

theorem trace_registered (h : Trace cfg Q s s') (hc : s.sessions[c]? = some ptr) :
    s'.sessions[c]? = some ptr := by
  induction h with
  | refl => exact hc
  | tail _ h ih =>
    obtain ⟨a, -, he⟩ := h
    exact effect_registered he ih

/-- No lease is shorter than the one a session starts with. -/
def State.Leased (s : State) : Prop :=
  ∀ (ptr : SessionPtr) session, s.sessionHeap[ptr]? = some session →
    (defaultLeaseExtension : ℤ) ≤ session.leaseLength

theorem leased_effect {a : Action} (hs : s.Leased) (h : Effect cfg s a s') : s'.Leased := by
  intro ptr session' hp
  rcases effect_sessions h hp with ⟨session, h, he⟩ | ⟨d, now, -, -, rfl⟩
  · exact (hs ptr session h).trans he.leaseLength
  · exact Int.le_refl _

theorem Reachable.leased (h : Reachable cfg s) : s.Leased :=
  h.invariant (fun _ ptr session h => by simp [State.initial] at h)
    fun _ _ _ _ hI he => leased_effect hI he

end Traces

/-! ### Live and ended sessions -/

/-- The client has a session that is not over. -/
def State.Live (s : State) (c : Str) : Prop :=
  ∃ ptr session, s.Registered c ptr session ∧ session.terminated = false

/-- The client has a session, and it is over. -/
def State.Ended (s : State) (c : Str) : Prop :=
  ∃ ptr session, s.Registered c ptr session ∧ session.terminated = true

section Ended

variable {cfg : Config} {s s' : State} {c : Str} {ptr : SessionPtr} {Q : Action → Prop}

theorem State.Ended.not_live (h : s.Ended c) : ¬ s.Live c := by
  rintro ⟨ptr', session', h', hl⟩
  obtain ⟨ptr, session, h, ht⟩ := h
  obtain ⟨rfl, rfl⟩ := h.unique h'
  simp [ht] at hl

theorem State.WellFormed.live_or_ended (hs : s.WellFormed) (hc : c ∈ s.sessions) :
    s.Live c ∨ s.Ended c := by
  obtain ⟨ptr, hptr⟩ := mem_iff_exists_getElem?.mp hc
  obtain ⟨session, hsession, -⟩ := hs.registered hptr
  rcases ht : session.terminated with _ | _
  · exact .inl ⟨ptr, session, ⟨hptr, hsession⟩, ht⟩
  · exact .inr ⟨ptr, session, ⟨hptr, hsession⟩, ht⟩

/-- A session that is over stays over. -/
theorem ended_effect {a : Action} (hs : s.WellFormed) (h : s.Ended c) (he : Effect cfg s a s') :
    s'.Ended c := by
  obtain ⟨ptr, session, hr, ht⟩ := h
  have hptr := effect_registered he hr.1
  obtain ⟨session', hsession', -⟩ := (hs.effect he).registered hptr
  refine ⟨ptr, session', ⟨hptr, hsession'⟩, ?_⟩
  rcases effect_sessions he hsession' with ⟨session₁, h₁, hev⟩ | ⟨d, now, -, rfl, -⟩
  · obtain rfl := Option.some.inj (hr.2.symm.trans h₁)
    exact hev.terminated ht
  · have := hr.2
    simp at this

theorem ended_trace (hs : s.WellFormed) (h : s.Ended c) (ht : Trace cfg Q s s') : s'.Ended c :=
  (ht.invariant (I := fun t => t.Ended c) (fun _ _ _ ht hI _ he => ended_effect ht hI he) hs h).2

/-- A client with an entry whose session is not over had one that was not. -/
theorem live_of_trace (hs : s.WellFormed) (hc : c ∈ s.sessions) (ht : Trace cfg Q s s')
    (h : s'.Live c) : s.Live c :=
  (hs.live_or_ended hc).resolve_right fun he => (ended_trace hs he ht).not_live h

theorem live_set {ptr : SessionPtr} {session session' : Session}
    (h : s.sessionHeap[ptr]? = some session)
    (ht : session'.terminated = session.terminated ∨ ¬ s.sessions[c]? = some ptr)
    (hl : s.Live c) : (s.setSession ptr session').Live c := by
  obtain ⟨ptr₁, session₁, hr, ht₁⟩ := hl
  by_cases hp : ptr₁ = ptr
  · subst hp
    obtain rfl := Option.some.inj (h.symm.trans hr.2)
    refine ⟨ptr₁, session', ⟨hr.1, ?_⟩, (ht.resolve_right fun hn => hn hr.1).trans ht₁⟩
    rw [State.setSession, getElem?_store h, if_pos rfl]
  · refine ⟨ptr₁, session₁, ⟨hr.1, ?_⟩, ht₁⟩
    rw [State.setSession, getElem?_store h, if_neg hp, hr.2]

/-- Only `end_session` ends a session. -/
theorem live_effect {a : Action} (hs : s.WellFormed) (h : s.Live c) (he : Effect cfg s a s')
    (ha : a ≠ .terminate c) : s'.Live c := by
  cases he with
  | start d now hd =>
    obtain ⟨ptr, session, hr, ht⟩ := h
    refine ⟨ptr, session, ⟨?_, getElem?_alloc_of_some hr.2 _⟩, ht⟩
    rw [State.start, getElem?_insertIfNew_eq]
    split_ifs with hdc
    · rw [← hdc, hr.1, Option.getD_some]
    · exact hr.1
  | terminate hr =>
    refine live_set hr.2 (.inr fun hc => ha ?_) h
    rw [hs.eq_of_ptr hr.1 hc]
  | enter hr => exact live_set hr.2 (.inl rfl) h
  | grant hr => exact live_set hr.2 (.inl rfl) h
  | release hr => exact live_set hr.2 (.inl rfl) h
  | forget hr => exact live_set hr.2 (.inl rfl) h
  | note hn hc hl ht => exact live_set hn (.inl ht) h
  | phase => exact h
  | replicate => exact h

theorem live_trace (hs : s.WellFormed) (h : s.Live c) (ht : Trace cfg Q s s')
    (hQ : ¬ Q (.terminate c)) : s'.Live c :=
  (ht.invariant (I := fun t => t.Live c)
    (fun _ _ _ ht hI ha he => live_effect ht hI he (by rintro rfl; exact hQ ha)) hs h).2

theorem createSession_live (h : s.Live c) (now : ℤ) :
    createSession s c now = refuse s "Client has an existing session." := by
  obtain ⟨ptr, session, hr, ht⟩ := h
  simp [createSession, hr.1, hr.2, ht]

theorem endSession_ended (hs : s.WellFormed) (hc : s.sessions[c]? = some ptr) :
    (endSession cfg s ptr).2.Ended c := by
  obtain ⟨session, hsession, hid⟩ := hs.registered hc
  have he : Effect cfg s (.terminate c) (s.terminate ptr session) := .terminate ⟨hc, hsession⟩
  have hget : (s.terminate ptr session).sessionHeap[ptr]? =
      some { session with terminated := true } := by
    rw [State.terminate, State.setSession, getElem?_store hsession, if_pos rfl]
  unfold endSession
  rw [hsession]
  have htrace : Trace cfg (fun a => ∃ p, a = .release c p) (s.terminate ptr session)
      (releaseLoop cfg ptr ((s.terminate ptr session).lockCount session.clientId + 1)
        (s.terminate ptr session)).2 :=
    releaseLoop_trace _ (hs.effect he) fun session' h' => by
      rw [← Option.some.inj (hget.symm.trans h')]
      exact hid
  exact ended_trace (hs.effect he) ⟨ptr, _, ⟨hc, hget⟩, rfl⟩ htrace

theorem closeSession_ended (hs : s.WellFormed) (h : s.Live c) :
    (closeSession cfg s c).2.Ended c := by
  obtain ⟨ptr, session, hr, ht⟩ := h
  have hend := @endSession_ended cfg _ _ _ hs hr.1
  simp only [closeSession, hr.1, hr.2, ht, Bool.false_eq_true, if_false]
  rcases hes : endSession cfg s ptr with ⟨_ | _, t⟩
  · rwa [hes] at hend
  · rwa [hes] at hend

variable (cfg) in
/-- A turn of a thread ends the session it maintains, or has no effect on any table. -/
theorem maintainLoop_cases (hs : s.WellFormed) (i : ℕ) (now now' : ℤ) :
    Trace cfg (· = .note) s (maintainLoop cfg s i now now').2 ∨
      ∃ thread c, s.threads[i]? = some thread ∧ s.sessions[c]? = some thread.session ∧
        (maintainLoop cfg s i now now').2.Ended c := by
  unfold maintainLoop
  split
  · exact .inl (.refl s)
  rename_i thread hi
  obtain ⟨c, hc⟩ := hs.maintained hi
  split_ifs
  · split
    · exact .inl (.refl s)
    split_ifs
    · refine .inr ⟨thread, c, hi, hc, ?_⟩
      have hend := @endSession_ended cfg _ _ _ hs hc
      have hst := (@endSession_trace cfg _ _ _ hs hc).wellFormed hs
      rcases hes : endSession cfg s thread.session with ⟨_ | _, t⟩ <;> rw [hes] at hend hst
      · exact hend
      rw [Result.andThen_ok]
      have hput : (putReply t thread.session).2.Ended c :=
        @ended_trace cfg _ _ _ _ hst hend putReply_trace
      rcases hpr : putReply t thread.session with ⟨_ | _, t'⟩ <;> rw [hpr] at hput
      · exact hput
      · exact hput
    · exact .inl putReply_trace
    · exact .inl (.refl s)
  · exact .inl (.refl s)

/-- A client whose session is not over does not get to claim anything. -/
theorem keepAlive_live_trace (hs : s.WellFormed) (h : s.Live c) (leader isCancelled : Bool)
    (locks : Claims) (now : ℤ) :
    Trace cfg (· = .note) s (RPC.keepAlive cfg leader isCancelled s c locks now).2 := by
  unfold RPC.keepAlive
  split_ifs
  · exact .refl s
  · refine andThen_trace hs attemptExtendSession_trace fun lease t hr ht => ?_
    have hlive : t.Live c := by
      have := @live_trace cfg _ _ _ _ hs h (attemptExtendSession_trace (c := c)) (by simp)
      rwa [hr] at this
    split_ifs
    · simp only [handleJeopardy, createSession_live hlive, refuse, Result.andThen_ok]
      rw [if_pos (by simp)]
      exact .refl t
    · exact .refl t
  · exact .refl s

end Ended

end LockService
