import LockService.Requests

/-!
# What a read tells a client that owns nothing

`read` has the file's content in its answer before it looks for the lock, and every answer it gives
from then on takes the content along. So a client with a session that owns no lock of the path is
refused, and told the content. Only where there is no content to tell do two states that differ in
their files' contents look the same to it (`discreet_iff`).
-/

namespace LockService

open FileTree

/-- The client's session has the path's lock, and the lock lists the client. -/
def OwnsBySession (s : State) (c path : Str) : Prop :=
  ∃ ptr session owned, s.Registered c ptr session ∧ ownedLock s session c path = .ok owned

/-- Two states that differ only in what their files contain. -/
structure Resembles (s s' : State) : Prop where
  locks : s'.locks = s.locks
  sessions : s'.sessions = s.sessions
  lockHeap : s'.lockHeap = s.lockHeap
  sessionHeap : s'.sessionHeap = s.sessionHeap
  dirs : ∀ a, s'.files.node a = some .dir ↔ s.files.node a = some .dir
  nodes : ∀ a, (s'.files.node a).isSome ↔ (s.files.node a).isSome

/-- A read is answered alike in both states, and tells nothing unless it is answered OK. -/
structure Discreet (cfg : Config) (s s' : State) (c path : Str) : Prop where
  same : (read cfg s' c path).1 = (read cfg s c path).1
  refused : ∀ status content, (read cfg s c path).1 = .ok (status, content) → status ≠ .ok →
    content = []

section Leaks

variable {cfg : Config} {s s' : State} {c path : Str} {ptr : SessionPtr} {session : Session}

theorem Resembles.registered (h : Resembles s s') :
    s'.Registered c ptr session ↔ s.Registered c ptr session := by
  rw [State.Registered, State.Registered, h.sessions, h.sessionHeap]

theorem Resembles.ownedLock (h : Resembles s s') (session : Session) :
    ownedLock s' session c path = ownedLock s session c path := by
  unfold LockService.ownedLock
  rw [h.lockHeap]

theorem Resembles.isExists (h : Resembles s s') :
    isExists cfg s'.files path = true ↔ isExists cfg s.files path = true := by
  rw [isExists_iff, isExists_iff]
  exact ⟨walk_mono (fun a => (h.dirs a).mp) (fun a => (h.nodes a).mp) _,
    walk_mono (fun a => (h.dirs a).mpr) (fun a => (h.nodes a).mpr) _⟩

theorem readContent_of_not_exists {files : FileTree} (h : isExists cfg files path = false) :
    readContent cfg files path = .error .openFailed := by
  have hno : ¬ ∃ content, readContent cfg files path = .ok content := by
    rw [isExists_iff_readContent, h]
    decide
  unfold readContent at hno ⊢
  split
  · rename_i content hread
    exact absurd ⟨content, by rw [hread]⟩ hno
  · rfl

/-- A refused read has the content all the same. -/
theorem read_not_owner (h : s.Registered c ptr session) (hno : ¬ OwnsBySession s c path) :
    isExists cfg s.files path = false ∧ (read cfg s c path).1 = .error .openFailed ∨
      ∃ content message, readContent cfg s.files path = .ok content ∧
        ownedLock s session c path = .error message ∧
        (read cfg s c path).1 = .ok (.aborted message, content) := by
  rw [read, withSession_registered h]
  rcases hx : isExists cfg s.files path with _ | _
  · exact .inl ⟨rfl, by rw [readContent_of_not_exists hx]⟩
  obtain ⟨content, hread⟩ := isExists_iff_readContent.mpr hx
  rcases ho : ownedLock s session c path with message | owned
  · exact .inr ⟨content, message, hread, rfl, by rw [hread]⟩
  · exact absurd ⟨ptr, session, owned, h, ho⟩ hno

/-- A read by a client that owns nothing is discreet just where there is no content to tell. -/
theorem discreet_iff (hr : Reachable cfg s) (h : Resembles s s')
    (hno : ¬ OwnsBySession s c path) :
    Discreet cfg s s' c path ↔ c ∉ s.sessions ∨ isExists cfg s.files path = false ∨
      readContent cfg s.files path = .ok [] ∧ readContent cfg s'.files path = .ok [] := by
  rcases hr.wellFormed.registered_or_none c with hnone | ⟨ptr, session, hreg⟩
  · have hnone' : s'.sessions[c]? = none := by rw [h.sessions, hnone]
    refine iff_of_true ⟨?_, fun status content hread _ => ?_⟩
      (.inl (notMem_sessions_of_none hnone))
    · rw [read, read, withSession_none hnone, withSession_none hnone']
    · rw [read, withSession_none hnone] at hread
      exact (Prod.mk.inj (Except.ok.inj hread)).2.symm
  have hreg' := h.registered.mpr hreg
  rw [or_iff_right (not_not.mpr (mem_sessions_of_registered hreg))]
  rcases @read_not_owner cfg s c path ptr session hreg hno with
    ⟨hx, hread⟩ | ⟨content, message, hcontent, ho, hread⟩
  · have hx' : isExists cfg s'.files path = false := by
      rw [Bool.eq_false_iff, ne_eq, h.isExists, hx]
      decide
    have hread' : (read cfg s' c path).1 = .error .openFailed := by
      rw [read, withSession_registered hreg', readContent_of_not_exists hx']
    refine iff_of_true ⟨hread'.trans hread.symm, fun status content hok _ => ?_⟩ (.inl hx)
    rw [hread] at hok
    cases hok
  · have hx : isExists cfg s.files path = true := isExists_iff_readContent.mp ⟨content, hcontent⟩
    obtain ⟨content', hcontent'⟩ := isExists_iff_readContent.mpr (h.isExists.mpr hx)
    have hread' : (read cfg s' c path).1 = .ok (.aborted message, content') := by
      rw [read, withSession_registered hreg', hcontent', h.ownedLock, ho]
    rw [or_iff_right (by simp [hx]), hcontent, hcontent']
    constructor
    · intro hd
      obtain rfl : content = [] := hd.refused _ _ hread (by simp)
      have hsame := hread'.symm.trans (hd.same.trans hread)
      exact ⟨rfl, congrArg Except.ok (Prod.mk.inj (Except.ok.inj hsame)).2⟩
    · intro h
      obtain ⟨he, he'⟩ := h
      obtain rfl := Except.ok.inj he
      obtain rfl := Except.ok.inj he'
      refine ⟨hread'.trans hread.symm, fun status content hok _ => ?_⟩
      exact (Prod.mk.inj (Except.ok.inj (hread.symm.trans hok))).2.symm

end Leaks

/-- A server with a session and a file `a` of one byte. -/
def sampleHolding (content : UInt8) : State :=
  (State.initial ((sampleFiles [ascii ['a']]).set (sampleConfig.fileOf (ascii ['a']))
    (.file [content]))).start [1] 0

theorem reachable_sampleHolding (content : UInt8) :
    Reachable sampleConfig (sampleHolding content) := ⟨_, [.initSession true [1] 0], rfl⟩

theorem resembles_sampleHolding (content content' : UInt8) :
    Resembles (sampleHolding content) (sampleHolding content') where
  locks := rfl
  sessions := rfl
  lockHeap := rfl
  sessionHeap := rfl
  dirs a := by
    rw [sampleHolding, sampleHolding, State.start, State.start, State.initial, State.initial]
    dsimp only
    rw [node_set (by decide), node_set (by decide)]
    split_ifs <;> simp
  nodes a := by
    rw [sampleHolding, sampleHolding, State.start, State.start, State.initial, State.initial]
    dsimp only
    rw [node_set (by decide), node_set (by decide)]
    split_ifs <;> simp

theorem not_owns_sampleHolding (content : UInt8) (c path : Str) :
    ¬ OwnsBySession (sampleHolding content) c path := by
  rintro ⟨ptr, session, ⟨l, lock⟩, -, ho⟩
  have hlock := (ownedLock_eq_ok.mp ho).2.1
  simp [sampleHolding, State.start, State.initial] at hlock

/-- A client without a session learns nothing of the file. -/
theorem discreet_iff_without_session :
    Discreet sampleConfig (sampleHolding 7) (sampleHolding 8) [2] (ascii ['a']) :=
  (discreet_iff (reachable_sampleHolding 7) (resembles_sampleHolding 7 8)
    (not_owns_sampleHolding 7 _ _)).mpr (.inl (by decide))

/-- A client that owns nothing is refused, and told what the file contains. -/
theorem not_discreet_refused : ∃ s s', Reachable sampleConfig s ∧ Reachable sampleConfig s' ∧
    Resembles s s' ∧ ¬ OwnsBySession s [1] (ascii ['a']) ∧
    (read sampleConfig s [1] (ascii ['a'])).1 =
      .ok (.aborted "Lock was not found among this session's locks.", [7]) ∧
    ¬ Discreet sampleConfig s s' [1] (ascii ['a']) := by
  have hread : (read sampleConfig (sampleHolding 7) [1] (ascii ['a'])).1 =
      .ok (.aborted "Lock was not found among this session's locks.", [7]) := by decide
  refine ⟨_, _, reachable_sampleHolding 7, reachable_sampleHolding 8, resembles_sampleHolding 7 8,
    not_owns_sampleHolding 7 _ _, hread, fun hd => ?_⟩
  exact absurd (hd.refused _ _ hread (by decide)) (by decide)

end LockService
