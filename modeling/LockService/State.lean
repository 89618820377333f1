import LockService.Lib.Store
import LockService.Paths

/-!
# The server's tables

Locks and sessions are shared objects. A lock can be reached from the server's table and from the
table of any session, a session from the server's table and from the threads that maintain it, so
the objects live in two heaps that only grow and the tables hold pointers. The changes a handler
makes to them are few, and each has a name: `enter`, `grant`, `release`, `forget`, `start` and
`terminate`.
-/

namespace LockService

abbrev LockPtr := ℕ

abbrev SessionPtr := ℕ

structure Lock where
  path : Str
  status : LockStatus
  owners : Dict Bool

/-- A lock with a client recorded as an owner. -/
def Lock.grantedTo (lock : Lock) (clientId : Str) (status : LockStatus) : Lock :=
  { lock with status, owners := lock.owners.insert clientId true }

/-- A lock without one of its owners: free when it was held alone. -/
def Lock.without (lock : Lock) (clientId : Str) : Lock :=
  let owners := lock.owners.erase clientId
  { lock with
    owners
    status := if lock.status = .exclusive ∨ owners.size = 0 then .free else lock.status }

structure Session where
  clientId : Str
  /-- In nanoseconds. -/
  startTime : ℤ
  /-- In milliseconds. -/
  leaseLength : ℤ
  /-- How many replies the channel holds; every one of them is a 1. -/
  blockReply : ℕ
  locks : Dict LockPtr
  terminated : Bool

/-- How far a thread in `maintain_session` is. -/
inductive Phase where
  | launched
  | looping
  | returned
  deriving DecidableEq

structure Thread where
  session : SessionPtr
  phase : Phase

/-- `info::locks`, `info::sessions`, what they point to, the threads and the server's files. -/
structure State where
  locks : Dict LockPtr
  sessions : Dict SessionPtr
  lockHeap : List Lock
  sessionHeap : List Session
  threads : List Thread
  files : FileTree

/-- What a call leaves: its value, or how it failed, and the state. -/
abbrev Result (α : Type) := Except Fault α × State

namespace Result

variable {α β : Type}

/-- Go on after a call, unless it failed. -/
def andThen (r : Result α) (k : α → State → Result β) : Result β :=
  match r with
  | (.ok a, s) => k a s
  | (.error f, s) => (.error f, s)

@[simp]
theorem andThen_ok (a : α) (s : State) (k : α → State → Result β) :
    andThen (.ok a, s) k = k a s := rfl

@[simp]
theorem andThen_error (f : Fault) (s : State) (k : α → State → Result β) :
    andThen (.error f, s) k = (.error f, s) := rfl

end Result

namespace State

def initial (files : FileTree) : State := ⟨∅, ∅, [], [], [], files⟩

/-- The session `info::sessions` has for a client. -/
def Registered (s : State) (clientId : Str) (ptr : SessionPtr) (session : Session) : Prop :=
  s.sessions[clientId]? = some ptr ∧ s.sessionHeap[ptr]? = some session

theorem Registered.unique {s : State} {c : Str} {ptr ptr' : SessionPtr} {session session' : Session}
    (h : s.Registered c ptr session) (h' : s.Registered c ptr' session') :
    ptr = ptr' ∧ session = session' := by
  obtain rfl : ptr = ptr' := Option.some.inj (h.1.symm.trans h'.1)
  exact ⟨rfl, Option.some.inj (h.2.symm.trans h'.2)⟩

/-- The lock `info::locks` has for a path. -/
def lockOf (s : State) (path : Str) : Option Lock := s.locks[path]?.bind fun l => s.lockHeap[l]?

def setSession (s : State) (ptr : SessionPtr) (session : Session) : State :=
  { s with sessionHeap := s.sessionHeap.set ptr session }

/-- A new free lock, put in the server's table and in the session's where each has none yet. -/
def enter (s : State) (ptr : SessionPtr) (session : Session) (path : Str) : State :=
  { s with
    lockHeap := s.lockHeap ++ [⟨path, .free, ∅⟩]
    locks := s.locks.insertIfNew path s.lockHeap.length
    sessionHeap := s.sessionHeap.set ptr
      { session with locks := session.locks.insertIfNew path s.lockHeap.length } }

/-- A path that is in the server's table, or else a new lock for it. -/
def ready (s : State) (ptr : SessionPtr) (session : Session) (path : Str) : State :=
  if path ∈ s.locks then s else s.enter ptr session path

/-- The client becomes an owner of the lock, which is left in a status. -/
def grant (s : State) (ptr : SessionPtr) (session : Session) (clientId path : Str) (l : LockPtr)
    (lock : Lock) (status : LockStatus) : State :=
  { s with
    lockHeap := s.lockHeap.set l (lock.grantedTo clientId status)
    sessionHeap := s.sessionHeap.set ptr { session with locks := session.locks.insert path l } }

/-- The client stops being an owner of the lock its session has for the path, and that lock goes
back to the server's table. -/
def release (s : State) (ptr : SessionPtr) (session : Session) (clientId path : Str) (l : LockPtr)
    (lock : Lock) : State :=
  { s with
    locks := s.locks.insert path l
    lockHeap := s.lockHeap.set l (lock.without clientId)
    sessionHeap := s.sessionHeap.set ptr { session with locks := session.locks.erase path } }

/-- The path goes from the server's table and from the session's. -/
def forget (s : State) (ptr : SessionPtr) (session : Session) (path : Str) : State :=
  { s with
    locks := s.locks.erase path
    sessionHeap := s.sessionHeap.set ptr { session with locks := session.locks.erase path } }

/-- A new session, registered unless the client has an entry, and a thread on the one registered. -/
def start (s : State) (clientId : Str) (now : ℤ) : State :=
  let ptr := s.sessionHeap.length
  { s with
    sessionHeap := s.sessionHeap ++ [⟨clientId, now, defaultLeaseExtension, 0, ∅, false⟩]
    sessions := s.sessions.insertIfNew clientId ptr
    threads := s.threads ++ [⟨s.sessions.getD clientId ptr, .launched⟩] }

/-- The session is over; what it holds is not touched. -/
def terminate (s : State) (ptr : SessionPtr) (session : Session) : State :=
  s.setSession ptr { session with terminated := true }

end State

end LockService
