import LockService.Handlers

/-!
# Sessions, leases and the threads that maintain them

A client's first session is the only one `info::sessions` ever holds for it: `insert` keeps what is
there, so a later `create_session` starts a thread on the old one. A thread of `maintain_session`
puts a reply in the session's channel when it starts and in the last second of the lease, and ends
the session once the lease has run out. `end_session` releases the first lock of the session until
none is left or a release is refused.
-/

namespace LockService

def createSession (s : State) (clientId : Str) (now : ℤ) : Result Status :=
  match s.sessions[clientId]? with
  | none => (.ok .ok, s.start clientId now)
  | some ptr => match s.sessionHeap[ptr]? with
    | none => (.error .nullPointer, s)
    | some session =>
      if session.terminated then (.ok .ok, s.start clientId now)
      else refuse s "Client has an existing session."

/-- The loop of `end_session`, which stops for good at the first lock not released. -/
def releaseLoop (cfg : Config) (ptr : SessionPtr) : ℕ → State → Result Unit
  | 0, s => (.error .diverges, s)
  | fuel + 1, s => match s.sessionHeap[ptr]? with
    | none => (.error .nullPointer, s)
    | some session => match session.locks.keys.head? with
      | none => (.ok (), s)
      | some path => (releaseLock cfg s session.clientId path).andThen fun status s =>
        if status = .ok then releaseLoop cfg ptr fuel s else (.ok (), s)

/-- How many locks the session registered for a client has. -/
def State.lockCount (s : State) (clientId : Str) : ℕ :=
  match s.sessions[clientId]?.bind fun ptr => s.sessionHeap[ptr]? with
  | none => 0
  | some session => session.locks.size

/-- `end_session`. Every turn of the loop but the last takes a lock from the session registered for
the client, so there are at most as many as the fuel. -/
def endSession (cfg : Config) (s : State) (ptr : SessionPtr) : Result Unit :=
  match s.sessionHeap[ptr]? with
  | none => (.error .nullPointer, s)
  | some session =>
    let s := s.terminate ptr session
    releaseLoop cfg ptr (s.lockCount session.clientId + 1) s

def closeSession (cfg : Config) (s : State) (clientId : Str) : Result Status :=
  match s.sessions[clientId]? with
  | none => refuse s "Client has an existing session."
  | some ptr => match s.sessionHeap[ptr]? with
    | none => (.error .nullPointer, s)
    | some session =>
      if session.terminated then refuse s "Client has an existing session."
      else (endSession cfg s ptr).andThen fun _ s => (.ok .ok, s)

/-- `in >> *(session->block_reply)`. -/
def putReply (s : State) (ptr : SessionPtr) : Result Unit :=
  match s.sessionHeap[ptr]? with
  | none => (.error .nullPointer, s)
  | some session =>
    (.ok (), s.setSession ptr { session with blockReply := session.blockReply + 1 })

def State.setPhase (s : State) (i : ℕ) (thread : Thread) (phase : Phase) : State :=
  { s with threads := s.threads.set i { thread with phase } }

/-- `maintain_session` up to its loop. -/
def maintainStart (s : State) (i : ℕ) : Result Unit :=
  match s.threads[i]? with
  | none => (.ok (), s)
  | some thread =>
    if thread.phase = .launched then
      (putReply s thread.session).andThen fun _ s => (.ok (), s.setPhase i thread .looping)
    else (.ok (), s)

/-- How long the lease still runs, in nanoseconds; the clock is read twice. -/
def timeUntilExpire (session : Session) (now now' : ℤ) : ℤ :=
  let leaseExpires := session.startTime + session.leaseLength * 1000000
  if leaseExpires > now then leaseExpires - now' else 0

/-- One turn of the loop of `maintain_session`. -/
def maintainLoop (cfg : Config) (s : State) (i : ℕ) (now now' : ℤ) : Result Unit :=
  match s.threads[i]? with
  | none => (.ok (), s)
  | some thread =>
    if thread.phase = .looping then
      match s.sessionHeap[thread.session]? with
      | none => (.error .nullPointer, s)
      | some session =>
        if timeUntilExpire session now now' = 0 then
          (endSession cfg s thread.session).andThen fun _ s =>
            (putReply s thread.session).andThen fun _ s => (.ok (), s.setPhase i thread .returned)
        else if timeUntilExpire session now now' ≤ 1000000000 then putReply s thread.session
        else (.ok (), s)
    else (.ok (), s)

/-- `attempt_extend_session`; the call waits while the channel is empty. -/
def attemptExtendSession (s : State) (clientId : Str) : Result ℤ :=
  match s.sessions[clientId]? with
  | none => (.ok (-1), s)
  | some ptr => match s.sessionHeap[ptr]? with
    | none => (.error .nullPointer, s)
    | some session =>
      if session.blockReply = 0 then (.error .blocked, s)
      else
        let leaseLength := if session.terminated then session.leaseLength
          else session.leaseLength + defaultLeaseExtension
        (.ok leaseLength,
          s.setSession ptr { session with leaseLength, blockReply := session.blockReply - 1 })

/-- The map of the locks a client says it held, in the order it is iterated. -/
structure Claims where
  entries : List (Str × LockStatus)
  nodup : (entries.map Prod.fst).Nodup

/-- The loop of `handle_jeopardy`: a lock that is refused ends the session, and the loop goes on. -/
def claimLocks (cfg : Config) (clientId : Str) : List (Str × LockStatus) → State → Result Unit
  | [], s => (.ok (), s)
  | (path, mode) :: locks, s => (acquireLock cfg s clientId path mode).andThen fun status s =>
    if status = .ok then claimLocks cfg clientId locks s
    else match s.sessions[clientId]? with
      | none => (.error .outOfRange, s)
      | some ptr => (endSession cfg s ptr).andThen fun _ s => claimLocks cfg clientId locks s

/-- `handle_jeopardy`. The thread `create_session` launched runs up to its loop by the time the
last call waits for its reply. -/
def handleJeopardy (cfg : Config) (s : State) (clientId : Str) (locks : Claims) (now : ℤ) :
    Result ℤ :=
  (createSession s clientId now).andThen fun status s₁ =>
    if status ≠ .ok then (.ok (-1), s₁)
    else (claimLocks cfg clientId locks.entries s₁).andThen fun _ s₂ =>
      (maintainStart s₂ s.threads.length).andThen fun _ s₃ => attemptExtendSession s₃ clientId

/-- The conversion of an `int64_t` to `int32_t`. -/
def toInt32 (v : ℤ) : ℤ := Int.bmod v (2 ^ 32)

namespace RPC

def initSession (leader : Bool) (s : State) (clientId : Str) (now : ℤ) : Result Status :=
  if leader then createSession s clientId now else (.ok .cancelled, s)

/-- `keep_alive`: the status and `lease_duration`. -/
def keepAlive (cfg : Config) (leader isCancelled : Bool) (s : State) (clientId : Str)
    (locks : Claims) (now : ℤ) : Result (Status × ℤ) :=
  if ¬ leader then (.ok (.aborted "This server is not master.", 0), s)
  else if isCancelled then (.ok (⟨.cancelled, "Exceeded deadline."⟩, 0), s)
  else (attemptExtendSession s clientId).andThen fun lease s =>
    if toInt32 lease < 0 then
      (handleJeopardy cfg s clientId locks now).andThen fun lease s =>
        (.ok (.ok, toInt32 lease), s)
    else (.ok (.ok, toInt32 lease), s)

end RPC

end LockService
