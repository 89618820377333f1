import LockService.State
import LockService.StateMachine

/-!
# The lock and file handlers

Each handler looks the client's session up and checks what it needs in the order of the source;
the first check that fails answers. Whether a path exists is asked of the server's own files,
whether it is locked of its tables, which the two have under the path as the client spelled it.
`append_log` has no result, so a handler goes on the same way whatever Raft answered.
-/

namespace LockService

def refuse (s : State) (message : String) : Result Status := (.ok (.aborted message), s)

/-- The session registered for a client, where it has one, and otherwise an answer. -/
def withSession {α : Type} (s : State) (clientId : Str) (refusal : α)
    (k : SessionPtr → Session → Result α) : Result α :=
  match s.sessions[clientId]? with
  | none => (.ok refusal, s)
  | some ptr => match s.sessionHeap[ptr]? with
    | none => (.error .nullPointer, s)
    | some session => k ptr session

def noSession : Status := .aborted "Client does not have an existing session."

/-- The lock a session has for a path, when the client is recorded as its owner. -/
def ownedLock (s : State) (session : Session) (clientId path : Str) :
    Except String (LockPtr × Lock) :=
  match session.locks[path]?.bind fun l => s.lockHeap[l]?.map (l, ·) with
  | none => .error "Lock was not found among this session's locks."
  | some (l, lock) =>
    if lock.owners[clientId]? = some true then .ok (l, lock)
    else .error "You were not recorded as an owner of this lock."

/-- What comes of an entry handed to Raft: refused, accepted without being committed, or committed
with what `rand()` yields then. -/
inductive RaftAnswer where
  | rejected
  | failed
  | committed (random : ℕ)

/-- `append_log`, on the files: nothing of Raft's answer is returned. -/
def appendLog (cfg : Config) (files : FileTree) (payload : OpPayload) (answer : RaftAnswer) :
    Except Fault FileTree :=
  match encLog payload with
  | none => .error .bufferEnd
  | some log => match answer with
    | .rejected => .ok files
    | .failed => .ok files
    | .committed random => match decLog log with
      | none => .error .stateMachine
      | some payload => (commitFiles cfg files payload random).mapError fun _ => .stateMachine

def openLock (cfg : Config) (s : State) (clientId path : Str) (answer : RaftAnswer) :
    Result Status :=
  withSession s clientId noSession fun ptr session =>
    if isExists cfg s.files path then refuse s "Lock already exists."
    else match appendLog cfg s.files ⟨.write, path, []⟩ answer with
      | .error f => (.error f, s)
      | .ok files => (.ok .ok, { s with files }.enter ptr session path)

/-- `fs::remove` of the client's path, from the directory the process runs in. -/
def removeFile (cfg : Config) (files : FileTree) (path : Str) : Option FileTree :=
  if FileTree.cString path = [] then some files
  else files.remove (FileTree.cSegments (concatenatePath cfg.workingDirectory path))

/-- Something keeps `fs::remove` from its work on the client's path. -/
def RemoveFails (cfg : Config) (files : FileTree) (path : Str) : Prop :=
  FileTree.cString path ≠ [] ∧
    files.Unremovable (FileTree.cSegments (concatenatePath cfg.workingDirectory path))

theorem removeFile_eq_none_iff {cfg : Config} {files : FileTree} {path : Str} :
    removeFile cfg files path = none ↔ RemoveFails cfg files path := by
  unfold removeFile RemoveFails
  split_ifs with hp
  · simp [hp]
  · rw [FileTree.remove_eq_none_iff, and_iff_right hp]

def deleteLock (cfg : Config) (s : State) (clientId path : Str) : Result Status :=
  withSession s clientId noSession fun ptr session =>
    match session.locks[path]? with
    | none => refuse s "Client does not hold this lock."
    | some l => match s.lockHeap[l]? with
      | none => (.error .nullPointer, s)
      | some lock =>
        if lock.status ≠ .exclusive then
          refuse s "Client does not hold this lock in exclusive mode."
        else if isExists cfg s.files path then refuse s "file doesn't exists."
        else match removeFile cfg s.files path with
          | none => (.error .filesystem, s)
          | some files => (.ok .ok, { s with files }.forget ptr session path)

/-- The end of `acquire_lock`, where the server's table has the path. -/
def claimLock (s : State) (ptr : SessionPtr) (clientId path : Str) (mode : LockStatus) :
    Result Status :=
  match s.locks[path]? with
  | none => (.error .outOfRange, s)
  | some l => match s.lockHeap[l]?, s.sessionHeap[ptr]? with
    | some lock, some session => match lock.status with
      | .exclusive => refuse s "Someone already holds the lock in exclusive mode"
      | .shared =>
        if mode = .shared then (.ok .ok, s.grant ptr session clientId path l lock .shared)
        else refuse s "Someone already holds the lock, can't claim exclusively."
      | _ =>
        let s := s.grant ptr session clientId path l lock mode
        (.ok .ok, { s with locks := s.locks.insert path l })
    | _, _ => (.error .nullPointer, s)

def acquireLock (cfg : Config) (s : State) (clientId path : Str) (mode : LockStatus) :
    Result Status :=
  withSession s clientId noSession fun ptr session =>
    if mode ≠ .exclusive ∧ mode ≠ .shared then refuse s "Can't request a lock in free mode."
    else if isExists cfg s.files path then
      claimLock (s.ready ptr session path) ptr clientId path mode
    else refuse s "file doesn't exists."

def releaseLock (cfg : Config) (s : State) (clientId path : Str) : Result Status :=
  withSession s clientId noSession fun ptr session =>
    if isExists cfg s.files path then
      match ownedLock s session clientId path with
      | .error message => refuse s message
      | .ok (l, lock) =>
        if path ∈ s.locks then (.ok .ok, s.release ptr session clientId path l lock)
        else (.error .endIterator, s)
    else refuse s "Lock already exists."

/-- `read`: the status and the content, which is read before the lock is looked at. -/
def read (cfg : Config) (s : State) (clientId path : Str) : Result (Status × Str) :=
  withSession s clientId (noSession, []) fun _ session =>
    match readContent cfg s.files path with
    | .error f => (.error f, s)
    | .ok content => match ownedLock s session clientId path with
      | .error message => (.ok (.aborted message, content), s)
      | .ok _ => (.ok (.ok, content), s)

def write (cfg : Config) (s : State) (clientId path content : Str) (answer : RaftAnswer) :
    Result Status :=
  withSession s clientId noSession fun _ session =>
    if isExists cfg s.files path then
      match ownedLock s session clientId path with
      | .error message => refuse s message
      | .ok _ => match appendLog cfg s.files ⟨.write, path, content⟩ answer with
        | .error f => (.error f, s)
        | .ok files => (.ok .ok, { s with files })
    else refuse s "Lock already exists."

end LockService
