import LockService.Lib.Run
import LockService.Sessions

/-!
# Runs of one server

Handlers run one at a time, and so do the turns of the threads; in between, whatever else Raft
commits here changes the files. What a handler throws leaves the server running. A fault that ends
the process ends the run.
-/

namespace LockService

inductive Event where
  | initSession (leader : Bool) (clientId : Str) (now : ℤ)
  | closeSession (clientId : Str)
  | openLock (clientId path : Str) (answer : RaftAnswer)
  | deleteLock (clientId path : Str)
  | acquireLock (clientId path : Str) (mode : LockStatus)
  | releaseLock (clientId path : Str)
  | read (clientId path : Str)
  | write (clientId path content : Str) (answer : RaftAnswer)
  | keepAlive (leader isCancelled : Bool) (clientId : Str) (locks : Claims) (now : ℤ)
  | maintainStart (thread : ℕ)
  | maintainLoop (thread : ℕ) (now now' : ℤ)
  | replicate (files : FileTree)

/-- The state the server goes on in, unless the process is gone. -/
def Result.survivor {α : Type} (r : Result α) : Option State :=
  match r with
  | (.ok _, s) => some s
  | (.error f, s) => if f.isFatal then none else some s

def next (cfg : Config) (s : State) : Event → Option State
  | .initSession leader clientId now => (RPC.initSession leader s clientId now).survivor
  | .closeSession clientId => (closeSession cfg s clientId).survivor
  | .openLock clientId path answer => (openLock cfg s clientId path answer).survivor
  | .deleteLock clientId path => (deleteLock cfg s clientId path).survivor
  | .acquireLock clientId path mode => (acquireLock cfg s clientId path mode).survivor
  | .releaseLock clientId path => (releaseLock cfg s clientId path).survivor
  | .read clientId path => (read cfg s clientId path).survivor
  | .write clientId path content answer => (write cfg s clientId path content answer).survivor
  | .keepAlive leader isCancelled clientId locks now =>
    (RPC.keepAlive cfg leader isCancelled s clientId locks now).survivor
  | .maintainStart thread => (maintainStart s thread).survivor
  | .maintainLoop thread now now' => (maintainLoop cfg s thread now now').survivor
  | .replicate files => some { s with files }

/-- The events that may change the server's files. -/
def Event.touchesFiles : Event → Bool
  | .openLock _ _ _ | .deleteLock _ _ | .write _ _ _ _ | .replicate _ => true
  | _ => false

/-- The states a server can be in: it starts with whatever files it has and no locks. -/
def Reachable (cfg : Config) (s : State) : Prop :=
  ∃ files es, Run.run (next cfg) (.initial files) es = some s

/-- Server 1, run in `/d` with the data directory `x`. -/
def sampleConfig : Config := ⟨[ascii ['d']], by decide, ascii ['x'], by decide, 1⟩

/-- The files of that server once each path was written, empty. -/
def sampleFiles (paths : List Str) : FileTree :=
  paths.foldl (fun files path =>
    ((commitFiles sampleConfig files ⟨.write, path, []⟩ 0).toOption).getD files) .empty

end LockService
