import LockService.Cluster

/-!
# The client

A client keeps the locks it was granted, and when it takes its lease to end, in its own memory. It
starts a session with the first node that accepts one, sends its calls there, and leaves it to the
threads of `maintain_session` to send `keep_alive` after `keep_alive`, each as soon as the last is
answered. A thread whose call fails or is late puts the client in jeopardy: it claims the client's
locks at every node in turn, until one of them answers. A call to a node is one step here, and so
is its answer; whatever else happens may come between two of them.
-/

namespace LockService

/-- `DEFAULT_LEASE_DURATION`, in milliseconds. -/
def defaultLeaseDuration : ℕ := 12000

/-- `JEAPARDY_DURATION`, in milliseconds. -/
def jeopardyDuration : ℕ := 45000

/-- `app::client::info`. -/
structure Client (ι : Type*) where
  sessionId : Str
  /-- In nanoseconds. -/
  leaseStart : ℤ
  /-- In milliseconds. -/
  leaseLength : ℤ
  locks : Dict LockStatus
  jeopardy : Bool
  expired : Bool
  master : Option ι

namespace Client

variable {ι : Type*}

/-- Before the first session. -/
def initial : Client ι := ⟨[], 0, 0, ∅, false, false, none⟩

/-- What `start_session` sets before it asks a node. -/
def starting (address : Str) (now : ℤ) : Client ι :=
  ⟨address, now, defaultLeaseDuration, ∅, false, false, none⟩

/-- When the client takes its lease to end. -/
def deadline (client : Client ι) : ℤ := client.leaseStart + client.leaseLength * 1000000

/-- `stopJeopardy`. -/
def stopJeopardy (client : Client ι) : ℤ := client.deadline + jeopardyDuration * 1000000

end Client

/-- How far a thread in `maintain_session` is: it waits for a `keep_alive`, or claims the locks at
the nodes left in this round. -/
inductive Maintainer (ι : Type*) where
  | waiting (stopJeopardy : ℤ)
  | claiming (stopJeopardy : ℤ) (nodes : List ι)
  | returned

/-- The client's address, the nodes in the order of `memberList`, and what each maps paths by. -/
structure Deployment (ι : Type*) where
  address : Str
  memberList : List ι
  cfg : ι → Config

/-- A client and the servers. -/
structure Service (ι : Type*) where
  client : Client ι
  /-- The nodes `start_session` has still to ask, while it runs. -/
  asking : Option (List ι)
  maintainers : List (Maintainer ι)
  cluster : Cluster ι
  /-- In nanoseconds. -/
  clock : ℤ

/-- Whether a call that returns a status is answered OK. -/
def accepted (cfg : Config) (s : State) : Event → Bool
  | .initSession leader c now => (RPC.initSession leader s c now).1 = .ok .ok
  | .closeSession c => (closeSession cfg s c).1 = .ok .ok
  | .openLock c path answer => (openLock cfg s c path answer).1 = .ok .ok
  | .deleteLock c path => (deleteLock cfg s c path).1 = .ok .ok
  | .acquireLock c path mode => (acquireLock cfg s c path mode).1 = .ok .ok
  | .releaseLock c path => (releaseLock cfg s c path).1 = .ok .ok
  | .read c path => (read cfg s c path).1.map Prod.fst = .ok .ok
  | .write c path content answer => (write cfg s c path content answer).1 = .ok .ok
  | .keepAlive _ _ _ _ _ | .maintainStart _ | .maintainLoop _ _ _ | .replicate _ => false

namespace Service

variable {ι : Type*} [DecidableEq ι]

/-- What happens: time passes, servers run, stop and come back empty; the application calls, each
lock call with whether it has waited out a jeopardy; a thread goes on. -/
inductive Event (ι : Type*) where
  | tick (now : ℤ)
  | cluster (event : Cluster.Event ι)
  | crash (server : ι)
  | restart (server : ι) (files : FileTree)
  | startSession
  | initSession
  | closeSession
  | openLock (waited : Bool) (path : Str) (answer : RaftAnswer)
  | deleteLock (waited : Bool) (path : Str)
  | acquireLock (waited : Bool) (path : Str) (mode : LockStatus)
  | releaseLock (waited : Bool) (path : Str)
  | read (waited : Bool) (path : Str)
  | write (waited : Bool) (path content : Str) (answer : RaftAnswer)
  | keepAlive (thread : ℕ) (isCancelled : Bool)
  | timeout (thread : ℕ)
  | claim (thread : ℕ) (isCancelled : Bool) (locks : Claims)
  | round (thread : ℕ)

variable (D : Deployment ι) (w : Service ι)

/-- A call gets to a node, which runs it if it runs at all. -/
def deliver (i : ι) (e : LockService.Event) : Service ι :=
  { w with cluster := (w.cluster.next D.cfg (.deliver i e)).getD w.cluster }

theorem servers_deliver (j i : ι) (e : LockService.Event) :
    (w.deliver D j e).cluster.servers i =
      if i = j then (w.cluster.servers j).bind fun s =>
        LockService.next (D.cfg j) s (e.under (w.cluster.leads j))
      else w.cluster.servers i := by
  simp only [deliver, Cluster.next, Option.getD_some, Function.update_apply]

/-- The node answers the call OK. -/
def answersOk (i : ι) (e : LockService.Event) : Bool :=
  (w.cluster.servers i).any fun s => accepted (D.cfg i) s (e.under (w.cluster.leads i))

/-- A call to `info::master`, and what the client does once it is answered OK; a null pointer ends
the client's process. -/
def callMaster (e : LockService.Event) (k : Client ι → Client ι) : Option (Service ι) :=
  w.client.master.map fun i =>
    { w.deliver D i e with client := if w.answersOk D i e then k w.client else w.client }

/-- A lock call: refused in jeopardy, or when the lease has expired over it, or for want of a lock
it needs. -/
def lockCall (waited needs : Bool) (e : LockService.Event) (k : Client ι → Client ι) :
    Option (Service ι) :=
  if w.asking.isSome then none
  else if w.client.jeopardy || waited && w.client.expired then some w
  else if needs then w.callMaster D e k
  else some w

/-- The answer of a node to a `keep_alive`: none while it waits for a reply, and otherwise the
lease, unless the call fails. -/
def keepAliveAnswer (i : ι) (isCancelled : Bool) (locks : Claims) : Option (Option ℤ) :=
  match w.cluster.servers i with
  | none => some none
  | some s => match (RPC.keepAlive (D.cfg i) (w.cluster.leads i) isCancelled s w.client.sessionId
      locks w.clock).1 with
    | .error .blocked => none
    | .error _ => some none
    | .ok (status, lease) => if status = .ok then some (some lease) else some none

def noClaims : Claims := ⟨[], List.nodup_nil⟩

def setMaintainer (t : ℕ) (m : Maintainer ι) : Service ι :=
  { w with maintainers := w.maintainers.set t m }

/-- A thread puts the client in jeopardy. -/
def enterJeopardy (t : ℕ) (stop : ℤ) : Service ι :=
  { w with client := { w.client with jeopardy := true } }.setMaintainer t
    (.claiming stop D.memberList)

/-- One `keep_alive` of a thread that waits. -/
def keepAlive (t : ℕ) (isCancelled : Bool) : Option (Service ι) :=
  match w.maintainers[t]? with
  | some (.waiting stop) => w.client.master.map fun i =>
    let w' := w.deliver D i (.keepAlive true isCancelled w.client.sessionId noClaims w.clock)
    match w.keepAliveAnswer D i isCancelled noClaims with
    | none => w
    | some none => w'.enterJeopardy D t stop
    | some (some lease) => { w' with client := { w.client with leaseLength := lease } }
  | _ => none

/-- One `keep_alive` with the locks, to the next node of a round; the first node that answers ends
the round. -/
def claim (t : ℕ) (isCancelled : Bool) (locks : Claims) : Option (Service ι) :=
  match w.maintainers[t]? with
  | some (.claiming stop (i :: nodes)) =>
    if locks.entries.Perm w.client.locks.toList then
      let w' := w.deliver D i (.keepAlive true isCancelled w.client.sessionId locks w.clock)
      match w.keepAliveAnswer D i isCancelled locks with
      | none => some w
      | some none => some (w'.setMaintainer t (.claiming stop nodes))
      | some (some lease) =>
        if lease < 0 then
          some ({ w' with client := { w.client with expired := true } }.setMaintainer t .returned)
        else some ({ w' with client := { w.client with
            master := some i, leaseStart := w.clock, leaseLength := lease, jeopardy := false }
          }.setMaintainer t (.claiming stop []))
    else none
  | _ => none

/-- The end of a round: `looping` is never set, so there is another unless it is too late. -/
def round (t : ℕ) : Option (Service ι) :=
  match w.maintainers[t]? with
  | some (.claiming stop []) =>
    if stop < w.clock then
      some ({ w with client := { w.client with expired := true } }.setMaintainer t .returned)
    else some (w.setMaintainer t (.claiming stop D.memberList))
  | _ => none

/-- `start_session` asks the next node. -/
def initSession : Option (Service ι) :=
  match w.asking with
  | none => none
  | some [] => some { w with asking := none }
  | some (i :: nodes) =>
    let e := LockService.Event.initSession true w.client.sessionId w.clock
    if w.answersOk D i e then
      some { w.deliver D i e with
        client := { w.client with master := some i }
        asking := none
        maintainers := w.maintainers ++ [.waiting w.client.stopJeopardy] }
    else some { w.deliver D i e with asking := some nodes }

def next : Event ι → Option (Service ι)
  | .tick now => if w.clock ≤ now then some { w with clock := now } else none
  | .cluster e => (w.cluster.next D.cfg e).map fun cluster => { w with cluster }
  | .crash i => some { w with cluster := { w.cluster with
      servers := Function.update w.cluster.servers i none } }
  | .restart i files =>
    if (w.cluster.servers i).isNone then
      some { w with cluster := { w.cluster with
        servers := Function.update w.cluster.servers i (some (.initial files)) } }
    else none
  | .startSession =>
    if w.asking.isSome then none
    else some { w with client := .starting D.address w.clock, asking := some D.memberList }
  | .initSession => w.initSession D
  | .closeSession =>
    if w.asking.isSome then none
    else if w.client.sessionId = [] then some w
    else w.callMaster D (.closeSession w.client.sessionId) id
  | .openLock waited path answer =>
    w.lockCall D waited true (.openLock w.client.sessionId path answer) id
  | .deleteLock waited path => w.lockCall D waited true (.deleteLock w.client.sessionId path) id
  | .acquireLock waited path mode =>
    w.lockCall D waited true (.acquireLock w.client.sessionId path mode) fun client =>
      { client with locks := client.locks.insertIfNew path mode }
  | .releaseLock waited path =>
    w.lockCall D waited (path ∈ w.client.locks) (.releaseLock w.client.sessionId path) fun client =>
      { client with locks := client.locks.erase path }
  | .read waited path =>
    w.lockCall D waited (path ∈ w.client.locks) (.read w.client.sessionId path) fun client =>
      { client with locks := client.locks.erase path }
  | .write waited path content answer =>
    w.lockCall D waited (path ∈ w.client.locks) (.write w.client.sessionId path content answer) id
  | .keepAlive t isCancelled => w.keepAlive D t isCancelled
  | .timeout t => match w.maintainers[t]? with
    | some (.waiting stop) =>
      if w.client.deadline ≤ w.clock then some (w.enterJeopardy D t stop) else none
    | _ => none
  | .claim t isCancelled locks => w.claim D t isCancelled locks
  | .round t => w.round D t

/-- No session yet, and servers with whatever files they have and no locks. -/
def initial (files : ι → FileTree) (leads : ι → Bool) (clock : ℤ) : Service ι :=
  ⟨.initial, none, [], ⟨fun i => some (.initial (files i)), leads⟩, clock⟩

end Service

end LockService
