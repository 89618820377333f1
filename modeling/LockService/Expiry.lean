import LockService.Adoption

/-!
# The calls of a client whose session has expired

A lock call asks whether the client is in jeopardy, and only one that has waited asks whether the
session has expired (`Client.progress`). So an expired client answers its calls itself just as long
as it is in jeopardy too, and that it stays unless a thread lets the session expire after it was
re-adopted, or is re-adopted after it expired (`inert_iff_orderly`).
-/

namespace LockService

/-- What a lock call returns to the application. -/
inductive Report where
  | done (ok : Bool)
  | status (status : Status)
  | content (status : Status) (content : Str)
  deriving DecidableEq

def Report.fails : Report → Bool
  | .done ok => !ok
  | .status s | .content s _ => s.code ≠ .ok

inductive LockCall where
  | openLock (path : Str)
  | deleteLock (path : Str)
  | acquireLock (path : Str) (mode : LockStatus)
  | releaseLock (path : Str)
  | read (path : Str)
  | write (path content : Str)

namespace LockCall

/-- The call returns with an error of the client's own. -/
def refused (message : String) : LockCall → Report
  | .openLock _ | .deleteLock _ => .done false
  | .acquireLock _ _ | .releaseLock _ | .write _ _ => .status (.aborted message)
  | .read _ => .content (.aborted message) []

/-- The path of the lock the call needs the client to have, and the error when it has not. -/
def needs : LockCall → Option (Str × String)
  | .releaseLock path => some (path, "Client doesn't have the lock you are trying to release.")
  | .read path => some (path, "Client doesn't have the lock you are trying to read from.")
  | .write path _ => some (path, "Client doesn't have the lock you are trying to write to.")
  | .openLock _ | .deleteLock _ | .acquireLock _ _ => none

theorem fails_refused (call : LockCall) (message : String) :
    (call.refused message).fails = true := by
  cases call <;> rfl

def request (sessionId : Str) (answer : RaftAnswer) : LockCall → Event
  | .openLock path => .openLock sessionId path answer
  | .deleteLock path => .deleteLock sessionId path
  | .acquireLock path mode => .acquireLock sessionId path mode
  | .releaseLock path => .releaseLock sessionId path
  | .read path => .read sessionId path
  | .write path content => .write sessionId path content answer

/-- What the client does when the request is answered OK. -/
def answered {ι : Type*} : LockCall → Client ι → Client ι
  | .acquireLock path mode => fun client =>
    { client with locks := client.locks.insertIfNew path mode }
  | .releaseLock path | .read path => fun client =>
    { client with locks := client.locks.erase path }
  | .openLock _ | .deleteLock _ | .write _ _ => id

/-- The event of the call: `waited` once it has waited, with Raft's answer if it comes to that. -/
def event {ι : Type*} (waited : Bool) (answer : RaftAnswer) : LockCall → Service.Event ι
  | .openLock path => .openLock waited path answer
  | .deleteLock path => .deleteLock waited path
  | .acquireLock path mode => .acquireLock waited path mode
  | .releaseLock path => .releaseLock waited path
  | .read path => .read waited path
  | .write path content => .write waited path content answer

end LockCall

/-- How a call goes on: it sleeps until a time, returns or sends its request to `info::master`. -/
inductive Progress where
  | sleeps (stopJeopardy : ℤ)
  | returns (report : Report)
  | sends
  deriving DecidableEq

/-- A lock call up to its request, from the start or from when it has waited. -/
def Client.progress {ι : Type*} (client : Client ι) (waited : Bool) (call : LockCall) : Progress :=
  if ¬ waited ∧ client.jeopardy then .sleeps client.stopJeopardy
  else if waited ∧ (client.jeopardy ∨ client.expired) then
    .returns (call.refused "Session expired.")
  else match call.needs with
    | none => .sends
    | some (path, message) =>
      if path ∈ client.locks then .sends else .returns (call.refused message)

namespace Service

variable {ι : Type*} [DecidableEq ι] {D : Deployment ι} {w w' : Service ι} {e : Event ι}

theorem lockCall_eq (hasking : w.asking = none) {waited needs : Bool} {call : LockCall}
    (hneeds : needs = call.needs.all fun p => decide (p.1 ∈ w.client.locks))
    (request : LockService.Event) (k : Client ι → Client ι) :
    w.lockCall D waited needs request k =
      if w.client.progress waited call = .sends then w.callMaster D request k else some w := by
  subst hneeds
  unfold lockCall Client.progress
  rw [hasking]
  rcases hcall : call.needs with _ | ⟨path, message⟩
  · rcases waited <;> rcases w.client.jeopardy <;> rcases w.client.expired <;> simp
  · by_cases hp : path ∈ w.client.locks <;> rcases waited <;> rcases w.client.jeopardy <;>
      rcases w.client.expired <;> simp [hp]

/-- Nothing happens in a call but the request it sends, if it sends one. -/
theorem next_event (hasking : w.asking = none) (waited : Bool) (answer : RaftAnswer)
    (call : LockCall) : w.next D (call.event waited answer) =
      if w.client.progress waited call = .sends then
        w.callMaster D (call.request w.client.sessionId answer) call.answered
      else some w := by
  have heq := fun needs hneeds => @lockCall_eq ι _ D w hasking waited needs call hneeds
    (call.request w.client.sessionId answer) call.answered
  cases call with
  | openLock => exact heq true rfl
  | deleteLock => exact heq true rfl
  | acquireLock => exact heq true rfl
  | releaseLock path => exact heq (decide (path ∈ w.client.locks)) rfl
  | read path => exact heq (decide (path ∈ w.client.locks)) rfl
  | write path => exact heq (decide (path ∈ w.client.locks)) rfl

/-- The client's own answer to every call is a failure, once it has expired and until it starts
another session. -/
def Inert (D : Deployment ι) (w : Service ι) : Prop :=
  w.client.expired = true → ∀ call : LockCall,
    w.client.progress false call ≠ .sends ∧
    (∀ report, w.client.progress false call = .returns report → report.fails = true) ∧
    ∀ es w', (∀ e ∈ es, e ≠ .startSession) → Run.run (next D) w es = some w' →
      ∃ report, w'.client.progress true call = .returns report ∧ report.fails = true

/-- The session expires in jeopardy, and a thread is not re-adopted after that. -/
def Orderly (D : Deployment ι) (w : Service ι) : Event ι → Prop
  | .claim t isCancelled locks => ∀ stop i nodes lease,
    w.maintainers[t]? = some (.claiming stop (i :: nodes)) →
    w.keepAliveAnswer D i isCancelled locks = some (some lease) →
    if lease < 0 then w.client.jeopardy = true else w.client.expired = false
  | .round t => ∀ stop, w.maintainers[t]? = some (.claiming stop []) → stop < w.clock →
    w.client.jeopardy = true
  | _ => True

/-- An expired client is in jeopardy. -/
def Sealed (w : Service ι) : Prop := w.client.expired = true → w.client.jeopardy = true

/-- Which of the client's flags an event changes. -/
inductive Flags (D : Deployment ι) (w : Service ι) (e : Event ι) (w' : Service ι) : Prop where
  | same (h : w'.client.jeopardy = w.client.jeopardy) (h' : w'.client.expired = w.client.expired)
    (ho : Orderly D w e)
  | jeopardy (h : w'.client.jeopardy = true) (h' : w'.client.expired = w.client.expired)
    (ho : Orderly D w e)
  | start (he : e = .startSession) (h' : w'.client.expired = false) (ho : Orderly D w e)
  | expire (h : w'.client.jeopardy = w.client.jeopardy) (h' : w'.client.expired = true)
    (ho : Orderly D w e ↔ w.client.jeopardy = true)
  | adopt (h : w'.client.jeopardy = false) (h' : w'.client.expired = w.client.expired)
    (ho : Orderly D w e ↔ w.client.expired = false)

/-- What the node answers decides what the condition says. -/
theorem flags_claim {t : ℕ} {isCancelled : Bool} {locks : Claims}
    (h : w.claim D t isCancelled locks = some w') : Flags D w (.claim t isCancelled locks) w' := by
  unfold claim at h
  split at h
  swap
  · simp at h
  rename_i stop i nodes hm
  split_ifs at h
  dsimp only at h
  have ho : ∀ {answer}, w.keepAliveAnswer D i isCancelled locks = answer →
      (Orderly D w (.claim t isCancelled locks) ↔ ∀ lease, answer = some (some lease) →
        if lease < 0 then w.client.jeopardy = true else w.client.expired = false) := by
    intro answer ha
    subst ha
    constructor
    · exact fun ho lease hl => ho stop i nodes lease hm hl
    · intro ho stop' i' nodes' lease hm' hl
      obtain ⟨-, hnodes⟩ := Maintainer.claiming.inj (Option.some.inj (hm.symm.trans hm'))
      obtain ⟨rfl, -⟩ := List.cons.inj hnodes
      exact ho lease hl
  split at h
  · rename_i ha
    obtain rfl := Option.some.inj h
    exact .same rfl rfl ((ho ha).mpr (by simp))
  · rename_i ha
    obtain rfl := Option.some.inj h
    exact .same rfl rfl ((ho ha).mpr (by simp))
  · rename_i lease ha
    split_ifs at h with hneg
    · obtain rfl := Option.some.inj h
      refine .expire rfl rfl ((ho ha).trans ?_)
      simp [hneg]
    · obtain rfl := Option.some.inj h
      refine .adopt rfl rfl ((ho ha).trans ?_)
      simp [hneg]

omit [DecidableEq ι] in
theorem flags_round {t : ℕ} (h : w.round D t = some w') : Flags D w (.round t) w' := by
  unfold round at h
  split at h
  swap
  · simp at h
  rename_i stop hm
  have ho : Orderly D w (.round t) ↔ (stop < w.clock → w.client.jeopardy = true) := by
    constructor
    · exact fun ho => ho stop hm
    · intro ho stop' hm'
      obtain ⟨rfl, -⟩ := Maintainer.claiming.inj (Option.some.inj (hm.symm.trans hm'))
      exact ho
  split_ifs at h with hlate
  · obtain rfl := Option.some.inj h
    refine .expire rfl rfl (ho.trans ?_)
    simp [hlate]
  · obtain rfl := Option.some.inj h
    exact .same rfl rfl (ho.mpr fun hl => absurd hl hlate)

theorem flags_next (h : w.next D e = some w') : Flags D w e w' := by
  have haside : e.ofThread = false → e ≠ .startSession → Orderly D w e → Flags D w e w' :=
    fun hthread hstart ho => .same (aside_next hthread hstart h).jeopardy
      (aside_next hthread hstart h).expired ho
  cases e with
  | startSession =>
    simp only [next] at h
    split_ifs at h
    obtain rfl := Option.some.inj h
    exact .start rfl rfl trivial
  | keepAlive t isCancelled =>
    simp only [next, keepAlive] at h
    split at h
    · obtain ⟨i, -, hw⟩ := Option.map_eq_some_iff.mp h
      split at hw <;> subst hw
      · exact .same rfl rfl trivial
      · exact .jeopardy rfl rfl trivial
      · exact .same rfl rfl trivial
    · simp at h
  | timeout t =>
    simp only [next] at h
    split at h
    · split_ifs at h
      obtain rfl := Option.some.inj h
      exact .jeopardy rfl rfl trivial
    · simp at h
  | claim t isCancelled locks => exact flags_claim h
  | round t => exact flags_round h
  | _ => exact haside rfl (by simp) trivial

theorem sealed_next (hs : w.Sealed) (h : w.next D e = some w') : w'.Sealed ↔ Orderly D w e := by
  unfold Sealed at *
  rcases flags_next h with ⟨hj, he, ho⟩ | ⟨hj, he, ho⟩ | ⟨-, he, ho⟩ | ⟨hj, he, ho⟩ | ⟨hj, he, ho⟩
  · exact iff_of_true (by rwa [hj, he]) ho
  · exact iff_of_true (fun _ => hj) ho
  · exact iff_of_true (by simp [he]) ho
  · rw [ho, hj, he]
    simp
  · rw [ho, hj, he]
    simp

theorem expired_next (hne : e ≠ .startSession) (hexp : w.client.expired = true)
    (h : w.next D e = some w') : w'.client.expired = true := by
  rcases flags_next h with ⟨-, he, -⟩ | ⟨-, he, -⟩ | ⟨he, -⟩ | ⟨-, he, -⟩ | ⟨-, he, -⟩
  · rw [he, hexp]
  · rw [he, hexp]
  · exact absurd he hne
  · exact he
  · rw [he, hexp]

/-- An expired client is inert just when it is in jeopardy. -/
theorem inert_iff_sealed : Inert D w ↔ w.Sealed := by
  constructor
  · intro hinert hexp
    by_contra hj
    refine (hinert hexp (.openLock [])).1 ?_
    simp [Client.progress, LockCall.needs, hj]
  · intro hs hexp call
    have hj := hs hexp
    have hsleeps : w.client.progress false call = .sleeps w.client.stopJeopardy := by
      simp [Client.progress, hj]
    rw [hsleeps]
    refine ⟨by simp, by simp, fun es w' hno hrun => ?_⟩
    have hlater : w'.client.expired = true :=
      Run.invariant (fun _ _ _ hexp hne hn => expired_next hne hexp hn) hexp
        (Run.along_of_forall hno) hrun
    refine ⟨call.refused "Session expired.", ?_, call.fails_refused _⟩
    simp [Client.progress, hlater]

/-- The client is inert whenever it has expired, just when every step is orderly. -/
theorem inert_iff_orderly {files : ι → FileTree} {leads : ι → Bool} {clock : ℤ}
    {es : List (Event ι)} :
    Run.Along (next D) (fun _ _ w' => Inert D w') (initial files leads clock) es ↔
      Run.Along (next D) (fun w e _ => Orderly D w e) (initial files leads clock) es := by
  have hinit : (initial files leads clock).Sealed := fun h => by
    simp [initial, Client.initial] at h
  refine Run.along_congr ?_ hinit Run.along_true
  intro w e w' hs _ h
  exact ⟨inert_iff_sealed.trans (sealed_next hs h), inert_iff_sealed.mp⟩

/-- The client has expired, and sends what it is asked. -/
theorem not_inert_adopted : ∃ w, Run.run (next sampleDeployment) sampleService
      (sampleEpisode [29000000000, 44000000000, 59000000000] ++ [.round 0]) = some w ∧
    w.client.expired = true ∧ w.client.progress false (.openLock (ascii ['b'])) = .sends ∧
    ¬ Inert sampleDeployment w := by
  obtain ⟨w, hw, hcheck⟩ := (Option.any_eq_true _ _).mp (by decide +kernel :
    (Run.run (next sampleDeployment) sampleService
      (sampleEpisode [29000000000, 44000000000, 59000000000] ++ [.round 0])).any fun w =>
      w.client.expired = true ∧ w.client.progress false (.openLock (ascii ['b'])) = .sends)
  obtain ⟨hexp, hsends⟩ := of_decide_eq_true hcheck
  exact ⟨w, hw, hexp, hsends, fun hinert => (hinert hexp _).1 hsends⟩

end Service

end LockService
