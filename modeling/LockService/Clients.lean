import LockService.LeaseSafety

/-!
# Many clients

Any number of clients share the servers, each with a memory of its own. To each of them a step of
another is a request that a server runs, or nothing (`Service.Led.elsewhere`), so what holds of one
client among requests of others holds of every client of the system. Two clients whose leases run
then agree on who holds what (`exclusion`).
-/

namespace LockService

namespace Service

variable {ι : Type*} [DecidableEq ι]

/-- What happens to the servers or to all: no step of a client. -/
def Event.Shared : Event ι → Prop
  | .tick _ | .cluster _ | .crash _ | .restart _ _ => True
  | _ => False

/-- What a client's step comes to for others. -/
inductive Elsewhere (D : Deployment ι) (w w' : Service ι) (e : Event ι) : Prop where
  | shared (h : e.Shared)
  | nothing (hcluster : w'.cluster = w.cluster) (hclock : w'.clock = w.clock)
  | call {j : ι} {call : LockService.Event} (hcluster : w'.cluster = (w.deliver D j call).cluster)
    (hclock : w'.clock = w.clock)
    (hforeign : ∀ s c, c ≠ D.address → call.Foreign s c)
    (hloop : ∀ t now now', call ≠ .maintainLoop t now now')
    (hkeeps : ∀ i, KeepsPaths D i w e → KeepsPaths D i w (.cluster (.deliver j call)))

section Elsewhere

variable {D : Deployment ι} {w w' : Service ι} {i : ι}

theorem Led.elsewhere_master (hw : Led D i w) {e : Event ι} {call : LockService.Event}
    {k : Client ι → Client ι} (h : w.callMaster D call k = some w')
    (hforeign : w.client.sessionId = D.address → ∀ s c, c ≠ D.address → call.Foreign s c)
    (hloop : ∀ t now now', call ≠ .maintainLoop t now now')
    (hkeeps : ∀ i j, KeepsPaths D i w e → KeepsPaths D i w (.cluster (.deliver j call))) :
    Elsewhere D w w' e := by
  obtain ⟨j, hj, rfl⟩ := Option.map_eq_some_iff.mp h
  exact .call rfl rfl (hforeign (hw.master j hj).2) hloop fun i => hkeeps i j

theorem Led.elsewhere_lockCall (hw : Led D i w) {e : Event ι} {waited needs : Bool}
    {call : LockService.Event} {k : Client ι → Client ι}
    (h : w.lockCall D waited needs call k = some w')
    (hforeign : w.client.sessionId = D.address → ∀ s c, c ≠ D.address → call.Foreign s c)
    (hloop : ∀ t now now', call ≠ .maintainLoop t now now')
    (hkeeps : ∀ i j, KeepsPaths D i w e → KeepsPaths D i w (.cluster (.deliver j call))) :
    Elsewhere D w w' e := by
  unfold Service.lockCall at h
  split_ifs at h
  · obtain rfl := Option.some.inj h
    exact .nothing rfl rfl
  · exact hw.elsewhere_master h hforeign hloop hkeeps
  · obtain rfl := Option.some.inj h
    exact .nothing rfl rfl

/-- A step of a client that is led. -/
theorem Led.elsewhere (hw : Led D i w) {e : Event ι} (h : w.next D e = some w') :
    Elsewhere D w w' e := by
  have hne : ∀ {c : Str}, w.client.sessionId = D.address → c ≠ D.address →
      w.client.sessionId ≠ c := fun hid hc he => hc (he ▸ hid)
  cases e with
  | tick | cluster | crash | restart => exact .shared trivial
  | startSession =>
    simp only [next] at h
    split_ifs at h
    obtain rfl := Option.some.inj h
    exact .nothing rfl rfl
  | initSession =>
    simp only [next, Service.initSession] at h
    split at h
    · simp at h
    · obtain rfl := Option.some.inj h
      exact .nothing rfl rfl
    rename_i j nodes hask
    have hid := (hw.asking (by simp [hask])).1
    have hcall : ∀ w'' : Service ι, w''.cluster = (w.deliver D j
        (.initSession true w.client.sessionId w.clock)).cluster → w''.clock = w.clock →
        Elsewhere D w w'' .initSession := fun w'' hc ht =>
      .call hc ht (fun s c hc => hne hid hc) (by simp) fun i _ s hs _ => trivial
    split_ifs at h <;> obtain rfl := Option.some.inj h <;> exact hcall _ rfl rfl
  | closeSession =>
    simp only [next] at h
    split_ifs at h
    · obtain rfl := Option.some.inj h
      exact .nothing rfl rfl
    · exact hw.elsewhere_master h (fun hid s c hc => hne hid hc) (by simp)
        fun i j _ s hs _ => trivial
  | openLock waited path answer =>
    exact hw.elsewhere_lockCall h (fun hid s c hc => hne hid hc) (by simp)
      fun i j hk s hs _ => hk s hs
  | write waited path content answer =>
    exact hw.elsewhere_lockCall h (fun hid s c hc => hne hid hc) (by simp)
      fun i j hk s hs _ => hk s hs
  | deleteLock | acquireLock | releaseLock | read =>
    exact hw.elsewhere_lockCall h (fun hid s c hc => hne hid hc) (by simp)
      fun i j _ s hs _ => trivial
  | keepAlive t isCancelled =>
    simp only [next, Service.keepAlive] at h
    split at h
    swap
    · simp at h
    obtain ⟨j, hj, rfl⟩ := Option.map_eq_some_iff.mp h
    have hid := (hw.master j hj).2
    have hcall : ∀ w'' : Service ι, w''.cluster = (w.deliver D j (.keepAlive true isCancelled
        w.client.sessionId noClaims w.clock)).cluster → w''.clock = w.clock →
        Elsewhere D w w'' (.keepAlive t isCancelled) := fun w'' hc ht =>
      .call hc ht (fun s c hc => hne hid hc) (by simp) fun i _ s hs _ => trivial
    split
    · exact .nothing rfl rfl
    · exact hcall _ rfl rfl
    · exact hcall _ rfl rfl
  | timeout t =>
    simp only [next] at h
    split at h
    · split_ifs at h
      obtain rfl := Option.some.inj h
      exact .nothing rfl rfl
    · simp at h
  | claim t isCancelled locks =>
    simp only [next, claim] at h
    split at h
    · rename_i stop j nodes ht
      obtain ⟨_, hm⟩ := hw.waiting _ (List.mem_of_getElem? ht)
      simp at hm
    · simp at h
  | round t =>
    simp only [next, round] at h
    split at h
    · rename_i stop ht
      obtain ⟨_, hm⟩ := hw.waiting _ (List.mem_of_getElem? ht)
      simp at hm
    · simp at h

end Elsewhere

end Service

/-- The addresses of the clients; the nodes are the same to all. -/
structure Deployments (ι κ : Type*) where
  address : κ → Str
  distinct : Function.Injective address
  memberList : List ι
  cfg : ι → Config

/-- The clients with the sessions they have open, and the servers. -/
structure System (ι κ : Type*) where
  client : κ → Client ι
  asking : κ → Option (List ι)
  maintainers : κ → List (Maintainer ι)
  opened : κ → Bool
  cluster : Cluster ι
  clock : ℤ

namespace System

variable {ι κ : Type*} [DecidableEq ι] [DecidableEq κ]

def of (D : Deployments ι κ) (c : κ) : Deployment ι := ⟨D.address c, D.memberList, D.cfg⟩

/-- The servers, and of the clients only one. -/
def view (S : System ι κ) (c : κ) : Service ι × Bool :=
  (⟨S.client c, S.asking c, S.maintainers c, S.cluster, S.clock⟩, S.opened c)

/-- The system with one client and the servers as given. -/
def put (S : System ι κ) (c : κ) (p : Service ι × Bool) : System ι κ where
  client := Function.update S.client c p.1.client
  asking := Function.update S.asking c p.1.asking
  maintainers := Function.update S.maintainers c p.1.maintainers
  opened := Function.update S.opened c p.2
  cluster := p.1.cluster
  clock := p.1.clock

/-- A step of one of the clients, or of the servers, which may as well count as one. -/
def next (D : Deployments ι κ) (S : System ι κ) (e : κ × Service.Event ι) : Option (System ι κ) :=
  (Service.nextOpen (of D e.1) (S.view e.1) e.2).map (S.put e.1)

def initial (files : ι → FileTree) (leads : ι → Bool) (clock : ℤ) : System ι κ :=
  ⟨fun _ => .initial, fun _ => none, fun _ => [], fun _ => false,
    ⟨fun i => some (.initial (files i)), leads⟩, clock⟩

/-- The node goes on and alone leads; what happens besides the clients is foreign to all of them,
and a client asks for a session where it has none that is over. -/
structure Guarded (D : Deployments ι κ) (i : ι) (S : System ι κ) (e : κ × Service.Event ι)
    (S' : System ι κ) : Prop where
  clock : Service.OneClock (of D e.1) i (S.view e.1).1 e.2 (S'.view e.1).1
  shared : e.2.Shared → ∀ c, Service.OneClock (of D c) i (S.view c).1 e.2 (S'.view c).1
  keeps : Service.KeepsPaths (of D e.1) i (S.view e.1).1 e.2
  anew : Service.AsksAnew (of D e.1) i (S.view e.1).1 e.2

section Step

variable {D : Deployments ι κ} {S S' : System ι κ} {i : ι} {c d : κ} {e : Service.Event ι}
  {p : Service ι × Bool}

omit [DecidableEq ι] in
@[simp]
theorem view_put_self : (S.put c p).view c = p := by
  simp [view, put]

omit [DecidableEq ι] in
theorem view_put_of_ne (h : d ≠ c) : (S.put c p).view d =
    ({ (S.view d).1 with cluster := p.1.cluster, clock := p.1.clock }, S.opened d) := by
  simp [view, put, Function.update_of_ne h]

omit [DecidableEq κ] in
/-- What happens to all happens to each. -/
theorem view_shared {w : Service ι} (he : e.Shared)
    (h : (S.view c).1.next (of D c) e = some w) : Service.nextOpen (of D d) (S.view d) e =
      some ({ (S.view d).1 with cluster := w.cluster, clock := w.clock }, S.opened d) := by
  refine Option.map_eq_some_iff.mpr
    ⟨{ (S.view d).1 with cluster := w.cluster, clock := w.clock }, ?_, ?_⟩
  · cases e with
    | tick now =>
      simp only [Service.next] at h ⊢
      split_ifs at h with hle
      obtain rfl := Option.some.inj h
      exact if_pos hle
    | cluster event =>
      obtain ⟨cluster, hcluster, rfl⟩ := Option.map_eq_some_iff.mp h
      exact Option.map_eq_some_iff.mpr ⟨cluster, hcluster, rfl⟩
    | crash j =>
      obtain rfl := Option.some.inj h
      rfl
    | restart j files =>
      simp only [Service.next] at h ⊢
      split_ifs at h with hnone
      obtain rfl := Option.some.inj h
      exact if_pos hnone
    | _ => exact he.elim
  · cases e <;> first | rfl | exact he.elim

/-- A step of a client keeps what others hold. -/
theorem held_elsewhere (hS : ∀ d, Service.Held (of D d) i (S.view d)) (hdc : d ≠ c)
    (hp : Service.nextOpen (of D c) (S.view c) e = some p)
    (hg : Guarded D i S (c, e) (S.put c p)) : Service.Held (of D d) i ((S.put c p).view d) := by
  obtain ⟨w, hn, rfl⟩ := Option.map_eq_some_iff.mp hp
  have hclock : Service.OneClock (of D c) i (S.view c).1 e w := by
    have := hg.clock
    rwa [view_put_self] at this
  have hshared := fun he => hg.shared he d
  rw [view_put_of_ne hdc] at hshared ⊢
  have haddress : D.address c ≠ D.address d := fun h => hdc (D.distinct h).symm
  rcases (hS c).leasing.led.elsewhere hn with he | ⟨hcluster, htime⟩ | @⟨j, call, hcluster, htime,
    hforeign, hloop, hkeeps⟩
  · refine Service.held_next (hS d) (view_shared he hn) (hshared he) ?_ ?_
    · cases e <;> exact hg.keeps
    · cases e <;> trivial
  · refine Service.held_next (e := .tick S.clock) (hS d) ?_ ⟨⟨hclock.1.1, trivial⟩, trivial⟩
      (fun _ _ => trivial) trivial
    simp [Service.nextOpen, Service.next, view, hcluster, htime]
  · refine Service.held_next (e := .cluster (.deliver j call)) (hS d) ?_ ⟨⟨hclock.1.1, trivial⟩, ?_⟩
      (hkeeps i hg.keeps) trivial
    · simp [Service.nextOpen, Service.next, view, of, hcluster, htime, Service.deliver,
        Cluster.next]
    · have hcall := fun (_ : j = i) s (_ : S.cluster.servers i = some s) =>
        hforeign s (D.address d) haddress.symm
      cases call with
      | maintainLoop t now now' => exact absurd rfl (hloop t now now')
      | _ => exact hcall

theorem held_step (hS : ∀ d, Service.Held (of D d) i (S.view d))
    (h : S.next D (c, e) = some S') (hg : Guarded D i S (c, e) S') (d : κ) :
    Service.Held (of D d) i (S'.view d) := by
  obtain ⟨p, hp, rfl⟩ := Option.map_eq_some_iff.mp h
  by_cases hdc : d = c
  · subst hdc
    have hclock := hg.clock
    rw [view_put_self] at hclock ⊢
    exact Service.held_next (hS d) hp hclock hg.keeps hg.anew
  · exact held_elsewhere hS hdc hp hg

end Step

section Runs

variable {D : Deployments ι κ} {i : ι}

/-- What two clients take themselves to hold of one path, both in sessions that are open and on
leases that run, they hold as readers. -/
def Exclusion (S : System ι κ) : Prop :=
  ∀ c c', c ≠ c' → S.opened c = true → S.opened c' = true →
    S.clock < (S.client c).deadline → S.clock < (S.client c').deadline →
    ∀ (p : Str) m m', (S.client c).locks[p]? = some m → (S.client c').locks[p]? = some m' →
      m = LockStatus.shared ∧ m' = LockStatus.shared

/-- In every run under one leader and on a common clock, no client takes itself to hold
exclusively what another takes itself to hold, as long as their leases run. -/
theorem exclusion {files : ι → FileTree} {clock : ℤ} {es : List (κ × Service.Event ι)}
    {S : System ι κ}
    (h : Run.Along (next D) (Guarded D i) (initial files (fun j => decide (j = i)) clock) es)
    (hrun : Run.run (next D) (initial files (fun j => decide (j = i)) clock) es = some S) :
    S.Exclusion := by
  have hinit : ∀ d, Service.Held (of D d) i
      ((initial files (fun j => decide (j = i)) clock : System ι κ).view d) :=
    fun d => Service.held_initial (of D d) i files clock
  have hheld : ∀ d, Service.Held (of D d) i (S.view d) := by
    refine Run.invariant (I := fun S => ∀ d, Service.Held (of D d) i (view S d)) ?_ hinit h hrun
    exact fun t e t' hI hP hn => held_step hI hn hP
  intro c c' hne ho ho' hlease hlease' p m m' hm hm'
  obtain ⟨s, hs, hexcl⟩ := (hheld c).exclusive ho hlease
  obtain ⟨t, ht, hexcl'⟩ := (hheld c').exclusive ho' hlease'
  obtain rfl := Option.some.inj (hs.symm.trans ht)
  obtain ⟨u, hu, hwf⟩ := (hheld c).leasing.led.server
  obtain rfl := Option.some.inj (hs.symm.trans hu)
  obtain ⟨hown, hothers⟩ := hexcl p m hm
  obtain ⟨hmode, hself⟩ := hothers _ _ (hexcl' p m' hm').1
  subst hmode
  rcases ((owns_iff hwf).mp hown).1 with hexclusive | hshared
  · exact absurd (D.distinct (hself hexclusive)).symm hne
  · exact ⟨hshared, hshared⟩

/-- Two clients, one node. -/
def samplePair : Deployments Unit Bool where
  address c := if c then [1] else [2]
  distinct := by
    unfold Function.Injective
    decide
  memberList := [()]
  cfg _ := sampleConfig

/-- The node has the file `a`. -/
def sampleSystem : System Unit Bool :=
  initial (fun _ => sampleFiles [ascii ['a']]) (fun j => decide (j = ())) 0

/-- Two clients that read the same file. -/
theorem exclusion_readers : ∃ S, Run.run (next samplePair) sampleSystem
      [(true, .startSession), (true, .initSession), (false, .startSession), (false, .initSession),
        (true, .acquireLock false (ascii ['a']) .shared),
        (false, .acquireLock false (ascii ['a']) .shared)] = some S ∧
    (∀ c, ascii ['a'] ∈ (S.client c).locks) ∧ S.Exclusion := by
  obtain ⟨S, hS, hf⟩ := (Option.any_eq_true _ _).mp (by decide :
    (Run.run (next samplePair) sampleSystem
      [(true, .startSession), (true, .initSession), (false, .startSession), (false, .initSession),
        (true, .acquireLock false (ascii ['a']) .shared),
        (false, .acquireLock false (ascii ['a']) .shared)]).any
      fun S => decide (∀ c, ascii ['a'] ∈ (S.client c).locks))
  refine ⟨S, hS, of_decide_eq_true hf, exclusion (D := samplePair) (i := ()) ?_ hS⟩
  intro S₁ h₁
  obtain rfl := Option.some.inj h₁
  refine ⟨⟨⟨⟨by decide, trivial⟩, trivial⟩, False.elim, fun _ _ => trivial, trivial⟩,
    fun S₂ h₂ => ?_⟩
  obtain rfl := Option.some.inj h₂
  refine ⟨⟨⟨⟨by decide, trivial⟩, trivial⟩, False.elim, fun _ _ => trivial,
    fun s ptr session hs hreg => ?_⟩, fun S₃ h₃ => ?_⟩
  · obtain rfl := Option.some.inj hs
    simp [State.Registered, State.initial] at hreg
  obtain rfl := Option.some.inj h₃
  refine ⟨⟨⟨⟨by decide, trivial⟩, trivial⟩, False.elim, fun _ _ => trivial, trivial⟩,
    fun S₄ h₄ => ?_⟩
  obtain rfl := Option.some.inj h₄
  refine ⟨⟨⟨⟨by decide, trivial⟩, trivial⟩, False.elim, fun _ _ => trivial,
    fun s ptr session hs hreg => ?_⟩, fun S₅ h₅ => ?_⟩
  · have hnone := (Option.all_eq_true (fun s : State => decide ([2] ∉ s.sessions)) _).mp
      (by decide) s hs
    have hptr : s.sessions[([2] : Str)]? = some ptr := hreg.1
    simp [Std.ExtTreeMap.getElem?_eq_none (of_decide_eq_true hnone)] at hptr
  obtain rfl := Option.some.inj h₅
  refine ⟨⟨⟨⟨by decide, trivial⟩, trivial⟩, False.elim, fun _ _ => trivial, trivial⟩,
    fun S₆ h₆ => ?_⟩
  obtain rfl := Option.some.inj h₆
  exact ⟨⟨⟨⟨by decide, trivial⟩, trivial⟩, False.elim, fun _ _ => trivial, trivial⟩, trivial⟩

end Runs

end System

end LockService
