import LockService.Client
import LockService.Holdings

/-!
# A client and one leader

While one node leads and goes on, and answers in time, the client is never in jeopardy: its calls
get to that node or nowhere, and so do its threads'. What a step changes is then a change of the
client, a request the leader has served, or both (`Led.step`), and an invariant of the two has only
those to go through.
-/

namespace LockService

namespace Service

variable {ι : Type*} [DecidableEq ι]

/-- The node goes on and alone leads, and every `keep_alive` is answered in time. -/
def Calm (i : ι) (e : Event ι) (w' : Service ι) : Prop :=
  (w'.cluster.servers i).isSome ∧ match e with
  | .cluster (.elect leads) => ∀ j, leads j = true ↔ j = i
  | .keepAlive _ isCancelled => isCancelled = false
  | .timeout _ => False
  | _ => True

/-- The client turns to the node and to no other. -/
structure Led (D : Deployment ι) (i : ι) (w : Service ι) : Prop where
  leads : ∀ j, w.cluster.leads j = true ↔ j = i
  server : ∃ s, w.cluster.servers i = some s ∧ s.WellFormed
  master : ∀ j, w.client.master = some j → j = i ∧ w.client.sessionId = D.address
  asking : w.asking.isSome → w.client.sessionId = D.address ∧ w.client.master = none
  waiting : ∀ m ∈ w.maintainers, ∃ stop, m = .waiting stop

/-- The client asks `info::master` to close its session, and is answered OK. -/
def closes (D : Deployment ι) (w : Service ι) : Bool :=
  w.client.sessionId ≠ [] ∧
    w.client.master.any fun i => w.answersOk D i (.closeSession w.client.sessionId)

/-- What a step does to the client and to the leader. -/
inductive Exchange (D : Deployment ι) (i : ι) (w : Service ι) (s : State) :
    Event ι → Client ι → State → Prop where
  | idle {e : Event ι} : Exchange D i w s e w.client s
  | served {e : LockService.Event} {s' : State}
    (h : LockService.next (D.cfg i) s (e.under true) = some s') :
    Exchange D i w s (.cluster (.deliver i e)) w.client s'
  | starting : Exchange D i w s .startSession (.starting D.address w.clock) s
  | granted {s' : State}
    (h : LockService.next (D.cfg i) s (.initSession true D.address w.clock) = some s')
    (hok : (createSession s D.address w.clock).1 = .ok .ok) :
    Exchange D i w s .initSession { w.client with master := some i } s'
  | denied {s' : State}
    (h : LockService.next (D.cfg i) s (.initSession true D.address w.clock) = some s') :
    Exchange D i w s .initSession w.client s'
  | closed {s' : State} (h : LockService.next (D.cfg i) s (.closeSession D.address) = some s')
    (hok : w.closes D = true ↔ (closeSession (D.cfg i) s D.address).1 = .ok .ok) :
    Exchange D i w s .closeSession w.client s'
  | opened {waited : Bool} {path : Str} {answer : RaftAnswer} {s' : State}
    (h : LockService.next (D.cfg i) s (.openLock D.address path answer) = some s') :
    Exchange D i w s (.openLock waited path answer) w.client s'
  | deleted {waited : Bool} {path : Str} {s' : State}
    (h : LockService.next (D.cfg i) s (.deleteLock D.address path) = some s') :
    Exchange D i w s (.deleteLock waited path) w.client s'
  | acquired {waited : Bool} {path : Str} {mode : LockStatus} {s' : State}
    (h : LockService.next (D.cfg i) s (.acquireLock D.address path mode) = some s') :
    Exchange D i w s (.acquireLock waited path mode)
      (if (acquireLock (D.cfg i) s D.address path mode).1 = .ok .ok
        then { w.client with locks := w.client.locks.insertIfNew path mode } else w.client) s'
  | released {waited : Bool} {path : Str} {s' : State} (hp : path ∈ w.client.locks)
    (h : LockService.next (D.cfg i) s (.releaseLock D.address path) = some s') :
    Exchange D i w s (.releaseLock waited path)
      (if (releaseLock (D.cfg i) s D.address path).1 = .ok .ok
        then { w.client with locks := w.client.locks.erase path } else w.client) s'
  | read {waited : Bool} {path : Str} {s' : State} (hp : path ∈ w.client.locks)
    (h : LockService.next (D.cfg i) s (.read D.address path) = some s') :
    Exchange D i w s (.read waited path)
      (if (LockService.read (D.cfg i) s D.address path).1.map Prod.fst = .ok .ok
        then { w.client with locks := w.client.locks.erase path } else w.client) s'
  | written {waited : Bool} {path content : Str} {answer : RaftAnswer} {s' : State}
    (h : LockService.next (D.cfg i) s (.write D.address path content answer) = some s') :
    Exchange D i w s (.write waited path content answer) w.client s'
  | extended {t : ℕ} {lease : ℤ} {s' : State}
    (h : RPC.keepAlive (D.cfg i) true false s D.address noClaims w.clock =
      (.ok (.ok, lease), s')) :
    Exchange D i w s (.keepAlive t false) { w.client with leaseLength := lease } s'

variable {D : Deployment ι} {w w' : Service ι} {i : ι} {s : State}

omit [DecidableEq ι] in
theorem Exchange.served_or_same {e : Event ι} {client : Client ι} {s' : State}
    (h : Exchange D i w s e client s') :
    s' = s ∨ ∃ call, LockService.next (D.cfg i) s call = some s' := by
  cases h with
  | idle => exact .inl rfl
  | starting => exact .inl rfl
  | extended hr =>
    refine .inr ⟨.keepAlive true false D.address noClaims w.clock, ?_⟩
    rw [LockService.next, hr, Result.survivor]
  | served hn | granted hn | denied hn | closed hn | opened hn | deleted hn | acquired hn
  | written hn => exact .inr ⟨_, hn⟩
  | released _ hn | read _ hn => exact .inr ⟨_, hn⟩

/-- The client is still led, and the leader's state and the client's are of an exchange. -/
structure Step (D : Deployment ι) (i : ι) (w : Service ι) (s : State) (e : Event ι)
    (w' : Service ι) : Prop where
  led : Led D i w'
  clock : w.clock ≤ w'.clock
  asking : w'.asking.isSome → e = .startSession ∨ w.asking.isSome ∧ w'.client = w.client
  exchange : ∃ s', w'.cluster.servers i = some s' ∧ Exchange D i w s e w'.client s'

omit [DecidableEq ι] in
/-- Nothing happens to the client, nor at the leader. -/
theorem Led.idle (hw : Led D i w) (hs : w.cluster.servers i = some s) (cluster : Cluster ι)
    (clock : ℤ) (hc : cluster.servers i = w.cluster.servers i)
    (hl : ∀ j, cluster.leads j = true ↔ j = i) (hclock : w.clock ≤ clock) (e : Event ι) :
    Step D i w s e { w with cluster, clock } where
  led := ⟨hl, by rw [hc]; exact hw.server, hw.master, hw.asking, hw.waiting⟩
  clock := hclock
  asking h := .inr ⟨h, rfl⟩
  exchange := ⟨s, hc.trans hs, .idle⟩

omit [DecidableEq ι] in
theorem Led.stay (hw : Led D i w) (hs : w.cluster.servers i = some s) (e : Event ι) :
    Step D i w s e w :=
  hw.idle hs w.cluster w.clock rfl hw.leads (Int.le_refl _) e

/-- The leader has served a request. -/
theorem Led.deliver (hw : Led D i w) (hs : w.cluster.servers i = some s) {e : LockService.Event}
    {s' : State} (hn : LockService.next (D.cfg i) s (e.under true) = some s') (client : Client ι)
    (hid : client.sessionId = w.client.sessionId) (hm : client.master = w.client.master) :
    Led D i { w.deliver D i e with client } ∧ (w.deliver D i e).cluster.servers i = some s' := by
  have hs' : (w.deliver D i e).cluster.servers i = some s' := by
    rw [servers_deliver, if_pos rfl, hs, (hw.leads i).mpr rfl]
    exact hn
  obtain ⟨t, ht, hwf⟩ := hw.server
  obtain rfl := Option.some.inj (hs.symm.trans ht)
  refine ⟨⟨hw.leads, ⟨s', hs', wellFormed_next hwf hn⟩, ?_, ?_, hw.waiting⟩, hs'⟩
  · show ∀ j, client.master = some j → j = i ∧ client.sessionId = D.address
    rw [hid, hm]
    exact hw.master
  · show w.asking.isSome → client.sessionId = D.address ∧ client.master = none
    rw [hid, hm]
    exact hw.asking

/-- A call to `info::master` goes to the leader. -/
theorem Led.callMaster (hw : Led D i w) (hs : w.cluster.servers i = some s) {e : Event ι}
    {call : LockService.Event} {k : Client ι → Client ι}
    (hid : (k w.client).sessionId = w.client.sessionId)
    (hm : (k w.client).master = w.client.master) (hask : w.asking = none)
    (h : w.callMaster D call k = some w') (hsurv : (w'.cluster.servers i).isSome)
    (hexchange : ∀ s', LockService.next (D.cfg i) s (call.under true) = some s' →
      w.client.sessionId = D.address → w.client.master = some i →
      Exchange D i w s e
        (if accepted (D.cfg i) s (call.under true) then k w.client else w.client) s') :
    Step D i w s e w' := by
  obtain ⟨j, hj, rfl⟩ := Option.map_eq_some_iff.mp h
  obtain ⟨rfl, hsession⟩ := hw.master j hj
  have hlead := (hw.leads j).mpr rfl
  obtain ⟨s', hs'⟩ := Option.isSome_iff_exists.mp hsurv
  replace hs' : (w.deliver D j call).cluster.servers j = some s' := hs'
  rw [servers_deliver, if_pos rfl, hs, hlead] at hs'
  have hclient : (if w.answersOk D j call then k w.client else w.client) =
      if accepted (D.cfg j) s (call.under true) then k w.client else w.client := by
    rw [answersOk, hs, hlead, Option.any_some]
  rw [hclient]
  obtain ⟨hled, hserver⟩ := hw.deliver hs hs'
    (if accepted (D.cfg j) s (call.under true) then k w.client else w.client)
    (by split_ifs; exacts [hid, rfl]) (by split_ifs; exacts [hm, rfl])
  refine ⟨hled, Int.le_refl _, fun h => ?_, s', hserver, hexchange s' hs' hsession hj⟩
  replace h : w.asking.isSome := h
  simp [hask] at h

theorem Led.lockCall (hw : Led D i w) (hs : w.cluster.servers i = some s) {e : Event ι}
    {waited needs : Bool} {call : LockService.Event} {k : Client ι → Client ι}
    (hid : (k w.client).sessionId = w.client.sessionId)
    (hm : (k w.client).master = w.client.master)
    (h : w.lockCall D waited needs call k = some w') (hsurv : (w'.cluster.servers i).isSome)
    (hexchange : ∀ s', LockService.next (D.cfg i) s (call.under true) = some s' →
      w.client.sessionId = D.address → needs = true →
      Exchange D i w s e
        (if accepted (D.cfg i) s (call.under true) then k w.client else w.client) s') :
    Step D i w s e w' := by
  unfold Service.lockCall at h
  split_ifs at h with hask hj hneeds
  · exact Option.some.inj h ▸ hw.stay hs e
  · exact hw.callMaster hs hid hm (by simpa using hask) h hsurv fun s' hn hsession _ =>
      hexchange s' hn hsession hneeds
  · exact Option.some.inj h ▸ hw.stay hs e

theorem Led.initSession (hw : Led D i w) (hs : w.cluster.servers i = some s)
    (h : w.initSession D = some w') (hsurv : (w'.cluster.servers i).isSome) :
    Step D i w s .initSession w' := by
  unfold Service.initSession at h
  split at h
  · simp at h
  · obtain rfl := Option.some.inj h
    exact ⟨⟨hw.leads, hw.server, hw.master, by simp, hw.waiting⟩, Int.le_refl _, by simp, s, hs,
      .idle⟩
  rename_i j nodes hask
  obtain ⟨hid, hnone⟩ := hw.asking (by simp [hask])
  dsimp only at h
  by_cases hji : j = i
  · subst hji
    have hlead := (hw.leads j).mpr rfl
    have hsurv' : ((w.deliver D j
        (.initSession true w.client.sessionId w.clock)).cluster.servers j).isSome := by
      split_ifs at h <;> obtain rfl := Option.some.inj h <;> exact hsurv
    obtain ⟨s', hs'⟩ := Option.isSome_iff_exists.mp hsurv'
    rw [servers_deliver, if_pos rfl, hs, hlead, Option.bind_some] at hs'
    obtain ⟨hw', hserver⟩ := hw.deliver hs hs' w.client rfl rfl
    rw [hid] at hs'
    split_ifs at h with hok
    · obtain rfl := Option.some.inj h
      refine ⟨⟨hw'.leads, hw'.server, ?_, by simp, ?_⟩, Int.le_refl _, by simp, s', hserver, ?_⟩
      · rintro k hk
        exact ⟨(Option.some.inj hk).symm, hid⟩
      · intro m hm
        rcases List.mem_append.mp hm with hm | hm
        · exact hw.waiting m hm
        · exact ⟨_, List.mem_singleton.mp hm⟩
      · refine .granted hs' ?_
        rw [answersOk, hs, hlead, Option.any_some, hid] at hok
        simpa [accepted, LockService.Event.under, RPC.initSession] using hok
    · obtain rfl := Option.some.inj h
      exact ⟨⟨hw'.leads, hw'.server, hw'.master, fun _ => ⟨hid, hnone⟩, hw'.waiting⟩,
        Int.le_refl _, fun _ => .inr ⟨by simp [hask], rfl⟩, s', hserver, .denied hs'⟩
  · have hlead : w.cluster.leads j = false := by
      rw [← Bool.not_eq_true]
      exact fun hl => hji ((hw.leads j).mp hl)
    have hno : w.answersOk D j (.initSession true w.client.sessionId w.clock) = false := by
      unfold answersOk
      rw [hlead]
      rcases w.cluster.servers j with _ | t <;>
        simp [accepted, LockService.Event.under, RPC.initSession, Status.cancelled, Status.ok]
    rw [if_neg (by rw [hno]; simp)] at h
    obtain rfl := Option.some.inj h
    have hserver : (w.deliver D j
        (.initSession true w.client.sessionId w.clock)).cluster.servers i =
          w.cluster.servers i := by
      rw [servers_deliver, if_neg (Ne.symm hji)]
    refine ⟨⟨hw.leads, ?_, hw.master, fun _ => ⟨hid, hnone⟩, hw.waiting⟩, Int.le_refl _,
      fun _ => .inr ⟨by simp [hask], rfl⟩, s, hserver.trans hs, .idle⟩
    obtain ⟨t, ht, hwf⟩ := hw.server
    exact ⟨t, hserver.trans ht, hwf⟩

/-- The leader answers a thread, or has it wait; it never sends the client into jeopardy. -/
theorem Led.keepAlive (hw : Led D i w) (hs : w.cluster.servers i = some s) {t : ℕ}
    (h : w.keepAlive D t false = some w') : Step D i w s (.keepAlive t false) w' := by
  unfold Service.keepAlive at h
  split at h
  swap
  · simp at h
  obtain ⟨j, hj, rfl⟩ := Option.map_eq_some_iff.mp h
  obtain ⟨rfl, hid⟩ := hw.master j hj
  have hlead := (hw.leads j).mpr rfl
  obtain ⟨u, hu, hwf⟩ := hw.server
  obtain rfl := Option.some.inj (hs.symm.trans hu)
  have hcases := @keepAlive_noClaims (D.cfg j) s w.client.sessionId hwf noClaims rfl w.clock
  rcases hcases with hb | ⟨lease, s', he⟩
  · have hanswer : w.keepAliveAnswer D j false noClaims = none := by
      simp only [keepAliveAnswer, hs, hlead, hb]
    simpa only [hanswer] using hw.stay hs (.keepAlive t false)
  have hanswer : w.keepAliveAnswer D j false noClaims = some (some lease) := by
    simp only [keepAliveAnswer, hs, hlead, he, if_true]
  simp only [hanswer]
  have hn : LockService.next (D.cfg j) s
      ((LockService.Event.keepAlive true false w.client.sessionId noClaims w.clock).under true) =
        some s' := by
    show (RPC.keepAlive (D.cfg j) true false s w.client.sessionId noClaims w.clock).survivor = _
    rw [he]
    rfl
  obtain ⟨hled, hserver⟩ := hw.deliver hs hn { w.client with leaseLength := lease } rfl rfl
  refine ⟨hled, Int.le_refl _, fun h => ?_, s', hserver, .extended (hid ▸ he)⟩
  have hnone := (hw.asking h).2
  simp [hj] at hnone

/-- A server stops or comes back, but not the leader. -/
theorem Led.replace (hw : Led D i w) (hs : w.cluster.servers i = some s) {j : ι} (hij : i ≠ j)
    (server : Option State) (e : Event ι) :
    Step D i w s e { w with cluster := { w.cluster with
      servers := Function.update w.cluster.servers j server } } :=
  hw.idle hs { w.cluster with servers := Function.update w.cluster.servers j server } w.clock
    (Function.update_of_ne hij _ _) hw.leads (Int.le_refl _) e

/-- A request of somebody else's, or a turn of a thread of a server's. -/
theorem Led.served (hw : Led D i w) (hs : w.cluster.servers i = some s) (j : ι)
    (e : LockService.Event) (hsurv : ((w.deliver D j e).cluster.servers i).isSome) :
    Step D i w s (.cluster (.deliver j e)) (w.deliver D j e) := by
  by_cases hji : j = i
  · subst hji
    obtain ⟨s', hs'⟩ := Option.isSome_iff_exists.mp hsurv
    rw [servers_deliver, if_pos rfl, hs, (hw.leads j).mpr rfl, Option.bind_some] at hs'
    obtain ⟨hled, hserver⟩ := hw.deliver hs hs' w.client rfl rfl
    exact ⟨hled, Int.le_refl _, fun h => .inr ⟨h, rfl⟩, s', hserver, .served hs'⟩
  · exact hw.idle hs (w.deliver D j e).cluster w.clock
      (by rw [servers_deliver, if_neg (Ne.symm hji)]) hw.leads (Int.le_refl _) _

/-- What a step does while one node leads and goes on. -/
theorem Led.step (hw : Led D i w) (hs : w.cluster.servers i = some s) {e : Event ι}
    (h : w.next D e = some w') (hcalm : Calm i e w') : Step D i w s e w' := by
  obtain ⟨hsurv, hcalm⟩ := hcalm
  cases e with
  | tick now =>
    simp only [next] at h
    split_ifs at h with hnow
    obtain rfl := Option.some.inj h
    exact hw.idle hs w.cluster now rfl hw.leads hnow _
  | cluster e =>
    cases e with
    | elect leads =>
      obtain rfl := Option.some.inj h
      exact hw.idle hs { w.cluster with leads } w.clock rfl hcalm (Int.le_refl _) _
    | deliver j e =>
      obtain rfl : w.deliver D j e = w' := Option.some.inj h
      exact hw.served hs j e hsurv
  | crash j =>
    obtain rfl := Option.some.inj h
    refine hw.replace hs (fun hij => ?_) none _
    subst hij
    simp at hsurv
  | restart j files =>
    simp only [next] at h
    split_ifs at h with hj
    obtain rfl := Option.some.inj h
    refine hw.replace hs (fun hij => ?_) _ _
    subst hij
    simp [hs] at hj
  | startSession =>
    simp only [next] at h
    split_ifs at h
    obtain rfl := Option.some.inj h
    exact ⟨⟨hw.leads, hw.server, by simp [Client.starting], fun _ => ⟨rfl, rfl⟩, hw.waiting⟩,
      Int.le_refl _, fun _ => .inl rfl, s, hs, .starting⟩
  | initSession => exact hw.initSession hs h hsurv
  | closeSession =>
    simp only [next] at h
    split_ifs at h with hask hnil
    · exact Option.some.inj h ▸ hw.stay hs _
    refine hw.callMaster hs rfl rfl (by simpa using hask) h hsurv fun s' hn hid hmaster => ?_
    rw [id, ite_self]
    refine .closed (hid ▸ hn) ?_
    rw [hid] at hnil
    simp [closes, hnil, hmaster, answersOk, hs, accepted, LockService.Event.under, hid]
  | openLock waited path answer =>
    refine hw.lockCall hs rfl rfl h hsurv fun s' hn hid _ => ?_
    rw [id, ite_self]
    exact .opened (hid ▸ hn)
  | deleteLock waited path =>
    refine hw.lockCall hs rfl rfl h hsurv fun s' hn hid _ => ?_
    rw [id, ite_self]
    exact .deleted (hid ▸ hn)
  | acquireLock waited path mode =>
    refine hw.lockCall hs rfl rfl h hsurv fun s' hn hid _ => ?_
    simp only [accepted, LockService.Event.under, decide_eq_true_eq]
    have hcall : acquireLock (D.cfg i) s w.client.sessionId path mode =
        acquireLock (D.cfg i) s D.address path mode := by rw [hid]
    rw [hcall]
    exact .acquired (hid ▸ hn)
  | releaseLock waited path =>
    refine hw.lockCall hs rfl rfl h hsurv fun s' hn hid hneeds => ?_
    simp only [accepted, LockService.Event.under, decide_eq_true_eq]
    have hcall : releaseLock (D.cfg i) s w.client.sessionId path =
        releaseLock (D.cfg i) s D.address path := by rw [hid]
    rw [hcall]
    exact .released (by simpa using hneeds) (hid ▸ hn)
  | read waited path =>
    refine hw.lockCall hs rfl rfl h hsurv fun s' hn hid hneeds => ?_
    simp only [accepted, LockService.Event.under, decide_eq_true_eq]
    have hcall : LockService.read (D.cfg i) s w.client.sessionId path =
        LockService.read (D.cfg i) s D.address path := by rw [hid]
    rw [hcall]
    exact .read (by simpa using hneeds) (hid ▸ hn)
  | write waited path content answer =>
    refine hw.lockCall hs rfl rfl h hsurv fun s' hn hid _ => ?_
    rw [id, ite_self]
    exact .written (hid ▸ hn)
  | keepAlive t isCancelled =>
    obtain rfl : isCancelled = false := hcalm
    exact hw.keepAlive hs h
  | timeout t => exact hcalm.elim
  | claim t isCancelled locks =>
    simp only [next, claim] at h
    split at h
    · rename_i stop j nodes ht
      obtain ⟨_, hm⟩ := hw.waiting _ (List.mem_of_getElem? ht)
      simp at hm
    · simp at h
  | round t =>
    simp only [next, round] at h
    split at h
    · rename_i stop ht
      obtain ⟨_, hm⟩ := hw.waiting _ (List.mem_of_getElem? ht)
      simp at hm
    · simp at h

theorem Led.initial (D : Deployment ι) (i : ι) (files : ι → FileTree) (clock : ℤ) :
    Led D i (initial files (fun j => decide (j = i)) clock) where
  leads := by simp [Service.initial]
  server := ⟨.initial (files i), rfl, .initial _⟩
  master := by simp [Service.initial, Client.initial]
  asking := by simp [Service.initial]
  waiting := by simp [Service.initial]

end Service

end LockService
