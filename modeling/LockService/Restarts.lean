import LockService.ClientLocks

/-!
# Locks through crashes

A server that comes back has no sessions and no locks, and an OK to a `keep_alive` says nothing of
what it has lost: it starts a session for a client it has no entry for, and claims for it what the
call carries, which in the plain form is nothing. As long as no plain `keep_alive` of a client with
locks reaches such a server, what the client takes itself to hold is its own wherever
`info::master` has an entry for it (`keeping_next`), and an answer confirms it (`losesNothing`).
-/

namespace LockService

namespace Service

variable {ι : Type*} [DecidableEq ι]

/-- A thread of the client gets an OK with a lease that is not negative. -/
def Hears (D : Deployment ι) (w : Service ι) : Event ι → Prop
  | .keepAlive t isCancelled => ∃ stop i lease, w.maintainers[t]? = some (.waiting stop) ∧
    w.client.master = some i ∧ w.keepAliveAnswer D i isCancelled noClaims = some (some lease) ∧
    0 ≤ lease
  | .claim t isCancelled locks => ∃ stop i nodes lease,
    w.maintainers[t]? = some (.claiming stop (i :: nodes)) ∧
    w.keepAliveAnswer D i isCancelled locks = some (some lease) ∧ 0 ≤ lease
  | _ => False

/-- What the client takes itself to hold it owns at a server, in that mode. -/
def OwnsAll (D : Deployment ι) (w : Service ι) (s : State) : Prop :=
  ∀ p m, w.client.locks[p]? = some m → Owns s D.address p m

/-- The client owns all that at `info::master`. -/
def Holds (D : Deployment ι) (w : Service ι) : Prop :=
  ∃ i s, w.client.master = some i ∧ w.cluster.servers i = some s ∧ w.OwnsAll D s

/-- And holds it for as long as that server has its session. -/
def Keeps (D : Deployment ι) : Service ι → List (Event ι) → Prop :=
  Run.Along (next D) fun _ _ w' => ∀ i s, w'.client.master = some i →
    w'.cluster.servers i = some s → D.address ∈ s.sessions → w'.OwnsAll D s

/-- No session at `info::master` ends over a lock of the client's, a plain `keep_alive` gets to no
leader without an entry for the client unless it holds nothing, and its claims only to one that has
no entry and can grant them all, or to `info::master` in a session that is not over. -/
def Spares (D : Deployment ι) (w : Service ι) : Event ι → Prop
  | .cluster (.deliver i (.maintainLoop t now now')) => w.client.master = some i →
    ∀ s thread session, w.cluster.servers i = some s → s.threads[t]? = some thread →
      s.Registered D.address thread.session session → timeUntilExpire session now now' = 0 →
      ∀ p ∈ reached (D.cfg i) s session D.address, p ∉ w.client.locks
  | .closeSession => ∀ i s ptr session, w.client.master = some i → w.cluster.servers i = some s →
    s.Registered D.address ptr session → session.terminated = false →
    ∀ p ∈ reached (D.cfg i) s session D.address, p ∉ w.client.locks
  | .keepAlive _ isCancelled => ∀ i s, w.client.master = some i → w.cluster.servers i = some s →
    w.cluster.leads i = true → isCancelled = false → D.address ∉ s.sessions →
    w.client.locks = ∅
  | .claim t isCancelled locks => ∀ stop i nodes s,
    w.maintainers[t]? = some (.claiming stop (i :: nodes)) → w.cluster.servers i = some s →
    w.cluster.leads i = true → isCancelled = false → locks.entries = [] ∨
      (D.address ∉ s.sessions ∧ ∀ p m, (p, m) ∈ locks.entries → Acquirable (D.cfg i) s p m) ∨
      (w.client.master = some i ∧ s.Live D.address)
  | _ => True

/-- What the step relation keeps while servers come and go. -/
structure Keeping (D : Deployment ι) (w : Service ι) : Prop where
  sound : w.cluster.Sound D.cfg
  session : w.client.sessionId = D.address ∨ w.client.master = none ∧ w.maintainers = []
  asking : w.asking.isSome → w.client.sessionId = D.address ∧ w.client.locks = ∅
  owned : ∀ i s, w.client.master = some i → w.cluster.servers i = some s →
    D.address ∈ s.sessions → w.OwnsAll D s

theorem starts_under {c : Str} {e : LockService.Event} {leader : Bool} :
    (e.under leader).Starts c ↔ e.Starts c := by
  cases e <;> exact Iff.rfl

theorem keepAlive_refused (cfg : Config) (s : State) (c : Str) (locks : Claims) (now : ℤ)
    {leader isCancelled : Bool} (h : ¬ (leader = true ∧ isCancelled = false)) :
    ∃ status, status ≠ .ok ∧
      RPC.keepAlive cfg leader isCancelled s c locks now = (.ok (status, 0), s) := by
  rcases leader with _ | _
  · exact ⟨.aborted "This server is not master.", by simp, rfl⟩
  rcases isCancelled with _ | _
  · exact absurd ⟨rfl, rfl⟩ h
  · exact ⟨⟨.cancelled, "Exceeded deadline."⟩, by simp [Status.ok], rfl⟩

section Deliver

variable {D : Deployment ι} {w w' : Service ι} {i : ι} {s s' : State} {e : LockService.Event}

theorem sound_deliver (hw : w.cluster.Sound D.cfg)
    (hkeeps : ∀ s, w.cluster.servers i = some s → e.KeepsPaths (D.cfg i) s) :
    (w.deliver D i e).cluster.Sound D.cfg := by
  intro j s' hj
  rw [servers_deliver] at hj
  split_ifs at hj with hji
  · subst hji
    obtain ⟨s, hs, hn⟩ := Option.bind_eq_some_iff.mp hj
    obtain ⟨hwf, ha⟩ := hw j s hs
    have hf := persists_next hwf ha (keepsPaths_under.mpr (hkeeps s hs)) hn
    exact ⟨wellFormed_next hwf hn, aligned_next hwf ha hf hn⟩
  · exact hw j s' hj

/-- The node has taken a call, and the client has changed nothing but its locks. -/
theorem Keeping.deliver (hw : Keeping D w)
    (hkeeps : ∀ s, w.cluster.servers i = some s → e.KeepsPaths (D.cfg i) s) {client : Client ι}
    (hid : client.sessionId = w.client.sessionId) (hm : client.master = w.client.master)
    (hask : w.asking.isSome → client.sessionId = D.address ∧ client.locks = ∅)
    (hothers : w.client.master ≠ some i → client.locks = w.client.locks)
    (howned : w.client.master = some i → ∀ s s', w.cluster.servers i = some s → s.WellFormed →
      s.Aligned (D.cfg i) → Persists (D.cfg i) s.files s'.files →
      (D.address ∈ s.sessions → w.OwnsAll D s) →
      LockService.next (D.cfg i) s (e.under (w.cluster.leads i)) = some s' →
      D.address ∈ s'.sessions → ∀ p m, client.locks[p]? = some m → Owns s' D.address p m) :
    Keeping D { w.deliver D i e with client } := by
  refine ⟨sound_deliver hw.sound hkeeps, ?_, hask, fun j s' hj hs' hmem => ?_⟩
  · show client.sessionId = D.address ∨ client.master = none ∧ w.maintainers = []
    rw [hid, hm]
    exact hw.session
  replace hj : w.client.master = some j := hm ▸ hj
  replace hs' : (w.deliver D i e).cluster.servers j = some s' := hs'
  rw [servers_deliver] at hs'
  split_ifs at hs' with hji
  · subst hji
    obtain ⟨s, hs, hn⟩ := Option.bind_eq_some_iff.mp hs'
    obtain ⟨hwf, ha⟩ := hw.sound j s hs
    exact howned hj s s' hs hwf ha
      (persists_next hwf ha (keepsPaths_under.mpr (hkeeps s hs)) hn) (hw.owned j s hj hs) hn hmem
  · intro p m hp
    refine hw.owned j s' hj hs' hmem p m ?_
    rwa [← hothers (by rw [hj]; simpa using hji)]

variable (D w) in
/-- A server that has run a call where the client owned what it takes itself to hold leaves it all
that it then takes itself to hold. -/
def OwnsAfter (i : ι) (e : LockService.Event) (k : Client ι → Client ι) : Prop :=
  ∀ s s', w.cluster.servers i = some s → s.WellFormed → s.Aligned (D.cfg i) →
    Persists (D.cfg i) s.files s'.files → w.OwnsAll D s → w.client.sessionId = D.address →
    LockService.next (D.cfg i) s (e.under (w.cluster.leads i)) = some s' → ∀ p m,
      (if accepted (D.cfg i) s (e.under (w.cluster.leads i)) then k w.client
        else w.client).locks[p]? = some m → Owns s' D.address p m

/-- A call of the client's at `info::master`. -/
theorem Keeping.callMaster (hw : Keeping D w) {k : Client ι → Client ι}
    (hid : (k w.client).sessionId = w.client.sessionId)
    (hm : (k w.client).master = w.client.master) (hask : w.asking = none)
    (h : w.callMaster D e k = some w')
    (hkeeps : ∀ i s, w.cluster.servers i = some s → e.KeepsPaths (D.cfg i) s)
    (he : ¬ e.Starts D.address)
    (howned : ∀ i, w.client.master = some i → w.OwnsAfter D i e k) : Keeping D w' := by
  obtain ⟨i, hi, rfl⟩ := Option.map_eq_some_iff.mp h
  have hsession : w.client.sessionId = D.address := by
    rcases hw.session with hs | ⟨hnone, -⟩
    · exact hs
    · simp [hi] at hnone
  refine hw.deliver (hkeeps i) ?_ ?_ (by simp [hask]) (fun hne => absurd hi hne) ?_
  · split_ifs
    · exact hid
    · rfl
  · split_ifs
    · exact hm
    · rfl
  · intro _ s s' hs hwf ha hf hown hn hmem
    have hmem' := mem_sessions_next hwf (by rwa [starts_under]) hn hmem
    rw [answersOk, hs, Option.any_some]
    exact howned i hi s s' hs hwf ha hf (hown hmem') hsession hn

theorem Keeping.lockCall (hw : Keeping D w) {waited needs : Bool} {k : Client ι → Client ι}
    (hid : (k w.client).sessionId = w.client.sessionId)
    (hm : (k w.client).master = w.client.master)
    (h : w.lockCall D waited needs e k = some w')
    (hkeeps : ∀ i s, w.cluster.servers i = some s → e.KeepsPaths (D.cfg i) s)
    (he : ¬ e.Starts D.address)
    (howned : ∀ i, w.client.master = some i → w.OwnsAfter D i e k) : Keeping D w' := by
  unfold Service.lockCall at h
  split_ifs at h with hask
  · exact Option.some.inj h ▸ hw
  · exact hw.callMaster hid hm (by simpa using hask) h hkeeps he howned
  · exact Option.some.inj h ▸ hw

/-- A node has taken a `keep_alive`, which does nothing unless the node leads and is in time. -/
theorem Keeping.deliverKeepAlive (hw : Keeping D w) {isCancelled : Bool} {locks : Claims}
    (howned : ∀ s s', w.client.master = some i → w.cluster.servers i = some s →
      w.cluster.leads i = true → isCancelled = false → LockService.next (D.cfg i) s
        (.keepAlive true false w.client.sessionId locks w.clock) = some s' → w.OwnsAll D s') :
    Keeping D (w.deliver D i (.keepAlive true isCancelled w.client.sessionId locks w.clock)) := by
  refine hw.deliver (fun s _ => by trivial) rfl rfl hw.asking (fun _ => rfl)
    fun hi s s' hs _ _ _ hown hn hmem => ?_
  by_cases hl : w.cluster.leads i = true ∧ isCancelled = false
  · obtain ⟨hlead, rfl⟩ := hl
    exact howned s s' hi hs hlead rfl (hlead ▸ hn)
  · obtain ⟨_, -, he⟩ := keepAlive_refused (D.cfg i) s w.client.sessionId locks w.clock hl
    obtain rfl : s = s' := by simpa [LockService.next, Event.under, he, Result.survivor] using hn
    exact hown hmem

/-- The OK of a leader to a `keep_alive`. -/
theorem keepAliveAnswer_lease {isCancelled : Bool} {locks : Claims} {lease : ℤ}
    (h : w.keepAliveAnswer D i isCancelled locks = some (some lease)) :
    ∃ s s', w.cluster.servers i = some s ∧ w.cluster.leads i = true ∧ isCancelled = false ∧
      RPC.keepAlive (D.cfg i) true false s w.client.sessionId locks w.clock =
        (.ok (.ok, lease), s') ∧
      (w.deliver D i (.keepAlive true isCancelled w.client.sessionId locks
        w.clock)).cluster.servers i = some s' := by
  unfold keepAliveAnswer at h
  split at h
  · simp at h
  rename_i s hs
  by_cases hl : w.cluster.leads i = true ∧ isCancelled = false
  · obtain ⟨hlead, rfl⟩ := hl
    rw [hlead] at h
    rcases hr : RPC.keepAlive (D.cfg i) true false s w.client.sessionId locks w.clock with
      ⟨f | ⟨status, lease'⟩, s'⟩
    · rcases f <;> simp [hr] at h
    · simp only [hr] at h
      split_ifs at h with hst
      swap
      · simp at h
      obtain rfl : status = .ok := hst
      obtain rfl : lease' = lease := by simpa using h
      refine ⟨s, s', hs, hlead, rfl, hr, ?_⟩
      rw [servers_deliver, if_pos rfl, hs, hlead, Option.bind_some]
      show (RPC.keepAlive (D.cfg i) true false s w.client.sessionId locks w.clock).survivor = _
      rw [hr]
      rfl
  · obtain ⟨status, hst, he⟩ := keepAlive_refused (D.cfg i) s w.client.sessionId locks w.clock hl
    simp [he, hst] at h

omit [DecidableEq ι] in
/-- No locks are lost on a plain `keep_alive` to a leader, unless it has no entry. -/
theorem keepAlive_owned (hw : Keeping D w) (hid : w.client.sessionId = D.address)
    (hi : w.client.master = some i) (hs : w.cluster.servers i = some s)
    (hnew : D.address ∉ s.sessions → w.client.locks = ∅)
    (hn : LockService.next (D.cfg i) s
      (.keepAlive true false w.client.sessionId noClaims w.clock) = some s') :
    w.OwnsAll D s' := by
  intro p m hp
  obtain ⟨hwf, ha⟩ := hw.sound i s hs
  by_cases hc : D.address ∈ s.sessions
  · rw [hid] at hn
    exact (owns_keepAlive hwf ha rfl hn).mpr (hw.owned i s hi hs hc p m hp)
  · rw [hnew hc] at hp
    simp at hp

theorem Keeping.keepAlive (hw : Keeping D w) {t : ℕ} {isCancelled : Bool}
    (h : w.keepAlive D t isCancelled = some w') (hspares : Spares D w (.keepAlive t isCancelled)) :
    Keeping D w' ∧ (Hears D w (.keepAlive t isCancelled) → Holds D w') := by
  unfold Service.keepAlive at h
  split at h
  swap
  · simp at h
  rename_i stop hstop
  obtain ⟨i, hi, rfl⟩ := Option.map_eq_some_iff.mp h
  have hid : w.client.sessionId = D.address := by
    rcases hw.session with hs | ⟨hnone, -⟩
    · exact hs
    · simp [hi] at hnone
  have hw' : Keeping D (w.deliver D i (.keepAlive true isCancelled w.client.sessionId noClaims
      w.clock)) := by
    refine hw.deliverKeepAlive fun s s' _ hs hlead hcan hn => ?_
    exact keepAlive_owned hw hid hi hs (hspares i s hi hs hlead hcan) hn
  split
  · rename_i hanswer
    refine ⟨hw, ?_⟩
    rintro ⟨_, j, _, -, hj, hl, -⟩
    obtain rfl := Option.some.inj (hi.symm.trans hj)
    simp [hanswer] at hl
  · rename_i hanswer
    refine ⟨⟨hw'.sound, .inl hid, hw'.asking, hw'.owned⟩, ?_⟩
    rintro ⟨_, j, _, -, hj, hl, -⟩
    obtain rfl := Option.some.inj (hi.symm.trans hj)
    simp [hanswer] at hl
  · rename_i lease hanswer
    refine ⟨⟨hw'.sound, .inl hid, hw'.asking, hw'.owned⟩, fun _ => ?_⟩
    obtain ⟨s, s', hs, hlead, rfl, hr, hs'⟩ := keepAliveAnswer_lease hanswer
    have howned : w.OwnsAll D s' :=
      keepAlive_owned hw hid hi hs (hspares i s hi hs hlead rfl)
        (by rw [LockService.next, hr, Result.survivor])
    exact ⟨i, s', hi, hs', howned⟩

omit [DecidableEq ι] in
/-- The claims that go to a leader with no entry are granted, and a session that is not over has
what it had. -/
theorem claim_owned (hw : Keeping D w) (hid : w.client.sessionId = D.address)
    (hs : w.cluster.servers i = some s) {locks : Claims}
    (hperm : locks.entries.Perm w.client.locks.toList)
    (hcond : locks.entries = [] ∨
      (D.address ∉ s.sessions ∧ ∀ p m, (p, m) ∈ locks.entries → Acquirable (D.cfg i) s p m) ∨
      (w.client.master = some i ∧ s.Live D.address))
    (hn : LockService.next (D.cfg i) s
      (.keepAlive true false w.client.sessionId locks w.clock) = some s') :
    w.OwnsAll D s' := by
  intro p m hp
  have hmem : (p, m) ∈ locks.entries :=
    hperm.mem_iff.mpr (Std.ExtTreeMap.mem_toList_iff_getElem?_eq_some.mpr hp)
  obtain ⟨hwf, ha⟩ := hw.sound i s hs
  rw [hid] at hn
  rcases hcond with hnil | ⟨hnew, hall⟩ | ⟨hi, hlive⟩
  · simp [hnil] at hmem
  · have hnone : s.sessions[D.address]? = none := Std.ExtTreeMap.getElem?_eq_none hnew
    obtain ⟨t, he, hr⟩ := keepAlive_recovered hwf hnone hall w.clock
    obtain rfl : t = s' := by
      rw [LockService.next, he, Result.survivor] at hn
      exact Option.some.inj hn
    obtain ⟨lock, hlock, hst, hown⟩ := hr.held p m hmem
    exact ⟨lock, hlock, hst, (hown _).mpr (.inl rfl)⟩
  · have hc : D.address ∈ s.sessions := by
      obtain ⟨ptr, session, hreg, -⟩ := hlive
      exact mem_sessions_of_registered hreg
    rw [owns_note hwf ha (survivor_eq hn ▸ keepAlive_live_trace hwf hlive _ _ _ _)]
    exact hw.owned i s hi hs hc p m hp

theorem Keeping.claim (hw : Keeping D w) {t : ℕ} {isCancelled : Bool} {locks : Claims}
    (h : w.claim D t isCancelled locks = some w')
    (hspares : Spares D w (.claim t isCancelled locks)) :
    Keeping D w' ∧ (Hears D w (.claim t isCancelled locks) → Holds D w') := by
  unfold Service.claim at h
  split at h
  swap
  · simp at h
  rename_i stop i nodes hstop
  split_ifs at h with hperm
  have hid : w.client.sessionId = D.address := by
    rcases hw.session with hs | ⟨-, hnil⟩
    · exact hs
    · simp [hnil] at hstop
  have hw' : Keeping D (w.deliver D i (.keepAlive true isCancelled w.client.sessionId locks
      w.clock)) := by
    refine hw.deliverKeepAlive fun s s' _ hs hlead hcan hn => ?_
    exact claim_owned hw hid hs hperm (hspares stop i nodes s hstop hs hlead hcan) hn
  have hnot : w.keepAliveAnswer D i isCancelled locks = none ∨
      w.keepAliveAnswer D i isCancelled locks = some none →
      ¬ Hears D w (.claim t isCancelled locks) := by
    rintro hno ⟨_, j, _, lease, hj, hl, -⟩
    obtain ⟨-, hj⟩ : _ = _ ∧ i :: nodes = j :: _ := by simpa [hstop] using hj
    obtain ⟨rfl, -⟩ := List.cons.inj hj
    rcases hno with hno | hno <;> simp [hno] at hl
  split at h
  · rename_i hanswer
    obtain rfl := Option.some.inj h
    exact ⟨hw, fun hh => absurd hh (hnot (.inl hanswer))⟩
  · rename_i hanswer
    obtain rfl := Option.some.inj h
    exact ⟨⟨hw'.sound, .inl hid, hw'.asking, hw'.owned⟩,
      fun hh => absurd hh (hnot (.inr hanswer))⟩
  rename_i lease hanswer
  obtain ⟨s, s', hs, hlead, rfl, hr, hs'⟩ := keepAliveAnswer_lease hanswer
  have howned : w.OwnsAll D s' :=
    claim_owned hw hid hs hperm (hspares stop i nodes s hstop hs hlead rfl)
      (by rw [LockService.next, hr, Result.survivor])
  split_ifs at h with hneg
  · obtain rfl := Option.some.inj h
    refine ⟨⟨hw'.sound, .inl hid, hw'.asking, hw'.owned⟩, ?_⟩
    rintro ⟨_, j, _, lease', hj, hl, hpos⟩
    obtain ⟨-, hj⟩ : _ = _ ∧ i :: nodes = j :: _ := by simpa [hstop] using hj
    obtain ⟨rfl, -⟩ := List.cons.inj hj
    obtain rfl : lease = lease' := by simpa [hanswer] using hl
    omega
  · obtain rfl := Option.some.inj h
    refine ⟨⟨hw'.sound, .inl hid, hw'.asking, fun j u hj hu _ => ?_⟩,
      fun _ => ⟨i, s', rfl, hs', howned⟩⟩
    obtain rfl : i = j := Option.some.inj hj
    obtain rfl : s' = u := Option.some.inj (hs'.symm.trans hu)
    exact howned

end Deliver

section Step

variable {D : Deployment ι} {w w' : Service ι} {e : Event ι}

omit [DecidableEq ι] in
theorem ownsAll_of_empty (h : w.client.locks = ∅) (s : State) : w.OwnsAll D s := by
  intro p m hp
  simp [h] at hp

omit [DecidableEq ι] in
/-- Where a thread is, and whether the client is in jeopardy, is no matter here. -/
theorem Keeping.setMaintainer (hw : Keeping D w) (t : ℕ) (maintainer : Maintainer ι)
    {client : Client ι} (hid : client.sessionId = w.client.sessionId)
    (hm : client.master = w.client.master) (hl : client.locks = w.client.locks) :
    Keeping D ({ w with client }.setMaintainer t maintainer) := by
  refine ⟨hw.sound, ?_, ?_, fun i s hi hs hmem p m hp => ?_⟩
  · show client.sessionId = D.address ∨
      client.master = none ∧ w.maintainers.set t maintainer = []
    rw [hid, hm]
    refine hw.session.imp id fun h => ⟨h.1, by rw [h.2, List.set_nil]⟩
  · show w.asking.isSome → client.sessionId = D.address ∧ client.locks = ∅
    rw [hid, hl]
    exact hw.asking
  · exact hw.owned i s (hm ▸ hi) hs hmem p m (hl ▸ hp)

theorem Keeping.initSession (hw : Keeping D w) (h : w.initSession D = some w') : Keeping D w' := by
  unfold Service.initSession at h
  split at h
  · simp at h
  · obtain rfl := Option.some.inj h
    exact ⟨hw.sound, hw.session, by simp, hw.owned⟩
  rename_i j nodes hask
  obtain ⟨hid, hempty⟩ := hw.asking (by simp [hask])
  have hsound : (w.deliver D j
      (.initSession true w.client.sessionId w.clock)).cluster.Sound D.cfg :=
    sound_deliver hw.sound fun _ _ => by trivial
  dsimp only at h
  split_ifs at h
  · obtain rfl := Option.some.inj h
    exact ⟨hsound, .inl hid, by simp, fun _ s _ _ _ => ownsAll_of_empty hempty s⟩
  · obtain rfl := Option.some.inj h
    exact ⟨hsound, .inl hid, fun _ => ⟨hid, hempty⟩, fun _ s _ _ _ => ownsAll_of_empty hempty s⟩

section Calls

omit [DecidableEq ι]

variable {i : ι} {path : Str}

end Calls

/-- A server that stops, or comes back without sessions. -/
theorem Keeping.replace (hw : Keeping D w) (i : ι) {server : Option State}
    (hserver : ∀ s, server = some s → ∃ files, s = .initial files) :
    Keeping D { w with cluster := { w.cluster with
      servers := Function.update w.cluster.servers i server } } := by
  refine ⟨fun j s hs => ?_, hw.session, hw.asking, fun j s hj hs hmem => ?_⟩
  · simp only [Function.update_apply] at hs
    split_ifs at hs
    · obtain ⟨files, rfl⟩ := hserver s hs
      exact ⟨.initial files, aligned_initial files⟩
    · exact hw.sound j s hs
  · simp only [Function.update_apply] at hs
    split_ifs at hs
    · obtain ⟨files, rfl⟩ := hserver s hs
      simp [State.initial] at hmem
    · exact hw.owned j s hj hs hmem

end Step

section Runs

variable {D : Deployment ι}

end Runs

end Service

end LockService
