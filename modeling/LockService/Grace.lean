import LockService.Adoption

/-!
# How long jeopardy lasts

A thread of `maintain_session` works out when to give up before its first `keep_alive`, from the
lease the session starts with, and an extension of the lease does not move that time. So a client
that loses its lease has forty-five seconds to find another node just when the lease ends no later
than it did at the start (`grace_iff`).
-/

namespace LockService

namespace Service

variable {ι : Type*} [DecidableEq ι]

/-- The thread is started: `start_session` has found a node. -/
def Starts (D : Deployment ι) (t : ℕ) (w w' : Service ι) : Prop :=
  w.next D .initSession = some w' ∧ w.maintainers.length = t ∧ t < w'.maintainers.length

/-- A `keep_alive` of the thread fails or is late. -/
def Enters (D : Deployment ι) (t : ℕ) (w w' : Service ι) : Prop :=
  ((∃ isCancelled, w.next D (.keepAlive t isCancelled) = some w') ∨
    w.next D (.timeout t) = some w') ∧
  ∃ stop nodes, w'.maintainers[t]? = some (.claiming stop nodes)

/-- A node answers a claim OK, with a lease below zero. -/
def Denied (D : Deployment ι) (w : Service ι) (e : Event ι) : Prop :=
  ∃ t isCancelled locks stop i nodes lease, e = .claim t isCancelled locks ∧
    w.maintainers[t]? = some (.claiming stop (i :: nodes)) ∧
    w.keepAliveAnswer D i isCancelled locks = some (some lease) ∧ lease < 0

/-- The thread returns, and the session has expired. -/
def Expires (t : ℕ) (w w' : Service ι) : Prop :=
  w.maintainers[t]? ≠ some .returned ∧ w'.maintainers[t]? = some .returned ∧
    w'.client.expired = true

/-- A run in which no node denies a claim. -/
def Undenied (D : Deployment ι) (w w' : Service ι) : Prop :=
  ∃ es, Run.run (next D) w es = some w' ∧ Run.Along (next D) (fun w e _ => ¬ Denied D w e) w es

/-- As long as no node denies a claim, the thread lets the session expire only more than
`JEAPARDY_DURATION` after the lease it lost. -/
def Grace (D : Deployment ι) (t : ℕ) (w : Service ι) : Prop :=
  ∀ w₁ e w₂, Undenied D w w₁ → w₁.next D e = some w₂ → ¬ Denied D w₁ e → Expires t w₁ w₂ →
    w.client.deadline + jeopardyDuration * 1000000 < w₂.clock

/-- The thread has not changed its mind on when to give up. -/
def StopsAt (t : ℕ) (stop : ℤ) (w : Service ι) : Prop :=
  w.maintainers[t]? = some (.waiting stop) ∨
    (∃ nodes, w.maintainers[t]? = some (.claiming stop nodes)) ∨
    w.maintainers[t]? = some .returned

section Step

variable {D : Deployment ι} {w w' : Service ι} {e : Event ι} {t : ℕ} {stop : ℤ}

theorem clock_lockCall {waited needs : Bool} {request : LockService.Event}
    {k : Client ι → Client ι} (h : w.lockCall D waited needs request k = some w') :
    w.clock ≤ w'.clock := by
  unfold lockCall callMaster at h
  split_ifs at h
  · rw [Option.some.inj h]
  · obtain ⟨i, -, rfl⟩ := Option.map_eq_some_iff.mp h
    exact le_rfl
  · rw [Option.some.inj h]

/-- Only time's passing moves the clock, and not back. -/
theorem clock_next (h : w.next D e = some w') : w.clock ≤ w'.clock := by
  cases e with
  | tick now =>
    simp only [next] at h
    split_ifs at h with hle
    obtain rfl := Option.some.inj h
    exact hle
  | cluster e =>
    obtain ⟨cluster, -, rfl⟩ := Option.map_eq_some_iff.mp h
    exact le_rfl
  | crash i =>
    obtain rfl := Option.some.inj h
    exact le_rfl
  | restart i files =>
    simp only [next] at h
    split_ifs at h
    obtain rfl := Option.some.inj h
    exact le_rfl
  | startSession =>
    simp only [next] at h
    split_ifs at h
    obtain rfl := Option.some.inj h
    exact le_rfl
  | initSession =>
    simp only [next, initSession] at h
    split at h
    · cases h
    · obtain rfl := Option.some.inj h
      exact le_rfl
    · split_ifs at h <;> obtain rfl := Option.some.inj h <;> exact le_rfl
  | closeSession =>
    simp only [next, callMaster] at h
    split_ifs at h
    · rw [Option.some.inj h]
    · obtain ⟨i, -, rfl⟩ := Option.map_eq_some_iff.mp h
      exact le_rfl
  | openLock => exact clock_lockCall h
  | deleteLock => exact clock_lockCall h
  | acquireLock => exact clock_lockCall h
  | releaseLock => exact clock_lockCall h
  | read => exact clock_lockCall h
  | write => exact clock_lockCall h
  | keepAlive t isCancelled =>
    simp only [next, keepAlive] at h
    split at h
    · obtain ⟨i, -, hw⟩ := Option.map_eq_some_iff.mp h
      split at hw <;> subst hw <;> exact le_rfl
    · cases h
  | timeout t =>
    simp only [next] at h
    split at h
    · split_ifs at h
      obtain rfl := Option.some.inj h
      exact le_rfl
    · cases h
  | claim t isCancelled locks =>
    simp only [next, claim] at h
    split at h
    · split_ifs at h
      split at h
      · rw [Option.some.inj h]
      · obtain rfl := Option.some.inj h
        exact le_rfl
      · split_ifs at h <;> obtain rfl := Option.some.inj h <;> exact le_rfl
    · cases h
  | round t =>
    simp only [next, round] at h
    split at h
    · split_ifs at h <;> obtain rfl := Option.some.inj h <;> exact le_rfl
    · cases h

omit [DecidableEq ι] in
theorem StopsAt.waiting {stop' : ℤ} (hk : w.StopsAt t stop)
    (hm : w.maintainers[t]? = some (.waiting stop')) : stop' = stop := by
  rcases hk with hm' | ⟨nodes, hm'⟩ | hm' <;> rw [hm] at hm' <;> cases hm'
  rfl

omit [DecidableEq ι] in
theorem StopsAt.claiming {stop' : ℤ} {nodes : List ι} (hk : w.StopsAt t stop)
    (hm : w.maintainers[t]? = some (.claiming stop' nodes)) : stop' = stop := by
  rcases hk with hm' | ⟨nodes', hm'⟩ | hm' <;> rw [hm] at hm' <;> cases hm'
  rfl

theorem stopsAt_next (hk : w.StopsAt t stop) (h : w.next D e = some w') : w'.StopsAt t stop := by
  cases threads_next h with
  | same h => rwa [StopsAt, h]
  | started m h =>
    rw [StopsAt, h]
    exact hk.imp (fun hm => getElem?_alloc_of_some hm m)
      (Or.imp (fun ⟨nodes, hm⟩ => ⟨nodes, getElem?_alloc_of_some hm m⟩)
        fun hm => getElem?_alloc_of_some hm m)
  | @went t' m m' hm h hp =>
    rw [StopsAt, h, getElem?_store hm]
    split_ifs with ht
    · subst ht
      cases hp with
      | enter stop' =>
        obtain rfl := hk.waiting hm
        exact .inr (.inl ⟨_, rfl⟩)
      | claim stop' nodes nodes' =>
        obtain rfl := hk.claiming hm
        exact .inr (.inl ⟨nodes', rfl⟩)
      | expire stop' nodes hexp => exact .inr (.inr rfl)
    · exact hk

/-- The thread takes the time to give up from the lease it starts with. -/
theorem stopsAt_starts (h : Starts D t w w') : w'.StopsAt t w'.client.stopJeopardy := by
  obtain ⟨hn, ht, hlt⟩ := h
  simp only [next, initSession] at hn
  split at hn
  · cases hn
  · obtain rfl := Option.some.inj hn
    have hlt : t < w.maintainers.length := hlt
    omega
  · split_ifs at hn
    · obtain rfl := Option.some.inj hn
      refine .inl ?_
      show (w.maintainers ++ [Maintainer.waiting w.client.stopJeopardy])[t]? = _
      rw [← ht, List.getElem?_concat_length]
      rfl
    · obtain rfl := Option.some.inj hn
      have hlt : t < w.maintainers.length := hlt
      omega

/-- Where no node denies its claim, the thread lets the session expire only when it is too late. -/
theorem expires_next (hk : w.StopsAt t stop) (h : w.next D e = some w') (hno : ¬ Denied D w e)
    (hexp : Expires t w w') : stop < w.clock := by
  obtain ⟨hn, hn', -⟩ := hexp
  obtain ⟨m, hm⟩ : ∃ m, w.maintainers[t]? = some m := by
    rcases hk with hm | ⟨nodes, hm⟩ | hm <;> exact ⟨_, hm⟩
  have hsame : w'.maintainers ≠ w.maintainers := fun h => hn (h ▸ hn')
  have halloc : ∀ m', w'.maintainers ≠ w.maintainers ++ [m'] := fun m' h => by
    rw [h, getElem?_alloc_of_some hm] at hn'
    exact hn (hm.trans hn')
  have hset : ∀ {t' m₁ m'}, w.maintainers[t']? = some m₁ →
      w'.maintainers = w.maintainers.set t' m' → t' = t ∧ m' = .returned := by
    intro t' m₁ m' hm₁ h
    rw [h, getElem?_store hm₁] at hn'
    split_ifs at hn' with ht
    · exact ⟨ht.symm, Option.some.inj hn'⟩
    · exact absurd hn' hn
  have haside : e.ofThread = false → e ≠ .startSession → stop < w.clock := fun hthread hstart => by
    rcases (aside_next hthread hstart h).maintainers with h | ⟨m', h⟩
    · exact absurd h hsame
    · exact absurd h (halloc m')
  cases e with
  | startSession =>
    simp only [next] at h
    split_ifs at h
    obtain rfl := Option.some.inj h
    exact absurd rfl hsame
  | keepAlive t' isCancelled =>
    simp only [next, keepAlive] at h
    split at h
    · rename_i stop' hm₁
      obtain ⟨i, -, hw⟩ := Option.map_eq_some_iff.mp h
      split at hw <;> subst hw
      · exact absurd rfl hsame
      · cases (hset hm₁ rfl).2
      · exact absurd rfl hsame
    · cases h
  | timeout t' =>
    simp only [next] at h
    split at h
    · rename_i stop' hm₁
      split_ifs at h
      obtain rfl := Option.some.inj h
      cases (hset hm₁ rfl).2
    · cases h
  | claim t' isCancelled locks =>
    simp only [next, claim] at h
    split at h
    · rename_i stop' i nodes hm₁
      split_ifs at h
      split at h
      · exact absurd (Option.some.inj h ▸ rfl) hsame
      · obtain rfl := Option.some.inj h
        cases (hset hm₁ rfl).2
      · rename_i lease hanswer
        split_ifs at h with hneg
        · exact absurd ⟨t', isCancelled, locks, stop', i, nodes, lease, rfl, hm₁, hanswer, hneg⟩ hno
        · obtain rfl := Option.some.inj h
          cases (hset hm₁ rfl).2
    · cases h
  | round t' =>
    simp only [next, round] at h
    split at h
    · rename_i stop' hm₁
      split_ifs at h with hlate
      · obtain rfl := Option.some.inj h
        obtain ⟨rfl, -⟩ := hset hm₁ rfl
        obtain rfl := hk.claiming hm₁
        exact hlate
      · obtain rfl := Option.some.inj h
        cases (hset hm₁ rfl).2
    · cases h
  | _ => exact haside rfl (by simp)

/-- A `keep_alive` that is late leaves the thread in jeopardy. -/
theorem enters_timeout (h : w.next D (.timeout t) = some w') : Enters D t w w' := by
  refine ⟨.inr h, ?_⟩
  simp only [next] at h
  split at h
  · rename_i stop hm
    split_ifs at h
    obtain rfl := Option.some.inj h
    refine ⟨stop, D.memberList, ?_⟩
    show (w.maintainers.set t (.claiming stop D.memberList))[t]? = _
    rw [getElem?_store hm, if_pos rfl]
  · cases h

/-- The client's lease and its clock are what they were when the `keep_alive` was lost. -/
theorem enters_spec (h : Enters D t w w') (hk : w.StopsAt t stop) :
    w'.client.deadline = w.client.deadline ∧ w'.clock = w.clock ∧
      ∃ nodes, w'.maintainers[t]? = some (.claiming stop nodes) := by
  obtain ⟨hevent, stop', nodes, hm'⟩ := h
  have hentered : ∀ stop₁ (w₁ : Service ι), w.maintainers[t]? = some (.waiting stop₁) →
      w₁.client = w.client → w₁.maintainers = w.maintainers → w₁.clock = w.clock →
      w₁.enterJeopardy D t stop₁ = w' → w'.client.deadline = w.client.deadline ∧
        w'.clock = w.clock ∧ ∃ nodes, w'.maintainers[t]? = some (.claiming stop nodes) := by
    rintro stop₁ w₁ hm hclient hmaintainers hclock rfl
    obtain rfl := hk.waiting hm
    refine ⟨?_, hclock, D.memberList, ?_⟩
    · show w₁.client.deadline = w.client.deadline
      rw [hclient]
    · show (w₁.maintainers.set t (.claiming stop₁ D.memberList))[t]? = _
      rw [hmaintainers, getElem?_store hm, if_pos rfl]
  rcases hevent with ⟨isCancelled, h⟩ | h
  · simp only [next, keepAlive] at h
    split at h
    · rename_i stop₁ hm
      have hwaits : w'.maintainers ≠ w.maintainers := fun h => by
        rw [h, hm] at hm'
        cases hm'
      obtain ⟨i, -, hw⟩ := Option.map_eq_some_iff.mp h
      split at hw
      · exact absurd (hw ▸ rfl) hwaits
      · exact hentered stop₁ (w.deliver D i _) hm rfl rfl rfl hw
      · exact absurd (hw ▸ rfl) hwaits
    · cases h
  · simp only [next] at h
    split at h
    · rename_i stop₁ hm
      split_ifs at h
      exact hentered stop₁ w hm rfl rfl rfl (Option.some.inj h)
    · cases h

theorem Undenied.refl (w : Service ι) : Undenied D w w := ⟨[], rfl, trivial⟩

theorem Undenied.trans {w'' : Service ι} (h : Undenied D w w') (h' : Undenied D w' w'') :
    Undenied D w w'' := by
  obtain ⟨es, hrun, halong⟩ := h
  obtain ⟨es', hrun', halong'⟩ := h'
  exact ⟨es ++ es', Run.run_append_eq_some.mpr ⟨w', hrun, hrun'⟩, halong.append hrun halong'⟩

theorem Undenied.single (h : w.next D e = some w') (hno : ¬ Denied D w e) : Undenied D w w' :=
  ⟨[e], by rw [Run.run, h]; rfl, fun _ _ => ⟨hno, trivial⟩⟩

omit [DecidableEq ι] in
theorem not_denied (h : ∀ t isCancelled locks, e ≠ .claim t isCancelled locks) :
    ¬ Denied D w e := by
  rintro ⟨t, isCancelled, locks, -, -, -, -, he, -⟩
  exact h t isCancelled locks he

/-- All nodes of a round may crash. -/
theorem undenied_crash : ∀ (nodes : List ι) (w : Service ι), ∃ w', Undenied D w w' ∧
    w'.client = w.client ∧ w'.maintainers = w.maintainers ∧ w'.clock = w.clock ∧
    (∀ i, w.cluster.servers i = none → w'.cluster.servers i = none) ∧
    ∀ i ∈ nodes, w'.cluster.servers i = none
  | [], w => ⟨w, .refl w, rfl, rfl, rfl, fun _ h => h, by simp⟩
  | i :: nodes, w => by
    obtain ⟨w', hu, hclient, hmaintainers, hclock, hkept, hnodes⟩ := undenied_crash nodes
      { w with cluster := { w.cluster with servers := Function.update w.cluster.servers i none } }
    have hcrash : Undenied D w { w with cluster := { w.cluster with
        servers := Function.update w.cluster.servers i none } } :=
      .single (e := .crash i) rfl (not_denied (by simp))
    refine ⟨w', hcrash.trans hu, hclient, hmaintainers, hclock, fun j hj => hkept j ?_, ?_⟩
    · dsimp only
      rw [Function.update_apply]
      split_ifs
      · rfl
      · exact hj
    · intro j hj
      rcases List.mem_cons.mp hj with rfl | hj
      · exact hkept j (Function.update_self _ _ _)
      · exact hnodes j hj

/-- And then nobody answers, to the end of the round. -/
theorem undenied_claims : ∀ (nodes : List ι) (w : Service ι),
    w.maintainers[t]? = some (.claiming stop nodes) →
    (∀ i ∈ nodes, w.cluster.servers i = none) →
    ∃ w', Undenied D w w' ∧ w'.maintainers[t]? = some (.claiming stop []) ∧
      w'.client = w.client ∧ w'.clock = w.clock
  | [], w, hm, _ => ⟨w, .refl w, hm, rfl, rfl⟩
  | i :: nodes, w, hm, hdown => by
    have hnodup : (w.client.locks.toList.map Prod.fst).Nodup := by
      rw [Std.ExtTreeMap.map_fst_toList_eq_keys]
      exact Std.ExtTreeMap.nodup_keys
    obtain ⟨locks, hlocks⟩ : ∃ locks : Claims, locks.entries.Perm w.client.locks.toList :=
      ⟨⟨_, hnodup⟩, .refl _⟩
    have hanswer : w.keepAliveAnswer D i false locks = some none := by
      rw [keepAliveAnswer, hdown i (by simp)]
    have hno : ¬ Denied D w (.claim t false locks) := by
      rintro ⟨t', c, locks', stop', j, nodes', lease, he, hm', hl, -⟩
      obtain ⟨rfl, rfl, rfl⟩ := Event.claim.inj he
      obtain ⟨-, hnodes⟩ := Maintainer.claiming.inj (Option.some.inj (hm.symm.trans hm'))
      obtain ⟨rfl, -⟩ := List.cons.inj hnodes
      rw [hanswer] at hl
      cases hl
    have hstep : w.next D (.claim t false locks) =
        some ((w.deliver D i (.keepAlive true false w.client.sessionId locks w.clock)).setMaintainer
          t (.claiming stop nodes)) := by
      simp only [next, claim, hm, hanswer, if_pos hlocks]
    have hm₁ : ((w.deliver D i (.keepAlive true false w.client.sessionId locks
        w.clock)).setMaintainer t (.claiming stop nodes)).maintainers[t]? =
          some (.claiming stop nodes) := by
      show (w.maintainers.set t (.claiming stop nodes))[t]? = _
      rw [getElem?_store hm, if_pos rfl]
    obtain ⟨w', hu, hm', hclient, hclock⟩ := undenied_claims nodes _ hm₁ fun j hj => by
      show (w.deliver D i (.keepAlive true false w.client.sessionId locks w.clock)).cluster.servers
        j = none
      rw [servers_deliver]
      split_ifs
      · rw [hdown i (by simp)]
        rfl
      · exact hdown j (List.mem_cons_of_mem _ hj)
    exact ⟨w', (Undenied.single hstep hno).trans hu, hm', hclient, hclock⟩

/-- Nothing keeps the thread from giving up as soon as its time is over. -/
theorem exists_expires (hm : ∃ nodes, w.maintainers[t]? = some (.claiming stop nodes))
    (now : ℤ) (hlate : stop < now) (hnow : w.clock ≤ now) :
    ∃ w₁ e w₂, Undenied D w w₁ ∧ w₁.next D e = some w₂ ∧ ¬ Denied D w₁ e ∧ Expires t w₁ w₂ ∧
      w₂.clock = now := by
  obtain ⟨nodes, hm⟩ := hm
  obtain ⟨w₁, h₁, -, hmaintainers, hclock₁, -, hdown⟩ := undenied_crash (D := D) nodes w
  obtain ⟨w₂, h₂, hm₂, -, hclock₂⟩ := undenied_claims nodes w₁ (hmaintainers ▸ hm) hdown
  have htick : w₂.next D (.tick now) = some { w₂ with clock := now } :=
    if_pos (by rwa [hclock₂, hclock₁])
  have hround : ({ w₂ with clock := now } : Service ι).next D (.round t) =
      some ({ w₂ with clock := now, client := { w₂.client with expired := true }
        }.setMaintainer t .returned) := by
    simp only [next, round, hm₂, if_pos hlate]
  refine ⟨_, .round t, _, (h₁.trans h₂).trans (.single htick (not_denied (by simp))), hround,
    not_denied (by simp), ⟨?_, ?_, rfl⟩, rfl⟩
  · show w₂.maintainers[t]? ≠ _
    simp [hm₂]
  · show (w₂.maintainers.set t .returned)[t]? = _
    rw [getElem?_store hm₂, if_pos rfl]

/-- When the thread enters jeopardy, it still has the time from its start. -/
theorem claiming_of_enters {w₀ w₁ : Service ι} {es : List (Event ι)} (hstart : Starts D t w₀ w₁)
    (hrun : Run.run (next D) w₁ es = some w) (henter : Enters D t w w') :
    w'.client.deadline = w.client.deadline ∧ w'.clock = w.clock ∧
      ∃ nodes, w'.maintainers[t]? = some (.claiming w₁.client.stopJeopardy nodes) :=
  enters_spec henter <|
    Run.invariant (fun _ _ _ hk _ hn => stopsAt_next hk hn) (stopsAt_starts hstart)
      Run.along_true hrun

/-- The thread gives the client the time it should just when the lease it lost ends no later than
the lease it started with, or so long ago that the time is over. -/
theorem grace_iff {w₀ w₁ : Service ι} {es : List (Event ι)} (hstart : Starts D t w₀ w₁)
    (hrun : Run.run (next D) w₁ es = some w) (henter : Enters D t w w') :
    Grace D t w' ↔ w.client.deadline ≤ w₁.client.deadline ∨
      w.client.deadline + jeopardyDuration * 1000000 < w.clock := by
  obtain ⟨hdeadline, hclock, hclaiming⟩ := claiming_of_enters hstart hrun henter
  have hstop : w₁.client.stopJeopardy = w₁.client.deadline + jeopardyDuration * 1000000 := rfl
  constructor
  · intro hgrace
    by_contra hno
    rw [not_or, not_le, not_lt] at hno
    obtain ⟨v₁, e, v₂, hu, hnext, hdeny, hexp, hnow⟩ := exists_expires (D := D) hclaiming
      (max w'.clock (w₁.client.stopJeopardy + 1)) (by omega) (le_max_left _ _)
    have hlate := hgrace v₁ e v₂ hu hnext hdeny hexp
    rw [hnow, hdeadline, hclock, hstop] at hlate
    omega
  · rintro hcond v₁ e v₂ ⟨es', hrun', -⟩ hnext hdeny hexp
    have hstops₁ : v₁.StopsAt t w₁.client.stopJeopardy :=
      Run.invariant (fun _ _ _ hk _ hn => stopsAt_next hk hn) (.inr (.inl hclaiming))
        Run.along_true hrun'
    have hmono : w'.clock ≤ v₁.clock :=
      Run.invariant (I := fun v => w'.clock ≤ v.clock)
        (fun _ _ _ hle _ hn => hle.trans (clock_next hn)) le_rfl Run.along_true hrun'
    have hlate := expires_next hstops₁ hnext hdeny hexp
    have hlast := clock_next hnext
    rw [hdeadline]
    omega

end Step

/-- One extension of the lease, to thirty seconds, and then none. -/
def sampleLoss : List (Event Unit) :=
  [.cluster (.deliver () (.maintainStart 0)), .tick 11000000000,
    .cluster (.deliver () (.maintainLoop 0 11000000000 11000000000)), .keepAlive 0 false,
    .tick 30000000000]

/-- The lease is lost at 30 s, when the thread was started with one that ended at 12 s. -/
theorem enters_sampleLoss : ∃ w₀ w₁ w w',
    Run.run (next sampleDeployment) sampleService [.startSession] = some w₀ ∧
      Starts sampleDeployment 0 w₀ w₁ ∧ Run.run (next sampleDeployment) w₁ sampleLoss = some w ∧
      Enters sampleDeployment 0 w w' ∧ w₁.client.deadline = 12000000000 ∧
      w.client.deadline = 30000000000 ∧ w.clock = 30000000000 := by
  obtain ⟨w₀, hw₀, hcheck⟩ := (Option.any_eq_true _ _).mp (by decide +kernel :
    (Run.run (next sampleDeployment) sampleService [.startSession]).any fun w₀ =>
      w₀.maintainers.length = 0 ∧ (w₀.next sampleDeployment .initSession).any fun w₁ =>
        0 < w₁.maintainers.length ∧ w₁.client.deadline = 12000000000 ∧
          (Run.run (next sampleDeployment) w₁ sampleLoss).any fun w =>
            w.client.deadline = 30000000000 ∧ w.clock = 30000000000 ∧
              (w.next sampleDeployment (.timeout 0)).isSome)
  obtain ⟨hnone, hcheck⟩ := of_decide_eq_true hcheck
  obtain ⟨w₁, hw₁, hcheck⟩ := (Option.any_eq_true _ _).mp hcheck
  obtain ⟨hlen, hstart, hcheck⟩ := of_decide_eq_true hcheck
  obtain ⟨w, hw, hcheck⟩ := (Option.any_eq_true _ _).mp hcheck
  obtain ⟨hend, hclock, hcheck⟩ := of_decide_eq_true hcheck
  obtain ⟨w', hw'⟩ := Option.isSome_iff_exists.mp hcheck
  exact ⟨w₀, w₁, w, w', hw₀, ⟨hw₁, hnone, hlen⟩, hw, enters_timeout hw', hstart, hend, hclock⟩

/-- Eighteen seconds of the time that it should have are lost. -/
theorem grace_iff_extended : ∃ w₀ w₁ w w', Starts sampleDeployment 0 w₀ w₁ ∧
    Run.run (next sampleDeployment) w₁ sampleLoss = some w ∧ Enters sampleDeployment 0 w w' ∧
      (Grace sampleDeployment 0 w' ↔ w.client.deadline ≤ w₁.client.deadline ∨
        w.client.deadline + jeopardyDuration * 1000000 < w.clock) := by
  obtain ⟨w₀, w₁, w, w', -, hstart, hw, henter, -⟩ := enters_sampleLoss
  exact ⟨w₀, w₁, w, w', hstart, hw, henter, grace_iff hstart hw henter⟩

/-- Lost at 30 s, the lease should give the thread until 75 s, and it may give up after 57 s. -/
theorem not_grace_extended : ∃ w₀ w₁ w w',
    Run.run (next sampleDeployment) sampleService [.startSession] = some w₀ ∧
      Starts sampleDeployment 0 w₀ w₁ ∧ Run.run (next sampleDeployment) w₁ sampleLoss = some w ∧
      Enters sampleDeployment 0 w w' ∧ ¬ Grace sampleDeployment 0 w' := by
  obtain ⟨w₀, w₁, w, w', hw₀, hstart, hw, henter, hstart', hend, hclock⟩ := enters_sampleLoss
  refine ⟨w₀, w₁, w, w', hw₀, hstart, hw, henter, fun hgrace => ?_⟩
  obtain ⟨hdeadline, hclock', hclaiming⟩ := claiming_of_enters hstart hw henter
  have hstop : w₁.client.stopJeopardy = 57000000000 := by
    show w₁.client.deadline + jeopardyDuration * 1000000 = _
    rw [hstart']
    rfl
  obtain ⟨v₁, e, v₂, hu, hnext, hdeny, hexp, hnow⟩ := exists_expires (D := sampleDeployment)
    hclaiming 57000000001 (by omega) (by omega)
  have hlate := hgrace v₁ e v₂ hu hnext hdeny hexp
  rw [hnow, hdeadline, hend] at hlate
  exact absurd hlate (by decide)

end Service

end LockService
