import LockService.Leases

/-!
# A thread that is re-adopted

The first node that answers in a jeopardy round with a lease becomes the master, and jeopardy is
over for the lock calls. For the thread it is not: what would end its loop comes after the `break`
that ends the round, so that it claims again until it is too late, and then lets the session expire
(`adopted_claims`).
-/

namespace LockService

namespace Service

variable {ι : Type*} [DecidableEq ι]

/-- The thread is in a jeopardy round and the node answers it with a lease. -/
def Adopted (D : Deployment ι) (t : ℕ) (i : ι) (w w' : Service ι) : Prop :=
  ∃ isCancelled locks stop nodes lease, w.next D (.claim t isCancelled locks) = some w' ∧
    w.maintainers[t]? = some (.claiming stop (i :: nodes)) ∧
    w.keepAliveAnswer D i isCancelled locks = some (some lease) ∧ 0 ≤ lease

/-- The client is out of jeopardy with the node as its master, and when the thread goes on it waits
for the next `keep_alive` and has not let the session expire. -/
structure Recovers (D : Deployment ι) (t : ℕ) (i : ι) (w : Service ι) : Prop where
  jeopardy : w.client.jeopardy = false
  master : w.client.master = some i
  resumes : ∀ es w₁ w₂, Run.run (next D) w es = some w₁ → w₁.maintainers[t]? = w.maintainers[t]? →
    w₁.next D (.round t) = some w₂ →
    (∃ stop, w₂.maintainers[t]? = some (.waiting stop)) ∧ w₂.client.expired = w₁.client.expired

def Event.ofThread : Event ι → Bool
  | .keepAlive _ _ | .timeout _ | .claim _ _ _ | .round _ => true
  | _ => false

/-- The flags and the threads there were are not touched. -/
structure Aside (w w' : Service ι) : Prop where
  maintainers : w'.maintainers = w.maintainers ∨ ∃ m, w'.maintainers = w.maintainers ++ [m]
  jeopardy : w'.client.jeopardy = w.client.jeopardy
  expired : w'.client.expired = w.client.expired

omit [DecidableEq ι] in
theorem Aside.refl (w : Service ι) : Aside w w := ⟨.inl rfl, rfl, rfl⟩

/-- How a thread goes on: into jeopardy, through its rounds, or out with the session expired. -/
inductive Proceeds (D : Deployment ι) (w' : Service ι) : Maintainer ι → Maintainer ι → Prop where
  | enter (stop : ℤ) : Proceeds D w' (.waiting stop) (.claiming stop D.memberList)
  | claim (stop : ℤ) (nodes nodes' : List ι) :
    Proceeds D w' (.claiming stop nodes) (.claiming stop nodes')
  | expire (stop : ℤ) (nodes : List ι) (h : w'.client.expired = true) :
    Proceeds D w' (.claiming stop nodes) .returned

/-- The threads after a step: one more, one that went on, or the same. -/
inductive Threads (D : Deployment ι) (w w' : Service ι) : Prop where
  | same (h : w'.maintainers = w.maintainers)
  | started (m : Maintainer ι) (h : w'.maintainers = w.maintainers ++ [m])
  | went {t : ℕ} {m m' : Maintainer ι} (hm : w.maintainers[t]? = some m)
    (h : w'.maintainers = w.maintainers.set t m') (hp : Proceeds D w' m m')

section Step

variable {D : Deployment ι} {w w' : Service ι} {e : Event ι} {t : ℕ} {i : ι}

theorem aside_lockCall {waited needs : Bool} {request : LockService.Event}
    {k : Client ι → Client ι} (h : w.lockCall D waited needs request k = some w')
    (hk : ∀ client, (k client).jeopardy = client.jeopardy ∧
      (k client).expired = client.expired) : Aside w w' := by
  unfold lockCall callMaster at h
  split_ifs at h
  · exact (Option.some.inj h) ▸ .refl w
  · obtain ⟨i, -, rfl⟩ := Option.map_eq_some_iff.mp h
    dsimp only
    split_ifs
    · exact ⟨.inl rfl, (hk w.client).1, (hk w.client).2⟩
    · exact ⟨.inl rfl, rfl, rfl⟩
  · exact (Option.some.inj h) ▸ .refl w

/-- What is no thread's step and starts no session leaves the flags alone. -/
theorem aside_next (hthread : e.ofThread = false) (hstart : e ≠ .startSession)
    (h : w.next D e = some w') : Aside w w' := by
  cases e with
  | tick now =>
    simp only [next] at h
    split_ifs at h
    obtain rfl := Option.some.inj h
    exact ⟨.inl rfl, rfl, rfl⟩
  | cluster e =>
    obtain ⟨cluster, -, rfl⟩ := Option.map_eq_some_iff.mp h
    exact ⟨.inl rfl, rfl, rfl⟩
  | crash i =>
    obtain rfl := Option.some.inj h
    exact ⟨.inl rfl, rfl, rfl⟩
  | restart i files =>
    simp only [next] at h
    split_ifs at h
    obtain rfl := Option.some.inj h
    exact ⟨.inl rfl, rfl, rfl⟩
  | startSession => exact absurd rfl hstart
  | initSession =>
    simp only [next, initSession] at h
    split at h
    · simp at h
    · obtain rfl := Option.some.inj h
      exact ⟨.inl rfl, rfl, rfl⟩
    · split_ifs at h
      · obtain rfl := Option.some.inj h
        exact ⟨.inr ⟨_, rfl⟩, rfl, rfl⟩
      · obtain rfl := Option.some.inj h
        exact ⟨.inl rfl, rfl, rfl⟩
  | closeSession =>
    simp only [next, callMaster] at h
    split_ifs at h
    · exact (Option.some.inj h) ▸ .refl w
    · obtain ⟨i, -, rfl⟩ := Option.map_eq_some_iff.mp h
      simp only [id, ite_self]
      exact ⟨.inl rfl, rfl, rfl⟩
  | openLock => exact aside_lockCall h fun _ => ⟨rfl, rfl⟩
  | deleteLock => exact aside_lockCall h fun _ => ⟨rfl, rfl⟩
  | acquireLock => exact aside_lockCall h fun _ => ⟨rfl, rfl⟩
  | releaseLock => exact aside_lockCall h fun _ => ⟨rfl, rfl⟩
  | read => exact aside_lockCall h fun _ => ⟨rfl, rfl⟩
  | write => exact aside_lockCall h fun _ => ⟨rfl, rfl⟩
  | _ => simp [Event.ofThread] at hthread

theorem threads_claim {isCancelled : Bool} {locks : Claims}
    (h : w.claim D t isCancelled locks = some w') : Threads D w w' := by
  unfold claim at h
  split at h
  swap
  · simp at h
  rename_i stop i nodes hm
  split_ifs at h
  dsimp only at h
  split at h
  · exact .same ((Option.some.inj h) ▸ rfl)
  · obtain rfl := Option.some.inj h
    exact .went hm rfl (.claim stop _ _)
  · split_ifs at h
    · obtain rfl := Option.some.inj h
      exact .went hm rfl (.expire stop _ rfl)
    · obtain rfl := Option.some.inj h
      exact .went hm rfl (.claim stop _ _)

omit [DecidableEq ι] in
theorem threads_round (h : w.round D t = some w') : Threads D w w' := by
  unfold round at h
  split at h
  swap
  · simp at h
  rename_i stop hm
  split_ifs at h
  · obtain rfl := Option.some.inj h
    exact .went hm rfl (.expire stop _ rfl)
  · obtain rfl := Option.some.inj h
    exact .went hm rfl (.claim stop _ _)

theorem threads_next (h : w.next D e = some w') : Threads D w w' := by
  have haside : e.ofThread = false → e ≠ .startSession → Threads D w w' := fun hthread hstart =>
    match (aside_next hthread hstart h).maintainers with
    | .inl h => .same h
    | .inr ⟨m, h⟩ => .started m h
  cases e with
  | startSession =>
    simp only [next] at h
    split_ifs at h
    exact .same ((Option.some.inj h) ▸ rfl)
  | keepAlive t isCancelled =>
    simp only [next, keepAlive] at h
    split at h
    · rename_i stop hm
      obtain ⟨i, -, hw⟩ := Option.map_eq_some_iff.mp h
      split at hw <;> subst hw
      · exact .same rfl
      · exact .went hm rfl (.enter stop)
      · exact .same rfl
    · simp at h
  | timeout t =>
    simp only [next] at h
    split at h
    · rename_i stop hm
      split_ifs at h
      obtain rfl := Option.some.inj h
      exact .went hm rfl (.enter stop)
    · simp at h
  | claim t isCancelled locks => exact threads_claim h
  | round t => exact threads_round h
  | _ => exact haside rfl (by simp)

/-- The thread is in a round or has returned. -/
def Claiming (t : ℕ) (w : Service ι) : Prop :=
  (∃ stop nodes, w.maintainers[t]? = some (.claiming stop nodes)) ∨
    w.maintainers[t]? = some .returned

/-- A thread in jeopardy never waits for a `keep_alive` again. -/
theorem claiming_next (hc : w.Claiming t) (h : w.next D e = some w') : w'.Claiming t := by
  cases threads_next h with
  | same h => rwa [Claiming, h]
  | started m h =>
    rw [Claiming, h]
    rcases hc with ⟨stop, nodes, hm⟩ | hm
    · exact .inl ⟨stop, nodes, getElem?_alloc_of_some hm m⟩
    · exact .inr (getElem?_alloc_of_some hm m)
  | @went t' m m' hm h hp =>
    rw [Claiming, h, getElem?_store hm]
    split_ifs with ht
    · subst ht
      cases hp with
      | enter stop =>
        rcases hc with ⟨stop', nodes, hm'⟩ | hm' <;> simp [hm] at hm'
      | claim stop nodes nodes' => exact .inl ⟨stop, nodes', rfl⟩
      | expire stop nodes hexp => exact .inr rfl
    · exact hc

theorem adopted_spec (h : Adopted D t i w w') : w'.client.jeopardy = false ∧
    w'.client.master = some i ∧ ∃ stop, w'.maintainers[t]? = some (.claiming stop []) := by
  obtain ⟨isCancelled, locks, stop, nodes, lease, hn, hm, hanswer, hle⟩ := h
  simp only [next, claim, hm, hanswer, if_neg (not_lt.mpr hle)] at hn
  split_ifs at hn
  obtain rfl := Option.some.inj hn
  refine ⟨rfl, rfl, stop, ?_⟩
  show (w.maintainers.set t (.claiming stop []))[t]? = _
  rw [getElem?_store hm, if_pos rfl]

/-- The client is out of jeopardy with the new master, but its thread claims on or returns, and so
it does not recover. -/
theorem adopted_claims (h : Adopted D t i w w') :
    w'.client.jeopardy = false ∧ w'.client.master = some i ∧
      (∀ es w₁, Run.run (next D) w' es = some w₁ → w₁.Claiming t) ∧ ¬ Recovers D t i w' := by
  obtain ⟨hjeopardy, hmaster, stop, hm⟩ := adopted_spec h
  have hclaiming : w'.Claiming t := .inl ⟨stop, [], hm⟩
  refine ⟨hjeopardy, hmaster, fun es w₁ hrun => ?_, fun hrec => ?_⟩
  · exact Run.invariant (fun _ _ _ hI _ hn => claiming_next hI hn) hclaiming Run.along_true hrun
  · obtain ⟨w₂, hround⟩ : ∃ w₂, w'.next D (.round t) = some w₂ := by
      simp only [next, round, hm]
      split_ifs
      · exact ⟨_, rfl⟩
      · exact ⟨_, rfl⟩
    obtain ⟨⟨stop', hwait⟩, -⟩ := hrec.resumes [] w' w₂ rfl rfl hround
    rcases claiming_next hclaiming hround with ⟨stop'', nodes, hm'⟩ | hm' <;> simp [hwait] at hm'

end Step

/-- The client loses a `keep_alive` at 12 s, and the thread is answered when it claims then and
each time a lease is about to end. -/
def sampleEpisode (times : List ℤ) : List (Event Unit) :=
  [.startSession, .initSession, .cluster (.deliver () (.maintainStart 0)), .tick 12000000000,
    .timeout 0, .claim 0 false noClaims] ++ times.flatMap fun now =>
    [.round 0, .tick now, .cluster (.deliver () (.maintainLoop 0 now now)), .claim 0 false noClaims]

/-- The thread is answered in its first round. -/
theorem adopted_claims_first : ∃ w w', Run.run (next sampleDeployment) sampleService
      (sampleEpisode []).dropLast = some w ∧ Adopted sampleDeployment 0 () w w' ∧
    ¬ Recovers sampleDeployment 0 () w' := by
  have h : ∃ w w', Run.run (next sampleDeployment) sampleService (sampleEpisode []).dropLast =
      some w ∧ Adopted sampleDeployment 0 () w w' :=
    ⟨_, _, rfl, false, noClaims, 57000000000, [], 30000, rfl, rfl, rfl, by decide⟩
  obtain ⟨w, w', hw, hadopted⟩ := h
  exact ⟨w, w', hw, hadopted, (adopted_claims hadopted).2.2.2⟩

/-- Adopted for the fourth time at 59 s, the thread takes it that 57 s were too late. -/
theorem not_recovers_expired : ∃ w w₂, Run.run (next sampleDeployment) sampleService
      (sampleEpisode [29000000000, 44000000000, 59000000000]) = some w ∧
    w.client.jeopardy = false ∧ w.client.expired = false ∧
    w.next sampleDeployment (.round 0) = some w₂ ∧ w₂.client.expired = true ∧
    ¬ Recovers sampleDeployment 0 () w := by
  obtain ⟨w, hw, hcheck⟩ := (Option.any_eq_true _ _).mp (by decide +kernel :
    (Run.run (next sampleDeployment) sampleService
      (sampleEpisode [29000000000, 44000000000, 59000000000])).any fun w =>
      w.client.jeopardy = false ∧ w.client.expired = false ∧
        (w.next sampleDeployment (.round 0)).any fun w₂ => w₂.client.expired)
  obtain ⟨hjeopardy, hexp, hround⟩ := of_decide_eq_true hcheck
  obtain ⟨w₂, hw₂, hexp₂⟩ := (Option.any_eq_true _ _).mp hround
  refine ⟨w, w₂, hw, hjeopardy, hexp, hw₂, hexp₂, fun hrec => ?_⟩
  have hsame := (hrec.resumes [] w w₂ rfl rfl hw₂).2
  simp [hexp, hexp₂] at hsame

end Service

end LockService
