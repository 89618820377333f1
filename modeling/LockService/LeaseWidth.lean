import LockService.Ledger

/-!
# The lease an int32_t holds

The lease is as many times `DEFAULT_LEASE_EXTENSION` as the session was extended, and once more
(`counted_next`), and `keep_alive` takes it in an `int32_t`. So it comes through up to the 143164th
extension and never after that (`survives_iff`): first it is taken for the sign that there is no
session, and later for another lease.
-/

namespace LockService

/-- What `keep_alive` is to make of the lease that comes back to it: only -1 has it call
`handle_jeopardy`, and the response carries the lease. -/
structure Survives (cfg : Config) (s : State) (c : Str) (locks : Claims) (now lease : ℤ) :
    Prop where
  jeopardy : toInt32 lease < 0 → lease = -1
  answer : ∃ s', RPC.keepAlive cfg true false s c locks now = (.ok (.ok, lease), s')

/-- Every lease is what a session starts with and a number of extensions. -/
def State.Counted (s : State) : Prop :=
  ∀ (ptr : SessionPtr) session, s.sessionHeap[ptr]? = some session →
    ∃ n : ℕ, session.leaseLength = defaultLeaseExtension * (n + 1)

section Counted

variable {cfg : Config} {e : Event} {s s' t : State} {c : Str} {ptr : SessionPtr}
  {session session₁ : Session} {lease : ℤ}

theorem counted_set (hs : s.Counted) (h : s.sessionHeap[ptr]? = some session)
    (hn : ∃ n : ℕ, session₁.leaseLength = defaultLeaseExtension * (n + 1)) :
    (s.setSession ptr session₁).Counted := by
  intro q session' h'
  rw [State.setSession, getElem?_store h] at h'
  split_ifs at h'
  · exact Option.some.inj h' ▸ hn
  · exact hs q session' h'

theorem counted_move (hs : s.Counted) (h : Move cfg e s s') : s'.Counted := by
  cases h with
  | effect hnote hstart h =>
    intro q session' h'
    obtain ⟨session, hsession, hr⟩ := effect_rests hnote hstart h h'
    rw [hr.leaseLength]
    exact hs q session hsession
  | start =>
    intro q session' h'
    rw [State.start, getElem?_alloc] at h'
    split_ifs at h'
    · exact ⟨0, by rw [← Option.some.inj h']; rfl⟩
    · exact hs q session' h'
  | @launch _ thread session _ _ h => exact counted_set hs h (hs _ session h)
  | @reply _ _ _ thread session _ _ _ h => exact counted_set hs h (hs _ session h)
  | @last _ thread session _ h => exact counted_set hs h (hs _ session h)
  | @extend _ ptr session _ h =>
    obtain ⟨n, hn⟩ := hs ptr session h.2
    refine counted_set hs h.2 ?_
    rw [Session.extend, extended]
    split_ifs
    · exact ⟨n, hn⟩
    · refine ⟨n + 1, ?_⟩
      simp only [hn, defaultLeaseExtension]
      omega

theorem Reachable.step (h : Reachable cfg s) (hn : next cfg s e = some s') :
    Reachable cfg s' := by
  obtain ⟨files, es, h⟩ := h
  refine ⟨files, es ++ [e], Run.run_append_eq_some.mpr ⟨s, h, ?_⟩⟩
  exact Run.run_cons_eq_some.mpr ⟨s', hn, rfl⟩

theorem Reachable.counted (h : Reachable cfg s) : s.Counted := by
  obtain ⟨files, es, h⟩ := h
  refine (Run.invariant (I := fun s => s.WellFormed ∧ s.Counted) ?_
    ⟨.initial files, fun ptr session h => by simp [State.initial] at h⟩ Run.along_true h).2
  intro s e s' hI _ hn
  exact next_invariant (fun _ _ _ hI h => counted_move hI h) hI.1 hI.2 hn

theorem attemptExtendSession_live (h : s.Registered c ptr session)
    (hlive : session.terminated = false) (hext : attemptExtendSession s c = (.ok lease, t)) :
    session.blockReply ≠ 0 ∧ lease = session.leaseLength + defaultLeaseExtension := by
  simp only [attemptExtendSession, h.1, h.2, hlive, Bool.false_eq_true, if_false] at hext
  split_ifs at hext with hb
  · simp at hext
  · exact ⟨hb, (Except.ok.inj (congrArg Prod.fst hext)).symm⟩

/-- A lease comes through just when it is less than 2^31 ms. -/
theorem survives_iff_lt (h : s.Registered c ptr session) (hlive : session.terminated = false)
    (hext : attemptExtendSession s c = (.ok lease, t)) (hpos : 0 ≤ lease) (locks : Claims)
    (now : ℤ) : Survives cfg s c locks now lease ↔ lease < 2 ^ 31 := by
  obtain ⟨hb, rfl⟩ := attemptExtendSession_live h hlive hext
  obtain ⟨u, -, -, he⟩ := keepAlive_reply cfg h hb locks now
  have hextended : extended session = session.leaseLength + defaultLeaseExtension :=
    if_neg (by simp [hlive])
  rw [hextended] at he
  constructor
  · intro hsurvives
    have hnonneg : 0 ≤ toInt32 (session.leaseLength + defaultLeaseExtension) := by
      by_contra hneg
      have := hsurvives.jeopardy (not_le.mp hneg)
      omega
    obtain ⟨s', hs'⟩ := hsurvives.answer
    rw [if_neg (not_lt.mpr hnonneg)] at he
    rw [← toInt32_eq_iff hpos hnonneg]
    exact (Prod.mk.inj (Except.ok.inj (Prod.mk.inj (he.symm.trans hs')).1)).2
  · intro hlt
    have hsame : toInt32 (session.leaseLength + defaultLeaseExtension) =
        session.leaseLength + defaultLeaseExtension := by
      unfold toInt32
      rw [Int.bmod_eq_of_le] <;> omega
    rw [hsame, if_neg (not_lt.mpr hpos)] at he
    exact ⟨fun hneg => absurd (hsame ▸ hneg) (not_lt.mpr hpos), u, he⟩

/-- The lease of a session that is live comes through up to the 143164th extension. -/
theorem survives_iff (hr : Reachable cfg s) (h : s.Registered c ptr session)
    (hlive : session.terminated = false) (hext : attemptExtendSession s c = (.ok lease, t))
    (locks : Claims) (now : ℤ) :
    ∃ n : ℕ, lease = defaultLeaseExtension * (n + 1) ∧
      (Survives cfg s c locks now lease ↔ n ≤ 143164) := by
  obtain ⟨n, hn⟩ := hr.counted ptr session h.2
  have hlease := (attemptExtendSession_live h hlive hext).2
  rw [hn] at hlease
  refine ⟨n + 1, ?_, ?_⟩
  · rw [hlease, defaultLeaseExtension]
    omega
  · rw [survives_iff_lt h hlive hext (by simp only [hlease, defaultLeaseExtension]; omega)]
    simp only [hlease, defaultLeaseExtension]
    omega

end Counted

section LongLived

/-- A server whose one session was extended so many times, the last reply in its channel. -/
def longLived (n : ℕ) : State :=
  ⟨∅, (∅ : Dict SessionPtr).insertIfNew [1] 0, [],
    [⟨[1], 0, defaultLeaseExtension * (n + 1), 1, ∅, false⟩], [⟨0, .looping⟩], .empty⟩

theorem registered_longLived (n : ℕ) : (longLived n).Registered [1] 0
    ⟨[1], 0, defaultLeaseExtension * (n + 1), 1, ∅, false⟩ :=
  ⟨by rw [longLived, getElem?_insertIfNew_eq, if_pos rfl]; rfl, rfl⟩

theorem attemptExtendSession_longLived (n : ℕ) : attemptExtendSession (longLived n) [1] =
    (.ok (defaultLeaseExtension * (n + 2)), (longLived n).setSession 0
      ⟨[1], 0, defaultLeaseExtension * (n + 2), 0, ∅, false⟩) := by
  have hlen : defaultLeaseExtension * ((n : ℤ) + 1) + defaultLeaseExtension =
      defaultLeaseExtension * (n + 2) := by
    rw [defaultLeaseExtension]
    omega
  obtain ⟨hptr, hsession⟩ := registered_longLived n
  simp [attemptExtendSession, hptr, hsession, hlen]

theorem keepAlive_longLived {n : ℕ} (hn : n < 143164) (now : ℤ) :
    next sampleConfig (longLived n) (.keepAlive true false [1] ⟨[], List.nodup_nil⟩ now) =
      some ((longLived n).setSession 0
        ⟨[1], 0, defaultLeaseExtension * (n + 2), 0, ∅, false⟩) := by
  have hsame : toInt32 (defaultLeaseExtension * (n + 2)) = defaultLeaseExtension * (n + 2) := by
    unfold toInt32
    rw [Int.bmod_eq_of_le] <;> rw [defaultLeaseExtension] <;> omega
  rw [next, RPC.keepAlive, attemptExtendSession_longLived, if_neg (by simp), if_neg (by simp),
    Result.andThen_ok, hsame, if_neg]
  · rfl
  · rw [defaultLeaseExtension]
    omega

theorem maintainLoop_longLived (n : ℕ) {now : ℤ} (hnow : now = (n + 2) * 15000000000 - 1000000000) :
    next sampleConfig ((longLived n).setSession 0
      ⟨[1], 0, defaultLeaseExtension * (n + 2), 0, ∅, false⟩) (.maintainLoop 0 now now) =
      some (longLived (n + 1)) := by
  obtain ⟨lease, hlease⟩ : ∃ lease : ℤ, defaultLeaseExtension * (n + 2) = lease := ⟨_, rfl⟩
  have hleft : timeUntilExpire ⟨[1], 0, lease, 0, ∅, false⟩ now now = 1000000000 := by
    simp only [timeUntilExpire, ← hlease, defaultLeaseExtension]
    rw [if_pos] <;> omega
  have hnext : defaultLeaseExtension * (((n + 1 : ℕ) : ℤ) + 1) = lease := by
    rw [← hlease, defaultLeaseExtension]
    omega
  rw [longLived, longLived, hnext, hlease]
  simp [next, maintainLoop, State.setSession, hleft, putReply, Result.survivor]

/-- The client takes the reply, and the thread puts the next one in the last second. -/
theorem reachable_longLived : ∀ {n : ℕ}, n ≤ 143164 → Reachable sampleConfig (longLived n)
  | 0, _ => ⟨.empty, [.initSession true [1] 0, .maintainStart 0], rfl⟩
  | n + 1, hn => by
    have h : Reachable sampleConfig (longLived n) := reachable_longLived (by omega)
    exact (h.step (keepAlive_longLived hn 0)).step (maintainLoop_longLived n rfl)

theorem survives_iff_first : ∃ n : ℕ, (30000 : ℤ) = defaultLeaseExtension * (n + 1) ∧
    (Survives sampleConfig (longLived 0) [1] ⟨[], List.nodup_nil⟩ 0 30000 ↔ n ≤ 143164) :=
  survives_iff (reachable_longLived (by decide)) (registered_longLived 0) rfl
    (attemptExtendSession_longLived 0) ⟨[], List.nodup_nil⟩ 0

/-- After 25 days of a reply every fifteen seconds the next lease does not come through. -/
theorem not_survives_extended : ∃ s ptr session lease t, Reachable sampleConfig s ∧
    s.Registered [1] ptr session ∧ session.terminated = false ∧
    attemptExtendSession s [1] = (.ok lease, t) ∧
    ¬ Survives sampleConfig s [1] ⟨[], List.nodup_nil⟩ 0 lease := by
  have hreg := registered_longLived 143164
  have hext := attemptExtendSession_longLived 143164
  refine ⟨_, _, _, _, _, reachable_longLived le_rfl, hreg, rfl, hext, ?_⟩
  rw [survives_iff_lt hreg rfl hext] <;> simp only [defaultLeaseExtension] <;> omega

end LongLived

end LockService
