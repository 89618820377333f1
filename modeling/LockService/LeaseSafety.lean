import LockService.Leases

/-!
# What a lease in force is worth

While the leader has the client's session going, nothing it does for others takes a lock from the
client, so whatever the client takes itself to hold it owns there (`OwnsLocks.exchange`); no care on
the client's part is needed for that. The leader may end the session, and the client learns of it
from no call; but by its own clock its lease has run out by then.
-/

namespace LockService

section Kept

variable {cfg : Config} {s s' : State} {c path : Str} {mode : LockStatus}

/-- A turn of a thread takes the client's locks with its session or not at all. -/
theorem owns_maintainLoop_or_ended {t : ℕ} {now now' : ℤ} (hs : s.WellFormed) (ha : s.Aligned cfg)
    (h : next cfg s (.maintainLoop t now now') = some s') :
    s'.Ended c ∨ ∀ p m, Owns s' c p m ↔ Owns s c p m := by
  have hkeep : Persists cfg s.files s'.files := files_next hs rfl h ▸ fun _ => id
  by_cases hf : Event.Foreign s c (.maintainLoop t now now')
  · exact .inr fun p m => owns_foreign hs ha hkeep hf h
  simp only [Event.Foreign] at hf
  push Not at hf
  obtain ⟨thread, session, hi, hreg, -⟩ := hf
  rcases maintainLoop_survivor hs h with
    hnote | ⟨thread', d, session', u, hi', -, hreg', -, hend, hnote⟩
  · exact .inr fun p m => owns_note hs ha hnote
  obtain rfl := Option.some.inj (hi.symm.trans hi')
  obtain rfl := hs.eq_of_ptr hreg.1 hreg'.1
  have hu : u.WellFormed := survivor_eq hend ▸ (@endSession_trace cfg _ _ _ hs hreg.1).wellFormed hs
  exact .inl (ended_trace hu (survivor_eq hend ▸ endSession_ended hs hreg.1) hnote)

/-- So does the client's own `close_session`. -/
theorem owns_closeSession_or_ended (hs : s.WellFormed)
    (h : next cfg s (.closeSession c) = some s') :
    s'.Ended c ∨ ∀ p m, Owns s' c p m ↔ Owns s c p m := by
  rcases closeSession_survivor hs h with ⟨-, rfl⟩ | ⟨-, ptr, session, hreg, -, hend⟩
  · exact .inr fun _ _ => Iff.rfl
  · exact .inl (survivor_eq hend ▸ endSession_ended hs hreg.1)

/-- Two clients that own a path are both readers of it. -/
theorem Owns.compatible (hs : s.WellFormed) (h : Owns s c path mode) {d : Str}
    {mode' : LockStatus} (h' : Owns s d path mode') :
    mode' = mode ∧ (mode = .exclusive → d = c) := by
  refine ⟨h'.mode_unique h, fun hexcl => ?_⟩
  obtain ⟨lock, hlock, rfl, hc⟩ := h
  obtain ⟨lock', hlock', -, hd⟩ := h'
  obtain rfl := Option.some.inj (hlock.symm.trans hlock')
  exact (consistent_of_lockOf hs hlock).eq_of_exclusive hexcl hc hd

end Kept

namespace Service

variable {ι : Type*} [DecidableEq ι]

/-- What the client takes itself to hold it owns at a server. -/
def OwnsLocks (D : Deployment ι) (client : Client ι) (s : State) : Prop :=
  ∀ p m, client.locks[p]? = some m → Owns s D.address p m

/-- What the client takes itself to hold it owns at the node, and nobody else there owns it in a
mode that does not go with its own. -/
def Exclusive (D : Deployment ι) (i : ι) (w : Service ι) : Prop :=
  ∃ s, w.cluster.servers i = some s ∧ ∀ p m, w.client.locks[p]? = some m →
    Owns s D.address p m ∧ ∀ c m', Owns s c p m' → m' = m ∧ (m = .exclusive → c = D.address)

/-- What the step relation keeps of the client's locks, as long as its session goes on. -/
structure Held (D : Deployment ι) (i : ι) (p : Service ι × Bool) : Prop where
  leasing : Leasing D i p
  server : ∃ s, p.1.cluster.servers i = some s ∧ s.Aligned (D.cfg i) ∧
    (¬ s.Ended D.address → OwnsLocks D p.1.client s)

section Step

variable {D : Deployment ι} {w w' : Service ι} {i : ι} {s s' : State} {client : Client ι}

omit [DecidableEq ι] in
theorem OwnsLocks.of_owns (h : OwnsLocks D client s)
    (ho : s'.Ended D.address ∨ ∀ p m, Owns s' D.address p m ↔ Owns s D.address p m)
    (hlive : ¬ s'.Ended D.address) : OwnsLocks D client s' := fun p m hm =>
  ((ho.resolve_left hlive) p m).mpr (h p m hm)

omit [DecidableEq ι] in
theorem OwnsLocks.erase (h : OwnsLocks D client s) (path : Str) :
    OwnsLocks D { client with locks := client.locks.erase path } s := by
  intro p m hm
  rw [getElem?_erase_eq] at hm
  split_ifs at hm
  exact h p m hm

omit [DecidableEq ι] in
theorem OwnsLocks.acquire {path : Str} {mode : LockStatus} {cfg : Config} (hs : s.WellFormed)
    (ha : s.Aligned cfg) (h : OwnsLocks D client s)
    (hok : (acquireLock cfg s D.address path mode).1 = .ok .ok) :
    OwnsLocks D { client with locks := client.locks.insertIfNew path mode }
      (acquireLock cfg s D.address path mode).2 := by
  intro p m hm
  rw [owns_acquireLock hs ha hok]
  rw [getElem?_insertIfNew_acquired hs (h path) hok] at hm
  split_ifs at hm ⊢ with hp
  · exact (Option.some.inj hm).symm
  · exact h p m hm

omit [DecidableEq ι] in
theorem OwnsLocks.release {path : Str} {cfg : Config} (hs : s.WellFormed) (ha : s.Aligned cfg)
    (h : OwnsLocks D client s) (hok : (releaseLock cfg s D.address path).1 = .ok .ok) :
    OwnsLocks D { client with locks := client.locks.erase path }
      (releaseLock cfg s D.address path).2 := by
  intro p m hm
  rw [getElem?_erase_eq] at hm
  split_ifs at hm with hp
  exact (owns_releaseLock hs ha hok).mpr ⟨hp, h p m hm⟩

omit [DecidableEq ι] in
/-- Whatever the client and the leader exchange, and whatever others ask for, the client owns what
it takes itself to hold, unless its session is over. -/
theorem OwnsLocks.exchange {e : Event ι} (hs : s.WellFormed) (ha : s.Aligned (D.cfg i))
    (hserver : w.cluster.servers i = some s) (h : OwnsLocks D w.client s)
    (hx : Exchange D i w s e client s') (hclock : OneClock D i w e w')
    (hkeeps : KeepsPaths D i w e) (hlive : ¬ s'.Ended D.address) : OwnsLocks D client s' := by
  cases hx with
  | idle => exact h
  | @served call _ hn =>
    have hf := persists_next hs ha (keepsPaths_under.mpr (hkeeps s hserver rfl)) hn
    cases call with
    | maintainLoop t now now' => exact h.of_owns (owns_maintainLoop_or_ended hs ha hn) hlive
    | _ =>
      refine h.of_owns (.inr fun p m => ?_) hlive
      exact owns_foreign hs ha hf ((foreign_under _).mpr (hclock.2 rfl s hserver)) hn
  | starting => simp [OwnsLocks, Client.starting]
  | granted hn | denied hn | opened hn | deleted hn | written hn =>
    have hf := persists_next hs ha (by exact hkeeps s hserver) hn
    exact h.of_owns (.inr fun p m => owns_quiet hs ha hf (by trivial) hn) hlive
  | closed hn => exact h.of_owns (owns_closeSession_or_ended hs hn) hlive
  | acquired hn =>
    obtain rfl := survivor_eq hn
    split_ifs with hok
    · exact h.acquire hs ha hok
    · rwa [acquireLock_unchanged hs hok]
  | released hp hn =>
    obtain rfl := survivor_eq hn
    split_ifs with hok
    · exact h.release hs ha hok
    · rwa [releaseLock_unchanged hs hok]
  | read hp hn =>
    have hf := persists_next hs ha (by trivial) hn
    have hread := h.of_owns (.inr fun p m => owns_quiet hs ha hf (by trivial) hn) hlive
    split_ifs
    · exact hread.erase _
    · exact hread
  | extended hr =>
    have hn : LockService.next (D.cfg i) s (.keepAlive true false D.address noClaims w.clock) =
        some s' := by
      rw [LockService.next, hr, Result.survivor]
    exact h.of_owns (.inr fun p m => owns_keepAlive hs ha rfl hn) hlive

omit [DecidableEq ι] in
theorem persists_exchange {e : Event ι} (hs : s.WellFormed) (ha : s.Aligned (D.cfg i))
    (hserver : w.cluster.servers i = some s) (hx : Exchange D i w s e client s')
    (hkeeps : KeepsPaths D i w e) : Persists (D.cfg i) s.files s'.files := by
  cases hx with
  | idle => exact fun _ => id
  | starting => exact fun _ => id
  | served hn => exact persists_next hs ha (keepsPaths_under.mpr (hkeeps s hserver rfl)) hn
  | opened hn | written hn => exact persists_next hs ha (by exact hkeeps s hserver) hn
  | granted hn | denied hn | closed hn | deleted hn | acquired hn =>
    exact persists_next hs ha (by trivial) hn
  | released _ hn | read _ hn => exact persists_next hs ha (by trivial) hn
  | @extended t lease _ hr =>
    have hn : LockService.next (D.cfg i) s (.keepAlive true false D.address noClaims w.clock) =
        some s' := by
      rw [LockService.next, hr, Result.survivor]
    exact persists_next hs ha (by trivial) hn

omit [DecidableEq ι] in
theorem aligned_exchange {e : Event ι} (hs : s.WellFormed) (ha : s.Aligned (D.cfg i))
    (hserver : w.cluster.servers i = some s) (hx : Exchange D i w s e client s')
    (hkeeps : KeepsPaths D i w e) : s'.Aligned (D.cfg i) := by
  have hf := persists_exchange hs ha hserver hx hkeeps
  rcases hx.served_or_same with rfl | ⟨call, hcall⟩
  · exact fun {_ _ _} => ha
  · exact fun {_ _ _} => aligned_next hs ha hf hcall

/-- One step keeps what the client holds, as long as its session goes on. -/
theorem held_next {o o' : Bool} {e : Event ι} (hw : Held D i (w, o))
    (h : nextOpen D (w, o) e = some (w', o')) (hclock : OneClock D i w e w')
    (hkeeps : KeepsPaths D i w e) (hanew : AsksAnew D i w e) : Held D i (w', o') := by
  have hn : w.next D e = some w' := by
    obtain ⟨w₁, hn, hp⟩ := Option.map_eq_some_iff.mp h
    obtain ⟨rfl, -⟩ := Prod.mk.inj hp
    exact hn
  obtain ⟨s, hs, ha, hheld⟩ := hw.server
  obtain ⟨t, ht, hwf⟩ := hw.leasing.led.server
  obtain rfl := Option.some.inj (hs.symm.trans ht)
  obtain ⟨-, -, -, s', hs', hx⟩ := hw.leasing.led.step hs hn hclock.1
  refine ⟨leasing_next hw.leasing h hclock hanew, s', hs', aligned_exchange hwf ha hs hx hkeeps,
    fun hlive => ?_⟩
  refine OwnsLocks.exchange hwf ha hs (hheld fun hend => hlive ?_) hx hclock hkeeps hlive
  rcases hx.served_or_same with rfl | ⟨call, hcall⟩
  · exact hend
  · exact ended_trace hwf hend (next_trace hwf hcall)

omit [DecidableEq ι] in
/-- By the time the leader has ended the session, the lease has run out by the client's clock. -/
theorem Held.exclusive {p : Service ι × Bool} (hp : Held D i p) (ho : p.2 = true)
    (hlease : p.1.clock < p.1.client.deadline) : Exclusive D i p.1 := by
  obtain ⟨s, hs, -, hheld⟩ := hp.server
  obtain ⟨t, ht, -, hcov⟩ := hp.leasing.server
  obtain ⟨u, hu, hwf⟩ := hp.leasing.led.server
  obtain rfl := Option.some.inj (hs.symm.trans ht)
  obtain rfl := Option.some.inj (hs.symm.trans hu)
  obtain ⟨ptr, session, hreg, -, hend, hterm⟩ := hcov ho
  have hlive : ¬ s.Ended D.address := by
    rintro ⟨ptr', session', hreg', ht⟩
    obtain ⟨-, rfl⟩ := hreg.unique hreg'
    have := hterm ht
    omega
  exact ⟨s, hs, fun p m hm => ⟨hheld hlive p m hm, fun c m' hown =>
    (hheld hlive p m hm).compatible hwf hown⟩⟩

end Step

section Runs

variable {D : Deployment ι} {i : ι}

theorem held_initial (D : Deployment ι) (i : ι) (files : ι → FileTree) (clock : ℤ) :
    Held D i (initial files (fun j => decide (j = i)) clock, false) where
  leasing := leasing_initial D i files clock
  server := ⟨.initial (files i), rfl, aligned_initial _, fun _ p m hm => by
    simp [initial, Client.initial] at hm⟩

/-- In a run under one leader and on a common clock, whatever the client does and whatever the
others, its locks are its own for as long as it takes its lease to run. -/
theorem exclusive_of_lease {files : ι → FileTree} {clock : ℤ} {es : List (Event ι)}
    {p : Service ι × Bool}
    (h : Run.Along (nextOpen D)
      (fun p e p' => OneClock D i p.1 e p'.1 ∧ KeepsPaths D i p.1 e ∧ AsksAnew D i p.1 e)
      (initial files (fun j => decide (j = i)) clock, false) es)
    (hrun : Run.run (nextOpen D) (initial files (fun j => decide (j = i)) clock, false) es =
      some p) (ho : p.2 = true) (hlease : p.1.clock < p.1.client.deadline) :
    Exclusive D i p.1 := by
  refine Held.exclusive ?_ ho hlease
  refine Run.invariant (I := Held D i) ?_ (held_initial D i files clock) h hrun
  exact fun t e t' hI hP hn => held_next hI hn hP.1 hP.2.1 hP.2.2

/-- The client still has what it acquired when its lease has been extended once and its first term
is over. -/
theorem exclusive_of_lease_extended : ∃ p, Run.run (nextOpen sampleDeployment)
      (sampleService, false) [.startSession, .initSession,
        .acquireLock false (ascii ['a']) .exclusive, .tick 11000000000,
        .cluster (.deliver () (.maintainStart 0)), .keepAlive 0 false,
        .tick 13000000000] = some p ∧
    ascii ['a'] ∈ p.1.client.locks ∧ Exclusive sampleDeployment () p.1 := by
  obtain ⟨p, hp, hf⟩ := (Option.any_eq_true _ _).mp (by decide :
    (Run.run (nextOpen sampleDeployment) (sampleService, false) [.startSession, .initSession,
      .acquireLock false (ascii ['a']) .exclusive, .tick 11000000000,
      .cluster (.deliver () (.maintainStart 0)), .keepAlive 0 false, .tick 13000000000]).any
      fun p => p.2 && decide (p.1.clock < p.1.client.deadline) &&
        decide (ascii ['a'] ∈ p.1.client.locks))
  simp only [Bool.and_eq_true, decide_eq_true_eq] at hf
  obtain ⟨⟨ho, hlease⟩, hlock⟩ := hf
  refine ⟨p, hp, hlock, exclusive_of_lease ?_ hp ho hlease⟩
  intro p₁ h₁
  obtain rfl := Option.some.inj h₁
  refine ⟨⟨⟨⟨by decide, trivial⟩, trivial⟩, fun _ _ => trivial, trivial⟩, fun p₂ h₂ => ?_⟩
  obtain rfl := Option.some.inj h₂
  refine ⟨⟨⟨⟨by decide, trivial⟩, trivial⟩, fun _ _ => trivial, fun s ptr session hs hreg => ?_⟩,
    fun p₃ h₃ => ?_⟩
  · obtain rfl : State.initial (sampleFiles [ascii ['a']]) = s := Option.some.inj hs
    simp [State.Registered, State.initial] at hreg
  obtain rfl := Option.some.inj h₃
  refine ⟨⟨⟨⟨by decide, trivial⟩, trivial⟩, fun _ _ => trivial, trivial⟩, fun p₄ h₄ => ?_⟩
  obtain rfl := Option.some.inj h₄
  refine ⟨⟨⟨⟨by decide, trivial⟩, trivial⟩, fun _ _ => trivial, trivial⟩, fun p₅ h₅ => ?_⟩
  obtain rfl := Option.some.inj h₅
  refine ⟨⟨⟨⟨by decide, trivial⟩, fun _ _ _ => trivial⟩, fun _ _ _ => trivial, trivial⟩,
    fun p₆ h₆ => ?_⟩
  obtain rfl := Option.some.inj h₆
  refine ⟨⟨⟨⟨by decide, rfl⟩, trivial⟩, fun _ _ => trivial, trivial⟩, fun p₇ h₇ => ?_⟩
  obtain rfl := Option.some.inj h₇
  exact ⟨⟨⟨⟨by decide, trivial⟩, trivial⟩, fun _ _ => trivial, trivial⟩, trivial⟩

end Runs

end Service

end LockService
