import LockService.LockTable

/-!
# A cluster of servers

Each server has tables of its own, which nothing carries to another: Raft replicates only files. A
client may turn to any server, since `acquire_lock` does not ask who leads, and any number of
changes of leader may come in between. What one server granted in exclusive mode it grants to
nobody else until the client releases it or its session there ends (`exclusive_next`); another
server grants it as soon as it is asked.
-/

namespace LockService

/-- The event as it is at a server that takes itself for the leader, or does not. -/
def Event.under (leader : Bool) : Event → Event
  | .initSession _ clientId now => .initSession leader clientId now
  | .keepAlive _ isCancelled clientId locks now =>
    .keepAlive leader isCancelled clientId locks now
  | e => e

/-- The servers that still run, and which of them take themselves for the leader. -/
structure Cluster (ι : Type*) where
  servers : ι → Option State
  leads : ι → Bool

namespace Cluster

inductive Event (ι : Type*) where
  | elect (leads : ι → Bool)
  | deliver (server : ι) (event : LockService.Event)

variable {ι : Type*}

/-- The client's session at a server is not over. -/
def LiveAt (C : Cluster ι) (i : ι) (c : Str) : Prop := ∃ s, C.servers i = some s ∧ s.Live c

/-- Nor has its lease run out at a time, in nanoseconds. -/
def LeasedAt (C : Cluster ι) (i : ι) (c : Str) (now : ℤ) : Prop :=
  ∃ s ptr session, C.servers i = some s ∧ s.Registered c ptr session ∧
    session.terminated = false ∧ now < session.startTime + session.leaseLength * 1000000

theorem leasedAt_iff {C : Cluster ι} {i : ι} {c : Str} {now : ℤ} :
    (((C.servers i).bind fun s => s.sessions[c]?.bind fun ptr => s.sessionHeap[ptr]?).any
      fun session => session.terminated = false ∧
        now < session.startTime + session.leaseLength * 1000000) = true ↔ C.LeasedAt i c now := by
  simp only [Option.any_eq_true, Option.bind_eq_some_iff, decide_eq_true_eq]
  constructor
  · rintro ⟨session, ⟨s, hs, ptr, hptr, hsession⟩, h⟩
    exact ⟨s, ptr, session, hs, ⟨hptr, hsession⟩, h⟩
  · rintro ⟨s, ptr, session, hs, ⟨hptr, hsession⟩, h⟩
    exact ⟨session, ⟨s, hs, ptr, hptr, hsession⟩, h⟩

instance (C : Cluster ι) (i : ι) (c : Str) (now : ℤ) : Decidable (C.LeasedAt i c now) :=
  decidable_of_iff _ leasedAt_iff

theorem LeasedAt.liveAt {C : Cluster ι} {i : ι} {c : Str} {now : ℤ} (h : C.LeasedAt i c now) :
    C.LiveAt i c := by
  obtain ⟨s, ptr, session, hs, hr, ht, -⟩ := h
  exact ⟨s, hs, ptr, session, hr, ht⟩

variable [DecidableEq ι]

def next (cfg : ι → Config) (C : Cluster ι) : Event ι → Option (Cluster ι)
  | .elect leads => some { C with leads }
  | .deliver i e => some { C with
      servers := Function.update C.servers i
        ((C.servers i).bind fun s => LockService.next (cfg i) s (e.under (C.leads i))) }

/-- At every server a file that exists keeps existing. -/
def KeepsFiles (cfg : ι → Config) (C : Cluster ι) (_ : Event ι) (C' : Cluster ι) : Prop :=
  ∀ i s s', C.servers i = some s → C'.servers i = some s' → Persists (cfg i) s.files s'.files

/-- The servers start with whatever files they have and no locks. -/
def Reachable (cfg : ι → Config) (C : Cluster ι) : Prop :=
  ∃ (files : ι → FileTree) (leads : ι → Bool) (es : List (Event ι)),
    Run.Along (next cfg) (KeepsFiles cfg) ⟨fun i => some (.initial (files i)), leads⟩ es ∧
    Run.run (next cfg) ⟨fun i => some (.initial (files i)), leads⟩ es = some C

/-- An `acquire_lock` at a server is answered OK. -/
def Acquires (cfg : ι → Config) (C : Cluster ι) (i : ι) (c path : Str) (mode : LockStatus) : Prop :=
  ∃ s, C.servers i = some s ∧ (acquireLock (cfg i) s c path mode).1 = .ok .ok

instance (cfg : ι → Config) (C : Cluster ι) (i : ι) (c path : Str) (mode : LockStatus) :
    Decidable (C.Acquires cfg i c path mode) :=
  decidable_of_iff ((C.servers i).any fun s => (acquireLock (cfg i) s c path mode).1 = .ok .ok)
    (by simp [Acquires, Option.any_eq_true])

/-- A `release_lock` at a server is answered OK. -/
def Releases (cfg : ι → Config) (C : Cluster ι) (i : ι) (c path : Str) : Prop :=
  ∃ s, C.servers i = some s ∧ (releaseLock (cfg i) s c path).1 = .ok .ok

/-- The client acquired the path alone at a server, and has not released it there since. -/
inductive Held (cfg : ι → Config) (i : ι) (c path : Str) : Cluster ι → Prop where
  | acquired {C C' : Cluster ι} (hC : C.Reachable cfg) (hok : C.Acquires cfg i c path .exclusive)
    (h : C.next cfg (.deliver i (.acquireLock c path .exclusive)) = some C') :
    Held cfg i c path C'
  | step {C C' : Cluster ι} {e : Event ι} (hC : Held cfg i c path C) (h : C.next cfg e = some C')
    (hf : C.KeepsFiles cfg e C')
    (hr : e = .deliver i (.releaseLock c path) → ¬ C.Releases cfg i c path) :
    Held cfg i c path C'

end Cluster

section Server

variable {cfg : Config} {s s' : State} {c path : Str} {Q : Action → Prop}

theorem exclusive_effect {a : Action} (hs : s.WellFormed) (ha : s.Aligned cfg)
    (h : Effect cfg s a s') (hx : s.table path = .exclusive c) (hne : a ≠ .release c path) :
    s'.table path = .exclusive c := by
  have hm := effect_moves hs ha h
  cases a with
  | grant => exact RWLock.Table.exclusive_of_acquire hx hm
  | release d p =>
    refine RWLock.Table.exclusive_of_release hx hm fun he => hne ?_
    rw [he.1, he.2]
  | _ => exact (congrFun hm path).trans hx

theorem exclusive_trace {files : FileTree} (hQ : ∀ f, Q (.replicate f) → f = files)
    (hr : ¬ Q (.release c path)) (hf : Persists cfg s.files files) (hs : s.WellFormed)
    (ha : s.Aligned cfg) (h : Trace cfg Q s s') (hx : s.table path = .exclusive c) :
    s'.table path = .exclusive c := by
  induction h with
  | refl => exact hx
  | tail h he ih =>
    obtain ⟨a, hQa, he⟩ := he
    obtain ⟨ht, hta, -⟩ := aligned_trace hQ hf hs ha h
    exact exclusive_effect ht hta he ih fun hne => hr (hne ▸ hQa)

/-- The tables do not move where only threads and channels do. -/
theorem exclusive_note (hs : s.WellFormed) (ha : s.Aligned cfg) (h : Trace cfg (· = .note) s s')
    (hx : s.table path = .exclusive c) : s'.table path = .exclusive c :=
  exclusive_trace (by simp) (by simp) (show Persists cfg s.files s.files from fun _ => id)
    hs ha h hx

/-- A lock held alone stays so, unless its owner releases it or the owner's session ends. -/
theorem exclusive_next {e : Event} (hs : s.WellFormed) (ha : s.Aligned cfg)
    (hf : Persists cfg s.files s'.files) (h : next cfg s e = some s')
    (hne : e = .releaseLock c path → (releaseLock cfg s c path).1 ≠ .ok .ok)
    (hlive : s.Live c) (hlive' : s'.Live c) (hx : s.table path = .exclusive c) :
    s'.table path = .exclusive c := by
  have htrace := next_trace hs h
  by_cases hp : Permits s s' (.release c path) e
  · cases e with
    | closeSession d =>
      obtain rfl : c = d := by simpa [Permits, Action.Ends] using hp
      exact absurd hlive' (survivor_eq h ▸ closeSession_ended hs hlive).not_live
    | releaseLock d p =>
      obtain ⟨rfl, rfl⟩ : c = d ∧ path = p := by simpa [Permits] using hp
      have hown : c ∈ (s.table path).owners := by simp [hx, RWLock.owners]
      exact absurd ((releaseLock_ok_iff hs ha).mpr hown) (hne rfl)
    | keepAlive leader isCancelled d locks now =>
      obtain rfl : c = d := by simpa [Permits, Action.Claims, Action.Ends] using hp
      exact exclusive_note hs ha (survivor_eq h ▸ keepAlive_live_trace hs hlive _ _ _ _) hx
    | maintainLoop i now now' =>
      rcases maintainLoop_cases cfg hs i now now' with hnote | ⟨thread, d, hi, hd, hend⟩
      · exact exclusive_note hs ha (survivor_eq h ▸ hnote) hx
      · obtain ⟨thread', d', hi', hd', hends⟩ : ∃ thread d, s.threads[i]? = some thread ∧
            s.sessions[d]? = some thread.session ∧ Action.Ends d (.release c path) := by
          simpa [Permits] using hp
        obtain rfl := Option.some.inj (hi.symm.trans hi')
        obtain rfl := hs.eq_of_ptr hd hd'
        obtain rfl : c = d := by simpa [Action.Ends] using hends
        exact absurd hlive' (survivor_eq h ▸ hend).not_live
    | _ => simp [Permits] at hp
  · exact exclusive_trace (fun _ => permits_replicate) hp hf hs ha htrace hx

end Server

namespace Cluster

variable {ι : Type*} [DecidableEq ι] {cfg : ι → Config} {C C' : Cluster ι} {e : Event ι} {i j : ι}
  {s s' : State} {c path : Str}

/-- A server that runs after a step has taken the event, or it was not asked. -/
theorem next_server (h : C.next cfg e = some C') (hj : C'.servers j = some s') :
    C.servers j = some s' ∨
      ∃ s e', e = .deliver j e' ∧ C.servers j = some s ∧
        LockService.next (cfg j) s (e'.under (C.leads j)) = some s' := by
  cases e with
  | elect leads =>
    obtain rfl := Option.some.inj h
    exact .inl hj
  | deliver i e' =>
    obtain rfl := Option.some.inj h
    simp only [Function.update_apply] at hj
    split_ifs at hj with hji
    · subst hji
      obtain ⟨s, hs, hn⟩ := Option.bind_eq_some_iff.mp hj
      exact .inr ⟨s, e', rfl, hs, hn⟩
    · exact .inl hj

/-- Every server that runs has its tables in order. -/
def Sound (cfg : ι → Config) (C : Cluster ι) : Prop :=
  ∀ i s, C.servers i = some s → s.WellFormed ∧ s.Aligned (cfg i)

theorem sound_next (hC : C.Sound cfg) (h : C.next cfg e = some C') (hf : C.KeepsFiles cfg e C') :
    C'.Sound cfg := by
  intro j s' hj
  rcases next_server h hj with hs | ⟨s, e', rfl, hs, hn⟩
  · exact hC j s' hs
  · obtain ⟨hwf, ha⟩ := hC j s hs
    exact ⟨wellFormed_next hwf hn, aligned_next hwf ha (hf j s s' hs hj) hn⟩

theorem Reachable.sound (h : C.Reachable cfg) : C.Sound cfg := by
  obtain ⟨files, leads, es, hk, h⟩ := h
  refine Run.invariant (fun C e C' hC hf hn => sound_next hC hn hf) ?_ hk h
  intro i s hs
  obtain rfl := Option.some.inj hs
  exact ⟨.initial _, fun {l lock c} h => by simp [State.initial] at h⟩

/-- A step that touches no files keeps them. -/
theorem keepsFiles_deliver {e' : LockService.Event} (hC : C.Sound cfg)
    (he : e'.touchesFiles = false) (h : C.next cfg (.deliver i e') = some C') :
    C.KeepsFiles cfg (.deliver i e') C' := by
  intro j s s' hs hs' p hp
  rcases next_server h hs' with hj | ⟨s₁, e₁, he₁, hj, hn⟩
  · rwa [← Option.some.inj (hs.symm.trans hj)]
  · obtain rfl := Option.some.inj (hs.symm.trans hj)
    obtain ⟨rfl, rfl⟩ := Event.deliver.inj he₁
    rwa [files_next (hC _ _ hs).1 (by cases e' <;> simp_all [LockService.Event.touchesFiles,
      LockService.Event.under]) hn]

/-- What the client holds at the server is its own, unless its session there is over. -/
structure Holds (cfg : ι → Config) (i : ι) (c path : Str) (C : Cluster ι) : Prop where
  sound : C.Sound cfg
  registered : ∀ s, C.servers i = some s → c ∈ s.sessions
  exclusive : ∀ s, C.servers i = some s → s.Live c → s.table path = .exclusive c

theorem holds_of_acquired (hC : C.Sound cfg) (hok : C.Acquires cfg i c path .exclusive)
    (h : C.next cfg (.deliver i (.acquireLock c path .exclusive)) = some C') :
    Holds cfg i c path C' := by
  have hC' := sound_next hC h (keepsFiles_deliver hC rfl h)
  obtain ⟨s, hs, hok⟩ := hok
  obtain ⟨hwf, ha⟩ := hC i s hs
  have hserver : ∀ s', C'.servers i = some s' →
      s' = (acquireLock (cfg i) s c path .exclusive).2 := by
    intro s' hs'
    obtain rfl := Option.some.inj h
    simp only [Function.update_self, hs, Option.bind_some] at hs'
    exact (survivor_eq hs').symm
  have hreg : c ∈ s.sessions := (registered_iff hwf).mp ((acquireLock_ok_iff hwf _).mp hok).1
  refine ⟨hC', fun s' hs' => ?_, fun s' hs' _ => ?_⟩
  · obtain ⟨ptr, hptr⟩ := mem_iff_exists_getElem?.mp hreg
    rw [hserver s' hs']
    exact mem_iff_exists_getElem?.mpr
      ⟨ptr, trace_registered (acquireLock_trace (cfg i) c path hwf .exclusive) hptr⟩
  · rcases acquireLock_moves c path hwf ha .exclusive with hr | ⟨-, hm⟩
    · exact absurd hok hr.1
    rw [hserver s' hs']
    obtain ⟨lock, hl, ht⟩ := Option.map_eq_some_iff.mp hm
    rw [← ht, Function.update_self]
    exact RWLock.eq_exclusive_of_acquire hl

theorem holds_next (hC : Holds cfg i c path C) (h : C.next cfg e = some C')
    (hf : C.KeepsFiles cfg e C')
    (hr : e = .deliver i (.releaseLock c path) → ¬ C.Releases cfg i c path) :
    Holds cfg i c path C' := by
  refine ⟨sound_next hC.sound h hf, fun s' hs' => ?_, fun s' hs' hlive' => ?_⟩
  · rcases next_server h hs' with hs | ⟨s, e', rfl, hs, hn⟩
    · exact hC.registered s' hs
    · obtain ⟨ptr, hptr⟩ := mem_iff_exists_getElem?.mp (hC.registered s hs)
      exact mem_iff_exists_getElem?.mpr
        ⟨ptr, trace_registered (next_trace (hC.sound i s hs).1 hn) hptr⟩
  · rcases next_server h hs' with hs | ⟨s, e', rfl, hs, hn⟩
    · exact hC.exclusive s' hs hlive'
    · obtain ⟨hwf, ha⟩ := hC.sound i s hs
      have hlive := live_of_trace hwf (hC.registered s hs) (next_trace hwf hn) hlive'
      refine exclusive_next hwf ha (hf i s s' hs hs') hn (fun he => ?_) hlive hlive'
        (hC.exclusive s hs hlive)
      obtain rfl : e' = .releaseLock c path := by
        cases e' <;> simp_all [LockService.Event.under]
      exact fun hok => hr rfl ⟨s, hs, hok⟩

theorem Held.holds (h : Held cfg i c path C) : Holds cfg i c path C := by
  induction h with
  | acquired hC hok h => exact holds_of_acquired hC.sound hok h
  | step _ h hf hr ih => exact holds_next ih h hf hr

theorem held_exclusive (h : Held cfg i c path C) (hlive : C.LiveAt i c) (d : Str)
    (mode : LockStatus) : ¬ C.Acquires cfg i d path mode := by
  rintro ⟨s, hs, hok⟩
  obtain ⟨s', hs', hl⟩ := hlive
  obtain rfl := Option.some.inj (hs.symm.trans hs')
  obtain ⟨hwf, -⟩ := h.holds.sound i s hs
  have hx := h.holds.exclusive s hs hl
  obtain ⟨-, -, hfree | ⟨⟨cs, hcs, hsh⟩, -⟩⟩ :=
    (acquirable_iff hwf).mp ((acquireLock_ok_iff hwf mode).mp hok).2
  · simp [hx] at hfree
  · simp [hx] at hsh

/-- Two servers with directories of their own. -/
def sampleConfigs (i : Bool) : Config := { sampleConfig with serverId := if i then 1 else 2 }

/-- The file `a` is at both of them, and the first leads. -/
def sampleCluster : Cluster Bool where
  servers i := some (.initial
    (((commitFiles (sampleConfigs i) .empty ⟨.write, ascii ['a'], []⟩ 0).toOption).getD .empty))
  leads i := i

theorem reachable_sampleCluster : sampleCluster.Reachable sampleConfigs :=
  ⟨_, _, [], trivial, rfl⟩

/-- The session of the client `[1]` at the first server. -/
def sampleSession : Cluster Bool :=
  (sampleCluster.next sampleConfigs (.deliver true (.initSession true [1] 0))).getD sampleCluster

theorem reachable_sampleSession : sampleSession.Reachable sampleConfigs :=
  ⟨_, _, [.deliver true (.initSession true [1] 0)],
    fun _ h => ⟨keepsFiles_deliver reachable_sampleCluster.sound rfl h, trivial⟩, rfl⟩

/-- A second client is refused at the server where it has a session. -/
theorem held_exclusive_second_client : ∃ C, Held sampleConfigs true [1] (ascii ['a']) C ∧
    C.LeasedAt true [2] 1000000000 ∧ ¬ C.Acquires sampleConfigs true [2] (ascii ['a']) .shared := by
  have hok : sampleSession.Acquires sampleConfigs true [1] (ascii ['a']) .exclusive := by decide
  have h₁ : Held sampleConfigs true [1] (ascii ['a']) _ :=
    .acquired reachable_sampleSession hok rfl
  have h₂ := h₁.step (e := .deliver true (.initSession true [2] 1000000000)) rfl
    (keepsFiles_deliver h₁.holds.sound rfl rfl) (by simp)
  refine ⟨_, h₂, by decide, held_exclusive h₂ (@LeasedAt.liveAt _ _ _ _ 1000000000 ?_) [2] .shared⟩
  decide

/-- One second into the first client's lease the second server leads, and grants the second client
the path. -/
theorem not_exclusive_across_servers : ∃ C, Held sampleConfigs true [1] (ascii ['a']) C ∧
    C.LeasedAt true [1] 1000000000 ∧
      C.Acquires sampleConfigs false [2] (ascii ['a']) .exclusive := by
  have hok : sampleSession.Acquires sampleConfigs true [1] (ascii ['a']) .exclusive := by decide
  have h₁ : Held sampleConfigs true [1] (ascii ['a']) _ :=
    .acquired reachable_sampleSession hok rfl
  have h₂ := h₁.step (e := .elect fun i => !i) rfl
    (fun i s s' hs hs' p hp => by rwa [← Option.some.inj (hs.symm.trans hs')]) (by simp)
  have h₃ := h₂.step (e := .deliver false (.initSession true [2] 1000000000)) rfl
    (keepsFiles_deliver h₂.holds.sound rfl rfl) (by simp)
  exact ⟨_, h₃, by decide, by decide⟩

end Cluster

end LockService
