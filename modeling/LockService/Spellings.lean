import LockService.LiveOwners

/-!
# Paths that name one file

The server's table has a lock for every string, while a path is looked up, read and written at the
file it names: `a` and `./a` have a lock each and one file. So a lock held alone keeps other
clients from the file exactly while nobody is granted a lock of the same file under another path in
a mode the two may not share (`Unaliased`). Only a grant can make such a conflict, since every other
effect takes owners away (`effect_owner`), and a client makes none with itself
(`conflicts_effect`).
-/

namespace LockService

/-- Another client owns a lock of the path's file under another path, and one of the two is to be
alone. -/
def Conflicts (cfg : Config) (s : State) (c path : Str) (mode : LockStatus) : Prop :=
  ∃ (l : LockPtr) (lock : Lock) (d : Str), s.lockHeap[l]? = some lock ∧ d ∈ lock.owners ∧ d ≠ c ∧
    lock.path ≠ path ∧ cfg.fileOf lock.path = cfg.fileOf path ∧
    (mode = .exclusive ∨ lock.status = .exclusive)

/-- No owner of any lock has such a conflict. -/
def Undisputed (cfg : Config) (s : State) : Prop :=
  ∀ (l : LockPtr) lock c, s.lockHeap[l]? = some lock → c ∈ lock.owners →
    ¬ Conflicts cfg s c lock.path lock.status

section Effects

variable {cfg : Config} {s s' : State} {a : Action} {c path : Str} {Q : Action → Prop}

/-- What one client is granted is in no other's way but its own. -/
theorem conflicts_effect (hs : s.WellFormed) (h : Effect cfg s a s')
    (ha : ∀ d p m, a = .grant d p m → d = c) {mode : LockStatus}
    (hx : Conflicts cfg s' c path mode) : Conflicts cfg s c path mode := by
  obtain ⟨l, lock', d, hl, hd, hdc, hne, hfile, hmode⟩ := hx
  rcases effect_owner hs h hl hd with ⟨lock, hlock, hd', hp, hst⟩ | hg
  · exact ⟨l, lock, d, hlock, hd', hdc, hp ▸ hne, hp ▸ hfile, hst ▸ hmode⟩
  · exact absurd (ha _ _ _ hg) hdc

theorem undisputed_effect (hs : s.WellFormed) (hI : Undisputed cfg s) (h : Effect cfg s a s')
    (hg : ∀ c p m, a = .grant c p m → ¬ Conflicts cfg s c p m) : Undisputed cfg s' := by
  intro l lock' c hl hc ⟨k, lock'', d, hk, hd, hdc, hne, hfile, hmode⟩
  rcases effect_owner hs h hl hc with ⟨lock₁, h₁, hc₁, hp₁, hst₁⟩ | hgc
  · rcases effect_owner hs h hk hd with ⟨lock₂, h₂, hd₂, hp₂, hst₂⟩ | hgd
    · refine hI l lock₁ c h₁ hc₁ ⟨k, lock₂, d, h₂, hd₂, hdc, ?_, ?_, ?_⟩
      · rwa [hp₁, hp₂]
      · rwa [hp₁, hp₂]
      · rwa [hst₁, hst₂]
    · refine hg d _ _ hgd ⟨l, lock₁, c, h₁, hc₁, hdc.symm, ?_, ?_, ?_⟩
      · rw [hp₁]
        exact hne.symm
      · rw [hp₁, hfile]
      · rw [hst₁]
        exact hmode.symm
  · rcases effect_owner hs h hk hd with ⟨lock₂, h₂, hd₂, hp₂, hst₂⟩ | hgd
    · refine hg c _ _ hgc ⟨k, lock₂, d, h₂, hd₂, hdc, ?_, ?_, ?_⟩
      · rwa [hp₂]
      · rwa [hp₂]
      · rwa [hst₂]
    · rw [hgc] at hgd
      exact hdc (Action.grant.inj hgd).1.symm

/-- A trace that grants only to one client, and nothing that conflicts. -/
theorem undisputed_trace (hs : s.WellFormed) (hI : Undisputed cfg s) (h : Trace cfg Q s s')
    (hg : ∀ d p m, Q (.grant d p m) → d = c ∧ ¬ Conflicts cfg s c p m) : Undisputed cfg s' := by
  refine (h.invariant (I := fun t => Undisputed cfg t ∧
    ∀ d p m, Q (.grant d p m) → d = c ∧ ¬ Conflicts cfg t c p m)
    (fun t a t' ht hI hQ he => ⟨?_, fun d p m hQ' => ?_⟩) hs ⟨hI, hg⟩).2.1
  · refine undisputed_effect ht hI.1 he ?_
    rintro d p m rfl
    obtain ⟨rfl, hno⟩ := hI.2 d p m hQ
    exact hno
  · obtain ⟨hd, hno⟩ := hI.2 d p m hQ'
    refine ⟨hd, fun hx => hno (conflicts_effect ht he ?_ hx)⟩
    rintro d' p' m' rfl
    exact (hI.2 d' p' m' hQ).1

theorem conflicts_trace (hs : s.WellFormed) (h : Trace cfg Q s s')
    (ha : ∀ d p m, Q (.grant d p m) → d = c) {mode : LockStatus}
    (hx : Conflicts cfg s' c path mode) : Conflicts cfg s c path mode := by
  refine (h.invariant (I := fun t => Conflicts cfg t c path mode → Conflicts cfg s c path mode)
    (fun t a t' ht hI hQ he hx => hI (conflicts_effect ht he ?_ hx)) hs id).2 hx
  rintro d p m rfl
  exact ha d p m hQ

end Effects

section Claims

variable {cfg : Config} {s s' t : State} {c p : Str} {ptr : SessionPtr} {session : Session}

/-- A claim of a path, whatever came of it, leaves what the server and the client's session have at
other paths the session is not in. -/
structure Claimed (s : State) (c p : Str) (s' : State) : Prop where
  files : s'.files = s.files
  has : ∀ q, q ≠ p → (∃ l, s'.Has c q l) → ∃ l, s.Has c q l
  lockOf : ∀ q, q ≠ p → ¬ (∃ l, s.Has c q l) → s'.lockOf q = s.lockOf q

theorem Claimed.available (h : Claimed s c p t) {q : Str} {m : LockStatus} (hq : q ≠ p)
    (ha : Acquirable cfg t q m ∨ ∃ l, t.Has c q l) :
    Acquirable cfg s q m ∨ ∃ l, s.Has c q l := by
  by_cases hn : ∃ l, s.Has c q l
  · exact .inr hn
  · rcases ha with ha | hx
    · exact .inl ((acquirable_congr h.files (h.lockOf q hq hn) m).mp ha)
    · exact absurd (h.has q hq hx) hn

theorem Granted.claimed {m : LockStatus} (h : s.Registered c ptr session)
    (hg : Granted s c ptr session p m s') : Claimed s c p s' where
  files := hg.files
  has q hq := by
    rintro ⟨l, ptr', session', hr, hl⟩
    obtain ⟨k, lock, locks, -, -, -, -, hsession, hlocks, -⟩ := hg.held
    obtain rfl : ptr' = ptr := by
      have := hr.1
      rw [hg.sessions, h.1] at this
      exact (Option.some.inj this).symm
    obtain rfl := Option.some.inj (hsession.symm.trans hr.2)
    refine ⟨l, ptr', session, h, ?_⟩
    rwa [hlocks, if_neg hq] at hl
  lockOf q hq _ := hg.lockOf q hq

theorem endSession_claimed (hs : s.WellFormed) (h : s.Registered c ptr session)
    (hs' : (endSession cfg s ptr).survivor = some s') (p : Str) : Claimed s c p s' := by
  obtain ⟨-, hr⟩ := endSession_survivor hs h hs'
  refine ⟨hr.files, fun q _ hx => ?_, fun q _ hn => ?_⟩
  · obtain ⟨l, ptr', session', hr', hl⟩ := hx
    obtain ⟨locks, hsession, hlocks⟩ := hr.session
    obtain rfl : ptr' = ptr := by
      have := hr'.1
      rw [hr.sessions, (registered_terminate h).1] at this
      exact (Option.some.inj this).symm
    obtain rfl := Option.some.inj (hsession.symm.trans hr'.2)
    rw [hlocks] at hl
    split_ifs at hl
    exact ⟨l, ptr', session, h, hl⟩
  · rw [hr.lockOf_ended hs h, if_neg]
    intro hmem
    obtain ⟨l, hl⟩ := mem_iff_exists_getElem?.mp (mem_reached.mp hmem).1
    exact hn ⟨l, ptr, session, h, hl⟩

theorem endSession_undisputed (hs : s.WellFormed) (hI : Undisputed cfg s)
    (hc : s.sessions[c]? = some ptr) : Undisputed cfg (endSession cfg s ptr).2 :=
  undisputed_trace (c := c) hs hI (endSession_trace hs hc) (by simp [Action.Ends])

/-- The loop of `handle_jeopardy`, where no claim is in the way of another client. -/
theorem claimLocks_undisputed :
    ∀ (locks : List (Str × LockStatus)) {s : State} {ptr : SessionPtr} {session : Session},
      s.WellFormed → Undisputed cfg s → s.Registered c ptr session →
      (locks.map Prod.fst).Nodup →
      (∀ p m, (p, m) ∈ locks → Acquirable cfg s p m ∨ (∃ l, s.Has c p l) →
        ¬ Conflicts cfg s c p m) → Undisputed cfg (claimLocks cfg c locks s).2
  | [], s, _, _, _, hI, _, _, _ => hI
  | (p, m) :: locks, s, ptr, session, hs, hI, h, hnd, hno => by
    rw [List.map_cons, List.nodup_cons] at hnd
    have hne : ∀ q m', (q, m') ∈ locks → q ≠ p := by
      rintro q m' hmem rfl
      exact hnd.1 (List.mem_map.mpr ⟨(q, m'), hmem, rfl⟩)
    rw [claimLocks]
    by_cases ha : Acquirable cfg s p m
    · obtain ⟨t, ht, hg⟩ := acquireLock_spec hs h ha
      obtain ⟨locks', ht'⟩ := hg.registered h
      have htrace := acquireLock_trace cfg c p hs m
      rw [ht] at htrace
      have hIt : Undisputed cfg t := undisputed_trace (c := c) hs hI htrace (by
        rintro d p' m' (hd | hd) <;> cases hd
        exact ⟨rfl, hno p m (List.mem_cons_self ..) (.inl ha)⟩)
      rw [ht, Result.andThen_ok, if_pos rfl]
      refine claimLocks_undisputed locks (htrace.wellFormed hs) hIt ht' hnd.2
        fun q m' hmem hor hx => ?_
      refine hno q m' (List.mem_cons_of_mem _ hmem)
        ((hg.claimed h).available (hne q m' hmem) hor) (conflicts_trace hs htrace ?_ hx)
      rintro d p' m'' (hd | hd) <;> cases hd
      rfl
    · have hr := acquireLock_refused (c := c) hs (.inr ha)
      rcases hacq : acquireLock cfg s c p m with ⟨f | status, t⟩
      · rw [hacq] at hr
        obtain rfl : t = s := hr.2
        exact hI
      obtain rfl : t = s := by
        rw [hacq] at hr
        exact hr.2
      rw [hacq] at hr
      rw [Result.andThen_ok, if_neg fun hok => hr.1 (by rw [hok]), h.1]
      dsimp only
      have hend := endSession_undisputed hs hI h.1
      have htrace := @endSession_trace cfg _ _ _ hs h.1
      rcases he : endSession cfg t ptr with ⟨f | u, t'⟩ <;> rw [he] at hend htrace
      · exact hend
      have ht' := trace_registered htrace h.1
      obtain ⟨session', hsession', -⟩ := (htrace.wellFormed hs).registered ht'
      refine claimLocks_undisputed locks (htrace.wellFormed hs) hend ⟨ht', hsession'⟩ hnd.2
        fun q m' hmem hor hx => ?_
      refine hno q m' (List.mem_cons_of_mem _ hmem)
        ((endSession_claimed hs h (by rw [he]; rfl) p).available (hne q m' hmem) hor)
        (conflicts_trace hs htrace (by simp [Action.Ends]) hx)

theorem handleJeopardy_undisputed (hs : s.WellFormed) (hI : Undisputed cfg s) (hlive : ¬ s.Live c)
    {locks : Claims} (now : ℤ)
    (hno : ∀ p m, (p, m) ∈ locks.entries → Acquirable cfg s p m ∨ (∃ l, s.Has c p l) →
      ¬ Conflicts cfg s c p m) : Undisputed cfg (handleJeopardy cfg s c locks now).2 := by
  have hstart : Trace cfg (· = .start c) s (createSession s c now).2 := createSession_trace hs now
  rw [createSession_start hs hlive] at hstart
  have hs₁ := hs.start c now
  have hI₁ : Undisputed cfg (s.start c now) := undisputed_trace (c := c) hs hI hstart (by simp)
  have hclaims : Undisputed cfg (claimLocks cfg c locks.entries (s.start c now)).2 := by
    rcases hs.registered_or_none c with hn | ⟨ptr, session, h⟩
    · refine claimLocks_undisputed _ hs₁ hI₁ (registered_start_new hn now) locks.nodup
        fun p m hmem hor hx => hno p m hmem ?_ (conflicts_trace hs hstart (by simp) hx)
      refine hor.imp acquirable_start.mp fun hl => ?_
      obtain ⟨l, ptr, session, hr, hl⟩ := hl
      obtain ⟨-, rfl⟩ := hr.unique (registered_start_new hn now)
      simp at hl
    · refine claimLocks_undisputed _ hs₁ hI₁ (registered_start_old h now) locks.nodup
        fun p m hmem hor hx => hno p m hmem ?_ (conflicts_trace hs hstart (by simp) hx)
      refine hor.imp acquirable_start.mp fun hl => ?_
      obtain ⟨l, ptr', session', hr, hl⟩ := hl
      obtain ⟨rfl, rfl⟩ := hr.unique (registered_start_old h now)
      exact ⟨l, ptr', session', h, hl⟩
  have htrace : Trace cfg (Action.Claims c locks.entries) (s.start c now) _ :=
    claimLocks_trace locks.entries hs₁
  rw [handleJeopardy, createSession_start hs hlive, Result.andThen_ok, if_neg (by simp)]
  rcases hr : claimLocks cfg c locks.entries (s.start c now) with ⟨f | u, t⟩ <;>
    rw [hr] at hclaims htrace
  · exact hclaims
  have ht : t.WellFormed := htrace.wellFormed hs₁
  rw [Result.andThen_ok]
  refine undisputed_trace (c := c) (Q := (· = .note)) ht hclaims ?_ (by simp)
  exact andThen_trace ht (maintainStart_trace ht _) fun _ _ _ _ => attemptExtendSession_trace

end Claims

/-- Where a lock is granted, it conflicts with no other client's; and where claims are made, none
of them does whose path can be acquired, or is in the session already. -/
def Unaliased (cfg : Config) (s : State) : Event → Prop
  | .acquireLock c p m => c ∈ s.sessions → Acquirable cfg s p m → ¬ Conflicts cfg s c p m
  | .keepAlive leader isCancelled c locks _ => Rejoins s leader isCancelled c →
      ∀ p m, (p, m) ∈ locks.entries → Acquirable cfg s p m ∨ (∃ l, s.Has c p l) →
        ¬ Conflicts cfg s c p m
  | _ => True

section Runs

variable {cfg : Config} {s s' : State} {c p q : Str}

theorem undisputed_next {e : Event} (hs : s.WellFormed) (hI : Undisputed cfg s)
    (hu : Unaliased cfg s e) (h : next cfg s e = some s') : Undisputed cfg s' := by
  have htrace := next_trace hs h
  cases e with
  | acquireLock c p m =>
    rw [← survivor_eq h]
    rcases acquireLock_cases cfg c p hs m with hr | ⟨ptr, session, hreg, ha⟩
    · rwa [hr.2]
    · refine undisputed_trace (c := c) hs hI (acquireLock_trace cfg c p hs m) ?_
      rintro d p' m' (hd | hd) <;> cases hd
      exact ⟨rfl, hu (mem_iff_exists_getElem?.mpr ⟨ptr, hreg.1⟩) ha⟩
  | keepAlive leader isCancelled c locks now =>
    rw [← survivor_eq h]
    rcases @keepAlive_cases cfg _ c hs leader isCancelled locks now with
      hnote | ⟨t, hrejoin, hnote, hext, hlive, he⟩
    · exact undisputed_trace (c := c) hs hI hnote (by simp)
    have hIt : Undisputed cfg t := undisputed_trace (c := c) hs hI hnote (by simp)
    have hend := handleJeopardy_undisputed (hnote.wellFormed hs) hIt hlive now
      fun p m hmem hor hx => hu hrejoin p m hmem (hor.imp
        (acquirable_congr hext.files (congrFun hext.lockOf p) m).mp
        fun ⟨l, hl⟩ => ⟨l, hext.has c p l hl⟩) (conflicts_trace hs hnote (by simp) hx)
    rw [he]
    rcases hr : handleJeopardy cfg t c locks now with ⟨f | lease, t'⟩ <;> rw [hr] at hend
    · exact hend
    · exact hend
  | closeSession c =>
    exact undisputed_trace (c := c) hs hI htrace (by simp [Permits, Action.Ends])
  | maintainLoop i now now' =>
    refine undisputed_trace (c := []) hs hI htrace ?_
    rintro d p m (hd | ⟨thread, c, -, -, hd | ⟨q, hd⟩⟩) <;> cases hd
  | initSession | openLock | deleteLock | releaseLock | read | write | maintainStart
  | replicate => exact undisputed_trace (c := []) hs hI htrace (by simp [Permits])

theorem read_owned {content : Str} (hs : s.WellFormed)
    (h : (read cfg s c p).1 = .ok (.ok, content)) :
    ∃ ptr session l lock, s.Registered c ptr session ∧
      ownedLock s session c p = .ok (l, lock) := by
  unfold read at h
  rcases hs.registered_or_none c with hn | ⟨ptr, session, hreg⟩
  · rw [withSession_none hn] at h
    simp [noSession] at h
  rw [withSession_registered hreg] at h
  split at h
  · simp at h
  rcases ho : ownedLock s session c p with m | ⟨l, lock⟩
  · simp [ho] at h
  · exact ⟨ptr, session, l, lock, hreg, ho⟩

/-- A client that owns a path alone keeps every other client from another path. -/
structure Guards (cfg : Config) (s : State) (c q : Str) : Prop where
  unowned : ∀ d, d ≠ c → ∀ lock, s.lockOf q = some lock → d ∉ lock.owners
  read : ∀ d, d ≠ c → ∀ content, (read cfg s d q).1 ≠ .ok (.ok, content)
  write : ∀ d, d ≠ c → ∀ content answer, (write cfg s d q content answer).1 ≠ .ok .ok

theorem Undisputed.guards (hs : s.WellFormed) (hI : Undisputed cfg s) (hne : p ≠ q)
    (hfile : cfg.fileOf p = cfg.fileOf q) (hown : Owns s c p .exclusive) : Guards cfg s c q := by
  obtain ⟨lock, hlock, hst, hc⟩ := hown
  obtain ⟨l, hl, hlock⟩ := Option.bind_eq_some_iff.mp hlock
  obtain ⟨lock₁, h₁, hpath⟩ := hs.lockTable hl
  obtain rfl := Option.some.inj (hlock.symm.trans h₁)
  have hno : ∀ (k : LockPtr) lock' d, s.lockHeap[k]? = some lock' → lock'.path = q →
      d ∈ lock'.owners → d = c := by
    intro k lock' d hk hq hd
    by_contra hdc
    refine hI l lock c hlock hc ⟨k, lock', d, hk, hd, hdc, ?_, ?_, .inl hst⟩
    · rw [hq, hpath]
      exact hne.symm
    · rw [hq, hpath, hfile]
  have hsession : ∀ d ptr session k lock', s.Registered d ptr session →
      ownedLock s session d q = .ok (k, lock') → d = c := by
    intro d ptr session k lock' hr ho
    obtain ⟨hk, hlock', ho⟩ := ownedLock_eq_ok.mp ho
    exact hno k lock' d hlock' (hs.path_eq hr.2 hk hlock')
      ((hs.consistent hlock').owner_iff.mp ho)
  refine ⟨fun d hdc lock' hlock' hd => ?_, fun d hdc content hok => ?_,
    fun d hdc content answer hok => ?_⟩
  · obtain ⟨k, hk, hlock'⟩ := Option.bind_eq_some_iff.mp hlock'
    obtain ⟨lock₂, h₂, hq⟩ := hs.lockTable hk
    obtain rfl := Option.some.inj (hlock'.symm.trans h₂)
    exact hdc (hno k lock' d hlock' hq hd)
  · obtain ⟨ptr, session, k, lock', hr, ho⟩ := read_owned hs hok
    exact hdc (hsession d ptr session k lock' hr ho)
  · rcases write_cases cfg d q hs content answer with
      hr | ⟨ptr, session, k, lock', files, hr, -, ho, -⟩
    · exact hr.1 hok
    · exact hdc (hsession d ptr session k lock' hr ho)

theorem guards_run {files : FileTree} {es : List Event}
    (hu : Run.Along (next cfg) (fun s e _ => Unaliased cfg s e) (.initial files) es)
    (h : Run.run (next cfg) (.initial files) es = some s) (hne : p ≠ q)
    (hfile : cfg.fileOf p = cfg.fileOf q) (hown : Owns s c p .exclusive) : Guards cfg s c q := by
  have hinv := Run.invariant (I := fun t => t.WellFormed ∧ Undisputed cfg t)
    (fun t e t' ht hu hn => ⟨wellFormed_next ht.1 hn, undisputed_next ht.1 ht.2 hu hn⟩)
    ⟨.initial files, fun l lock c hl => by simp [State.initial] at hl⟩ hu h
  exact hinv.2.guards hinv.1 hne hfile hown

theorem guards_run_one_holder : ∃ s, Run.run (next sampleConfig)
    (.initial (sampleFiles [ascii ['a']]))
    [.initSession true [1] 0, .acquireLock [1] (ascii ['a']) .exclusive] = some s ∧
    Guards sampleConfig s [1] (ascii ['.', '/', 'a']) := by
  obtain ⟨s, hs, hown⟩ := (Option.any_eq_true _ _).mp (by decide : (Run.run (next sampleConfig)
    (.initial (sampleFiles [ascii ['a']]))
    [.initSession true [1] 0, .acquireLock [1] (ascii ['a']) .exclusive]).any fun s =>
      (s.lockOf (ascii ['a'])).any fun lock => lock.status = .exclusive ∧ [1] ∈ lock.owners)
  obtain ⟨lock, hlock, hst⟩ := (Option.any_eq_true _ _).mp hown
  have hu : Run.Along (next sampleConfig) (fun s e _ => Unaliased sampleConfig s e)
      (.initial (sampleFiles [ascii ['a']]))
      [.initSession true [1] 0, .acquireLock [1] (ascii ['a']) .exclusive] := by
    refine fun s₁ h₁ => ⟨trivial, fun _ _ => ⟨fun _ _ => ?_, trivial⟩⟩
    rintro ⟨l, lock, d, hl, -⟩
    simp [next_initSession h₁, State.start, State.initial] at hl
  exact ⟨s, hs, guards_run hu hs (by decide) (by decide) ⟨lock, hlock, of_decide_eq_true hst⟩⟩

/-- `a` and `./a` are held alone by two clients. -/
theorem not_guards_two_spellings : ∃ s p q c, Reachable sampleConfig s ∧ p ≠ q ∧
    sampleConfig.fileOf p = sampleConfig.fileOf q ∧ Owns s c p .exclusive ∧
    ¬ Guards sampleConfig s c q := by
  obtain ⟨s, hs, hown⟩ := (Option.any_eq_true _ _).mp (by decide : (Run.run (next sampleConfig)
    (.initial (sampleFiles [ascii ['a']]))
    [.initSession true [1] 0, .initSession true [2] 0,
      .acquireLock [1] (ascii ['a']) .exclusive,
      .acquireLock [2] (ascii ['.', '/', 'a']) .exclusive]).any fun s =>
        (s.lockOf (ascii ['a'])).any (fun lock => lock.status = .exclusive ∧ [1] ∈ lock.owners) ∧
        (s.lockOf (ascii ['.', '/', 'a'])).any fun lock => [2] ∈ lock.owners)
  obtain ⟨h₁, h₂⟩ := of_decide_eq_true hown
  obtain ⟨lock, hlock, hst⟩ := (Option.any_eq_true _ _).mp h₁
  obtain ⟨lock', hlock', hc⟩ := (Option.any_eq_true _ _).mp h₂
  exact ⟨s, ascii ['a'], ascii ['.', '/', 'a'], [1], ⟨_, _, hs⟩, by decide, by decide,
    ⟨lock, hlock, of_decide_eq_true hst⟩,
    fun hg => hg.unowned [2] (by decide) lock' hlock' (of_decide_eq_true hc)⟩

end Runs

end LockService
