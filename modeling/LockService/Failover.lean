import LockService.Jeopardy

/-!
# A new leader rebuilds the lock table from its clients' claims

The tables of a new leader are empty. Each client's first `keep_alive` finds no session and claims
the locks the client held; what the clients held was consistent, so no claim is refused
(`Rebuilt.acquirable`). After any of the calls, in any order, the table is the one held before,
with only the owners who have called (`Rebuilt`), and so after all of them it is that table
(`recovery_rebuilds`). The threads may take turns between the calls, as long as no lease runs out.
-/

namespace LockService

/-- The status of a lock held so. -/
def heldStatus : RWLock Str → LockStatus
  | .free => .free
  | .exclusive _ => .exclusive
  | .shared _ _ => .shared

/-- A client's `keep_alive` after a change of leader. -/
structure Call where
  clientId : Str
  locks : Claims
  now : ℤ

/-- Every client of the table calls once, with the locks it holds there. -/
structure CallsOf (T : RWLock.Table Str Str) (calls : List Call) : Prop where
  once : (calls.map Call.clientId).Nodup
  clients : ∀ c, c ∈ calls.map Call.clientId ↔ ∃ p, c ∈ (T p).owners
  locks : ∀ call ∈ calls, ∀ p m, (p, m) ∈ call.locks.entries ↔
    call.clientId ∈ (T p).owners ∧ m = heldStatus (T p)

/-- A turn of a thread that ends no session. -/
inductive Turn (cfg : Config) (s s' : State) : Prop where
  | start (i : ℕ) (h : maintainStart s i = (.ok (), s'))
  | loop (i : ℕ) (now now' : ℤ)
    (running : ∀ thread session, s.threads[i]? = some thread →
      s.sessionHeap[thread.session]? = some session → timeUntilExpire session now now' ≠ 0)
    (h : maintainLoop cfg s i now now' = (.ok (), s'))

/-- The calls are answered one after the other; in between, the threads take turns. -/
inductive Recovery (cfg : Config) :
    List Call → List (Except Fault (Status × ℤ)) → State → State → Prop where
  | nil (s : State) : Recovery cfg [] [] s s
  | turn {s t s' : State} {calls : List Call} {answers : List (Except Fault (Status × ℤ))}
    (h : Turn cfg s t) (rest : Recovery cfg calls answers t s') : Recovery cfg calls answers s s'
  | call {s t s' : State} {call : Call} {calls : List Call} {answer : Except Fault (Status × ℤ)}
    {answers : List (Except Fault (Status × ℤ))}
    (h : RPC.keepAlive cfg true false s call.clientId call.locks call.now = (answer, t))
    (rest : Recovery cfg calls answers t s') :
    Recovery cfg (call :: calls) (answer :: answers) s s'

/-- The table as far as the clients of a list have claimed it. -/
structure Rebuilt (cfg : Config) (T : RWLock.Table Str Str) (files : FileTree) (P : List Str)
    (s : State) : Prop where
  wellFormed : s.WellFormed
  files_eq : s.files = files
  absent : ∀ p, (∀ c ∈ P, c ∉ (T p).owners) → s.lockOf p = none
  held : ∀ p c, c ∈ P → c ∈ (T p).owners → ∃ lock, s.lockOf p = some lock ∧
    lock.status = heldStatus (T p) ∧ ∀ d, d ∈ lock.owners ↔ d ∈ P ∧ d ∈ (T p).owners
  sessions : ∀ c, c ∈ s.sessions ↔ c ∈ P
  session : ∀ c ptr session, s.Registered c ptr session → session.terminated = false ∧
    ∀ p, p ∈ session.locks ↔ c ∈ (T p).owners

section Rebuilt

variable {cfg : Config} {T : RWLock.Table Str Str} {files : FileTree} {P : List Str} {s s' : State}
  {c : Str}

/-- What a turn of a thread leaves as it is. -/
theorem note_frame (h : Effect cfg s .note s') :
    s'.lockOf = s.lockOf ∧ s'.sessions = s.sessions ∧ s'.files = s.files ∧
      ∀ (ptr : SessionPtr) session', s'.sessionHeap[ptr]? = some session' →
        ∃ session, s.sessionHeap[ptr]? = some session ∧ session'.terminated = session.terminated ∧
          session'.locks = session.locks := by
  cases h with
  | @note ptr₀ session₀ session₁ h hc hl ht =>
    refine ⟨rfl, rfl, rfl, fun ptr session' hp => ?_⟩
    rw [State.setSession, getElem?_store h] at hp
    split_ifs at hp with he
    · exact ⟨session₀, he ▸ h, by rw [← Option.some.inj hp, ht], by rw [← Option.some.inj hp, hl]⟩
    · exact ⟨session', hp, rfl, rfl⟩
  | phase h phase => exact ⟨rfl, rfl, rfl, fun ptr session' hp => ⟨session', hp, rfl, rfl⟩⟩

theorem Rebuilt.note (hr : Rebuilt cfg T files P s) (h : Effect cfg s .note s') :
    Rebuilt cfg T files P s' := by
  obtain ⟨hlock, hses, hfiles, hheap⟩ := note_frame h
  refine ⟨hr.wellFormed.effect h, hfiles.trans hr.files_eq, ?_, ?_, ?_, fun c ptr session' h' => ?_⟩
  · rw [hlock]
    exact hr.absent
  · rw [hlock]
    exact hr.held
  · rw [hses]
    exact hr.sessions
  · obtain ⟨session, hs, ht, hl⟩ := hheap ptr session' h'.2
    rw [ht, hl]
    exact hr.session c ptr session ⟨hses ▸ h'.1, hs⟩

/-- A turn of a thread whose session's lease still runs. -/
theorem maintainLoop_running {i : ℕ} {now now' : ℤ}
    (running : ∀ thread session, s.threads[i]? = some thread →
      s.sessionHeap[thread.session]? = some session → timeUntilExpire session now now' ≠ 0) :
    Trace cfg (· = .note) s (maintainLoop cfg s i now now').2 := by
  unfold maintainLoop
  split
  · exact .refl s
  rename_i thread hi
  split_ifs
  · split
    · exact .refl s
    rename_i session hsession
    rw [if_neg (running thread session hi hsession)]
    split_ifs
    · exact putReply_trace
    · exact .refl s
  · exact .refl s

theorem turn_trace (hs : s.WellFormed) (h : Turn cfg s s') : Trace cfg (· = .note) s s' := by
  rcases h with ⟨i, h⟩ | ⟨i, now, now', running, h⟩
  · have := @maintainStart_trace cfg _ hs i
    rwa [h] at this
  · have := @maintainLoop_running cfg s i now now' running
    rwa [h] at this

theorem Rebuilt.turn (hr : Rebuilt cfg T files P s) (h : Turn cfg s s') :
    Rebuilt cfg T files P s' := by
  have htrace := turn_trace hr.wellFormed h
  clear h
  induction htrace with
  | refl => exact hr
  | tail _ h ih =>
    obtain ⟨a, rfl, he⟩ := h
    exact ih.note he

/-- No claim of a client that has not called yet is refused. -/
theorem Rebuilt.acquirable (hr : Rebuilt cfg T files P s) (hc : c ∉ P) {p : Str}
    (hp : c ∈ (T p).owners) (hx : isExists cfg files p = true) :
    Acquirable cfg s p (heldStatus (T p)) := by
  refine ⟨?_, hr.files_eq ▸ hx, fun lock hlock => ?_⟩
  · rcases hT : T p with _ | d | ⟨cs, hcs⟩
    · simp [hT, RWLock.owners] at hp
    · exact .inl rfl
    · exact .inr rfl
  · have hsome : ∃ d ∈ P, d ∈ (T p).owners := by
      by_contra hno
      push Not at hno
      simp [hr.absent p hno] at hlock
    obtain ⟨d, hd, hdp⟩ := hsome
    obtain ⟨lock', hlock', hst, -⟩ := hr.held p d hd hdp
    obtain rfl := Option.some.inj (hlock.symm.trans hlock')
    rw [hst]
    refine ⟨fun he => ?_, id⟩
    rcases hT : T p with _ | e | ⟨cs, hcs⟩ <;> simp only [hT, heldStatus, reduceCtorEq] at he
    simp only [hT, RWLock.owners, Finset.mem_singleton] at hp hdp
    exact hc (by rwa [hp, ← hdp])

/-- The table has, of the owners, those who have called. -/
theorem Rebuilt.mem_table (hr : Rebuilt cfg T files P s) {p d : Str} :
    d ∈ (s.table p).owners ↔ d ∈ P ∧ d ∈ (T p).owners := by
  by_cases hsome : ∃ c ∈ P, c ∈ (T p).owners
  · obtain ⟨c, hc, hcp⟩ := hsome
    obtain ⟨lock, hlock, -, hown⟩ := hr.held p c hc hcp
    obtain ⟨l, -, hl⟩ := Option.bind_eq_some_iff.mp hlock
    rw [table_eq_of_lockOf hlock, (hr.wellFormed.consistent hl).mem_view, hown]
  · push Not at hsome
    rw [State.table, hr.absent p hsome]
    simp only [RWLock.owners, Finset.notMem_empty, false_iff, not_and]
    exact hsome d

/-- What a client's first call leaves when its claims are granted. -/
structure Recovered (s : State) (c : Str) (locks : Claims) (s' : State) : Prop where
  files : s'.files = s.files
  sessions : ∀ d, s'.sessions[d]? = if d = c then some s.sessionHeap.length else s.sessions[d]?
  others : ∀ ptr, ptr ≠ s.sessionHeap.length → s'.sessionHeap[ptr]? = s.sessionHeap[ptr]?
  session : ∃ session, s'.sessionHeap[s.sessionHeap.length]? = some session ∧
    session.terminated = false ∧ ∀ q, q ∈ session.locks ↔ q ∈ locks.entries.map Prod.fst
  lockOf : ∀ q, q ∉ locks.entries.map Prod.fst → s'.lockOf q = s.lockOf q
  held : ∀ p m, (p, m) ∈ locks.entries → ∃ lock, s'.lockOf p = some lock ∧ lock.status = m ∧
    ∀ d, d ∈ lock.owners ↔ d = c ∨ d ∈ (s.table p).owners

/-- Where the client has no entry, its call claims its locks. -/
theorem keepAlive_new (hn : s.sessions[c]? = none) (locks : Claims) (now : ℤ) :
    RPC.keepAlive cfg true false s c locks now =
      (handleJeopardy cfg s c locks now).andThen fun lease s => (.ok (.ok, toInt32 lease), s) := by
  rw [RPC.keepAlive, attemptExtendSession, hn]
  simp only [not_true, if_false, Bool.false_eq_true, Result.andThen_ok]
  rw [if_pos (by decide)]

theorem keepAlive_recovered (hs : s.WellFormed) (hn : s.sessions[c]? = none) {locks : Claims}
    (ha : ∀ p m, (p, m) ∈ locks.entries → Acquirable cfg s p m) (now : ℤ) :
    ∃ s', RPC.keepAlive cfg true false s c locks now = (.ok (.ok, 30000), s') ∧
      Recovered s c locks s' := by
  have hlive : ¬ s.Live c := by
    rintro ⟨ptr, session, h, -⟩
    simp [h.1] at hn
  obtain ⟨t, locks', hall, hreg, hlocks, he⟩ :=
    handleJeopardy_granted hs hlive (registered_start_new hn now) ha
  rw [keepAlive_new hn, he, Result.andThen_ok]
  refine ⟨_, rfl, ⟨hall.files, fun d => ?_, fun ptr hptr => ?_,
    ⟨_, (registered_setSession_setPhase hreg).2, rfl, ?_⟩, hall.lockOf, hall.held⟩⟩
  · rw [State.setPhase, State.setSession, hall.sessions, State.start, getElem?_insertIfNew_eq]
    split_ifs with hd
    · rw [hn, Option.getD_none]
    · rfl
  · rw [State.setPhase, State.setSession, getElem?_store hreg.2, if_neg hptr, hall.others ptr hptr,
      State.start, getElem?_alloc, if_neg hptr]
  · exact fun q => (hlocks q).trans (by simp)

/-- The call of a client that has not called yet. -/
theorem Rebuilt.call (hr : Rebuilt cfg T files P s) (hc : c ∉ P) {locks : Claims}
    (hlocks : ∀ p m, (p, m) ∈ locks.entries ↔ c ∈ (T p).owners ∧ m = heldStatus (T p))
    (hx : ∀ p, c ∈ (T p).owners → isExists cfg files p = true) (now : ℤ) :
    ∃ s', RPC.keepAlive cfg true false s c locks now = (.ok (.ok, 30000), s') ∧
      Rebuilt cfg T files (c :: P) s' := by
  have hs := hr.wellFormed
  have hn : s.sessions[c]? = none :=
    Std.ExtTreeMap.getElem?_eq_none fun h => hc ((hr.sessions c).mp h)
  have hmem : ∀ p, p ∈ locks.entries.map Prod.fst ↔ c ∈ (T p).owners := by
    intro p
    rw [List.mem_map]
    constructor
    · rintro ⟨⟨q, m⟩, hqm, rfl⟩
      exact ((hlocks q m).mp hqm).1
    · exact fun h => ⟨(p, heldStatus (T p)), (hlocks p _).mpr ⟨h, rfl⟩, rfl⟩
  obtain ⟨s', hanswer, hrec⟩ := keepAlive_recovered hs hn (fun p m hp => by
    obtain ⟨hcp, rfl⟩ := (hlocks p m).mp hp
    exact hr.acquirable hc hcp (hx p hcp)) now
  have hs' : s'.WellFormed := by
    have := (@keepAlive_trace cfg _ c hs true false locks now).wellFormed hs
    rwa [hanswer] at this
  obtain ⟨session, hsession, hterm, hsl⟩ := hrec.session
  refine ⟨s', hanswer, hs', hrec.files.trans hr.files_eq, fun p hp => ?_, fun p d hd hdp => ?_,
    fun d => ?_, fun d ptr' session' h' => ?_⟩
  · have hcp : c ∉ (T p).owners := hp c (List.mem_cons_self ..)
    rw [hrec.lockOf p fun h => hcp ((hmem p).mp h)]
    exact hr.absent p fun d hd => hp d (List.mem_cons_of_mem _ hd)
  · by_cases hcp : c ∈ (T p).owners
    · obtain ⟨lock, hlock, hst, hown⟩ := hrec.held p _ ((hlocks p _).mpr ⟨hcp, rfl⟩)
      refine ⟨lock, hlock, hst, fun e => ?_⟩
      rw [hown, hr.mem_table, List.mem_cons]
      refine ⟨?_, fun h => h.1.imp_right fun he => ⟨he, h.2⟩⟩
      rintro (rfl | h)
      · exact ⟨.inl rfl, hcp⟩
      · exact ⟨.inr h.1, h.2⟩
    · have hd : d ∈ P := (List.mem_cons.mp hd).resolve_left fun h => hcp (h ▸ hdp)
      obtain ⟨lock, hlock, hst, hown⟩ := hr.held p d hd hdp
      refine ⟨lock, (hrec.lockOf p fun h => hcp ((hmem p).mp h)).trans hlock, hst, fun e => ?_⟩
      rw [hown, List.mem_cons]
      refine ⟨fun h => ⟨.inr h.1, h.2⟩, fun h => ⟨h.1.resolve_left fun he => hcp (he ▸ h.2), h.2⟩⟩
  · rw [mem_iff_exists_getElem?, hrec.sessions, List.mem_cons, ← hr.sessions d,
      mem_iff_exists_getElem?]
    split_ifs with hd <;> simp [hd]
  · obtain ⟨h₁, h₂⟩ := h'
    by_cases hd : d = c
    · subst hd
      rw [hrec.sessions, if_pos rfl, Option.some.injEq] at h₁
      obtain rfl := Option.some.inj (hsession.symm.trans (h₁ ▸ h₂))
      exact ⟨hterm, fun p => (hsl p).trans (hmem p)⟩
    · have hptr : ptr' ≠ s.sessionHeap.length := by
        rintro rfl
        exact hd (hs'.eq_of_ptr h₁ (by rw [hrec.sessions, if_pos rfl]))
      rw [hrec.sessions, if_neg hd] at h₁
      rw [hrec.others ptr' hptr] at h₂
      exact hr.session d ptr' session' ⟨h₁, h₂⟩

/-- Every call is answered OK with a lease, and by then its client has its locks back. -/
theorem Rebuilt.run {calls : List Call} {answers : List (Except Fault (Status × ℤ))}
    (h : Recovery cfg calls answers s s') (hr : Rebuilt cfg T files P s)
    (hnd : (calls.map Call.clientId).Nodup) (hP : ∀ call ∈ calls, call.clientId ∉ P)
    (hlocks : ∀ call ∈ calls, ∀ p m, (p, m) ∈ call.locks.entries ↔
      call.clientId ∈ (T p).owners ∧ m = heldStatus (T p))
    (hx : ∀ p c, c ∈ (T p).owners → isExists cfg files p = true) :
    (∀ answer ∈ answers, answer = .ok (.ok, 30000)) ∧
      ∃ P', (∀ c, c ∈ P' ↔ c ∈ P ∨ c ∈ calls.map Call.clientId) ∧ Rebuilt cfg T files P' s' := by
  induction h generalizing P with
  | nil s => exact ⟨by simp, P, by simp, hr⟩
  | turn h _ ih => exact ih (hr.turn h) hnd hP hlocks
  | @call s t s' call calls answer answers h _ ih =>
    rw [List.map_cons, List.nodup_cons] at hnd
    obtain ⟨t', he, hr'⟩ := hr.call (hP call (List.mem_cons_self ..))
      (hlocks call (List.mem_cons_self ..)) (fun p => hx p _) call.now
    obtain ⟨rfl, rfl⟩ := Prod.mk.inj (h.symm.trans he)
    obtain ⟨hans, P', hP', hend⟩ := ih hr' hnd.2
      (fun call' hmem => by
        rw [List.mem_cons, not_or]
        exact ⟨fun he => hnd.1 (he ▸ List.mem_map_of_mem hmem),
          hP call' (List.mem_cons_of_mem _ hmem)⟩)
      fun call' hmem => hlocks call' (List.mem_cons_of_mem _ hmem)
    refine ⟨by simpa using hans, P', fun c => ?_, hend⟩
    rw [hP', List.mem_cons, List.map_cons, List.mem_cons]
    tauto

end Rebuilt

/-- The table of a server is a given one, and every client's session has its locks in it. -/
structure Rebuilds (T : RWLock.Table Str Str) (s : State) : Prop where
  mem_locks : ∀ p, p ∈ s.locks ↔ T p ≠ .free
  represents : ∀ p, T p ≠ .free → ∃ lock, s.lockOf p = some lock ∧ lock.Represents (T p)
  session : ∀ p c, c ∈ (T p).owners → ∃ ptr session, s.Registered c ptr session
  locks : ∀ c ptr session, s.Registered c ptr session → session.terminated = false ∧
    ∀ p, p ∈ session.locks ↔ c ∈ (T p).owners

section Recovery

variable {cfg : Config} {T : RWLock.Table Str Str} {s s' : State} {calls : List Call}
  {answers : List (Except Fault (Status × ℤ))}

theorem exists_owner {r : RWLock Str} : (∃ c, c ∈ r.owners) ↔ r ≠ .free := by
  rcases r with _ | c | ⟨cs, hcs⟩
  · simp [RWLock.owners]
  · simp [RWLock.owners]
  · simpa [RWLock.owners] using hcs.exists_mem

theorem represents_of_heldStatus {lock : Lock} {r : RWLock Str} (hr : r ≠ .free)
    (hst : lock.status = heldStatus r) (hown : ∀ d, d ∈ lock.owners ↔ d ∈ r.owners) :
    lock.Represents r := by
  rcases r with _ | c | ⟨cs, hcs⟩
  · exact absurd rfl hr
  · exact ⟨hst, fun d => (hown d).trans Finset.mem_singleton⟩
  · exact ⟨hst, hown⟩

theorem rebuilt_empty (hs : s.WellFormed) (hl : s.locks = ∅) (hn : s.sessions = ∅) :
    Rebuilt cfg T s.files [] s where
  wellFormed := hs
  files_eq := rfl
  absent p _ := by simp [State.lockOf, hl]
  held p c hc := by simp at hc
  sessions c := by simp [hn]
  session c ptr session h := by simp [State.Registered, hn] at h

/-- Once every client has called, the table is the one they held. -/
theorem Rebuilt.rebuilds {P : List Str} {files : FileTree} (hr : Rebuilt cfg T files P s)
    (hP : ∀ c, c ∈ P ↔ ∃ p, c ∈ (T p).owners) : Rebuilds T s := by
  have hheld : ∀ p, T p ≠ .free → ∃ lock, s.lockOf p = some lock ∧ lock.Represents (T p) := by
    intro p hp
    obtain ⟨c, hc⟩ := exists_owner.mpr hp
    obtain ⟨lock, hlock, hst, hown⟩ := hr.held p c ((hP c).mpr ⟨p, hc⟩) hc
    refine ⟨lock, hlock, represents_of_heldStatus hp hst fun d => (hown d).trans ?_⟩
    exact and_iff_right_of_imp fun hd => (hP d).mpr ⟨p, hd⟩
  refine ⟨fun p => ⟨fun hp hfree => ?_, fun hp => ?_⟩, hheld, fun p c hc => ?_, hr.session⟩
  · obtain ⟨l, hl⟩ := mem_iff_exists_getElem?.mp hp
    obtain ⟨lock, hlock, -⟩ := hr.wellFormed.lockTable hl
    have habsent := hr.absent p (by simp [hfree, RWLock.owners])
    simp [lockOf_of_getElem? hl hlock] at habsent
  · obtain ⟨lock, hlock, -⟩ := hheld p hp
    obtain ⟨l, hl, -⟩ := Option.bind_eq_some_iff.mp hlock
    exact mem_iff_exists_getElem?.mpr ⟨l, hl⟩
  · have hc' : c ∈ s.sessions := (hr.sessions c).mpr ((hP c).mpr ⟨p, hc⟩)
    obtain ⟨ptr, hptr⟩ := mem_iff_exists_getElem?.mp hc'
    obtain ⟨session, hsession, -⟩ := hr.wellFormed.registered hptr
    exact ⟨ptr, session, hptr, hsession⟩

theorem recovery_rebuilds (hr : Reachable cfg s) (hl : s.locks = ∅) (hn : s.sessions = ∅)
    (hx : ∀ p, T p ≠ .free → isExists cfg s.files p = true) (hc : CallsOf T calls)
    (h : Recovery cfg calls answers s s') :
    (∀ answer ∈ answers, ∃ lease, answer = .ok (.ok, lease) ∧ 0 < lease) ∧ Rebuilds T s' := by
  obtain ⟨hans, P, hP, hend⟩ := (rebuilt_empty hr.wellFormed hl hn).run h hc.once (by simp)
    hc.locks fun p c hcp => hx p (exists_owner.mp ⟨c, hcp⟩)
  refine ⟨fun answer hmem => ⟨30000, hans answer hmem, by decide⟩, hend.rebuilds fun c => ?_⟩
  rw [hP, ← hc.clients c]
  simp

/-- Two clients share `a`. -/
def sampleTable : RWLock.Table Str Str := fun p =>
  if p = ascii ['a'] then .shared {[1], [2]} (by simp) else .free

def sampleCall (clientId : Str) : Call := ⟨clientId, ⟨[(ascii ['a'], .shared)], by decide⟩, 0⟩

theorem callsOf_sampleTable : CallsOf sampleTable [sampleCall [2], sampleCall [1]] where
  once := by decide
  clients c := by
    simp only [List.map_cons, List.map_nil, List.mem_cons, List.not_mem_nil, or_false, sampleCall,
      sampleTable]
    constructor
    · intro h
      refine ⟨ascii ['a'], ?_⟩
      rw [if_pos rfl]
      simpa [RWLock.owners] using h.symm
    · rintro ⟨p, hp⟩
      split_ifs at hp
      · simpa [RWLock.owners, or_comm] using hp
      · simp [RWLock.owners] at hp
  locks call hcall p m := by
    have hid : call.clientId = [1] ∨ call.clientId = [2] := by
      rcases List.mem_pair.mp hcall with rfl | rfl <;> simp [sampleCall]
    have hlocks : call.locks.entries = [(ascii ['a'], .shared)] := by
      rcases List.mem_pair.mp hcall with rfl | rfl <;> rfl
    rw [hlocks, sampleTable]
    split_ifs with hp
    · simpa [hp, RWLock.owners, heldStatus] using fun _ => hid
    · simp [hp, RWLock.owners]

theorem recovery_rebuilds_two_readers : ∃ answers s',
    Recovery sampleConfig [sampleCall [2], sampleCall [1]] answers
      (.initial (sampleFiles [ascii ['a']])) s' ∧
    (∀ answer ∈ answers, ∃ lease, answer = .ok (.ok, lease) ∧ 0 < lease) ∧
    Rebuilds sampleTable s' := by
  refine ⟨_, _, .call Prod.mk.eta.symm (.call Prod.mk.eta.symm (.nil _)),
    recovery_rebuilds (reachable_initial _) rfl rfl (fun p hp => ?_) callsOf_sampleTable
      (.call Prod.mk.eta.symm (.call Prod.mk.eta.symm (.nil _)))⟩
  rw [sampleTable] at hp
  split_ifs at hp with ha
  · subst ha
    decide
  · exact absurd rfl hp

end Recovery

end LockService
