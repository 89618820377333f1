import LockService.Lib.RWLock
import LockService.Traces

/-!
# The lock table is a table of reader-writer locks

A lock's status and owners stand for a reader-writer lock (`Lock.view`), and `info::locks` for a
table of them, free where it has nothing (`State.table`). As long as a file that exists keeps
existing, every lock with an owner is the one the server's table has for its path and the one that
owner's session has (`Aligned`). So a handler changes the table exactly as the reader-writer lock
of the path does, and no other lock (`table_grant`, `table_release`).
-/

namespace LockService

open RWLock (Mode)

/-- The client's mode as one of a reader-writer lock. -/
def LockStatus.toMode : LockStatus → Mode
  | .exclusive => .exclusive
  | _ => .shared

namespace Lock

/-- The reader-writer lock a lock stands for. -/
def view (lock : Lock) : RWLock Str :=
  match lock.status with
  | .exclusive => match lock.owners.keys.head? with
    | some c => .exclusive c
    | none => .free
  | .shared =>
    if h : lock.owners.keys.toFinset.Nonempty then .shared lock.owners.keys.toFinset h else .free
  | _ => .free

/-- A lock has the status and the owners of a reader-writer lock. -/
def Represents (lock : Lock) : RWLock Str → Prop
  | .free => lock.status = .free ∧ ∀ c, c ∉ lock.owners
  | .exclusive c => lock.status = .exclusive ∧ ∀ d, d ∈ lock.owners ↔ d = c
  | .shared cs _ => lock.status = .shared ∧ ∀ d, d ∈ lock.owners ↔ d ∈ cs

variable {lock : Lock} {r r' : RWLock Str} {c : Str}

theorem Represents.unique (h : lock.Represents r) (h' : lock.Represents r') : r = r' := by
  rcases r with _ | c | ⟨cs, hcs⟩ <;> rcases r' with _ | c' | ⟨cs', hcs'⟩ <;>
    simp only [Represents] at h h'
  · rfl
  · simp [h.1] at h'
  · simp [h.1] at h'
  · simp [h.1] at h'
  · rw [(h'.2 c).mp ((h.2 c).mpr rfl)]
  · simp [h.1] at h'
  · simp [h.1] at h'
  · simp [h.1] at h'
  · congr 1
    exact Finset.ext fun d => (h.2 d).symm.trans (h'.2 d)

theorem Represents.mem_owners_iff (h : lock.Represents r) : c ∈ r.owners ↔ c ∈ lock.owners := by
  rcases r with _ | d | ⟨cs, hcs⟩
  · simp [RWLock.owners, h.2 c]
  · simp [RWLock.owners, h.2 c]
  · simp [RWLock.owners, h.2 c]

theorem Consistent.represents (h : lock.Consistent) : lock.Represents lock.view := by
  unfold view
  have hmem : ∀ d, d ∈ lock.owners.keys.toFinset ↔ d ∈ lock.owners := by
    simp [Std.ExtTreeMap.mem_keys]
  rcases h.status_cases with hs | hs | hs
  · simp only [hs]
    exact ⟨hs, h.free_iff.mp hs⟩
  · obtain ⟨c, hc⟩ := h.owner_of_exclusive hs
    have hkeys : ∀ d, d ∈ lock.owners.keys ↔ d = c := by simp [Std.ExtTreeMap.mem_keys, hc]
    rcases hk : lock.owners.keys with _ | ⟨d, ds⟩
    · rw [hk] at hkeys
      simpa using hkeys c
    · have hd : d = c := (hkeys d).mp (by simp [hk])
      simp only [hs, List.head?_cons]
      exact ⟨hs, fun e => by rw [hc, hd]⟩
  · obtain ⟨c, hc⟩ := h.owner_of_shared hs
    have hne : lock.owners.keys.toFinset.Nonempty := ⟨c, (hmem c).mpr hc⟩
    simp only [hs, dif_pos hne]
    exact ⟨hs, fun d => (hmem d).symm⟩

theorem Consistent.mem_view (h : lock.Consistent) : c ∈ lock.view.owners ↔ c ∈ lock.owners :=
  h.represents.mem_owners_iff

theorem Consistent.view_eq_free_iff (h : lock.Consistent) :
    lock.view = .free ↔ lock.status = .free := by
  have hr := h.represents
  rcases hv : lock.view with _ | d | ⟨cs, hcs⟩ <;> rw [hv] at hr <;> simp [hr.1]

theorem Consistent.isShared_view_iff (h : lock.Consistent) :
    lock.view.IsShared ↔ lock.status = .shared := by
  have hr := h.represents
  rcases hv : lock.view with _ | d | ⟨cs, hcs⟩ <;> rw [hv] at hr <;> simp [RWLock.IsShared, hr.1]
  exact hcs

/-- A lock with a client added stands for the lock acquired. -/
theorem represents_grantedTo (h : lock.Represents r) {mode : LockStatus}
    (hmode : mode = .exclusive ∨ mode = .shared) (hr : r.acquire c mode.toMode = some r') :
    (lock.grantedTo c mode).Represents r' := by
  have hown : ∀ d, d ∈ (lock.grantedTo c mode).owners ↔ d ∈ r'.owners := fun d => by
    rw [RWLock.owners_acquire hr, Finset.mem_insert, h.mem_owners_iff, Lock.grantedTo,
      mem_insert_eq]
  rcases r with _ | e | ⟨cs, hcs⟩ <;> rcases hmode with rfl | rfl <;>
    simp only [LockStatus.toMode, RWLock.acquire, reduceCtorEq, Option.some.injEq] at hr
  · subst hr
    exact ⟨rfl, fun d => (hown d).trans (by simp [RWLock.owners])⟩
  · subst hr
    exact ⟨rfl, hown⟩
  · subst hr
    exact ⟨rfl, hown⟩

/-- A lock without one of its owners stands for the lock released. -/
theorem represents_without (h : lock.Represents r) (hr : r.release c = some r') :
    (lock.without c).Represents r' := by
  have hown : ∀ d, d ∈ (lock.without c).owners ↔ d ∈ r'.owners := fun d => by
    rw [RWLock.owners_release hr, Finset.mem_erase, h.mem_owners_iff, Lock.without,
      mem_erase_eq]
  have hst : (lock.without c).status = if lock.status = .exclusive ∨ ∀ d, d ∉ r'.owners
      then .free else lock.status := by
    simp only [← hown, ← size_eq_zero_iff]
    rfl
  have hnone : ∀ d, d ∉ (RWLock.free : RWLock Str).owners := by simp [RWLock.owners]
  rcases r with _ | e | ⟨cs, hcs⟩ <;> simp only [RWLock.release, reduceCtorEq] at hr
  · split_ifs at hr with hc
    obtain rfl := Option.some.inj hr
    exact ⟨by rw [hst, if_pos (.inl h.1)], fun d hd => hnone d ((hown d).mp hd)⟩
  · split_ifs at hr with hc hne
    · obtain rfl := Option.some.inj hr
      obtain ⟨d, hd⟩ := hne
      refine ⟨?_, hown⟩
      rw [hst, if_neg, h.1]
      rintro (hs | hs)
      · simp [h.1] at hs
      · exact hs d hd
    · obtain rfl := Option.some.inj hr
      exact ⟨by rw [hst, if_pos (.inr hnone)], fun d hd => hnone d ((hown d).mp hd)⟩

theorem Consistent.acquire_view (h : lock.Consistent) {mode : LockStatus}
    (hmode : mode = .exclusive ∨ mode = .shared) (hfree : lock.status ≠ .exclusive)
    (hshared : lock.status = .shared → mode = .shared) (c : Str) :
    lock.view.acquire c mode.toMode = some (lock.grantedTo c mode).view := by
  obtain ⟨r, hr⟩ : ∃ r, lock.view.acquire c mode.toMode = some r := by
    rw [← Option.isSome_iff_exists, RWLock.isSome_acquire, h.view_eq_free_iff,
      h.isShared_view_iff]
    rcases h.status_cases with hs | hs | hs
    · exact .inl hs
    · exact absurd hs hfree
    · exact .inr ⟨hs, by rw [hshared hs]; rfl⟩
  rw [hr, (represents_grantedTo h.represents hmode hr).unique
    (h.grantedTo hmode hfree hshared c).represents]

theorem Consistent.release_view (h : lock.Consistent) (hc : c ∈ lock.owners) :
    lock.view.release c = some (lock.without c).view := by
  obtain ⟨r, hr⟩ : ∃ r, lock.view.release c = some r := by
    rwa [← Option.isSome_iff_exists, RWLock.isSome_release, h.mem_view]
  rw [hr, (represents_without h.represents hr).unique (h.without hc).represents]

end Lock

section Lookups

variable {cfg : Config} {s s' : State} {c path : Str} {ptr : SessionPtr} {session : Session}
  {l : LockPtr} {lock : Lock}

theorem lockOf_of_getElem? (hl : s.locks[path]? = some l) (hlock : s.lockHeap[l]? = some lock) :
    s.lockOf path = some lock := by
  simp [State.lockOf, hl, hlock]

/-- A registered lock and one at another path are different objects. -/
theorem lockOf_setLock (hs : s.WellFormed) (hlock : s.lockHeap[l]? = some lock)
    (hp : lock.path = path) (lock' : Lock) {p : Str} (hne : p ≠ path) :
    s.locks[p]?.bind (fun k => (s.lockHeap.set l lock')[k]?) = s.lockOf p := by
  unfold State.lockOf
  rcases hk : s.locks[p]? with _ | k
  · rfl
  obtain ⟨lock₁, h₁, hp₁⟩ := hs.lockTable hk
  simp only [Option.bind_some, getElem?_store hlock]
  rw [if_neg]
  rintro rfl
  rw [hlock, Option.some.injEq] at h₁
  exact hne (by rw [← hp₁, ← h₁, hp])

theorem lockOf_enter (hs : s.WellFormed) (p : Str) :
    (s.enter ptr session path).lockOf p =
      if p = path ∧ s.locks[path]? = none then some ⟨path, .free, ∅⟩ else s.lockOf p := by
  simp only [State.lockOf, State.enter, getElem?_insertIfNew_eq]
  by_cases hp : p = path
  · subst hp
    rcases hk : s.locks[p]? with _ | k
    · simp
    · obtain ⟨lock, hlock, -⟩ := hs.lockTable hk
      simp [hlock, getElem?_alloc_of_some hlock]
  · rw [if_neg hp, if_neg (fun h => hp h.1)]
    rcases hk : s.locks[p]? with _ | k
    · rfl
    · obtain ⟨lock, hlock, -⟩ := hs.lockTable hk
      simp [hlock, getElem?_alloc_of_some hlock]

theorem lockOf_grant (hs : s.WellFormed) (hl : s.locks[path]? = some l)
    (hlock : s.lockHeap[l]? = some lock) (mode : LockStatus) (p : Str) :
    (s.grant ptr session c path l lock mode).lockOf p =
      if p = path then some (lock.grantedTo c mode) else s.lockOf p := by
  split_ifs with hp
  · subst hp
    simp [State.lockOf, State.grant, hl, getElem?_store hlock]
  · obtain ⟨lock', h', hpath⟩ := hs.lockTable hl
    rw [hlock, Option.some.injEq] at h'
    exact lockOf_setLock hs hlock (h' ▸ hpath) _ hp

theorem lockOf_release (hs : s.WellFormed) (h : s.sessionHeap[ptr]? = some session)
    (hl : session.locks[path]? = some l) (hlock : s.lockHeap[l]? = some lock) (p : Str) :
    (s.release ptr session c path l lock).lockOf p =
      if p = path then some (lock.without c) else s.lockOf p := by
  simp only [State.lockOf, State.release, getElem?_insert_eq]
  split_ifs with hp
  · simp [getElem?_store hlock]
  · exact lockOf_setLock hs hlock (hs.path_eq h hl hlock) _ hp

end Lookups

/-- The table of reader-writer locks `info::locks` stands for. -/
def State.table (s : State) : RWLock.Table Str Str := fun path =>
  match s.lockOf path with
  | some lock => lock.view
  | none => .free

/-- The client's session has a lock for the path. -/
def State.Has (s : State) (c path : Str) (l : LockPtr) : Prop :=
  ∃ ptr session, s.Registered c ptr session ∧ session.locks[path]? = some l

/-- Every lock with an owner is the one registered for its path, is in that owner's session and
has its file. -/
def State.Aligned (cfg : Config) (s : State) : Prop :=
  ∀ {l : LockPtr} {lock : Lock} {c : Str}, s.lockHeap[l]? = some lock → c ∈ lock.owners →
    s.locks[lock.path]? = some l ∧ isExists cfg s.files lock.path = true ∧ s.Has c lock.path l

/-- A path that exists in one tree exists in the other. -/
def Persists (cfg : Config) (files files' : FileTree) : Prop :=
  ∀ p, isExists cfg files p = true → isExists cfg files' p = true

section Aligned

variable {cfg : Config} {s s' : State} {c path : Str} {ptr : SessionPtr} {session : Session}
  {l : LockPtr} {lock : Lock}

theorem consistent_of_lockOf (hs : s.WellFormed) (h : s.lockOf path = some lock) :
    lock.Consistent := by
  obtain ⟨l, -, hlock⟩ := Option.bind_eq_some_iff.mp h
  exact hs.consistent hlock

theorem table_eq_of_lockOf (h : s.lockOf path = some lock) : s.table path = lock.view := by
  simp [State.table, h]

theorem table_enter (hs : s.WellFormed) : (s.enter ptr session path).table = s.table := by
  funext p
  simp only [State.table, lockOf_enter hs]
  split_ifs with hp
  · obtain ⟨rfl, hn⟩ := hp
    simp [State.lockOf, hn, Lock.view]
  · rfl

theorem table_grant (hs : s.WellFormed) (hl : s.locks[path]? = some l)
    (hlock : s.lockHeap[l]? = some lock) {mode : LockStatus}
    (hmode : mode = .exclusive ∨ mode = .shared) (hfree : lock.status ≠ .exclusive)
    (hshared : lock.status = .shared → mode = .shared) :
    s.table.acquire c path mode.toMode =
      some (s.grant ptr session c path l lock mode).table := by
  rw [RWLock.Table.acquire, table_eq_of_lockOf (lockOf_of_getElem? hl hlock),
    (hs.consistent hlock).acquire_view hmode hfree hshared, Option.map_some, Option.some.injEq]
  funext p
  simp only [State.table, lockOf_grant hs hl hlock, Function.update_apply]
  split_ifs <;> rfl

theorem table_release (hs : s.WellFormed) (h : s.Registered c ptr session)
    (hl : session.locks[path]? = some l) (hlock : s.lockHeap[l]? = some lock)
    (hc : c ∈ lock.owners) (hreg : s.locks[path]? = some l) :
    s.table.release c path = some (s.release ptr session c path l lock).table := by
  rw [RWLock.Table.release, table_eq_of_lockOf (lockOf_of_getElem? hreg hlock),
    (hs.consistent hlock).release_view hc, Option.map_some, Option.some.injEq]
  funext p
  simp only [State.table, lockOf_release hs h.2 hl hlock, Function.update_apply]
  split_ifs <;> rfl

theorem has_setSession (h : s.sessionHeap[ptr]? = some session) {session' : Session}
    {d p : Str} {k : LockPtr}
    (hk : s.sessions[d]? = some ptr → session.locks[p]? = some k → session'.locks[p]? = some k)
    (hd : s.Has d p k) : (s.setSession ptr session').Has d p k := by
  obtain ⟨ptr', session₁, ⟨hreg, h₁⟩, hp⟩ := hd
  by_cases hptr : ptr' = ptr
  · subst hptr
    obtain rfl := Option.some.inj (h.symm.trans h₁)
    exact ⟨ptr', session', ⟨hreg, by rw [State.setSession, getElem?_store h, if_pos rfl]⟩,
      hk hreg hp⟩
  · exact ⟨ptr', session₁, ⟨hreg, by rw [State.setSession, getElem?_store h, if_neg hptr, h₁]⟩, hp⟩

theorem has_start (now : ℤ) {d p : Str} {k : LockPtr} (hd : s.Has d p k) :
    (s.start c now).Has d p k := by
  obtain ⟨ptr, session, ⟨hreg, h⟩, hp⟩ := hd
  refine ⟨ptr, session, ⟨?_, getElem?_alloc_of_some h _⟩, hp⟩
  rw [State.start, getElem?_insertIfNew_eq]
  split_ifs with hdc
  · rw [← hdc, hreg, Option.getD_some]
  · exact hreg

theorem aligned_enter (ha : s.Aligned cfg) (h : s.Registered c ptr session) (path : Str) :
    (s.enter ptr session path).Aligned cfg := by
  intro k lock d hk hd
  simp only [State.enter, getElem?_alloc] at hk
  split_ifs at hk
  · obtain rfl := Option.some.inj hk
    simp at hd
  obtain ⟨hreg, hx, hhas⟩ := ha hk hd
  refine ⟨?_, hx, ?_⟩
  · rw [State.enter, getElem?_insertIfNew_eq]
    split_ifs with hp
    · rw [← hp, hreg, Option.getD_some]
    · exact hreg
  · refine has_setSession (s := { s with
      lockHeap := s.lockHeap ++ [⟨path, .free, ∅⟩]
      locks := s.locks.insertIfNew path s.lockHeap.length }) h.2 (fun _ hl => ?_) hhas
    rw [getElem?_insertIfNew_eq]
    split_ifs with hp
    · rw [← hp, hl, Option.getD_some]
    · exact hl

/-- A pointer other than the one granted is not the session's for the path. -/
theorem aligned_grant (hs : s.WellFormed) (ha : s.Aligned cfg) (h : s.Registered c ptr session)
    (hl : s.locks[path]? = some l) (hlock : s.lockHeap[l]? = some lock)
    (hx : isExists cfg s.files path = true) (mode : LockStatus) :
    (s.grant ptr session c path l lock mode).Aligned cfg := by
  have hpath : lock.path = path := by
    obtain ⟨lock', h', hp⟩ := hs.lockTable hl
    rw [hlock, Option.some.injEq] at h'
    exact h' ▸ hp
  intro k lock₁ d hk hd
  simp only [State.grant, getElem?_store hlock] at hk
  have hkeep : ∀ {p : Str} {k : LockPtr}, s.locks[p]? = some k → s.Has d p k →
      (s.grant ptr session c path l lock mode).Has d p k := by
    intro p k hp hhas
    refine has_setSession (s := { s with lockHeap := s.lockHeap.set l (lock.grantedTo c mode) })
      h.2 (fun _ hpk => ?_) hhas
    rw [getElem?_insert_eq]
    split_ifs with hpp
    · rw [← hl, ← hpp, hp]
    · exact hpk
  split_ifs at hk with hkl
  · obtain rfl := Option.some.inj hk
    subst hkl
    have hpath' : (lock.grantedTo c mode).path = path := hpath
    rw [hpath']
    refine ⟨hl, hx, ?_⟩
    by_cases hdc : d = c
    · subst hdc
      exact ⟨ptr, _, ⟨h.1, by rw [State.grant, getElem?_store h.2, if_pos rfl]⟩,
        by rw [getElem?_insert_eq, if_pos rfl]⟩
    · have hd' : d ∈ lock.owners := by
        rw [Lock.grantedTo, mem_insert_eq] at hd
        exact hd.resolve_left hdc
      obtain ⟨hreg, -, hhas⟩ := ha hlock hd'
      rw [hpath] at hreg hhas
      exact hkeep hreg hhas
  · obtain ⟨hreg, hx', hhas⟩ := ha hk hd
    exact ⟨hreg, hx', hkeep hreg hhas⟩

/-- What is dropped from the session is a lock its client no longer owns. -/
theorem aligned_release (hs : s.WellFormed) (ha : s.Aligned cfg) (h : s.Registered c ptr session)
    (hl : session.locks[path]? = some l) (hlock : s.lockHeap[l]? = some lock)
    (hc : c ∈ lock.owners) : (s.release ptr session c path l lock).Aligned cfg := by
  have hpath : lock.path = path := hs.path_eq h.2 hl hlock
  have hreg := (ha hlock hc).1
  rw [hpath] at hreg
  have hlocks : s.locks.insert path l = s.locks := insert_of_getElem? hreg
  intro k lock₁ d hk hd
  simp only [State.release, getElem?_store hlock] at hk
  have hkeep : ∀ {p : Str} {k : LockPtr}, (d = c → p ≠ path) → s.Has d p k →
      (s.release ptr session c path l lock).Has d p k := by
    intro p k hne hhas
    refine has_setSession (s := { s with
      locks := s.locks.insert path l
      lockHeap := s.lockHeap.set l (lock.without c) }) h.2 (fun hdp hpk => ?_) hhas
    rw [getElem?_erase_eq, if_neg (hne (hs.eq_of_ptr hdp h.1)), hpk]
  split_ifs at hk with hkl
  · obtain rfl := Option.some.inj hk
    subst hkl
    obtain ⟨hdc, hd'⟩ : d ≠ c ∧ d ∈ lock.owners := by
      rwa [Lock.without, mem_erase_eq] at hd
    obtain ⟨hreg', hx', hhas⟩ := ha hlock hd'
    refine ⟨?_, hx', hkeep (fun h => absurd h hdc) hhas⟩
    simp only [State.release, hlocks]
    exact hreg'
  · obtain ⟨hreg', hx', hhas⟩ := ha hk hd
    refine ⟨?_, hx', hkeep (fun _ hp => ?_) hhas⟩
    · simp only [State.release, hlocks]
      exact hreg'
    · rw [hp, hreg, Option.some.injEq] at hreg'
      exact hkl hreg'.symm

/-- A lock held alone is not deleted: its file exists. -/
theorem not_forget (hs : s.WellFormed) (ha : s.Aligned cfg) (h : s.Registered c ptr session)
    (hl : session.locks[path]? = some l) (hlock : s.lockHeap[l]? = some lock)
    (hstatus : lock.status = .exclusive) : isExists cfg s.files path = true := by
  obtain ⟨d, hd⟩ := (hs.consistent hlock).owner_of_exclusive hstatus
  have hx := (ha hlock ((hd d).mpr rfl)).2.1
  rwa [hs.path_eq h.2 hl hlock] at hx

theorem aligned_effect {a : Action} (hs : s.WellFormed) (ha : s.Aligned cfg)
    (he : Effect cfg s a s') (hf : ∀ files, a = .replicate files → Persists cfg s.files files) :
    s'.Aligned cfg := by
  cases he with
  | start c now h =>
    intro l lock d hlock hd
    obtain ⟨hreg, hx, hhas⟩ := ha hlock hd
    exact ⟨hreg, hx, has_start now hhas⟩
  | terminate h =>
    intro l lock d hlock hd
    obtain ⟨hreg, hx, hhas⟩ := ha hlock hd
    exact ⟨hreg, hx, has_setSession h.2 (fun _ => id) hhas⟩
  | enter h => exact aligned_enter ha h _
  | grant h hl hlock hmode hx hfree hshared => exact aligned_grant hs ha h hl hlock hx _
  | release h hl hlock hx howner hp =>
    exact aligned_release hs ha h hl hlock ((hs.consistent hlock).owner_iff.mp howner)
  | forget h hl hlock hstatus hx =>
    exact absurd (not_forget hs ha h hl hlock hstatus) (by simp [hx])
  | note h hc hl ht hstart hlease =>
    intro l lock d hlock hd
    obtain ⟨hreg, hx, hhas⟩ := ha hlock hd
    exact ⟨hreg, hx, has_setSession h (fun _ hp => hl ▸ hp) hhas⟩
  | phase h phase =>
    intro l lock d hlock hd
    exact ha hlock hd
  | replicate files =>
    intro l lock d hlock hd
    obtain ⟨hreg, hx, hhas⟩ := ha hlock hd
    exact ⟨hreg, hf files rfl _ hx, hhas⟩

end Aligned

section Runs

variable {cfg : Config} {s s' : State} {c path : Str} {Q : Action → Prop}

theorem effect_files {a : Action} (h : Effect cfg s a s') :
    a = .replicate s'.files ∨ s'.files = s.files := by
  cases h with
  | replicate files => exact .inl rfl
  | _ => exact .inr rfl

/-- The files only change to what they are at the end. -/
theorem permits_replicate {e : Event} {files : FileTree} (h : Permits s s' (.replicate files) e) :
    files = s'.files := by
  cases e <;> simp_all [Permits, Action.Ends, Action.Claims]

theorem aligned_trace {files : FileTree} (hQ : ∀ f, Q (.replicate f) → f = files)
    (hf : Persists cfg s.files files) (hs : s.WellFormed) (ha : s.Aligned cfg)
    (h : Trace cfg Q s s') :
    s'.WellFormed ∧ s'.Aligned cfg ∧ (s'.files = s.files ∨ s'.files = files) := by
  refine h.invariant (I := fun t => t.Aligned cfg ∧ (t.files = s.files ∨ t.files = files)) ?_ hs
    ⟨ha, .inl rfl⟩
  rintro t a t' ht ⟨hta, htf⟩ hQa he
  refine ⟨aligned_effect ht hta he ?_, ?_⟩
  · rintro f rfl
    rw [hQ f hQa]
    rcases htf with htf | htf
    · exact htf ▸ hf
    · exact htf ▸ fun _ => id
  · rcases effect_files he with rfl | hfe
    · exact .inr (hQ _ hQa)
    · exact hfe ▸ htf

theorem aligned_next {e : Event} (hs : s.WellFormed) (ha : s.Aligned cfg)
    (hf : Persists cfg s.files s'.files) (h : next cfg s e = some s') : s'.Aligned cfg :=
  (aligned_trace (fun _ => permits_replicate) hf hs ha (next_trace hs h)).2.1

/-- What an effect does to the table of reader-writer locks. -/
def Action.Moves (t t' : RWLock.Table Str Str) : Action → Prop
  | .grant c p m => t.acquire c p m.toMode = some t'
  | .release c p => t.release c p = some t'
  | _ => t' = t

theorem effect_moves {a : Action} (hs : s.WellFormed) (ha : s.Aligned cfg)
    (h : Effect cfg s a s') : a.Moves s.table s'.table := by
  cases h with
  | enter h => exact table_enter hs
  | grant h hl hlock hmode hx hfree hshared => exact table_grant hs hl hlock hmode hfree hshared
  | release h hl hlock hx howner hp =>
    have hc := (hs.consistent hlock).owner_iff.mp howner
    refine table_release hs h hl hlock hc ?_
    rw [← hs.path_eq h.2 hl hlock]
    exact (ha hlock hc).1
  | forget h hl hlock hstatus hx =>
    exact absurd (not_forget hs ha h hl hlock hstatus) (by simp [hx])
  | _ => rfl

theorem trace_moves {files : FileTree} (hQ : ∀ f, Q (.replicate f) → f = files)
    (hf : Persists cfg s.files files) (hs : s.WellFormed) (ha : s.Aligned cfg)
    (h : Trace cfg Q s s') :
    Relation.ReflTransGen (fun t t' => ∃ a, Q a ∧ a.Moves t t') s.table s'.table := by
  induction h with
  | refl => exact .refl
  | tail h he ih =>
    obtain ⟨a, hQa, he⟩ := he
    obtain ⟨ht, hta, -⟩ := aligned_trace hQ hf hs ha h
    exact ih.tail ⟨a, hQa, effect_moves ht hta he⟩

/-- What an event does to the table of reader-writer locks. -/
def Event.Moves (t t' : RWLock.Table Str Str) : Event → Prop
  | .acquireLock c p m => t' = t ∨ t.acquire c p m.toMode = some t'
  | .releaseLock c p => t' = t ∨ t.release c p = some t'
  | .closeSession c => Relation.ReflTransGen (fun t t' => ∃ p, t.release c p = some t') t t'
  | .maintainLoop _ _ _ =>
    ∃ c, Relation.ReflTransGen (fun t t' => ∃ p, t.release c p = some t') t t'
  | .keepAlive _ _ c _ _ => Relation.ReflTransGen (RWLock.Table.Moves c) t t'
  | _ => t' = t

/-- Steps that each change nothing or do what `R` says come to a chain of `R`. -/
theorem reflTransGen_of_eq_or {α : Type*} {R R' : α → α → Prop} {a b : α}
    (hR : ∀ x y, R x y → y = x ∨ R' x y) (h : Relation.ReflTransGen R a b) :
    Relation.ReflTransGen R' a b := by
  induction h with
  | refl => exact .refl
  | tail _ h ih =>
    rcases hR _ _ h with rfl | h
    · exact ih
    · exact ih.tail h

theorem reflTransGen_of_eq {α : Type*} {R : α → α → Prop} {a b : α}
    (hR : ∀ x y, R x y → y = x) (h : Relation.ReflTransGen R a b) : b = a := by
  induction h with
  | refl => rfl
  | tail _ h ih => rw [hR _ _ h, ih]

theorem ready_table (hs : s.WellFormed) {ptr : SessionPtr} {session : Session} :
    (s.ready ptr session path).table = s.table := by
  unfold State.ready
  split_ifs
  · rfl
  · exact table_enter hs

variable (c path) in
theorem acquireLock_moves (hs : s.WellFormed) (ha : s.Aligned cfg) (mode : LockStatus) :
    (acquireLock cfg s c path mode).Refused s ∨
      (acquireLock cfg s c path mode).1 = .ok .ok ∧
      s.table.acquire c path mode.toMode = some (acquireLock cfg s c path mode).2.table := by
  rcases acquireLock_cases cfg c path hs mode with
    h | ⟨ptr, session, h, hacq⟩
  · exact .inl h
  obtain ⟨session', l, lock, -, -, -, he, hr⟩ := acquireLock_granted hs h hacq
  obtain ⟨ht, hta, -⟩ := aligned_trace (Q := (· = .enter c path)) (by simp)
    (fun _ h => h : Persists cfg s.files s.files) hs ha (ready_trace h path)
  have hmoves := effect_moves ht hta he
  rw [Action.Moves, ready_table hs] at hmoves
  rw [hr]
  exact .inr ⟨rfl, hmoves⟩

variable (c path) in
theorem releaseLock_moves (hs : s.WellFormed) (ha : s.Aligned cfg) :
    (releaseLock cfg s c path).Refused s ∨
      (releaseLock cfg s c path).1 = .ok .ok ∧
      s.table.release c path = some (releaseLock cfg s c path).2.table := by
  rcases releaseLock_cases cfg c path hs with
    h | ⟨ptr, session, l, lock, h, hl, hlock, hx, ho, hp, hr⟩
  · exact .inl h.1
  · rw [hr]
    exact .inr ⟨rfl, effect_moves hs ha (.release h hl hlock hx ho hp)⟩

theorem next_moves {e : Event} (hs : s.WellFormed) (ha : s.Aligned cfg)
    (hf : Persists cfg s.files s'.files) (h : next cfg s e = some s') :
    e.Moves s.table s'.table := by
  have ht := trace_moves (fun _ => permits_replicate) hf hs ha (next_trace hs h)
  cases e with
  | acquireLock c p m =>
    rw [← survivor_eq h]
    rcases acquireLock_moves c p hs ha m with hr | ⟨-, hm⟩
    · exact .inl (by rw [hr.2])
    · exact .inr hm
  | releaseLock c p =>
    rw [← survivor_eq h]
    rcases releaseLock_moves c p hs ha with hr | ⟨-, hm⟩
    · exact .inl (by rw [hr.2])
    · exact .inr hm
  | closeSession c =>
    refine reflTransGen_of_eq_or ?_ ht
    rintro t t' ⟨a, rfl | ⟨p, rfl⟩, hm⟩
    · exact .inl hm
    · exact .inr ⟨p, hm⟩
  | maintainLoop i now now' =>
    rcases hi : s.threads[i]? with _ | thread
    · refine ⟨[], reflTransGen_of_eq_or ?_ ht⟩
      rintro t t' ⟨a, rfl | ⟨thread, c, hi', -⟩, hm⟩
      · exact .inl hm
      · simp [hi] at hi'
    · obtain ⟨c, hc⟩ := hs.maintained hi
      refine ⟨c, reflTransGen_of_eq_or ?_ ht⟩
      rintro t t' ⟨a, rfl | ⟨thread', c', hi', hc', ha'⟩, hm⟩
      · exact .inl hm
      obtain rfl := Option.some.inj (hi.symm.trans hi')
      obtain rfl := hs.eq_of_ptr hc hc'
      rcases ha' with rfl | ⟨p, rfl⟩
      · exact .inl hm
      · exact .inr ⟨p, hm⟩
  | keepAlive leader isCancelled c locks now =>
    refine reflTransGen_of_eq_or ?_ ht
    rintro t t' ⟨a, rfl | (⟨p, m, -, rfl | rfl⟩ | rfl | ⟨p, rfl⟩) | rfl, hm⟩
    · exact .inl hm
    · exact .inl hm
    · exact .inr ⟨p, .inl ⟨_, hm⟩⟩
    · exact .inl hm
    · exact .inr ⟨p, .inr hm⟩
    · exact .inl hm
  | initSession | write | maintainStart | replicate =>
    refine reflTransGen_of_eq ?_ ht
    rintro t t' ⟨a, rfl, hm⟩
    exact hm
  | openLock | deleteLock =>
    refine reflTransGen_of_eq ?_ ht
    rintro t t' ⟨a, rfl | rfl, hm⟩ <;> exact hm
  | read =>
    refine reflTransGen_of_eq ?_ ht
    rintro t t' ⟨a, h, -⟩
    exact h.elim

/-- A run in which a file that exists keeps existing. -/
def KeepsFiles (cfg : Config) (s : State) (_ : Event) (s' : State) : Prop :=
  Persists cfg s.files s'.files

theorem files_next {e : Event} (hs : s.WellFormed) (he : e.touchesFiles = false)
    (h : next cfg s e = some s') : s'.files = s.files := by
  refine ((next_trace hs h).invariant (I := fun t => t.files = s.files) ?_ hs rfl).2
  rintro t a t' - ht ha hef
  rcases effect_files hef with rfl | hfe
  · cases e <;> simp_all [Permits, Event.touchesFiles, Action.Ends, Action.Claims]
  · rw [hfe, ht]

theorem along_keepsFiles :
    ∀ {es : List Event} {s : State}, s.WellFormed → (∀ e ∈ es, e.touchesFiles = false) →
      Run.Along (next cfg) (KeepsFiles cfg) s es
  | [], _, _, _ => trivial
  | e :: es, s, hs, he => fun s' h => by
    have hfiles := files_next hs (he e (by simp)) h
    refine ⟨fun p hp => by rwa [hfiles], ?_⟩
    exact along_keepsFiles (wellFormed_next hs h) fun e' h' => he e' (List.mem_cons_of_mem _ h')

theorem aligned_run {files : FileTree} {es : List Event}
    (hk : Run.Along (next cfg) (KeepsFiles cfg) (.initial files) es)
    (h : Run.run (next cfg) (.initial files) es = some s) : s.WellFormed ∧ s.Aligned cfg := by
  refine Run.invariant (I := fun t => t.WellFormed ∧ t.Aligned cfg) ?_
    ⟨.initial files, fun {l lock c} h => by simp [State.initial] at h⟩ hk h
  rintro t e t' ⟨ht, hta⟩ hf hn
  exact ⟨wellFormed_next ht hn, aligned_next ht hta hf hn⟩

/-- `info::locks` as a table of reader-writer locks, and the handlers as its operations. -/
structure ImplementsRWLock (cfg : Config) (s : State) : Prop where
  owners : ∀ p lock, s.lockOf p = some lock →
    lock.status = .free ∧ (∀ c, c ∉ lock.owners) ∨
      lock.status = .exclusive ∧ (∃ c, ∀ d, d ∈ lock.owners ↔ d = c) ∨
      lock.status = .shared ∧ ∃ c, c ∈ lock.owners
  represents : ∀ p lock, s.lockOf p = some lock → lock.Represents (s.table p)
  acquire_ok : ∀ c p m, (acquireLock cfg s c p m).1 = .ok .ok ↔
    c ∈ s.sessions ∧ (m = .exclusive ∨ m = .shared) ∧ isExists cfg s.files p = true ∧
      (s.table p = .free ∨ (s.table p).IsShared ∧ m = .shared)
  acquired : ∀ c p m, (acquireLock cfg s c p m).1 = .ok .ok →
    s.table.acquire c p m.toMode = some (acquireLock cfg s c p m).2.table
  release_ok : ∀ c p, (releaseLock cfg s c p).1 = .ok .ok ↔ c ∈ (s.table p).owners
  released : ∀ c p, (releaseLock cfg s c p).1 = .ok .ok →
    s.table.release c p = some (releaseLock cfg s c p).2.table ∧
      ((releaseLock cfg s c p).2.table p).owners = (s.table p).owners.erase c
  acquire_frame : ∀ c p m, (∀ q, q ≠ p → (acquireLock cfg s c p m).2.table q = s.table q) ∧
    ∀ d, d ≠ c → ∀ q, d ∈ ((acquireLock cfg s c p m).2.table q).owners ↔ d ∈ (s.table q).owners
  release_frame : ∀ c p, (∀ q, q ≠ p → (releaseLock cfg s c p).2.table q = s.table q) ∧
    ∀ d, d ≠ c → ∀ q, d ∈ ((releaseLock cfg s c p).2.table q).owners ↔ d ∈ (s.table q).owners
  moves : ∀ e s', next cfg s e = some s' → Persists cfg s.files s'.files →
    e.Moves s.table s'.table

theorem releaseLock_ok_iff (hs : s.WellFormed) (ha : s.Aligned cfg) :
    (releaseLock cfg s c path).1 = .ok .ok ↔ c ∈ (s.table path).owners := by
  constructor
  · intro hok
    rcases releaseLock_moves c path hs ha with hr | ⟨-, hm⟩
    · exact absurd hok hr.1
    · obtain ⟨lock, hl, -⟩ := Option.map_eq_some_iff.mp hm
      exact RWLock.isSome_release.mp (Option.isSome_iff_exists.mpr ⟨lock, hl⟩)
  · intro hc
    rcases hlock : s.lockOf path with _ | lock
    · simp [State.table, hlock, RWLock.owners] at hc
    rw [table_eq_of_lockOf hlock, (consistent_of_lockOf hs hlock).mem_view] at hc
    obtain ⟨l, hl, hl'⟩ := Option.bind_eq_some_iff.mp hlock
    obtain ⟨lock', h', hp⟩ := hs.lockTable hl
    obtain rfl := Option.some.inj (hl'.symm.trans h')
    obtain ⟨-, hx, ptr, session, hr, hk⟩ := ha hl' hc
    rw [hp] at hx hk
    rcases releaseLock_cases cfg c path hs with hno | ⟨_, _, _, _, h⟩
    · refine absurd ⟨⟨hx, ptr, session, l, lock, hr, hk, hl', ?_⟩, ?_⟩ hno.2
      · exact (hs.consistent hl').owner_iff.mpr hc
      · exact mem_iff_exists_getElem?.mpr ⟨l, hl⟩
    · rw [h.2.2.2.2.2.2]

theorem acquirable_iff (hs : s.WellFormed) {mode : LockStatus} :
    Acquirable cfg s path mode ↔ (mode = .exclusive ∨ mode = .shared) ∧
      isExists cfg s.files path = true ∧
      (s.table path = .free ∨ (s.table path).IsShared ∧ mode = .shared) := by
  have hav : (∀ lock, s.lockOf path = some lock →
      lock.status ≠ .exclusive ∧ (lock.status = .shared → mode = .shared)) ↔
      (s.table path = .free ∨ (s.table path).IsShared ∧ mode = .shared) := by
    rcases hlock : s.lockOf path with _ | lock
    · simp [State.table, hlock]
    have hcons := consistent_of_lockOf hs hlock
    rw [table_eq_of_lockOf hlock, hcons.view_eq_free_iff, hcons.isShared_view_iff]
    rcases hcons.status_cases with h | h | h <;> simp [h]
  exact ⟨fun h => ⟨h.lockable, h.isPresent, hav.mp h.available⟩,
    fun h => ⟨h.1, h.2.1, hav.mpr h.2.2⟩⟩

theorem registered_iff (hs : s.WellFormed) :
    (∃ ptr session, s.Registered c ptr session) ↔ c ∈ s.sessions := by
  rw [mem_iff_exists_getElem?]
  constructor
  · rintro ⟨ptr, session, h⟩
    exact ⟨ptr, h.1⟩
  · rintro ⟨ptr, h⟩
    exact (hs.registered_or_none c).resolve_left (by simp [h])

theorem implementsRWLock (hs : s.WellFormed) (ha : s.Aligned cfg) : ImplementsRWLock cfg s where
  owners p lock h := by
    have hcons := consistent_of_lockOf hs h
    rcases hcons.status_cases with hst | hst | hst
    · exact .inl ⟨hst, hcons.free_iff.mp hst⟩
    · exact .inr (.inl ⟨hst, hcons.owner_of_exclusive hst⟩)
    · exact .inr (.inr ⟨hst, hcons.owner_of_shared hst⟩)
  represents p lock h := by
    rw [table_eq_of_lockOf h]
    exact (consistent_of_lockOf hs h).represents
  acquire_ok c p m := by rw [acquireLock_ok_iff hs, registered_iff hs, acquirable_iff hs]
  acquired c p m h := by
    rcases acquireLock_moves c p hs ha m with hr | ⟨-, hm⟩
    · exact absurd h hr.1
    · exact hm
  release_ok c p := releaseLock_ok_iff hs ha
  released c p h := by
    rcases releaseLock_moves c p hs ha with hr | ⟨-, hm⟩
    · exact absurd h hr.1
    refine ⟨hm, ?_⟩
    obtain ⟨lock, hl, ht⟩ := Option.map_eq_some_iff.mp hm
    rw [← ht, Function.update_self, RWLock.owners_release hl]
  acquire_frame c p m := by
    rcases acquireLock_moves c p hs ha m with hr | ⟨-, hm⟩
    · rw [hr.2]
      exact ⟨fun _ _ => rfl, fun _ _ _ => Iff.rfl⟩
    · exact ⟨fun q hq => RWLock.Table.acquire_of_ne hm hq,
        fun d hd => RWLock.Table.mem_owners_of_moves ⟨p, .inl ⟨_, hm⟩⟩ hd⟩
  release_frame c p := by
    rcases releaseLock_moves c p hs ha with hr | ⟨-, hm⟩
    · rw [hr.2]
      exact ⟨fun _ _ => rfl, fun _ _ _ => Iff.rfl⟩
    · exact ⟨fun q hq => RWLock.Table.release_of_ne hm hq,
        fun d hd => RWLock.Table.mem_owners_of_moves ⟨p, .inr hm⟩ hd⟩
  moves e s' h hf := next_moves hs ha hf h

theorem lockTable_implements {files : FileTree} {es : List Event}
    (hk : Run.Along (next cfg) (KeepsFiles cfg) (.initial files) es)
    (h : Run.run (next cfg) (.initial files) es = some s) : ImplementsRWLock cfg s := by
  obtain ⟨hs, ha⟩ := aligned_run hk h
  exact implementsRWLock hs ha

theorem lockTable_implements_two_readers :
    ∃ s, Run.run (next sampleConfig) (.initial (sampleFiles [ascii ['a']]))
      [.initSession true [1] 0, .initSession true [2] 0, .acquireLock [1] (ascii ['a']) .shared,
        .acquireLock [2] (ascii ['a']) .shared] = some s ∧ ImplementsRWLock sampleConfig s := by
  obtain ⟨s, hs⟩ := Option.isSome_iff_exists.mp (by decide : (Run.run (next sampleConfig)
    (.initial (sampleFiles [ascii ['a']])) [.initSession true [1] 0, .initSession true [2] 0,
      .acquireLock [1] (ascii ['a']) .shared, .acquireLock [2] (ascii ['a']) .shared]).isSome)
  exact ⟨s, hs, lockTable_implements (along_keepsFiles (.initial _) (by decide)) hs⟩

end Runs

end LockService
