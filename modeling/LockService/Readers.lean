import LockService.Holdings
import LockService.Replication

/-!
# Readers and writers of one path

`write` asks that the client own the lock and not in which mode, so an owner of a shared lock may
write under the other owners' eyes (`not_protectsReaders_shared_writer`). While nobody does, and
every commit draws a temporary name that is free and is of a path spelled as the table has its
file, no commit touches what a shared lock covers (`readContent_careful`), and what its owner reads
stays the same (`protectsReaders`).
-/

namespace LockService

open FileTree

/-- A commit of the path draws a temporary name that is free, and the table has the path's file
under no other spelling. -/
structure Plain (cfg : Config) (s : State) (path : Str) (answer : RaftAnswer) : Prop where
  fresh : ∀ random, answer = .committed random →
    FreshTemp s.files (cfg.mappedPath path) random
  spelled : ∀ p ∈ s.locks, p ≠ path → cfg.fileOf p ≠ cfg.fileOf path

/-- Nobody who owns a lock in shared mode writes, what is written is plain, and Raft commits
nothing that was not asked for here. -/
def Careful (cfg : Config) (s : State) (e : Event) (_ : State) : Prop :=
  match e with
  | .openLock c path answer => c ∈ s.sessions → isExists cfg s.files path = false →
    Plain cfg s path answer
  | .write c path _ answer => ∀ ptr session l lock, s.Registered c ptr session →
    isExists cfg s.files path = true → ownedLock s session c path = .ok (l, lock) →
    lock.status ≠ .shared ∧ Plain cfg s path answer
  | .replicate _ => False
  | _ => True

/-- Every write that succeeds in the run is by an exclusive owner. -/
def WritesExclusively (cfg : Config) : State → List Event → Prop :=
  Run.Along (next cfg) fun t e _ => ∀ c path content answer, e = .write c path content answer →
    (write cfg t c path content answer).1 = .ok .ok → Owns t c path .exclusive

/-- No write of the path succeeds in the run. -/
def NeverWritten (cfg : Config) (path : Str) : State → List Event → Prop :=
  Run.Along (next cfg) fun t e _ => ∀ c content answer, e = .write c path content answer →
    (write cfg t c path content answer).1 ≠ .ok .ok

/-- The client has the path's lock in shared mode at every step of the run. -/
def KeepsShared (cfg : Config) (c path : Str) : State → List Event → Prop :=
  Run.Along (next cfg) fun t _ _ => Owns t c path .shared

/-- Only exclusive owners write in the run, and between two reads of a client that keeps a shared
lock nobody does, and it reads the same. -/
structure ProtectsReaders (cfg : Config) (s : State) (es : List Event) : Prop where
  writes : WritesExclusively cfg s es
  reads : ∀ es₁ es₂ es₃ s₁ s₂, es = es₁ ++ (es₂ ++ es₃) → Run.run (next cfg) s es₁ = some s₁ →
    Run.run (next cfg) s₁ es₂ = some s₂ → ∀ c path, KeepsShared cfg c path s₁ es₂ →
    NeverWritten cfg path s₁ es₂ ∧ ∀ x y, (read cfg s₁ c path).1 = .ok (.ok, x) →
      (read cfg s₂ c path).1 = .ok (.ok, y) → x = y

section Step

variable {cfg : Config} {s s' : State} {c path : Str} {e : Event}

/-- A write that succeeds where nobody with a shared lock writes is an exclusive owner's. -/
theorem write_owns (hs : s.WellFormed) (ha : s.Aligned cfg) {content : Str} {answer : RaftAnswer}
    (hcare : Careful cfg s (.write c path content answer) s')
    (h : (write cfg s c path content answer).1 = .ok .ok) : Owns s c path .exclusive := by
  rcases write_cases cfg c path hs content answer with
    hr | ⟨ptr, session, l, lock, files, hreg, hx, ho, -, -⟩
  · exact absurd h hr.1
  have hown := owns_of_ownedLock hs ha hreg ho
  obtain ⟨hl, hlock, howner⟩ := ownedLock_eq_ok.mp ho
  have hcons := hs.consistent hlock
  rcases hcons.status_cases with hst | hst | hst
  · exact absurd (hcons.owner_iff.mp howner) (hcons.free_iff.mp hst c)
  · exact hst ▸ hown
  · exact absurd hst (hcare ptr session l lock hreg hx ho).1

/-- What is appended to the log, as far as the files go. -/
theorem appendLog_files {files files' : FileTree} {content : Str} {answer : RaftAnswer}
    (h : appendLog cfg files ⟨.write, path, content⟩ answer = .ok files') :
    files' = files ∨ ∃ random, answer = .committed random ∧
      commitWrite files (cfg.mappedPath path) content random = .ok files' := by
  rcases answer with _ | _ | random
  · exact .inl (by simpa [eq_comm] using h.symm.trans (appendLog_not_committed
      (fits_of_appendLog h) (by rintro ⟨_, h⟩; cases h)))
  · exact .inl (by simpa [eq_comm] using h.symm.trans (appendLog_not_committed
      (fits_of_appendLog h) (by rintro ⟨_, h⟩; cases h)))
  · exact .inr ⟨random, rfl, appendLog_committed h⟩

/-- Files change by what Raft commits on its own, or by a commit that a handler asked for. -/
theorem files_cases (hs : s.WellFormed) (ha : s.Aligned cfg) (h : next cfg s e = some s') :
    s'.files = s.files ∨ e = .replicate s'.files ∨ ∃ c path content random,
      (e = .openLock c path (.committed random) ∧ c ∈ s.sessions ∧
          isExists cfg s.files path = false ∨
        e = .write c path content (.committed random) ∧ ∃ ptr session l lock,
          s.Registered c ptr session ∧ isExists cfg s.files path = true ∧
          ownedLock s session c path = .ok (l, lock)) ∧
      commitWrite s.files (cfg.mappedPath path) content random = .ok s'.files := by
  cases e with
  | openLock c path answer =>
    have he := survivor_eq h
    rcases openLock_cases cfg c path hs answer with hr | ⟨ptr, session, files, hreg, hx, hf, hr⟩
    · exact .inl (by rw [← he, hr.2])
    rw [hr] at he
    obtain rfl : files = s'.files := congrArg State.files he
    rcases appendLog_files hf with hsame | ⟨random, rfl, hc⟩
    · exact .inl hsame
    · exact .inr (.inr ⟨c, path, [], random, .inl ⟨rfl, mem_sessions_of_registered hreg, hx⟩, hc⟩)
  | write c path content answer =>
    have he := survivor_eq h
    rcases write_cases cfg c path hs content answer with
      hr | ⟨ptr, session, l, lock, files, hreg, hx, ho, hf, hr⟩
    · exact .inl (by rw [← he, hr.2])
    rw [hr] at he
    obtain rfl : files = s'.files := congrArg State.files he
    rcases appendLog_files hf with hsame | ⟨random, rfl, hc⟩
    · exact .inl hsame
    · exact .inr (.inr ⟨c, path, content, random,
        .inr ⟨rfl, ptr, session, l, lock, hreg, hx, ho⟩, hc⟩)
  | deleteLock c path =>
    rcases deleteLock_cases cfg c path hs with
      hr | ⟨ptr, session, l, lock, files, hreg, hl, hlock, hst, hx, -, -⟩
    · exact .inl (by rw [← survivor_eq h, hr.2])
    · simp [not_forget hs ha hreg hl hlock hst] at hx
  | replicate files =>
    obtain rfl := Option.some.inj h
    exact .inr (.inl rfl)
  | _ => exact .inl (files_next hs rfl h)

/-- A step changes the files by a plain commit of a path that nobody owns in shared mode. -/
theorem files_careful (hs : s.WellFormed) (ha : s.Aligned cfg) (hcare : Careful cfg s e s')
    (h : next cfg s e = some s') :
    s'.files = s.files ∨ ∃ path content random, Plain cfg s path (.committed random) ∧
      (∀ c, ¬ Owns s c path .shared) ∧
      commitWrite s.files (cfg.mappedPath path) content random = .ok s'.files := by
  rcases files_cases hs ha h with
    hf | rfl | ⟨c, path, content, random,
      ⟨rfl, hc, hx⟩ | ⟨rfl, ptr, session, l, lock, hreg, hx, ho⟩, hcommit⟩
  · exact .inl hf
  · exact hcare.elim
  · refine .inr ⟨path, content, random, hcare hc hx, fun d hd => ?_, hcommit⟩
    simp [hd.isExists hs ha] at hx
  · obtain ⟨hst, hplain⟩ := hcare ptr session l lock hreg hx ho
    refine .inr ⟨path, content, random, hplain, fun d hd => hst ?_, hcommit⟩
    exact (owns_of_ownedLock hs ha hreg ho).mode_unique hd

theorem persists_commitWrite {content : Str} {random : ℕ}
    (hfresh : FreshTemp s.files (cfg.mappedPath path) random)
    (h : commitWrite s.files (cfg.mappedPath path) content random = .ok s'.files) :
    Persists cfg s.files s'.files := by
  obtain ⟨hdir, hsome, -⟩ := commitWrite_spares (mappedPath_ne_nil cfg path) hfresh h
  exact fun p => isExists_mono hdir hsome

theorem persists_careful (hs : s.WellFormed) (ha : s.Aligned cfg) (hcare : Careful cfg s e s')
    (h : next cfg s e = some s') : Persists cfg s.files s'.files := by
  rcases files_careful hs ha hcare h with hf | ⟨path, content, random, hplain, -, hc⟩
  · exact fun p hp => hf ▸ hp
  · exact persists_commitWrite (hplain.fresh random rfl) hc

/-- No commit draws a temporary name in use, and what else Raft commits takes no path away. -/
def Event.KeepsPaths (cfg : Config) (s : State) : Event → Prop
  | .openLock _ path answer | .write _ path _ answer => ∀ random, answer = .committed random →
    FreshTemp s.files (cfg.mappedPath path) random
  | .replicate files => Persists cfg s.files files
  | _ => True

theorem persists_next (hs : s.WellFormed) (ha : s.Aligned cfg) (he : e.KeepsPaths cfg s)
    (h : next cfg s e = some s') : Persists cfg s.files s'.files := by
  rcases files_cases hs ha h with
    hf | rfl | ⟨c, path, content, random, ⟨rfl, -⟩ | ⟨rfl, -⟩, hc⟩
  · exact fun p hp => hf ▸ hp
  · exact he
  · exact persists_commitWrite (he random rfl) hc
  · exact persists_commitWrite (he random rfl) hc

/-- What a shared lock covers reads the same after the step. -/
theorem readContent_careful (hs : s.WellFormed) (ha : s.Aligned cfg) (hcare : Careful cfg s e s')
    (h : next cfg s e = some s') (hown : Owns s c path .shared) {content : Str}
    (hr : readContent cfg s.files path = .ok content) :
    readContent cfg s'.files path = .ok content := by
  rcases files_careful hs ha hcare h with hf | ⟨q, content', random, hplain, hno, hc⟩
  · rwa [hf]
  have hne : path ≠ q := by
    rintro rfl
    exact hno c hown
  obtain ⟨hdir, hsome, hkept⟩ := commitWrite_spares (mappedPath_ne_nil cfg q)
    (hplain.fresh random rfl) hc
  exact readContent_mono hdir hsome (hkept _ (hplain.spelled path hown.mem_locks hne)) hr

end Step

section Runs

variable {cfg : Config} {s s' : State} {c path : Str}

theorem careful_next {e : Event} (hI : s.WellFormed ∧ s.Aligned cfg) (hcare : Careful cfg s e s')
    (h : next cfg s e = some s') : s'.WellFormed ∧ s'.Aligned cfg :=
  ⟨wellFormed_next hI.1 h,
    aligned_next hI.1 hI.2 (persists_careful hI.1 hI.2 hcare h) h⟩

theorem aligned_initial (files : FileTree) : (State.initial files).Aligned cfg :=
  fun {l lock c} h => by simp [State.initial] at h

theorem readContent_of_read {content : Str} (h : (read cfg s c path).1 = .ok (.ok, content)) :
    readContent cfg s.files path = .ok content := by
  unfold read withSession at h
  split at h
  · simp [noSession] at h
  split at h
  · simp at h
  dsimp only at h
  split at h
  · simp at h
  · rename_i content' hr
    split at h
    · simp at h
    · rw [hr]
      exact congrArg Except.ok (Prod.mk.inj (Except.ok.inj h)).2

/-- In a run whose steps are all careful, shared locks protect their owners. -/
theorem protectsReaders {files : FileTree} {es : List Event}
    (h : Run.Along (next cfg) (Careful cfg) (.initial files) es) :
    ProtectsReaders cfg (.initial files) es := by
  have hinit : (State.initial files).WellFormed ∧ (State.initial files).Aligned cfg :=
    ⟨.initial files, aligned_initial files⟩
  constructor
  · refine Run.Along.imp (I := fun t => t.WellFormed ∧ t.Aligned cfg) ?_ hinit h
    rintro t e t' hI hcare hn
    refine ⟨careful_next hI hcare hn, ?_⟩
    rintro c path content answer rfl hok
    exact write_owns hI.1 hI.2 hcare hok
  rintro es₁ es₂ es₃ s₁ s₂ rfl h₁ h₂ c path hshared
  obtain ⟨hcare₁, hcare⟩ := h.of_append h₁
  have hI₁ : s₁.WellFormed ∧ s₁.Aligned cfg := by
    refine Run.invariant (I := fun t => t.WellFormed ∧ t.Aligned cfg) ?_ hinit hcare₁ h₁
    exact fun t e t' hI hP hn => careful_next hI hP hn
  have hcare₂ := (hcare.of_append h₂).1.and hshared
  constructor
  · refine Run.Along.imp (I := fun t => t.WellFormed ∧ t.Aligned cfg) ?_ hI₁ hcare₂
    rintro t e t' hI hP hn
    refine ⟨careful_next hI hP.1 hn, ?_⟩
    rintro d content answer rfl hok
    cases (write_owns hI.1 hI.2 hP.1 hok).mode_unique hP.2
  · intro x y hx hy
    have hr : (s₂.WellFormed ∧ s₂.Aligned cfg) ∧ readContent cfg s₂.files path = .ok x := by
      refine Run.invariant (I := fun t => (t.WellFormed ∧ t.Aligned cfg) ∧
        readContent cfg t.files path = .ok x) ?_ ⟨hI₁, readContent_of_read hx⟩ hcare₂ h₂
      exact fun t e t' hI hP hn => ⟨careful_next hI.1 hP.1 hn,
        readContent_careful hI.1.1 hI.1.2 hP.1 hn hP.2 hI.2⟩
    exact Except.ok.inj (hr.2.symm.trans (readContent_of_read hy))

theorem protectsReaders_opened : ProtectsReaders sampleConfig (.initial .empty)
    [.initSession true [1] 0, .openLock [1] (ascii ['b']) (.committed 7),
      .acquireLock [1] (ascii ['b']) .shared, .read [1] (ascii ['b'])] := by
  refine protectsReaders fun s₁ h₁ => ⟨trivial, fun s₂ _ => ⟨fun _ _ => ⟨?_, ?_⟩,
    fun s₃ _ => ⟨trivial, fun s₄ _ => ⟨trivial, trivial⟩⟩⟩⟩
  · obtain rfl : (State.initial .empty).start [1] 0 = s₁ := Option.some.inj h₁
    rintro random hrandom
    obtain rfl : 7 = random := by simpa using hrandom
    decide
  · obtain rfl : (State.initial .empty).start [1] 0 = s₁ := Option.some.inj h₁
    intro p hp
    simp [State.start, State.initial] at hp

/-- One that owns `a` in shared mode writes it. -/
theorem not_protectsReaders_shared_writer :
    ¬ ProtectsReaders sampleConfig (.initial (sampleFiles [ascii ['a']]))
      [.initSession true [1] 0, .acquireLock [1] (ascii ['a']) .shared,
        .write [1] (ascii ['a']) [5] (.committed 7)] := by
  intro h
  obtain ⟨s, hs, hf⟩ := (Option.any_eq_true _ _).mp (by decide :
    (Run.run (next sampleConfig) (.initial (sampleFiles [ascii ['a']]))
      [.initSession true [1] 0, .acquireLock [1] (ascii ['a']) .shared]).any
      fun s => (write sampleConfig s [1] (ascii ['a']) [5] (.committed 7)).1 = .ok .ok ∧
        (s.lockOf (ascii ['a'])).any fun lock => lock.status = .shared)
  simp only [decide_eq_true_eq] at hf
  obtain ⟨lock, hlock, hst⟩ := (Option.any_eq_true _ _).mp hf.2
  obtain ⟨s₁, h₁, hs⟩ := Run.run_cons_eq_some.mp hs
  obtain ⟨s₂, h₂, hs⟩ := Run.run_cons_eq_some.mp hs
  obtain rfl : s₂ = s := by simpa [Run.run] using hs
  have h₃ : next sampleConfig s₂ (.write [1] (ascii ['a']) [5] (.committed 7)) =
      some (write sampleConfig s₂ [1] (ascii ['a']) [5] (.committed 7)).2 := by
    rcases hw : write sampleConfig s₂ [1] (ascii ['a']) [5] (.committed 7) with ⟨r, t⟩
    obtain rfl : r = .ok .ok := by simpa [hw] using hf.1
    rw [next, hw, Result.survivor]
  obtain ⟨lock', hlock', hst', -⟩ :=
    ((((h.writes s₁ h₁).2 s₂ h₂).2 _ h₃).1) _ _ _ _ rfl hf.1
  obtain rfl := Option.some.inj (hlock.symm.trans hlock')
  simp [hst'] at hst

end Runs

end LockService
