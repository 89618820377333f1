import LockService.Lib.LastPut
import LockService.Readers
import LockService.ReadBack

/-!
# Files as registers

One server's files are registers that its calls write and read: every committed `write` and
`open_lock` puts its content at one place, the path's file or, where that cannot be replaced, the
temporary file (`files_puts`). A read that is answered has what was last put at the path's file,
under whatever spelling and by whichever client (`read_last`).
-/

namespace LockService

open FileTree

/-- Where a commit of a path leaves the content, if it does. -/
def putAt (cfg : Config) (files : FileTree) (path : Str) (random : ℕ) : Option Location :=
  if Lands files (cfg.mappedPath path) then some (cfg.fileOf path)
  else tempFile (cfg.mappedPath path) random

/-- What a call has had committed: the path, the content and the random number drawn. -/
def commits (cfg : Config) (s : State) : Event → Option (Str × Str × ℕ)
  | .openLock c path (.committed random) =>
    if (openLock cfg s c path (.committed random)).1 = .ok .ok then some (path, [], random)
    else none
  | .write c path content (.committed random) =>
    if (write cfg s c path content (.committed random)).1 = .ok .ok then
      some (path, content, random)
    else none
  | _ => none

/-- The event puts a content at a location. -/
def Puts (cfg : Config) (s : State) (e : Event) (a : Location) (content : Str) : Prop :=
  (∃ path random, commits cfg s e = some (path, content, random) ∧
    putAt cfg s.files path random = some a) ∨
  ∃ files, e = .replicate files ∧ content = bytes (files.node a)

section Step

variable {cfg : Config} {s s' : State} {e : Event}

/-- The files change by what the call has had committed, or by what Raft commits besides. -/
theorem files_commits (hs : s.WellFormed) (ha : s.Aligned cfg) (h : next cfg s e = some s') :
    e = .replicate s'.files ∨ (commits cfg s e = none ∧ s'.files = s.files) ∨
      ∃ path content random, commits cfg s e = some (path, content, random) ∧
        commitWrite s.files (cfg.mappedPath path) content random = .ok s'.files := by
  have hother : commits cfg s e = none → (∀ c path answer, e ≠ .openLock c path answer) →
      (∀ c path content answer, e ≠ .write c path content answer) →
      e = .replicate s'.files ∨ (commits cfg s e = none ∧ s'.files = s.files) := by
    intro hno hopen hwrite
    rcases files_cases hs ha h with hf | he | ⟨c, path, content, random, ⟨he, -⟩ | ⟨he, -⟩, -⟩
    · exact .inr ⟨hno, hf⟩
    · exact .inl he
    · exact absurd he (hopen _ _ _)
    · exact absurd he (hwrite _ _ _ _)
  cases e with
  | openLock c path answer =>
    right
    have he := survivor_eq h
    rcases openLock_cases cfg c path hs answer with hr | ⟨ptr, session, files, -, -, hf, hr⟩
    · refine .inl ⟨?_, by rw [← he, hr.2]⟩
      rcases answer with _ | _ | random <;> simp [commits, hr.1]
    rw [hr] at he
    obtain rfl : files = s'.files := congrArg State.files he
    rcases answer with _ | _ | random
    · exact .inl ⟨rfl, Except.ok.inj (hf.symm.trans (appendLog_not_committed (fits_of_appendLog hf)
        (by simp [RaftAnswer.IsCommitted])))⟩
    · exact .inl ⟨rfl, Except.ok.inj (hf.symm.trans (appendLog_not_committed (fits_of_appendLog hf)
        (by simp [RaftAnswer.IsCommitted])))⟩
    · exact .inr ⟨path, [], random, by simp [commits, hr], appendLog_committed hf⟩
  | write c path content answer =>
    right
    have he := survivor_eq h
    rcases write_cases cfg c path hs content answer with
      hr | ⟨ptr, session, l, lock, files, -, -, -, hf, hr⟩
    · refine .inl ⟨?_, by rw [← he, hr.2]⟩
      rcases answer with _ | _ | random <;> simp [commits, hr.1]
    rw [hr] at he
    obtain rfl : files = s'.files := congrArg State.files he
    rcases answer with _ | _ | random
    · exact .inl ⟨rfl, Except.ok.inj (hf.symm.trans (appendLog_not_committed (fits_of_appendLog hf)
        (by simp [RaftAnswer.IsCommitted])))⟩
    · exact .inl ⟨rfl, Except.ok.inj (hf.symm.trans (appendLog_not_committed (fits_of_appendLog hf)
        (by simp [RaftAnswer.IsCommitted])))⟩
    · exact .inr ⟨path, content, random, by simp [commits, hr], appendLog_committed hf⟩
  | _ => exact (hother rfl (by simp) (by simp)).imp_right .inl

/-- What a commit leaves to be read where: a directory that is made reads as nothing does. -/
theorem bytes_commitWrite {files files' : FileTree} {path content : Str} {random : ℕ}
    (hfresh : FreshTemp files (cfg.mappedPath path) random)
    (h : commitWrite files (cfg.mappedPath path) content random = .ok files') (a : Location) :
    bytes (files'.node a) =
      if putAt cfg files path random = some a then content else bytes (files.node a) := by
  rcases commitWrite_cases content (mappedPath_ne_nil cfg path) hfresh.tempFree with
    ⟨-, herr⟩ | ⟨hway, files'', hok, hcases⟩
  · simp [herr] at h
  obtain rfl := Except.ok.inj (hok.symm.trans h)
  have hmade : bytes (if a ∈ madeDirs (cfg.mappedPath path) then some .dir else files.node a) =
      bytes (files.node a) := by
    split_ifs with hv
    · rcases hn : files.node a with _ | _ | c
      · rfl
      · rfl
      · exact absurd hn (hway a hv c)
    · rfl
  rcases hcases with ⟨hlands, hnode⟩ | ⟨hno, hnode⟩
  · rw [hnode, putAt, if_pos hlands]
    by_cases ha : a = cfg.fileOf path
    · rw [if_pos (show a = endOf (cfg.mappedPath path) from ha), if_pos (by rw [ha])]
      rfl
    rw [if_neg (show a ≠ endOf (cfg.mappedPath path) from ha),
      if_neg fun he => ha (Option.some.inj he).symm]
    by_cases ht : tempFile (cfg.mappedPath path) random = some a
    · rw [if_pos ht, (hfresh a ht).2]
    · rw [if_neg ht, hmade]
  · rw [hnode, putAt, if_neg hno]
    by_cases ht : tempFile (cfg.mappedPath path) random = some a
    · rw [if_pos ht, if_pos ht]
      rfl
    · rw [if_neg ht, if_neg ht, hmade]

/-- What has been committed comes of one of two calls. -/
theorem commits_cases {path content : Str} {random : ℕ}
    (h : commits cfg s e = some (path, content, random)) :
    (∃ c, e = .openLock c path (.committed random) ∧ content = [] ∧
        (openLock cfg s c path (.committed random)).1 = .ok .ok) ∨
      ∃ c, e = .write c path content (.committed random) ∧
        (write cfg s c path content (.committed random)).1 = .ok .ok := by
  cases e with
  | openLock c p answer =>
    rcases answer with _ | _ | r <;> simp only [commits, reduceCtorEq] at h
    split_ifs at h with hok
    obtain ⟨rfl, rfl, rfl⟩ := by simpa using h
    exact .inl ⟨c, rfl, rfl, hok⟩
  | write c p v answer =>
    rcases answer with _ | _ | r <;> simp only [commits, reduceCtorEq] at h
    split_ifs at h with hok
    obtain ⟨rfl, rfl, rfl⟩ := by simpa using h
    exact .inr ⟨c, rfl, hok⟩
  | _ => simp [commits] at h

theorem freshTemp_of_commits {path content : Str} {random : ℕ} (hk : e.KeepsPaths cfg s)
    (h : commits cfg s e = some (path, content, random)) :
    FreshTemp s.files (cfg.mappedPath path) random := by
  obtain ⟨c, rfl, -⟩ | ⟨c, rfl, -⟩ := commits_cases h <;> exact hk random rfl

/-- A step leaves under each location what it puts there, and otherwise what there was. -/
theorem files_puts (hs : s.WellFormed) (ha : s.Aligned cfg) (hk : e.KeepsPaths cfg s)
    (h : next cfg s e = some s') (a : Location) :
    Puts cfg s e a (bytes (s'.files.node a)) ∨
      (∀ v, ¬ Puts cfg s e a v) ∧ bytes (s'.files.node a) = bytes (s.files.node a) := by
  rcases files_commits hs ha h with rfl | ⟨hno, hf⟩ | ⟨path, content, random, hc, hcommit⟩
  · exact .inl (.inr ⟨s'.files, rfl, rfl⟩)
  · by_cases he : ∃ files, e = .replicate files
    · obtain ⟨files, rfl⟩ := he
      obtain rfl := Option.some.inj h
      exact .inl (.inr ⟨files, rfl, rfl⟩)
    refine .inr ⟨?_, by rw [hf]⟩
    rintro v (⟨path, random, hc, -⟩ | ⟨files, rfl, -⟩)
    · simp [hno] at hc
    · exact he ⟨files, rfl⟩
  · rw [bytes_commitWrite (freshTemp_of_commits hk hc) hcommit]
    split_ifs with hat
    · exact .inl (.inl ⟨path, random, hc, hat⟩)
    · refine .inr ⟨?_, rfl⟩
      rintro v (⟨path', random', hc', hat'⟩ | ⟨files, rfl, -⟩)
      · obtain ⟨rfl, -, rfl⟩ : path = path' ∧ content = v ∧ random = random' := by
          simpa using hc.symm.trans hc'
        exact hat hat'
      · simp [commits] at hc

end Step

section Runs

variable {cfg : Config} {s : State} {c p content : Str}

/-- What is read was put last at the path's file, or was there from the start. -/
theorem read_last {files : FileTree} {es : List Event}
    (hk : Run.Along (next cfg) (fun s e _ => e.KeepsPaths cfg s) (.initial files) es)
    (h : Run.run (next cfg) (.initial files) es = some s)
    (hr : (read cfg s c p).1 = .ok (.ok, content)) :
    Run.LastPut (next cfg) (Puts cfg) (.initial files) es (cfg.fileOf p) content ∨
      Run.NonePut (next cfg) (Puts cfg) (.initial files) es (cfg.fileOf p) ∧
        content = bytes (files.node (cfg.fileOf p)) := by
  obtain rfl := bytes_of_readContent (readContent_of_read hr)
  have hinit : (State.initial files).WellFormed ∧ (State.initial files).Aligned cfg :=
    ⟨.initial files, aligned_initial files⟩
  refine Run.last_or_kept (fun t a => bytes (t.files.node a))
    (I := fun t => t.WellFormed ∧ t.Aligned cfg) ?_ (cfg.fileOf p) hinit hk h
  intro t e t' hI hk hn
  refine ⟨⟨wellFormed_next hI.1 hn, aligned_next hI.1 hI.2 (persists_next hI.1 hI.2 hk hn) hn⟩,
    fun a => files_puts hI.1 hI.2 hk hn a⟩

/-- Two clients use two spellings of a path, and the one reads what the other wrote. -/
theorem read_last_other_spelling : ∃ s, Run.run (next sampleConfig) (.initial .empty)
      [.initSession true [1] 0, .initSession true [2] 0,
        .openLock [1] (ascii ['b']) (.committed 7), .acquireLock [1] (ascii ['b']) .exclusive,
        .write [1] (ascii ['b']) [5] (.committed 8),
        .acquireLock [2] (ascii ['.', '/', 'b']) .shared] = some s ∧
    (read sampleConfig s [2] (ascii ['.', '/', 'b'])).1 = .ok (.ok, [5]) ∧
    Run.LastPut (next sampleConfig) (Puts sampleConfig) (.initial .empty)
      [.initSession true [1] 0, .initSession true [2] 0,
        .openLock [1] (ascii ['b']) (.committed 7), .acquireLock [1] (ascii ['b']) .exclusive,
        .write [1] (ascii ['b']) [5] (.committed 8),
        .acquireLock [2] (ascii ['.', '/', 'b']) .shared]
      (sampleConfig.fileOf (ascii ['.', '/', 'b'])) [5] := by
  obtain ⟨s, hs, hcheck⟩ := (Option.any_eq_true _ _).mp (by decide +kernel :
    (Run.run (next sampleConfig) (.initial .empty)
      [.initSession true [1] 0, .initSession true [2] 0,
        .openLock [1] (ascii ['b']) (.committed 7), .acquireLock [1] (ascii ['b']) .exclusive,
        .write [1] (ascii ['b']) [5] (.committed 8),
        .acquireLock [2] (ascii ['.', '/', 'b']) .shared]).any fun s =>
      (read sampleConfig s [2] (ascii ['.', '/', 'b'])).1 = .ok (.ok, [5]))
  have hread : (read sampleConfig s [2] (ascii ['.', '/', 'b'])).1 = .ok (.ok, [5]) := by
    simpa using hcheck
  refine ⟨s, hs, hread, (read_last ?_ hs hread).resolve_right fun h => ?_⟩
  · refine fun s₁ h₁ => ⟨trivial, fun s₂ h₂ => ⟨trivial, fun s₃ h₃ => ⟨?_, fun s₄ h₄ =>
      ⟨trivial, fun s₅ h₅ => ⟨?_, fun s₆ h₆ => ⟨trivial, trivial⟩⟩⟩⟩⟩⟩
    · obtain rfl := Option.some.inj h₁
      obtain rfl := Option.some.inj h₂
      rintro random ⟨⟩
      decide +kernel
    · obtain rfl := Option.some.inj h₁
      obtain rfl := Option.some.inj h₂
      obtain rfl := Option.some.inj h₃
      obtain rfl := Option.some.inj h₄
      rintro random ⟨⟩
      decide +kernel
  · have hempty :
        bytes (FileTree.empty.node (sampleConfig.fileOf (ascii ['.', '/', 'b']))) = [] := by
      decide +kernel
    simpa [hempty] using h.2

end Runs

end LockService
