import LockService.Snapshots

/-!
# Replaying the log

A server commits the entries of the log one after the other (`replay`). A commit makes the
directories of its path and puts the file in place, or throws, or leaves its temporary file
(`commitFiles_cases`). Where it goes through by way of a name that is free, it leaves just the
directories and the file (`Installs.paint`).
-/

namespace LockService

open FileTree

/-- An entry of the log: a payload that `enc_log` could encode. -/
structure Entry where
  payload : OpPayload
  fits : payload.Fits

namespace Entry

variable (cfg : Config) (e : Entry)

/-- The buffer in the log. -/
def data : List UInt8 := (encLog e.payload).get ((isSome_encLog _).mpr e.fits)

def mapped : List Name := cfg.mappedPath e.payload.path

def dirs : List Location := madeDirs (e.mapped cfg)

def file : Location := cfg.fileOf e.payload.path

/-- The directories and the file. -/
def stops : List Location := visited [] (cfg.cPath e.payload.path)

def temp (random : ℕ) : Option Location := tempFile (e.mapped cfg) random

/-- Whether the mapped path ends in a name. -/
def Named : Prop := Ordinary ((cfg.cPath e.payload.path).getLastD [])

theorem decLog_data : decLog e.data = some e.payload := decLog_encLog (Option.some_get _).symm

variable {cfg e}

theorem dirs_cases (e : Entry) :
    (∀ cfg : Config, e.dirs cfg = e.stops cfg) ∨
      ∀ cfg : Config, e.dirs cfg = visited [] (cfg.cPath e.payload.path).dropLast :=
  (dirPath_cases e.payload.path).imp (fun h cfg => congrArg (visited []) (h cfg))
    fun h cfg => congrArg (visited []) (h cfg)

end Entry

/-- The places a path passes, and its end. -/
theorem visited_cPath (cfg : Config) (path : Str) : visited [] (cfg.cPath path) =
    visited [] (cfg.cPath path).dropLast ++ [cfg.fileOf path] := by
  obtain ⟨dir, name, h⟩ : ∃ dir name, cfg.cPath path = dir ++ [name] :=
    ⟨_, _, (List.dropLast_append_getLast (cPath_ne_nil cfg path)).symm⟩
  rw [Config.fileOf, h, visited_concat, List.dropLast_concat, lexical_concat]

theorem Entry.mem_stops {cfg : Config} {e : Entry} {a : Location} :
    a ∈ e.stops cfg ↔ a ∈ e.dirs cfg ∨ a = e.file cfg := by
  have hstops : e.stops cfg = visited [] (cfg.cPath e.payload.path).dropLast ++ [e.file cfg] :=
    visited_cPath cfg e.payload.path
  rcases e.dirs_cases with h | h
  · rw [h, hstops, List.mem_append, List.mem_singleton]
    tauto
  · rw [h, hstops, List.mem_append, List.mem_singleton]

/-- What the host of a server decides at the commit of an index: the number `rand()` yields, and
the term under which Raft takes a snapshot afterwards, if it takes one. -/
structure Host where
  rand : ℕ → ℕ
  snapshotTerm : ℕ → Option ℕ

/-- One commit, and the snapshot after it. -/
def advance (cfg : Config) (host : Host) (idx : ℕ) (e : Entry) (sm : StateMachine) :
    Except Fault StateMachine := do
  let sm ← sm.commit cfg idx e.data (host.rand idx)
  return match host.snapshotTerm idx with
    | none => sm
    | some term => sm.createSnapshotInternal ⟨idx, term⟩

/-- The entries after index `idx` are committed, one by one. -/
def replay (cfg : Config) (host : Host) :
    ℕ → List Entry → StateMachine → Except Fault StateMachine
  | _, [], sm => .ok sm
  | idx, e :: es, sm => (advance cfg host (idx + 1) e sm).bind (replay cfg host (idx + 1) es)

section Replay

variable {cfg : Config} {host : Host} {idx : ℕ} {e : Entry} {es : List Entry}
  {sm sm' : StateMachine}

/-- A commit changes the files as `commitFiles` does, and keeps the path. -/
theorem advance_cases (cfg : Config) (host : Host) (idx : ℕ) (e : Entry) (sm : StateMachine) :
    (∃ f, commitFiles cfg sm.files e.payload (host.rand idx) = .error f ∧
        advance cfg host idx e sm = .error f) ∨
      ∃ sm', advance cfg host idx e sm = .ok sm' ∧
        commitFiles cfg sm.files e.payload (host.rand idx) = .ok sm'.files ∧
        sm'.curValue = some e.payload.path ∧
        ∀ k ∈ sm'.snapshots, k ∈ sm.snapshots ∨ k = idx := by
  unfold advance StateMachine.commit
  simp only [e.decLog_data]
  rcases commitFiles cfg sm.files e.payload (host.rand idx) with f | files
  · exact .inl ⟨f, rfl, rfl⟩
  right
  rcases host.snapshotTerm idx with _ | term
  · exact ⟨_, rfl, rfl, rfl, fun k hk => .inl hk⟩
  · refine ⟨_, rfl, rfl, rfl, fun k hk => ?_⟩
    rw [← StateMachine.mem_indices, indices_createSnapshotInternal] at hk
    rcases Finset.mem_insert.mp (greatest_subset hk) with hk | hk
    · exact .inr hk
    · exact .inl (StateMachine.mem_indices.mp hk)

theorem replay_curValue :
    ∀ (es : List Entry) {idx : ℕ} {sm : StateMachine}, replay cfg host idx es sm = .ok sm' →
      sm'.curValue = (es.getLast?.map fun e => e.payload.path).or sm.curValue ∧
        ((∀ k ∈ sm.snapshots, k ≤ idx) → ∀ k ∈ sm'.snapshots, k ≤ idx + es.length)
  | [], idx, sm, h => by
    simp only [replay, Except.ok.injEq] at h
    subst h
    exact ⟨rfl, fun h => h⟩
  | e :: es, idx, sm, h => by
    rw [replay] at h
    rcases advance_cases cfg host (idx + 1) e sm with
      ⟨f, -, herr⟩ | ⟨sm₁, hok, -, hv, hk⟩
    · simp [herr, Except.bind] at h
    · simp only [hok, Except.bind] at h
      obtain ⟨hv', hk'⟩ := replay_curValue es h
      refine ⟨?_, fun hidx k hmem => ?_⟩
      · rw [hv', hv]
        rcases es with _ | ⟨e', es⟩
        · rfl
        · simp [List.getLast?_cons]
      · have := hk' (fun k hk₁ => (hk k hk₁).elim (fun h => (hidx k h).trans (by omega)) (by omega))
          k hmem
        rw [List.length_cons]
        omega

/-- `commitWrite_cases` of an entry. -/
theorem commitFiles_cases {files : FileTree} {random : ℕ} (he : e.payload.type = .write)
    (hfree : TempFree files (e.mapped cfg) random) :
    (∃ a ∈ e.dirs cfg, ∃ c, files.node a = some (.file c)) ∧
        commitFiles cfg files e.payload random = .error .filesystem ∨
      (∀ a ∈ e.dirs cfg, ∀ c, files.node a ≠ some (.file c)) ∧
        ∃ files', commitFiles cfg files e.payload random = .ok files' ∧
          ((Lands files (e.mapped cfg) ∧ ∀ a, files'.node a =
              if a = e.file cfg then some (.file e.payload.content)
              else if e.temp cfg random = some a then none
              else if a ∈ e.dirs cfg then some .dir else files.node a) ∨
            ¬ Lands files (e.mapped cfg) ∧ ∀ a, files'.node a =
              if e.temp cfg random = some a then some (.file e.payload.content)
              else if a ∈ e.dirs cfg then some .dir else files.node a) := by
  rw [commitFiles, he]
  exact commitWrite_cases e.payload.content (mappedPath_ne_nil cfg e.payload.path) hfree

end Replay

section Clear

variable (cfg : Config)

/-- The write goes through: its path ends in a name, no regular file is on the way and no directory
in its place, and nobody has the temporary file's name. -/
structure Installs (e : Entry) (random : ℕ) (files : FileTree) : Prop where
  named : e.Named cfg
  apart : e.file cfg ∉ e.dirs cfg
  target : files.node (e.file cfg) ≠ some .dir
  way : ∀ a ∈ e.dirs cfg, files.node a = none ∨ files.node a = some .dir
  fresh : FreshTemp files (e.mapped cfg) random

instance (e : Entry) (random : ℕ) (files : FileTree) : Decidable (Installs cfg e random files) :=
  decidable_of_iff (Ordinary ((cfg.cPath e.payload.path).getLastD []) ∧
      files.node (e.file cfg) ≠ some .dir ∧ FreshTemp files (e.mapped cfg) random ∧
      ∀ a ∈ e.dirs cfg, a ≠ e.file cfg ∧ (files.node a = none ∨ files.node a = some .dir))
    ⟨fun ⟨hnamed, htarget, hfresh, hdirs⟩ => ⟨hnamed, fun h => (hdirs _ h).1 rfl, htarget,
        fun a ha => (hdirs a ha).2, hfresh⟩,
      fun h => ⟨h.named, h.target, h.fresh, fun a ha => ⟨ne_of_mem_of_not_mem ha h.apart,
        h.way a ha⟩⟩⟩

/-- What a write that goes through leaves where it passes. -/
def Entry.paint (e : Entry) (node : Location → Option Node) (a : Location) : Option Node :=
  if a = e.file cfg then some (.file e.payload.content)
  else if a ∈ e.dirs cfg then some .dir else node a

/-- Every write of the replay goes through. -/
def Clear (host : Host) : ℕ → List Entry → StateMachine → Prop
  | _, [], _ => True
  | idx, e :: es, sm =>
    (e.payload.type = .write → Installs cfg e (host.rand (idx + 1)) sm.files) ∧
      ∀ sm', advance cfg host (idx + 1) e sm = .ok sm' → Clear host (idx + 1) es sm'

variable {cfg} {host : Host} {e : Entry} {random : ℕ} {files files' : FileTree} {path : Str}

/-- A write that goes through leaves its directories and its file, and nothing else. -/
theorem Installs.paint (h : Installs cfg e random files) (he : e.payload.type = .write) :
    ∃ files', commitFiles cfg files e.payload random = .ok files' ∧
      ∀ a, files'.node a = e.paint cfg files.node a := by
  rcases commitFiles_cases he h.fresh.tempFree with ⟨⟨a, ha, c, hc⟩, -⟩ | ⟨-, files', hok, hn⟩
  · rcases h.way a ha with hw | hw <;> simp [hw] at hc
  rcases hn with ⟨-, hnode⟩ | ⟨hno, -⟩
  · refine ⟨files', hok, fun a => ?_⟩
    rw [hnode, Entry.paint]
    by_cases hf : a = e.file cfg
    · rw [if_pos hf, if_pos hf]
    rw [if_neg hf, if_neg hf]
    by_cases ht : e.temp cfg random = some a
    · obtain ⟨hown, hnone⟩ := h.fresh a ht
      rw [if_pos ht, hnone]
      exact (if_neg hown).symm
    · rw [if_neg ht]
  · exact absurd ⟨h.named, h.apart, h.target⟩ hno

/-- It takes nothing away, and leaves the directories there were. -/
theorem Installs.keeps (h : Installs cfg e random files)
    (hnode : ∀ a, files'.node a = e.paint cfg files.node a) :
    (∀ a, files.node a = some .dir → files'.node a = some .dir) ∧
      ∀ a, (files.node a).isSome → (files'.node a).isSome := by
  refine ⟨fun a ha => ?_, fun a ha => ?_⟩
  · have hf : a ≠ e.file cfg := fun hf => h.target (hf ▸ ha)
    rw [hnode, Entry.paint, if_neg hf, ha, ite_self]
  · rw [hnode, Entry.paint]
    split_ifs <;> simp [ha]

/-- A commit that is clear: a write is painted, and any other entry does nothing. -/
theorem advance_clear {idx : ℕ} {sm : StateMachine}
    (h : e.payload.type = .write → Installs cfg e (host.rand idx) sm.files) :
    ∃ sm', advance cfg host idx e sm = .ok sm' ∧
      (e.payload.type = .write ∧ (∀ a, sm'.files.node a = e.paint cfg sm.files.node a) ∨
        e.payload.type ≠ .write ∧ sm'.files = sm.files) := by
  by_cases he : e.payload.type = .write
  · obtain ⟨files, hok, hnode⟩ := (h he).paint he
    rcases advance_cases cfg host idx e sm with ⟨f, hf, -⟩ | ⟨sm', hsm, hc, -⟩
    · simp [hok] at hf
    · obtain rfl : files = sm'.files := by simpa [hok] using hc
      exact ⟨sm', hsm, .inl ⟨he, hnode⟩⟩
  · have hkeep : commitFiles cfg sm.files e.payload (host.rand idx) = .ok sm.files := by
      unfold commitFiles
      split
      · contradiction
      · rfl
    rcases advance_cases cfg host idx e sm with ⟨f, hf, -⟩ | ⟨sm', hsm, hc, -⟩
    · simp [hkeep] at hf
    · exact ⟨sm', hsm, .inr ⟨he, by simpa [hkeep, eq_comm] using hc⟩⟩

end Clear

end LockService
