import LockService.LogReplay
import LockService.Runs

/-!
# Replicas converge

Two replicas commit the same log, each with the temporary names its own `rand()` makes. While each
commit goes through by way of a name that is free, a temporary file is gone when the commit is
over, so both trees are written in the same places (`Installs.paint`), and paths that lead to
corresponding places on the two are read alike (`inStep_paint`, `readContent_inStep`). A
temporary name that is in use, or a rename that fails, sets them apart.
-/

namespace LockService

open FileTree

/-- A write that goes through does not change what a path to another place reads. -/
theorem readContent_paint {cfg : Config} {e : Entry} {random : ℕ} {files files' : FileTree}
    {path : Str} (h : Installs cfg e random files)
    (hnode : ∀ a, files'.node a = e.paint cfg files.node a) {c : Str}
    (hr : readContent cfg files path = .ok c)
    (hne : cfg.fileOf path ≠ cfg.fileOf e.payload.path) :
    readContent cfg files' path = .ok c := by
  obtain ⟨hdir, hsome⟩ := h.keeps hnode
  refine readContent_mono hdir hsome (fun hs => ?_) hr
  have hd : cfg.fileOf path ≠ e.file cfg := hne
  rw [hnode, Entry.paint, if_neg hd]
  split_ifs with hv
  · rcases h.way _ hv with hn | hn
    · simp [hn] at hs
    · exact hn.symm
  · rfl

section Pairs

variable (cfg : Config) (i j : ℕ) (paths : List Str)

/-- The places two servers pass on a path, in step. -/
def sideBySide (path : Str) : List (Location × Location) :=
  (visited [] ((cfg.onServer i).cPath path)).zip
    (visited [] ((cfg.onServer j).cPath path))

def pairs : List (Location × Location) := ([], []) :: paths.flatMap (sideBySide cfg i j)

/-- Where the paths meet on one server they meet on the other. -/
def Alike : Prop :=
  ∀ ab ∈ pairs cfg i j paths, ∀ cd ∈ pairs cfg i j paths, ab.1 = cd.1 ↔ ab.2 = cd.2

/-- The trees have the same wherever the paths lead. -/
def InStep (node node' : Location → Option Node) : Prop :=
  ∀ ab ∈ pairs cfg i j paths, node ab.1 = node' ab.2

variable {cfg i j paths}

theorem exists_mem_zip {α β : Type*} :
    ∀ (l : List α) (l' : List β), l.length = l'.length →
      (∀ a ∈ l, ∃ b ∈ l', (a, b) ∈ l.zip l') ∧ ∀ b ∈ l', ∃ a ∈ l, (a, b) ∈ l.zip l'
  | [], [], _ => by simp
  | a :: l, b :: l', h => by
    obtain ⟨hl, hr⟩ := exists_mem_zip l l' (Nat.succ.inj h)
    simp only [List.zip_cons_cons, List.mem_cons, forall_eq_or_imp]
    refine ⟨⟨⟨b, .inl rfl, .inl rfl⟩, fun x hx => ?_⟩, ⟨a, .inl rfl, .inl rfl⟩, fun y hy => ?_⟩
    · obtain ⟨y, hy, hmem⟩ := hl x hx
      exact ⟨y, .inr hy, .inr hmem⟩
    · obtain ⟨x, hx, hmem⟩ := hr y hy
      exact ⟨x, .inr hx, .inr hmem⟩

theorem mem_pairs {path : Str} (hp : path ∈ paths) {ab : Location × Location}
    (h : ab ∈ sideBySide cfg i j path) : ab ∈ pairs cfg i j paths :=
  List.mem_cons_of_mem _ (List.mem_flatMap.mpr ⟨_, hp, h⟩)

/-- The last pair is that of the files. -/
theorem sideBySide_eq (path : Str) : sideBySide cfg i j path =
    (visited [] ((cfg.onServer i).cPath path).dropLast).zip
        (visited [] ((cfg.onServer j).cPath path).dropLast) ++
      [((cfg.onServer i).fileOf path, (cfg.onServer j).fileOf path)] := by
  rw [sideBySide, visited_cPath, visited_cPath, List.zip_append]
  · rfl
  · simp [length_cPath_onServer cfg i j]

/-- A directory of a path is on one server what it is on the other. -/
theorem mem_dirs_iff (h : Alike cfg i j paths) {e : Entry} (he : e.payload.path ∈ paths)
    {ab : Location × Location} (hab : ab ∈ pairs cfg i j paths) :
    (ab.1 = e.file (cfg.onServer i) ↔ ab.2 = e.file (cfg.onServer j)) ∧
      (ab.1 ∈ e.dirs (cfg.onServer i) ↔ ab.2 ∈ e.dirs (cfg.onServer j)) := by
  have hpair : ∀ cd ∈ sideBySide cfg i j e.payload.path, cd ∈ pairs cfg i j paths :=
    fun cd hcd => mem_pairs he hcd
  have hzip : ∀ cd ∈ (e.dirs (cfg.onServer i)).zip (e.dirs (cfg.onServer j)),
      cd ∈ pairs cfg i j paths := by
    intro cd hcd
    rcases e.dirs_cases with hd | hd
    · rw [hd, hd] at hcd
      exact hpair cd hcd
    · rw [hd, hd] at hcd
      exact hpair cd (sideBySide_eq e.payload.path ▸ List.mem_append_left _ hcd)
  have hfile : (e.file (cfg.onServer i), e.file (cfg.onServer j)) ∈ pairs cfg i j paths :=
    hpair _ (sideBySide_eq e.payload.path ▸ by simp [Entry.file])
  have hlen : (e.dirs (cfg.onServer i)).length = (e.dirs (cfg.onServer j)).length := by
    rcases e.dirs_cases with hd | hd <;> rw [hd, hd] <;>
      simp [Entry.stops, length_cPath_onServer cfg i j]
  obtain ⟨hleft, hright⟩ := exists_mem_zip _ _ hlen
  refine ⟨h ab hab _ hfile, fun hd => ?_, fun hd => ?_⟩
  · obtain ⟨b, hb, hmem⟩ := hleft _ hd
    exact (h ab hab _ (hzip _ hmem)).mp rfl ▸ hb
  · obtain ⟨a, ha, hmem⟩ := hright _ hd
    exact (h ab hab _ (hzip _ hmem)).mpr rfl ▸ ha

theorem inStep_paint (h : Alike cfg i j paths) {e : Entry} (he : e.payload.path ∈ paths)
    {node node' : Location → Option Node} (hs : InStep cfg i j paths node node') :
    InStep cfg i j paths (e.paint (cfg.onServer i) node) (e.paint (cfg.onServer j) node') := by
  intro ab hab
  obtain ⟨hfile, hdirs⟩ := mem_dirs_iff h he hab
  simp only [Entry.paint, hfile, hdirs, hs ab hab]

/-- Trees that have the same wherever the paths lead are read alike on them. -/
theorem readContent_inStep {files files' : FileTree}
    (hs : InStep cfg i j paths files.node files'.node) {path : Str} (hp : path ∈ paths) :
    isExists (cfg.onServer i) files path = isExists (cfg.onServer j) files' path ∧
      readContent (cfg.onServer i) files path = readContent (cfg.onServer j) files' path := by
  unfold isExists isPresent readContent FileTree.read
  rcases @walk_zip files files' _ _ [] [] (length_cPath_onServer cfg i j path)
      (by simp) (fun ab hab => hs ab (mem_pairs hp hab))
    with ⟨e, h, h'⟩ | ⟨d, d', h, h', hn⟩
  · simp [h, h']
  · simp [h, h', hn, Except.isOk, Except.toBool]

end Pairs

section Runs

variable (cfg : Config) (host : Host)

/-- No commit of the replay changes what a path reads that denotes another file. -/
def SparesOthers : ℕ → List Entry → StateMachine → Prop
  | _, [], _ => True
  | idx, e :: es, sm => ∀ sm', advance cfg host (idx + 1) e sm = .ok sm' →
    (∀ path c, cfg.fileOf path ≠ cfg.fileOf e.payload.path →
      readContent cfg sm.files path = .ok c → readContent cfg sm'.files path = .ok c) ∧
    SparesOthers (idx + 1) es sm'

/-- Two replicas that start empty and commit the entries end with the same at the path, and no
commit on either touches another file. -/
structure Converges (i j : ℕ) (host host' : Host) (es : List Entry) (path : Str) : Prop where
  agree : ∃ sm sm', replay (cfg.onServer i) host 0 es (.initial .empty) = .ok sm ∧
    replay (cfg.onServer j) host' 0 es (.initial .empty) = .ok sm' ∧
    isExists (cfg.onServer i) sm.files path = isExists (cfg.onServer j) sm'.files path ∧
    readContent (cfg.onServer i) sm.files path = readContent (cfg.onServer j) sm'.files path
  spares : SparesOthers (cfg.onServer i) host 0 es (.initial .empty)
  spares' : SparesOthers (cfg.onServer j) host' 0 es (.initial .empty)

variable {cfg host} {i j : ℕ} {host' : Host} {paths : List Str} {path : Str}

theorem sparesOthers_of_clear :
    ∀ (es : List Entry) {idx : ℕ} {sm : StateMachine}, Clear cfg host idx es sm →
      SparesOthers cfg host idx es sm
  | [], _, _, _ => trivial
  | e :: es, idx, sm, h => by
    intro sm' hsm
    refine ⟨fun path c hne hr => ?_, sparesOthers_of_clear es (h.2 sm' hsm)⟩
    obtain ⟨sm₁, hsm₁, hfiles⟩ := advance_clear h.1
    obtain rfl : sm₁ = sm' := by simpa [hsm₁] using hsm
    rcases hfiles with ⟨he, hnode⟩ | ⟨-, hfiles⟩
    · exact readContent_paint (h.1 he) hnode hr hne
    · rwa [hfiles]

/-- Clear replays of one log keep the trees in step. -/
theorem replay_inStep (ha : Alike cfg i j paths) :
    ∀ (es : List Entry) {idx : ℕ} {sm₁ sm₂ : StateMachine},
      (∀ e ∈ es, e.payload.path ∈ paths) → Clear (cfg.onServer i) host idx es sm₁ →
      Clear (cfg.onServer j) host' idx es sm₂ →
      InStep cfg i j paths sm₁.files.node sm₂.files.node →
      ∃ sm sm', replay (cfg.onServer i) host idx es sm₁ = .ok sm ∧
        replay (cfg.onServer j) host' idx es sm₂ = .ok sm' ∧
        InStep cfg i j paths sm.files.node sm'.files.node
  | [], _, sm₁, sm₂, _, _, _, hs => ⟨sm₁, sm₂, rfl, rfl, hs⟩
  | e :: es, idx, sm₁, sm₂, hp, h₁, h₂, hs => by
    simp only [List.mem_cons, forall_eq_or_imp] at hp
    obtain ⟨sm, hsm, hf⟩ := advance_clear h₁.1
    obtain ⟨sm', hsm', hf'⟩ := advance_clear h₂.1
    have hs' : InStep cfg i j paths sm.files.node sm'.files.node := by
      rcases hf with ⟨he, hf⟩ | ⟨he, hf⟩ <;> rcases hf' with ⟨he', hf'⟩ | ⟨he', hf'⟩
      · rw [funext hf, funext hf']
        exact inStep_paint ha hp.1 hs
      · exact absurd he he'
      · exact absurd he' he
      · rwa [hf, hf']
    simp only [replay, hsm, hsm', Except.bind]
    exact replay_inStep ha es hp.2 (h₁.2 sm hsm) (h₂.2 sm' hsm') hs'

theorem converges {es : List Entry}
    (hi : Clear (cfg.onServer i) host 0 es (.initial .empty))
    (hj : Clear (cfg.onServer j) host' 0 es (.initial .empty))
    (ha : Alike cfg i j (path :: es.map fun e => e.payload.path)) :
    Converges cfg i j host host' es path := by
  refine ⟨?_, sparesOthers_of_clear es hi, sparesOthers_of_clear es hj⟩
  have hempty : ∀ ab ∈ pairs cfg i j (path :: es.map fun e => e.payload.path),
      FileTree.empty.node ab.1 = FileTree.empty.node ab.2 := by
    intro ab hab
    have hroot := ha ab hab ([], []) List.mem_cons_self
    by_cases h0 : ab.1 = []
    · rw [h0, hroot.mp h0]
    · rw [node_empty h0, node_empty fun h => h0 (hroot.mpr h)]
  obtain ⟨sm, sm', h, h', hs⟩ := replay_inStep ha es
    (fun e he => List.mem_cons_of_mem _ (List.mem_map_of_mem he)) hi hj hempty
  exact ⟨sm, sm', h, h', readContent_inStep hs List.mem_cons_self⟩

/-- A byte written to `a`. -/
def sampleEntry (content : UInt8) : Entry :=
  ⟨⟨.write, ascii ['a'], [content]⟩, by unfold OpPayload.Fits; simp [ascii]⟩

/-- A host where `rand()` counts on from a number, and Raft takes no snapshot by itself. -/
def sampleHost (n : ℕ) : Host := ⟨fun idx => n + idx, fun _ => none⟩

/-- One write, on servers 1 and 2. -/
theorem converges_one_write :
    Converges sampleConfig 1 2 (sampleHost 0) (sampleHost 10) [sampleEntry 1] (ascii ['a']) :=
  converges ⟨fun _ => by decide, fun _ _ => trivial⟩ ⟨fun _ => by decide, fun _ _ => trivial⟩
    (by unfold Alike; decide)

/-- A log where a path has the name one replica draws for a temporary file. -/
def tempNamedLog : List Entry :=
  [⟨⟨.write, ascii ['a', '_', '5', '.', 't', 'm', 'p'], [1]⟩, by decide⟩, sampleEntry 2]

/-- Where `rand()` yields that number the file is gone, on the other replica it is there. -/
theorem not_converges_temporary_name :
    ¬ ∀ path, Converges sampleConfig 1 2 ⟨fun _ => 5, fun _ => none⟩ ⟨fun _ => 7, fun _ => none⟩
      tempNamedLog path := by
  intro h
  obtain ⟨sm, sm', h₁, h₂, hx, -⟩ := (h (ascii ['a', '_', '5', '.', 't', 'm', 'p'])).agree
  obtain rfl : ((replay (sampleConfig.onServer 1) ⟨fun _ => 5, fun _ => none⟩ 0 tempNamedLog
      (.initial .empty)).toOption).getD (.initial .empty) = sm := by rw [h₁]; rfl
  obtain rfl : ((replay (sampleConfig.onServer 2) ⟨fun _ => 7, fun _ => none⟩ 0 tempNamedLog
      (.initial .empty)).toOption).getD (.initial .empty) = sm' := by rw [h₂]; rfl
  revert hx
  decide

end Runs

end LockService
