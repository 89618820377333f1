import LockService.Runs
import LockService.StateMachine

/-!
# Paths and the data directory

A path is mapped by appending it, so it leads under the server's own directory as long as it is
relative and at no point goes up further than it went down (`confined_of_staysBelow`). Nothing
checks that it does: an absolute path replaces the directory, and one that goes up leaves it for
good on a server whose id is not among its segments (`confined_iff`).
-/

namespace LockService

open FileTree

/-- A location in the server's own directory. -/
def Config.Inside (cfg : Config) (a : Location) : Prop := lexical [] cfg.baseDirectory <+: a

instance (cfg : Config) (a : Location) : Decidable (cfg.Inside a) :=
  inferInstanceAs (Decidable (_ <+: _))

/-- What a commit changes is a directory of the path, or at or under the temporary file or the
file. -/
theorem commitWrite_changes {files files' : FileTree} {mapped : List Name} {content : Str}
    {random : ℕ} (hne : mapped ≠ []) (h : commitWrite files mapped content random = .ok files')
    {a : Location} (ha : files'.node a ≠ files.node a) :
    a ∈ madeDirs mapped ∨ (∃ t ∈ tempFile mapped random, t <+: a) ∨
      Ordinary ((cSegments mapped).getLastD []) ∧ endOf mapped <+: a := by
  by_contra! hno
  obtain ⟨hv, ht, hf⟩ := hno
  refine ha ?_
  rcases hd : files.createDirectories [] (cSegments mapped.dropLast) with _ | files₁
  · simp [commitWrite, hd] at h
  have hmade : files₁.node a = files.node a := by
    rw [createDirectories_node _ hd]
    exact if_neg hv
  by_cases hnul : HasNul mapped
  · obtain ⟨files₂, hok, hnode⟩ := @commitWrite_cut _ random content _ _ hnul hd
    obtain rfl : files₂ = files' := by simpa [hok] using h
    rw [hnode, if_neg, hmade]
    rintro ⟨rfl, hord, -⟩
    exact hf hord List.prefix_rfl
  obtain ⟨dir, name, rfl⟩ : ∃ dir name, mapped = dir ++ [name] :=
    ⟨_, _, (List.dropLast_append_getLast hne).symm⟩
  rw [List.dropLast_concat, cSegments_of_notMem (notMem_of_plain hnul).1] at hd
  have htemp : lexical [] (dir ++ [tempName name random]) = tempLocation dir name random := by
    rw [lexical_concat, step_ordinary _ (tempName_ordinary name random), tempLocation]
  have hta : ¬ lexical [] (dir ++ [tempName name random]) <+: a :=
    htemp ▸ ht _ (tempFile_plain hnul random)
  have hwritten := @node_write files₁ _ content a fun he => hta (he ▸ List.prefix_rfl)
  rw [endOf, cSegments_plain hnul] at hf
  rw [commitWrite_plain hnul] at h
  simp only [hd, Except.ok.injEq] at h
  rcases hr : (files₁.write (dir ++ [tempName name random]) content).rename
      (dir ++ [tempName name random]) (dir ++ [name]) with _ | files₂
  · rw [← h, hr, Option.getD_none, hwritten, hmade]
  · rw [← h, hr, Option.getD_some, node_rename hr hta hf, hwritten, hmade]

/-- The path stays in the server's own directory: what `is_exists` and `read_content` look at, the
directories, the temporary file and the file of a commit, and all that a commit changes, but for
the way to that directory itself. -/
structure Confined (cfg : Config) (path : Str) : Prop where
  looked : cfg.Inside (cfg.fileOf path)
  directories : ∀ a ∈ madeDirs (cfg.mappedPath path),
    cfg.Inside a ∨ a ∈ visited [] cfg.baseDirectory
  temporary : ∀ random, ∀ a ∈ tempFile (cfg.mappedPath path) random, cfg.Inside a
  changes : ∀ files content random files',
    commitFiles cfg files ⟨.write, path, content⟩ random = .ok files' →
    ∀ a, files'.node a ≠ files.node a → cfg.Inside a ∨ a ∈ visited [] cfg.baseDirectory

variable {cfg : Config} {path : Str}

theorem baseDirectory_eq (cfg : Config) :
    ∃ parent, cfg.baseDirectory = parent ++ [decimal cfg.serverId] ∧
      lexical [] cfg.baseDirectory = lexical [] parent ++ [decimal cfg.serverId] := by
  obtain ⟨parent, h⟩ := baseDirectory_onServer cfg
  refine ⟨parent, h cfg.serverId, ?_⟩
  show lexical [] (cfg.onServer cfg.serverId).baseDirectory = _
  rw [h, lexical_append]
  exact step_ordinary _ (decimal_name _).1

theorem mappedPath_of_relative (h : isAbsolute path = false) :
    cfg.mappedPath path = cfg.baseDirectory ++ segments path := by
  obtain ⟨parent, hb, -⟩ := baseDirectory_eq cfg
  rw [Config.mappedPath, concatenatePath, if_neg (by simp [h]), hb, List.getLast?_concat,
    if_neg (by simpa using (decimal_name cfg.serverId).1.1)]

theorem staysBelow_dropLast :
    ∀ {segs : List Name} {n : ℕ}, StaysBelow n segs → StaysBelow n segs.dropLast
  | [], _, h => h
  | [_], _, _ => trivial
  | seg :: seg' :: segs, n, h => by
    rw [List.dropLast_cons_cons]
    rw [StaysBelow] at h ⊢
    split_ifs at h ⊢
    · exact staysBelow_dropLast h
    · exact ⟨h.1, staysBelow_dropLast h.2⟩
    · exact staysBelow_dropLast h

theorem cPath_of_relative (h : isAbsolute path = false) :
    cfg.cPath path = cfg.baseDirectory ++ segments (cString path) := by
  rw [cPath_eq, mappedPath_of_relative (by rwa [isAbsolute_cString])]

theorem confined_of_staysBelow (hr : isAbsolute path = false)
    (hs : StaysBelow 0 (segments (cString path))) : Confined cfg path := by
  have hpath := @cPath_of_relative cfg path hr
  have hbase : lexical [] cfg.baseDirectory <+: lexical [] cfg.baseDirectory := List.prefix_rfl
  obtain ⟨hfile, hstops⟩ := prefix_of_staysBelow _ hs hbase rfl
  have hlooked : cfg.Inside (cfg.fileOf path) := by
    rw [Config.Inside, Config.fileOf, hpath, lexical_append]
    exact hfile
  have hdirectories : ∀ a ∈ madeDirs (cfg.mappedPath path),
      cfg.Inside a ∨ a ∈ visited [] cfg.baseDirectory := by
    intro a ha
    have hv : a ∈ visited [] (cfg.cPath path) := by
      rcases dirPath_cases path with h | h
      · rwa [madeDirs, h] at ha
      · rw [madeDirs, h] at ha
        exact visited_mono (List.dropLast_prefix _) ha
    rw [hpath, visited_append, List.mem_append] at hv
    exact hv.symm.imp (hstops a) id
  have htemporary : ∀ random, ∀ t ∈ tempFile (cfg.mappedPath path) random, cfg.Inside t := by
    intro random t ht
    unfold tempFile at ht
    split_ifs at ht with hnul
    · cases ht
    obtain rfl := Option.some.inj ht
    have hmapped : cfg.mappedPath path = cfg.baseDirectory ++ segments (cString path) := by
      rw [← hpath, Config.cPath, cSegments_of_notMem fun name hn h0 => hnul ⟨name, hn, h0⟩]
    rw [Config.Inside, tempLocation, hmapped, List.dropLast_append_of_ne_nil (segments_ne_nil _),
      lexical_append]
    exact (prefix_of_staysBelow _ (staysBelow_dropLast hs) hbase rfl).1.trans
      (List.prefix_append _ _)
  refine ⟨hlooked, hdirectories, htemporary, fun files content random files' h a ha => ?_⟩
  rcases commitWrite_changes (mappedPath_ne_nil cfg path) h ha with h | ⟨t, ht, h⟩ | ⟨-, h⟩
  · exact hdirectories a h
  · exact .inl ((htemporary random t ht).trans h)
  · exact .inl (hlooked.trans h)

/-- A path that leads elsewhere, or that goes up past its start, ends outside, unless it has the
name of the server's own directory. -/
theorem not_inside (h : ¬ (isAbsolute path = false ∧ StaysBelow 0 (segments (cString path))))
    (hn : decimal cfg.serverId ∉ segments (cString path)) :
    ¬ cfg.Inside (cfg.fileOf path) := by
  obtain ⟨parent, -, hb⟩ := baseDirectory_eq cfg
  unfold Config.Inside Config.fileOf
  rw [hb]
  by_cases hr : isAbsolute path = false
  · rw [cPath_of_relative hr, lexical_append, hb]
    exact not_prefix_of_climbs _ hn (fun hs => h ⟨hr, hs⟩) List.prefix_rfl (by simp)
  · rw [cPath_eq, Config.mappedPath, concatenatePath, isAbsolute_cString,
      if_pos (by simpa using hr)]
    exact not_prefix_lexical _ hn (by simp)

/-- Some server's id is not among the segments. -/
theorem exists_decimal_notMem (segs : List Name) : ∃ n, decimal n ∉ segs := by
  refine ⟨10 ^ (segs.flatten.length + 1), fun h => ?_⟩
  have hlong : ¬ (Nat.toDigits 10 (10 ^ (segs.flatten.length + 1))).length ≤
      segs.flatten.length + 1 := by
    rw [Nat.length_toDigits_le_iff (by omega) (by omega)]
    omega
  have hle := (List.sublist_flatten_of_mem h).length_le
  rw [decimal, List.length_map] at hle
  omega

/-- A path is confined on every server, wherever its directories are, just when it is relative and
does not go up past its start before a NUL ends it. -/
theorem confined_iff (cfg : Config) (path : Str) :
    (∀ i, Confined (cfg.onServer i) path) ↔
      isAbsolute path = false ∧ StaysBelow 0 (segments (cString path)) := by
  refine ⟨fun h => ?_, fun h i => confined_of_staysBelow h.1 h.2⟩
  by_contra hs
  obtain ⟨n, hn⟩ := exists_decimal_notMem (segments (cString path))
  have hno : ¬ (cfg.onServer n).Inside ((cfg.onServer n).fileOf path) := not_inside hs hn
  exact hno (h n).looked

/-- A path that goes up once is read and written among the servers' directories, an absolute one
wherever it says. -/
theorem not_confined_up_or_absolute :
    ¬ Confined sampleConfig (ascii ['.', '.', '/', 'x']) ∧
      ¬ Confined sampleConfig (ascii ['/', 'x']) := by
  refine ⟨fun h => absurd h.looked ?_, fun h => absurd h.looked ?_⟩
  · decide
  · decide

end LockService
