import LockService.Lib.FileTree
import LockService.Types

/-!
# Client paths and the data directory

A client's path is appended to the server's own directory, `config->directory/<server_id>`, by
`std::filesystem`: an absolute path replaces it, and nothing is removed from what results, neither
`.` nor `..`. The handlers ask whether a path exists, or read it, at what the file system makes of
that (`is_exists`, `read_content`), and the file system gets it as a C string: paths that agree up
to a first NUL name one file (`cPath_eq`).
-/

namespace LockService

open FileTree

/-- `std::to_string` of a number that is not negative. -/
def decimal (n : ℕ) : Str := (Nat.toDigits 10 n).map fun c => UInt8.ofNat c.toNat

theorem decimal_digit {n : ℕ} {b : UInt8} (h : b ∈ decimal n) : 0x30 ≤ b ∧ b ≤ 0x39 := by
  simp only [decimal, List.mem_map] at h
  obtain ⟨c, hc, rfl⟩ := h
  have hd := Char.isDigit_iff_toNat.mp
    (Nat.isDigit_of_mem_toDigits (by decide) (by decide) hc)
  simp only [Char.reduceToNat] at hd
  simp only [UInt8.le_iff_toNat_le, UInt8.toNat_ofNat', UInt8.reduceToNat]
  omega

/-- What the mapping of a path depends on. -/
structure Config where
  /-- The process's current directory, absolute. -/
  workingDirectory : List Name
  workingDirectory_names : ∀ name ∈ workingDirectory, 0x2F ∉ name ∧ 0 ∉ name
  /-- `config->directory`, an argument of the process and so a C string. -/
  directory : Str
  directory_nul : 0 ∉ directory
  /-- `stuff.server_id_`. -/
  serverId : ℕ

/-- `concatenatePath` on an absolute base: `absolute(base / path)`, in segments. -/
def concatenatePath (base : List Name) (path : Str) : List Name :=
  if isAbsolute path then segments path
  else (if base.getLast? = some [] then base.dropLast else base) ++ segments path

namespace Config

variable (cfg : Config)

/-- The server's own directory of data. -/
def baseDirectory : List Name :=
  concatenatePath (concatenatePath cfg.workingDirectory cfg.directory) (decimal cfg.serverId)

/-- `mapped_path`. -/
def mappedPath (path : Str) : List Name := concatenatePath cfg.baseDirectory path

/-- `mapped_path` as the file system gets it. -/
def cPath (path : Str) : List Name := cSegments (cfg.mappedPath path)

/-- The file a path names, whether or not it is there. -/
def fileOf (path : Str) : Location := lexical [] (cfg.cPath path)

end Config

theorem segments_ne_nil (path : Str) : segments path ≠ [] := by simp [segments]

theorem mappedPath_ne_nil (cfg : Config) (path : Str) : cfg.mappedPath path ≠ [] := by
  unfold Config.mappedPath concatenatePath
  split_ifs <;> simp [segments_ne_nil]

theorem mem_concatenatePath {base : List Name} {path : Str} {name : Name}
    (h : name ∈ concatenatePath base path) : name ∈ base ∨ name ∈ segments path := by
  unfold concatenatePath at h
  split_ifs at h
  · exact .inr h
  · exact (List.mem_append.mp h).imp_left List.mem_of_mem_dropLast
  · exact List.mem_append.mp h

theorem nul_notMem_decimal (n : ℕ) : 0 ∉ decimal n := fun h =>
  absurd (decimal_digit h).1 (by decide)

/-- A NUL in a mapped path is the client's. -/
theorem nul_notMem_baseDirectory (cfg : Config) : ∀ name ∈ cfg.baseDirectory, 0 ∉ name := by
  intro name hn h0
  rcases mem_concatenatePath hn with hn | hn
  · rcases mem_concatenatePath hn with hn | hn
    · exact (cfg.workingDirectory_names name hn).2 h0
    · exact cfg.directory_nul (mem_of_mem_segments hn 0 h0)
  · exact nul_notMem_decimal _ (mem_of_mem_segments hn 0 h0)

theorem nul_notMem_mappedPath {cfg : Config} {path : Str} (h : 0 ∉ path) :
    ∀ name ∈ cfg.mappedPath path, 0 ∉ name := by
  intro name hn h0
  rcases mem_concatenatePath hn with hn | hn
  · exact nul_notMem_baseDirectory cfg name hn h0
  · exact h (mem_of_mem_segments hn 0 h0)

/-- What the file system gets is the path of the C string. -/
theorem cPath_eq (cfg : Config) (path : Str) : cfg.cPath path = cfg.mappedPath (cString path) := by
  have hbase := nul_notMem_baseDirectory cfg
  unfold Config.cPath Config.mappedPath concatenatePath
  rw [isAbsolute_cString, segments_cString]
  split_ifs with ha hb
  · rfl
  · exact cSegments_append (fun name hn => hbase name (List.mem_of_mem_dropLast hn)) _
  · exact cSegments_append hbase _

theorem cPath_ne_nil (cfg : Config) (path : Str) : cfg.cPath path ≠ [] := by
  rw [cPath_eq]
  exact mappedPath_ne_nil cfg _

/-- Where the client's path has a NUL before its last name, its end is the directory it is in. -/
theorem dirPath_cases (path : Str) :
    (∀ cfg : Config, cSegments (cfg.mappedPath path).dropLast = cfg.cPath path) ∨
      ∀ cfg : Config, cSegments (cfg.mappedPath path).dropLast = (cfg.cPath path).dropLast := by
  have hmapped : ∀ cfg : Config, ∃ base, (∀ name ∈ base, 0 ∉ name) ∧
      cfg.mappedPath path = base ++ segments path := by
    intro cfg
    have hbase := nul_notMem_baseDirectory cfg
    unfold Config.mappedPath concatenatePath
    split_ifs
    · exact ⟨[], by simp, rfl⟩
    · exact ⟨_, fun name hn => hbase name (List.mem_of_mem_dropLast hn), rfl⟩
    · exact ⟨_, hbase, rfl⟩
  by_cases h : ∃ name ∈ (segments path).dropLast, 0 ∈ name
  · refine .inl fun cfg => cSegments_dropLast_of_mem ?_
    obtain ⟨base, -, hm⟩ := hmapped cfg
    obtain ⟨name, hn, h0⟩ := h
    refine ⟨name, ?_, h0⟩
    rw [hm, List.dropLast_append_of_ne_nil (segments_ne_nil path)]
    exact List.mem_append_right _ hn
  · refine .inr fun cfg => cSegments_dropLast_of_notMem fun name hn h0 => ?_
    obtain ⟨base, hbase, hm⟩ := hmapped cfg
    rw [hm, List.dropLast_append_of_ne_nil (segments_ne_nil path)] at hn
    rcases List.mem_append.mp hn with hn | hn
    · exact hbase name hn h0
    · exact h ⟨name, hn, h0⟩

theorem segments_of_notMem {path : Str} (h : 0x2F ∉ path) : segments path = [path] := by
  simp [segments, List.splitOn_eq_singleton h]

theorem decimal_name (n : ℕ) : Ordinary (decimal n) ∧ 0x2F ∉ decimal n := by
  have hne : decimal n ≠ [] := by simp [decimal, Nat.toDigits_ne_nil]
  have hdot : 0x2E ∉ decimal n := fun h => absurd (decimal_digit h).1 (by decide)
  refine ⟨⟨hne, fun h => hdot ?_, fun h => hdot ?_⟩,
    fun h => absurd (decimal_digit h).1 (by decide)⟩
  · simp [h, dot]
  · simp [h, dotDot]

/-- The same server but for its id. -/
def Config.onServer (cfg : Config) (serverId : ℕ) : Config := { cfg with serverId }

/-- The data directories of the servers differ in the last name. -/
theorem baseDirectory_onServer (cfg : Config) :
    ∃ parent, ∀ i, (cfg.onServer i).baseDirectory = parent ++ [decimal i] := by
  have habs : ∀ i, isAbsolute (decimal i) = false := by
    intro i
    rcases hd : decimal i with _ | ⟨b, bs⟩
    · rfl
    · have hne : b ≠ 0x2F := fun h => (decimal_name i).2 (by simp [hd, h])
      simp [isAbsolute, hne]
  refine ⟨if (concatenatePath cfg.workingDirectory cfg.directory).getLast? = some []
    then (concatenatePath cfg.workingDirectory cfg.directory).dropLast
    else concatenatePath cfg.workingDirectory cfg.directory, fun i => ?_⟩
  show concatenatePath (concatenatePath cfg.workingDirectory cfg.directory) (decimal i) = _
  generalize concatenatePath cfg.workingDirectory cfg.directory = base
  rw [concatenatePath, if_neg (by simp [habs]), segments_of_notMem (decimal_name i).2]

/-- Servers map a path alike but for the one segment that is their id. -/
theorem mappedPath_onServer (cfg : Config) (path : Str) :
    (∃ segs, ∀ i, (cfg.onServer i).mappedPath path = segs) ∨
      ∃ parent, ∀ i, (cfg.onServer i).mappedPath path = parent ++ decimal i :: segments path := by
  obtain ⟨parent, hbase⟩ := baseDirectory_onServer cfg
  by_cases ha : isAbsolute path = true
  · exact .inl ⟨segments path, fun i => if_pos ha⟩
  · refine .inr ⟨parent, fun i => ?_⟩
    rw [Config.mappedPath, concatenatePath, if_neg ha, hbase, List.getLast?_concat,
      if_neg (by simpa using (decimal_name i).1.1), List.append_assoc, List.singleton_append]

theorem length_cPath_onServer (cfg : Config) (i j : ℕ) (path : Str) :
    ((cfg.onServer i).cPath path).length = ((cfg.onServer j).cPath path).length := by
  rw [cPath_eq, cPath_eq]
  rcases mappedPath_onServer cfg (cString path) with ⟨segs, h⟩ | ⟨parent, h⟩
  · rw [h, h]
  · rw [h, h, List.length_append, List.length_append]
    rfl

/-- `is_exists`. -/
def isExists (cfg : Config) (files : FileTree) (path : Str) : Bool :=
  files.isPresent (cfg.cPath path)

/-- `read_content`. -/
def readContent (cfg : Config) (files : FileTree) (path : Str) : Except Fault Str :=
  match files.read (cfg.cPath path) with
  | some content => .ok content
  | none => .error .openFailed

theorem isExists_iff {cfg : Config} {files : FileTree} {path : Str} :
    isExists cfg files path = true ↔
      files.walk [] (cfg.cPath path) = .ok (cfg.fileOf path) := by
  unfold isExists isPresent
  rcases h : files.walk [] (cfg.cPath path) with e | m
  · simp [Except.isOk, Except.toBool]
  · simp [Except.isOk, Except.toBool, Config.fileOf, ← walk_eq_lexical _ h]

section Mono

variable {cfg : Config} {files files' : FileTree} {path : Str}

/-- Where directories stay directories and nothing goes, paths go on existing. -/
theorem isExists_mono (hdir : ∀ a, files.node a = some .dir → files'.node a = some .dir)
    (hsome : ∀ a, (files.node a).isSome → (files'.node a).isSome)
    (h : isExists cfg files path = true) : isExists cfg files' path = true :=
  isExists_iff.mpr (walk_mono hdir hsome _ (isExists_iff.mp h))

/-- And what a path reads is kept along with its file. -/
theorem readContent_mono (hdir : ∀ a, files.node a = some .dir → files'.node a = some .dir)
    (hsome : ∀ a, (files.node a).isSome → (files'.node a).isSome)
    (hfile : (files.node (cfg.fileOf path)).isSome →
      files'.node (cfg.fileOf path) = files.node (cfg.fileOf path)) {content : Str}
    (h : readContent cfg files path = .ok content) : readContent cfg files' path = .ok content := by
  unfold readContent FileTree.read at h ⊢
  rcases hw : files.walk [] (cfg.cPath path) with f | d
  · simp [hw] at h
  have hd : d = cfg.fileOf path := walk_eq_lexical _ hw
  have hkept := hfile (hd ▸ isSome_node_of_walk _ (by simp) hw)
  rw [hw] at h
  rw [walk_mono hdir hsome _ hw]
  simpa [hd, hkept] using h

end Mono

end LockService
