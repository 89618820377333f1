import LockService.Codec
import LockService.Paths

/-!
# The replicated state machine

`commit` applies one entry of the Raft log to the server's directory: it makes the directories of
the mapped path, writes the content under a temporary name beside it and renames that over the
path. What the file system refuses on the way is only reported, except that `create_directories`
throws. A NUL in the path cuts the temporary name and the path to the same, and the content goes
straight to the path's end. The snapshots the state machine keeps hold one string, the path of the
last entry committed.
-/

namespace LockService

open FileTree

/-- The name of the temporary file: the path's own, `_`, a random number and `.tmp`. -/
def tempName (name : Name) (random : ℕ) : Name :=
  name ++ ascii ['_'] ++ decimal random ++ ascii ['.', 't', 'm', 'p']

theorem tempName_ordinary (name : Name) (random : ℕ) : Ordinary (tempName name random) := by
  have hlen : 5 ≤ (tempName name random).length := by
    simp only [tempName, List.length_append, ascii, List.length_map, List.length_cons,
      List.length_nil]
    omega
  refine ⟨?_, ?_, ?_⟩ <;> intro h <;> rw [h] at hlen <;> revert hlen <;> decide

/-- The `WRITE` branch of `commit` on the files: `mapped` is the mapped path, `random` what
`rand()` yields. -/
def commitWrite (files : FileTree) (mapped : List Name) (content : Str) (random : ℕ) :
    Except Fault FileTree :=
  let directory := mapped.dropLast
  let temp := directory ++ [tempName (mapped.getLastD []) random]
  match files.createDirectories [] (cSegments directory) with
  | none => .error .filesystem
  | some files =>
    let files := files.write (cSegments temp) content
    .ok ((files.rename (cSegments temp) (cSegments mapped)).getD files)

/-- `commit` on the files; `CREATE`, `DELETE` and an unknown operation do nothing. -/
def commitFiles (cfg : Config) (files : FileTree) (payload : OpPayload) (random : ℕ) :
    Except Fault FileTree :=
  match payload.type with
  | .write => commitWrite files (cfg.mappedPath payload.path) payload.content random
  | _ => .ok files

/-- The directories a commit makes. -/
def madeDirs (mapped : List Name) : List Location := visited [] (cSegments mapped.dropLast)

/-- Where the mapped path leads. -/
def endOf (mapped : List Name) : Location := lexical [] (cSegments mapped)

/-- Some name has a NUL. -/
def HasNul (mapped : List Name) : Prop := ∃ name ∈ mapped, 0 ∈ name

instance (mapped : List Name) : Decidable (HasNul mapped) := List.decidableBEx _ _

/-- Where the temporary file of a commit goes. -/
def tempLocation (dir : List Name) (name : Name) (random : ℕ) : Location :=
  lexical [] dir ++ [tempName name random]

/-- The temporary file of a commit, unless it is the path's end. -/
def tempFile (mapped : List Name) (random : ℕ) : Option Location :=
  if HasNul mapped then none
  else some (tempLocation mapped.dropLast (mapped.getLastD []) random)

/-- The path ends in a name, and there is no directory at its end once the directories are made. -/
def Lands (files : FileTree) (mapped : List Name) : Prop :=
  Ordinary ((cSegments mapped).getLastD []) ∧ endOf mapped ∉ madeDirs mapped ∧
    files.node (endOf mapped) ≠ some .dir

instance (files : FileTree) (mapped : List Name) : Decidable (Lands files mapped) :=
  inferInstanceAs (Decidable (_ ∧ _))

section Plain

variable {dir : List Name} {name : Name} (h : ¬ HasNul (dir ++ [name]))

include h

theorem notMem_of_plain : (∀ name' ∈ dir, 0 ∉ name') ∧ 0 ∉ name := by
  simp only [HasNul, List.mem_append, List.mem_singleton, not_exists, not_and] at h
  exact ⟨fun name' hn => h name' (.inl hn), h name (.inr rfl)⟩

theorem madeDirs_plain : madeDirs (dir ++ [name]) = visited [] dir := by
  rw [madeDirs, List.dropLast_concat, cSegments_of_notMem (notMem_of_plain h).1]

theorem cSegments_plain : cSegments (dir ++ [name]) = dir ++ [name] :=
  cSegments_of_notMem fun name' hn h0 => h ⟨name', hn, h0⟩

theorem endOf_plain : endOf (dir ++ [name]) = step (lexical [] dir) name := by
  rw [endOf, cSegments_plain h, lexical_concat]

theorem tempFile_plain (random : ℕ) :
    tempFile (dir ++ [name]) random = some (tempLocation dir name random) := by
  rw [tempFile, if_neg h, List.dropLast_concat, List.getLastD_concat]

theorem lands_plain {files : FileTree} : Lands files (dir ++ [name]) ↔
    Ordinary name ∧ lexical [] dir ++ [name] ∉ visited [] dir ∧
      files.node (lexical [] dir ++ [name]) ≠ some .dir := by
  rw [Lands, cSegments_plain h, List.getLastD_concat, madeDirs_plain h, endOf_plain h]
  refine and_congr_right fun hn => ?_
  rw [step_ordinary _ hn]

theorem cSegments_temp (random : ℕ) :
    cSegments (dir ++ [tempName name random]) = dir ++ [tempName name random] := by
  have hdir := notMem_of_plain h
  rw [cSegments_append hdir.1, cSegments_singleton, cString_of_notMem]
  simp only [tempName, List.mem_append, not_or]
  exact ⟨⟨⟨hdir.2, by decide⟩, nul_notMem_decimal random⟩, by decide⟩

/-- The commit of a path without a NUL. -/
theorem commitWrite_plain (files : FileTree) (content : Str) (random : ℕ) :
    commitWrite files (dir ++ [name]) content random =
      match files.createDirectories [] dir with
      | none => .error .filesystem
      | some files =>
        let files := files.write (dir ++ [tempName name random]) content
        .ok ((files.rename (dir ++ [tempName name random]) (dir ++ [name])).getD files) := by
  simp only [commitWrite, List.dropLast_concat, List.getLastD_concat, cSegments_temp h,
    cSegments_plain h, cSegments_of_notMem (notMem_of_plain h).1]

end Plain

section CommitWrite

variable {files files' : FileTree} {dir : List Name} {name : Name} {random : ℕ} (content : Str)

theorem tempLocation_ne_nil : tempLocation dir name random ≠ [] := by simp [tempLocation]

theorem ne_tempLocation : lexical [] dir ++ [name] ≠ tempLocation dir name random := by
  intro h
  have := congrArg (fun m => (m.getLastD []).length) h
  simp only [tempLocation, List.getLastD_concat, tempName, List.length_append, ascii,
    List.length_map, List.length_cons] at this
  omega

/-- The temporary file is written unless a directory has its name; no other node changes. -/
theorem node_write_temp {files₁ : FileTree} (h : files.createDirectories [] dir = some files₁)
    (a : Location) : (files₁.write (dir ++ [tempName name random]) content).node a =
      if a = tempLocation dir name random ∧
        files₁.node (tempLocation dir name random) ≠ some .dir then some (.file content)
      else files₁.node a := by
  have hlex : lexical [] (dir ++ [tempName name random]) = tempLocation dir name random := by
    rw [lexical_concat, step_ordinary _ (tempName_ordinary name random), tempLocation]
  rw [node_write_of_dirs (List.concat_ne_nil _ _) (fun a ha => ?_), hlex, List.getLastD_concat]
  · simp only [tempName_ordinary name random, true_and]
  · rw [List.dropLast_concat] at ha
    rw [createDirectories_node _ h, if_pos ha]

theorem write_temp {files₁ : FileTree} (h : files.createDirectories [] dir = some files₁)
    (htemp : files₁.node (tempLocation dir name random) ≠ some .dir) (a : Location) :
    (files₁.write (dir ++ [tempName name random]) content).node a
      = if a = tempLocation dir name random then some (.file content) else files₁.node a := by
  simp only [node_write_temp content h, htemp, ne_eq, not_false_eq_true, and_true]

/-- The directory of the path still resolves once the temporary file is written. -/
theorem walk_write_temp {files₁ : FileTree} (h : files.createDirectories [] dir = some files₁)
    (htemp : files₁.node (tempLocation dir name random) ≠ some .dir) :
    (files₁.write (dir ++ [tempName name random]) content).walk [] dir = .ok (lexical [] dir) ∧
      (files₁.write (dir ++ [tempName name random]) content).node (lexical [] dir) =
        some .dir := by
  obtain ⟨hw, hd⟩ := walk_createDirectories h
  have hdir : ∀ a, files₁.node a = some .dir →
      (files₁.write (dir ++ [tempName name random]) content).node a = some .dir := by
    intro a ha
    rw [write_temp content h htemp, if_neg, ha]
    rintro rfl
    exact htemp ha
  exact ⟨walk_dir_mono hdir hw hd, hdir _ hd⟩

/-- Where the path ends in a name and no directory has it, the commit leaves the directories it
made and the file. -/
theorem commitWrite_renamed {files₁ : FileTree} (hplain : ¬ HasNul (dir ++ [name]))
    (h : files.createDirectories [] dir = some files₁)
    (htemp : files₁.node (tempLocation dir name random) ≠ some .dir) (hn : Ordinary name)
    (htarget : files₁.node (lexical [] dir ++ [name]) ≠ some .dir) :
    ∃ files', commitWrite files (dir ++ [name]) content random = .ok files' ∧ ∀ a,
      files'.node a = if a = lexical [] dir ++ [name] then some (.file content)
        else if a = tempLocation dir name random then none else files₁.node a := by
  have hnode := write_temp content h htemp
  obtain ⟨hw, hd⟩ := walk_write_temp content h htemp
  have htl := locate_of_walk hw hd (tempName_ordinary name random)
  have hl := locate_of_walk hw hd hn
  have ht : (files₁.write (dir ++ [tempName name random]) content).node
      (lexical [] dir ++ [tempName name random]) = some (.file content) := by
    rw [hnode]
    exact if_pos rfl
  have hg : (files₁.write (dir ++ [tempName name random]) content).node
      (lexical [] dir ++ [name]) ≠ some .dir := by
    rw [hnode, if_neg ne_tempLocation]
    exact htarget
  refine ⟨((files₁.write (dir ++ [tempName name random]) content).erase
    (tempLocation dir name random)).set (lexical [] dir ++ [name]) (.file content), ?_, ?_⟩
  · rw [commitWrite_plain hplain]
    simp only [h, rename, htl, hl, ht, Option.bind_eq_bind, Option.bind_some, tempLocation]
    rfl
  · intro a
    rw [node_set (by simp), node_erase tempLocation_ne_nil, hnode]
    split_ifs <;> rfl

/-- Otherwise the rename fails and the temporary file stays. -/
theorem commitWrite_left {files₁ : FileTree} (hplain : ¬ HasNul (dir ++ [name]))
    (h : files.createDirectories [] dir = some files₁)
    (htemp : files₁.node (tempLocation dir name random) ≠ some .dir)
    (hno : ¬ (Ordinary name ∧ files₁.node (lexical [] dir ++ [name]) ≠ some .dir)) :
    ∃ files', commitWrite files (dir ++ [name]) content random = .ok files' ∧ ∀ a,
      files'.node a = if a = tempLocation dir name random then some (.file content)
        else files₁.node a := by
  have hnode := write_temp content h htemp
  obtain ⟨hw, hd⟩ := walk_write_temp content h htemp
  have htl := locate_of_walk hw hd (tempName_ordinary name random)
  have ht : (files₁.write (dir ++ [tempName name random]) content).node
      (lexical [] dir ++ [tempName name random]) = some (.file content) := by
    rw [hnode]
    exact if_pos rfl
  refine ⟨files₁.write (dir ++ [tempName name random]) content, ?_, hnode⟩
  rw [commitWrite_plain hplain]
  simp only [h]
  congr 1
  by_cases hn : Ordinary name
  · have hl := locate_of_walk hw hd hn
    have hg : (files₁.write (dir ++ [tempName name random]) content).node
        (lexical [] dir ++ [name]) = some .dir := by
      rw [hnode, if_neg ne_tempLocation]
      simpa [hn] using hno
    simp [rename, htl, hl, ht, hg]
  · simp [rename, htl, locate_of_not_ordinary hn]

theorem mem_madeDirs {mapped : List Name} {a : Location}
    (ha : a ∈ visited [] (cSegments mapped).dropLast) : a ∈ madeDirs mapped := by
  rw [madeDirs]
  by_cases h : ∃ name ∈ mapped.dropLast, 0 ∈ name
  · rw [cSegments_dropLast_of_mem h]
    exact visited_mono (List.dropLast_prefix _) ha
  · rwa [cSegments_dropLast_of_notMem fun name hn h0 => h ⟨name, hn, h0⟩]

/-- With a NUL in the path the content is written where it leads, or nowhere. -/
theorem commitWrite_cut {mapped : List Name} {files₁ : FileTree} (hnul : HasNul mapped)
    (h : files.createDirectories [] (cSegments mapped.dropLast) = some files₁) :
    ∃ files', commitWrite files mapped content random = .ok files' ∧ ∀ a,
      files'.node a = if a = endOf mapped ∧ Ordinary ((cSegments mapped).getLastD []) ∧
        files₁.node (endOf mapped) ≠ some .dir then some (.file content) else files₁.node a := by
  have hne : mapped ≠ [] := by
    rintro rfl
    obtain ⟨name, hn, -⟩ := hnul
    cases hn
  obtain ⟨dir, name, rfl⟩ : ∃ dir name, mapped = dir ++ [name] :=
    ⟨_, _, (List.dropLast_append_getLast hne).symm⟩
  have htemp : cSegments (dir ++ [tempName name random]) = cSegments (dir ++ [name]) := by
    by_cases h0 : ∃ name' ∈ dir, 0 ∈ name'
    · rw [cSegments_of_mem h0, cSegments_of_mem h0]
    · have hdir : ∀ name' ∈ dir, 0 ∉ name' := fun name' hn hz => h0 ⟨name', hn, hz⟩
      have hname : 0 ∈ name := by
        obtain ⟨name', hn, hz⟩ := hnul
        rcases List.mem_append.mp hn with hn | hn
        · exact absurd hz (hdir name' hn)
        · exact List.mem_singleton.mp hn ▸ hz
      rw [cSegments_append hdir, cSegments_append hdir, cSegments_singleton, cSegments_singleton,
        tempName, List.append_assoc, List.append_assoc, cString_append hname]
  have hmade : ∀ a ∈ visited [] (cSegments (dir ++ [name])).dropLast,
      files₁.node a = some .dir := fun a ha => by
    rw [createDirectories_node _ h]
    exact if_pos (mem_madeDirs ha)
  rw [List.dropLast_concat] at h
  refine ⟨_, by simp only [commitWrite, List.dropLast_concat, List.getLastD_concat, htemp, h]; rfl,
    fun a => ?_⟩
  rw [node_rename_self, node_write_of_dirs (by simp [cSegments_eq_nil]) hmade, endOf]

end CommitWrite

/-- No directory has the name a commit would give its temporary file. -/
def TempFree (files : FileTree) (mapped : List Name) (random : ℕ) : Prop :=
  ∀ a ∈ tempFile mapped random, a ∉ madeDirs mapped ∧ files.node a ≠ some .dir

instance (files : FileTree) (mapped : List Name) (random : ℕ) :
    Decidable (TempFree files mapped random) :=
  inferInstanceAs (Decidable (∀ a ∈ tempFile mapped random, _ ∧ _))

/-- What a commit does: it throws over a regular file in its directory's way, or it makes the
directories and puts the file in place of what the path named, or leaves the temporary file. -/
theorem commitWrite_cases {files : FileTree} {mapped : List Name} {random : ℕ} (content : Str)
    (hne : mapped ≠ []) (hfree : TempFree files mapped random) :
    (∃ a ∈ madeDirs mapped, ∃ c, files.node a = some (.file c)) ∧
        commitWrite files mapped content random = .error .filesystem ∨
      (∀ a ∈ madeDirs mapped, ∀ c, files.node a ≠ some (.file c)) ∧
        ∃ files', commitWrite files mapped content random = .ok files' ∧
          ((Lands files mapped ∧ ∀ a, files'.node a =
              if a = endOf mapped then some (.file content)
              else if tempFile mapped random = some a then none
              else if a ∈ madeDirs mapped then some .dir else files.node a) ∨
            ¬ Lands files mapped ∧ ∀ a, files'.node a =
              if tempFile mapped random = some a then some (.file content)
              else if a ∈ madeDirs mapped then some .dir else files.node a) := by
  have hmade := isSome_createDirectories (cSegments mapped.dropLast) (t := files) (m := [])
  rcases h : files.createDirectories [] (cSegments mapped.dropLast) with _ | files₁
  · simp only [h, Option.isSome_none, Bool.false_eq_true, false_iff, not_forall, not_not] at hmade
    obtain ⟨a, ha, c, hc⟩ := hmade
    exact .inl ⟨⟨a, ha, c, hc⟩, by simp [commitWrite, h]⟩
  simp only [h, Option.isSome_some, true_iff] at hmade
  refine .inr ⟨hmade, ?_⟩
  have hnode : ∀ a, files₁.node a = if a ∈ madeDirs mapped then some .dir else files.node a :=
    createDirectories_node _ h
  have hend : files₁.node (endOf mapped) ≠ some .dir ↔
      endOf mapped ∉ madeDirs mapped ∧ files.node (endOf mapped) ≠ some .dir := by
    rw [hnode]
    split_ifs with hv <;> simp [hv]
  by_cases hnul : HasNul mapped
  · obtain ⟨files', hok, hn⟩ := @commitWrite_cut _ random content _ _ hnul h
    have hlands : Ordinary ((cSegments mapped).getLastD []) ∧
        files₁.node (endOf mapped) ≠ some .dir ↔ Lands files mapped :=
      and_congr_right fun _ => hend
    have htemp : tempFile mapped random = none := if_pos hnul
    simp only [hlands] at hn
    simp only [htemp, reduceCtorEq, if_false]
    by_cases hl : Lands files mapped
    · exact ⟨files', hok, .inl ⟨hl, fun a => by simp only [hn, hl, and_true, hnode]⟩⟩
    · exact ⟨files', hok, .inr ⟨hl, fun a => by simp only [hn, hl, and_false, if_false, hnode]⟩⟩
  obtain ⟨dir, name, rfl⟩ : ∃ dir name, mapped = dir ++ [name] :=
    ⟨_, _, (List.dropLast_append_getLast hne).symm⟩
  rw [List.dropLast_concat, cSegments_of_notMem (notMem_of_plain hnul).1] at h
  have htemp : files₁.node (tempLocation dir name random) ≠ some .dir := by
    obtain ⟨hv, hd⟩ := hfree _ (tempFile_plain hnul random)
    rwa [hnode, if_neg hv]
  have hlands : Ordinary name ∧ files₁.node (lexical [] dir ++ [name]) ≠ some .dir ↔
      Lands files (dir ++ [name]) := by
    rw [lands_plain hnul]
    refine and_congr_right fun hn => ?_
    rw [hnode, madeDirs_plain hnul]
    split_ifs with hv <;> simp [hv]
  simp only [tempFile_plain hnul, Option.some.injEq, @eq_comm _ (tempLocation dir name random)]
  by_cases hyes : Ordinary name ∧ files₁.node (lexical [] dir ++ [name]) ≠ some .dir
  · obtain ⟨files', hc, hn⟩ := commitWrite_renamed content hnul h htemp hyes.1 hyes.2
    refine ⟨files', hc, .inl ⟨hlands.mp hyes, fun a => ?_⟩⟩
    rw [hn, hnode, endOf_plain hnul, step_ordinary _ hyes.1]
  · obtain ⟨files', hc, hn⟩ := commitWrite_left content hnul h htemp hyes
    refine ⟨files', hc, .inr ⟨fun hy => hyes (hlands.mpr hy), fun a => ?_⟩⟩
    rw [hn, hnode]

/-- A commit that does not throw makes its path exist, file or directory. -/
theorem isPresent_of_commitWrite {files files' : FileTree} {mapped : List Name} {content : Str}
    {random : ℕ} (hne : mapped ≠ []) (hfree : TempFree files mapped random)
    (h : commitWrite files mapped content random = .ok files') :
    files'.isPresent (cSegments mapped) := by
  rcases commitWrite_cases content hne hfree with ⟨-, herr⟩ | ⟨-, files₁, hok, hcases⟩
  · simp [herr] at h
  obtain rfl : files₁ = files' := by simpa [hok] using h
  have htemp : ∀ a ∈ madeDirs mapped, tempFile mapped random ≠ some a := fun a ha he =>
    (hfree a he).1 ha
  have hdirs : ∀ a ∈ madeDirs mapped, files₁.node a = some .dir := by
    intro a ha
    rcases hcases with ⟨⟨-, hend, -⟩, hnode⟩ | ⟨-, hnode⟩
    · have hne : a ≠ endOf mapped := fun he => hend (he ▸ ha)
      rw [hnode, if_neg hne, if_neg (htemp a ha), if_pos ha]
    · rw [hnode, if_neg (htemp a ha), if_pos ha]
  obtain ⟨dir, name, hsegs⟩ : ∃ dir name, cSegments mapped = dir ++ [name] :=
    ⟨_, _, (List.dropLast_append_getLast (mt cSegments_eq_nil.mp hne)).symm⟩
  have hway : ∀ a ∈ visited [] dir, files₁.node a = some .dir := fun a ha =>
    hdirs a (mem_madeDirs (by rwa [hsegs, List.dropLast_concat]))
  obtain ⟨hw, hd⟩ := walk_of_dirs dir (node_root files₁) hway
  rw [hsegs, isPresent_concat]
  refine ⟨hw, hd, ?_⟩
  rw [← hsegs]
  show (files₁.node (endOf mapped)).isSome
  rcases hcases with ⟨-, hnode⟩ | ⟨hno, hnode⟩
  · simp [hnode]
  simp only [Lands, hsegs, List.getLastD_concat, not_and, not_not] at hno
  by_cases hn : Ordinary name
  · rw [hnode]
    split_ifs with h1 h2
    · rfl
    · rfl
    · rw [hno hn h2]
      rfl
  · have hup : endOf mapped <+: lexical [] dir := by
      rw [endOf, hsegs, lexical_concat]
      exact isPrefix_step _ hn
    rw [prefix_dirs_of_walk dir (m := []) (by simp) hway _ hup]
    rfl

/-- Nothing has the name a commit gives its temporary file. -/
def FreshTemp (files : FileTree) (mapped : List Name) (random : ℕ) : Prop :=
  ∀ a ∈ tempFile mapped random, a ∉ madeDirs mapped ∧ files.node a = none

instance (files : FileTree) (mapped : List Name) (random : ℕ) :
    Decidable (FreshTemp files mapped random) :=
  inferInstanceAs (Decidable (∀ a ∈ tempFile mapped random, _ ∧ _))

theorem FreshTemp.tempFree {files : FileTree} {mapped : List Name} {random : ℕ}
    (h : FreshTemp files mapped random) : TempFree files mapped random := fun a ha =>
  ⟨(h a ha).1, by rw [(h a ha).2]; exact nofun⟩

/-- Then the commit takes nothing away and changes no more than the path's own file. -/
theorem commitWrite_spares {files files' : FileTree} {mapped : List Name} {content : Str}
    {random : ℕ} (hne : mapped ≠ []) (hfresh : FreshTemp files mapped random)
    (h : commitWrite files mapped content random = .ok files') :
    (∀ a, files.node a = some .dir → files'.node a = some .dir) ∧
      (∀ a, (files.node a).isSome → (files'.node a).isSome) ∧
      ∀ a, a ≠ endOf mapped → (files.node a).isSome → files'.node a = files.node a := by
  have hkept : ∀ a, (files.node a).isSome → tempFile mapped random ≠ some a := by
    intro a ha he
    rw [(hfresh a he).2] at ha
    cases ha
  rcases commitWrite_cases content hne hfresh.tempFree with ⟨-, herr⟩ | ⟨hway, files₁, hok, hcases⟩
  · simp [herr] at h
  obtain rfl : files₁ = files' := by simpa [hok] using h
  have hmade : ∀ a, (files.node a).isSome →
      (if a ∈ madeDirs mapped then some .dir else files.node a) = files.node a := by
    intro a ha
    split_ifs with hv
    · rcases hn : files.node a with _ | _ | c
      · simp [hn] at ha
      · rfl
      · exact absurd hn (hway a hv c)
    · rfl
  rcases hcases with ⟨⟨-, -, htarget⟩, hnode⟩ | ⟨-, hnode⟩
  · refine ⟨fun a ha => ?_, fun a ha => ?_, fun a hf ha => ?_⟩
    · have hs : (files.node a).isSome := by simp [ha]
      have hf : a ≠ endOf mapped := fun hf => htarget (hf ▸ ha)
      rw [hnode, if_neg hf, if_neg (hkept a hs), hmade a hs, ha]
    · rw [hnode, if_neg (hkept a ha), hmade a ha]
      split_ifs <;> simp [ha]
    · rw [hnode, if_neg hf, if_neg (hkept a ha), hmade a ha]
  · refine ⟨fun a ha => ?_, fun a ha => ?_, fun a _ ha => ?_⟩
    · have hs : (files.node a).isSome := by simp [ha]
      rw [hnode, if_neg (hkept a hs), hmade a hs, ha]
    · rw [hnode, if_neg (hkept a ha), hmade a ha]
      exact ha
    · rw [hnode, if_neg (hkept a ha), hmade a ha]

end LockService
