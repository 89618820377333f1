import LockService.Lib.Run
import LockService.Runs

/-!
# What is written is read

A committed write can be read where it was put, unless something was in its way: a regular file
among the directories of the path, a directory at its end, or a directory with the name of the
temporary file (`readsBack_iff`). Whoever opens a lock is asked only whether the path exists, and
one below a file does not (`not_readsBack_below_file`).
-/

namespace LockService

open FileTree

/-- One commit; there is nothing after one that throws. -/
def commitNext (cfg : Config) (files : FileTree) (entry : OpPayload × ℕ) : Option FileTree :=
  match commitFiles cfg files entry.1 entry.2 with
  | .ok files => some files
  | .error _ => none

/-- The commit of a write returns, and then the path is there and has what was written. -/
def ReadsBack (cfg : Config) (files : FileTree) (path content : Str) (random : ℕ) : Prop :=
  ∃ files', commitFiles cfg files ⟨.write, path, content⟩ random = .ok files' ∧
    isExists cfg files' path = true ∧ readContent cfg files' path = .ok content

/-- What is at a location once the directories of a path are made. -/
def made (files : FileTree) (dir : List Name) (a : Location) : Option Node :=
  if (visited [] dir).contains a then some .dir else files.node a

/-- The bytes a node is read as. -/
def bytes : Option Node → Str
  | some (.file content) => content
  | _ => []

/-- Nothing keeps a write from the path's end. -/
structure Unobstructed (files : FileTree) (mapped : List Name) (content : Str) (random : ℕ) :
    Prop where
  way : ∀ a ∈ madeDirs mapped, ∀ c, files.node a ≠ some (.file c)
  free : (∀ a ∈ tempFile mapped random, made files (cSegments mapped.dropLast) a ≠ some .dir) →
    content = [] ∨ made files (cSegments mapped.dropLast) (endOf mapped) ≠ some .dir
  /-- The temporary file is not written, and the directory of its name may be moved. -/
  taken : ∀ a ∈ tempFile mapped random, made files (cSegments mapped.dropLast) a = some .dir →
    content = bytes (made files (cSegments mapped.dropLast) (endOf mapped)) ∧
      (a ∈ madeDirs mapped →
        (∃ c, made files (cSegments mapped.dropLast) (endOf mapped) = some (.file c)) ∨
          ∃ b, endOf mapped <+: b ∧ endOf mapped ≠ b ∧
            (made files (cSegments mapped.dropLast) b).isSome)

section Commit

variable {files files₁ files' : FileTree} {dir : List Name} {name : Name} {content : Str}
  {random : ℕ}

theorem made_eq (a : Location) :
    made files dir a = if a ∈ visited [] dir then some .dir else files.node a := by
  simp only [made, List.contains_iff_mem]

/-- The path ends in a name, and what is there gives way to a directory. -/
def Vacant (files : FileTree) (dir : List Name) (name : Name) : Prop :=
  Ordinary name ∧ (∀ c, files.node (lexical [] dir ++ [name]) ≠ some (.file c)) ∧
    ∀ a, lexical [] dir ++ [name] <+: a → lexical [] dir ++ [name] ≠ a → files.node a = none

variable (content) in
/-- Where the temporary file is a directory, that is moved to the path's end if it can be. -/
theorem commitWrite_taken (hplain : ¬ HasNul (dir ++ [name]))
    (h : files.createDirectories [] dir = some files₁)
    (htemp : files₁.node (tempLocation dir name random) = some .dir) :
    (Vacant files₁ dir name → commitWrite files (dir ++ [name]) content random = .ok
        (files₁.moveTree (tempLocation dir name random) (lexical [] dir ++ [name]))) ∧
      (¬ Vacant files₁ dir name →
        commitWrite files (dir ++ [name]) content random = .ok files₁) := by
  obtain ⟨hw, hd⟩ := walk_createDirectories h
  have htl : files₁.locate (dir ++ [tempName name random]) =
      some (tempLocation dir name random) :=
    locate_of_walk hw hd (tempName_ordinary name random)
  have hwrite : files₁.write (dir ++ [tempName name random]) content = files₁ := by
    rw [FileTree.write, htl]
    exact if_pos htemp
  simp only [commitWrite_plain hplain, h, hwrite]
  by_cases hn : Ordinary name
  · have hl := locate_of_walk hw hd hn
    have hne : tempLocation dir name random ≠ lexical [] dir ++ [name] := ne_tempLocation.symm
    have hon : ¬ tempLocation dir name random <+: lexical [] dir ++ [name] := fun hp =>
      hne (hp.eq_of_length (by simp [tempLocation]))
    have hbusy := any_under_iff (t := files₁) (m := lexical [] dir ++ [name])
    simp only [rename, htl, hl, htemp, Option.bind_eq_bind, Option.bind_some]
    have hempty : Vacant files₁ dir name ↔ (∀ c, files₁.node (lexical [] dir ++ [name]) ≠
        some (.file c)) ∧ ¬ (files₁.nodes.keys.any fun a => lexical [] dir ++ [name] <+: a ∧
          lexical [] dir ++ [name] ≠ a) = true := by
      simp only [Vacant, hn, hbusy, true_and, not_exists, not_and, Option.not_isSome_iff_eq_none]
    rw [hempty]
    rcases hnode : files₁.node (lexical [] dir ++ [name]) with _ | _ | c <;>
      simp only [if_neg hne, hon, false_or]
    · split_ifs with hany
      · exact ⟨fun hv => absurd hany hv.2, fun _ => rfl⟩
      · exact ⟨fun _ => rfl, fun hv => absurd ⟨by simp, hany⟩ hv⟩
    · split_ifs with hany
      · exact ⟨fun hv => absurd hany hv.2, fun _ => rfl⟩
      · exact ⟨fun _ => rfl, fun hv => absurd ⟨by simp, hany⟩ hv⟩
    · exact ⟨fun hv => absurd rfl (hv.1 c), fun _ => rfl⟩
  · refine ⟨fun hv => absurd hv.1 hn, fun _ => ?_⟩
    simp [rename, htl, locate_of_not_ordinary hn]

theorem read_of_isPresent {segs : List Name} (h : files.isPresent segs) :
    files.read segs = some (bytes (files.node (lexical [] segs))) := by
  rcases hw : files.walk [] segs with e | d
  · simp [isPresent, hw, Except.isOk, Except.toBool] at h
  · obtain rfl := walk_eq_lexical segs hw
    rw [FileTree.read, hw]
    unfold bytes
    dsimp only
    rcases files.node (lexical [] segs) with _ | _ | c <;> rfl

section Content

variable {cfg : Config} {path : Str}

theorem isSome_fileOf (h : isExists cfg files path = true) :
    (files.node (cfg.fileOf path)).isSome :=
  isSome_node_of_walk _ (by simp) (isExists_iff.mp h)

theorem readContent_of_isExists (h : isExists cfg files path = true) :
    readContent cfg files path = .ok (bytes (files.node (cfg.fileOf path))) := by
  rw [readContent, read_of_isPresent h]
  rfl

theorem isExists_of_readContent {v : Str} (h : readContent cfg files path = .ok v) :
    isExists cfg files path = true := by
  unfold readContent FileTree.read at h
  rcases hw : files.walk [] (cfg.cPath path) with e | d
  · simp [hw] at h
  · simp [isExists, isPresent, hw, Except.isOk, Except.toBool]

theorem bytes_of_readContent {v : Str} (h : readContent cfg files path = .ok v) :
    bytes (files.node (cfg.fileOf path)) = v := by
  rw [readContent_of_isExists (isExists_of_readContent h)] at h
  exact Except.ok.inj h

end Content

/-- What the commit has to do for the write to be read back. -/
theorem readsBack_iff_present {cfg : Config} {path : Str}
    (hok : commitWrite files (cfg.mappedPath path) content random = .ok files') :
    ReadsBack cfg files path content random ↔ files'.isPresent (cfg.cPath path) = true ∧
      content = bytes (files'.node (cfg.fileOf path)) := by
  have hcommit : commitFiles cfg files ⟨.write, path, content⟩ random = .ok files' := hok
  have hread : isExists cfg files' path = true → (readContent cfg files' path = .ok content ↔
      content = bytes (files'.node (cfg.fileOf path))) := fun hp => by
    rw [readContent_of_isExists hp]
    exact ⟨fun h => (Except.ok.inj h).symm, fun h => congrArg Except.ok h.symm⟩
  unfold ReadsBack
  rw [hcommit]
  constructor
  · rintro ⟨files'', hok', hex, hr⟩
    obtain rfl := Except.ok.inj hok'
    exact ⟨hex, (hread hex).mp hr⟩
  · rintro ⟨hex, hb⟩
    exact ⟨files', rfl, hex, (hread hex).mpr hb⟩

/-- A path that does not land ends in a directory, one made on the way or one that was there. -/
theorem made_of_not_lands {mapped : List Name} (hne : mapped ≠ []) (hno : ¬ Lands files mapped)
    (hway : ∀ a ∈ madeDirs mapped, ∀ c, files.node a ≠ some (.file c)) :
    made files (cSegments mapped.dropLast) (endOf mapped) = some .dir := by
  have hmade : ∀ a, made files (cSegments mapped.dropLast) a =
      if a ∈ madeDirs mapped then some .dir else files.node a := made_eq
  by_cases hn : Ordinary ((cSegments mapped).getLastD [])
  · simp only [Lands, hn, true_and, not_and, not_not] at hno
    rw [hmade]
    split_ifs with hv
    · rfl
    · exact hno hv
  · obtain ⟨files₁, h⟩ := Option.isSome_iff_exists.mp (isSome_createDirectories _ |>.mpr hway)
    have hnode : ∀ a, files₁.node a = if a ∈ madeDirs mapped then some .dir else files.node a :=
      createDirectories_node _ h
    rw [hmade, ← hnode]
    obtain ⟨dir, name, hsegs⟩ : ∃ dir name, cSegments mapped = dir ++ [name] :=
      ⟨_, _, (List.dropLast_append_getLast (mt cSegments_eq_nil.mp hne)).symm⟩
    rw [hsegs, List.getLastD_concat] at hn
    refine prefix_dirs_of_walk dir (m := []) (by simp) (fun a ha => ?_) _ ?_
    · have hv : a ∈ madeDirs mapped := mem_madeDirs (by rwa [hsegs, List.dropLast_concat])
      rw [hnode, if_pos hv]
    · rw [endOf, hsegs, lexical_concat]
      exact isPrefix_step _ hn

/-- With the temporary file's name free, what matters is the path's end. -/
theorem readsBack_free {cfg : Config} {path : Str}
    (hway : ∀ a ∈ madeDirs (cfg.mappedPath path), ∀ c, files.node a ≠ some (.file c))
    (hfree : TempFree files (cfg.mappedPath path) random) :
    ReadsBack cfg files path content random ↔ content = [] ∨
      made files (cSegments (cfg.mappedPath path).dropLast) (endOf (cfg.mappedPath path)) ≠
        some .dir := by
  have hne := mappedPath_ne_nil cfg path
  rcases commitWrite_cases content hne hfree with ⟨⟨a, ha, c, hc⟩, -⟩ | ⟨-, files', hok, hcases⟩
  · exact absurd hc (hway a ha c)
  have hpresent : files'.isPresent (cfg.cPath path) := isPresent_of_commitWrite hne hfree hok
  rw [readsBack_iff_present hok]
  rcases hcases with ⟨⟨-, hv, hd⟩, hnode⟩ | ⟨hno, hnode⟩
  · have hend : files'.node (cfg.fileOf path) = some (.file content) := by
      rw [hnode]
      exact if_pos rfl
    rw [hend, made_eq]
    refine iff_of_true ⟨hpresent, rfl⟩ (.inr ?_)
    exact (if_neg hv).trans_ne hd
  · have hdir := made_of_not_lands hne hno hway
    have htemp : tempFile (cfg.mappedPath path) random ≠ some (endOf (cfg.mappedPath path)) := by
      intro he
      obtain ⟨hv, hd⟩ := hfree _ he
      rw [made_eq] at hdir
      exact hd ((if_neg hv).symm.trans hdir)
    have hend : files'.node (cfg.fileOf path) = some .dir := by
      rw [made_eq] at hdir
      rw [hnode]
      exact (if_neg htemp).trans hdir
    rw [hend, hdir]
    exact ⟨fun h => .inl h.2, fun h => ⟨hpresent, h.resolve_right fun hd => hd rfl⟩⟩

/-- A directory goes to the path's end, with what is in it. -/
theorem moved_spec (htemp : files.node (tempLocation dir name random) = some .dir)
    (hv : Vacant files dir name) :
    (files.moveTree (tempLocation dir name random) (lexical [] dir ++ [name])).node
        (lexical [] dir ++ [name]) = some .dir ∧
      (files.moveTree (tempLocation dir name random) (lexical [] dir ++ [name])).node
        (tempLocation dir name random) = none ∧
      ∀ a, files.node a = some .dir → ¬ tempLocation dir name random <+: a →
        (files.moveTree (tempLocation dir name random) (lexical [] dir ++ [name])).node a =
          some .dir := by
  have hne : lexical [] dir ++ [name] ≠ tempLocation dir name random := ne_tempLocation
  have hlen : (lexical [] dir ++ [name]).length = (tempLocation dir name random).length := by
    simp [tempLocation]
  have hon : ¬ tempLocation dir name random <+: lexical [] dir ++ [name] := fun hp =>
    hne (hp.eq_of_length hlen.symm).symm
  have hno : ¬ lexical [] dir ++ [name] <+: tempLocation dir name random := fun hp =>
    hne (hp.eq_of_length hlen)
  have hsame : (files.moveTree (tempLocation dir name random) (lexical [] dir ++ [name])).node
      (lexical [] dir ++ [name]) = some .dir := by
    have h := node_moveTree_new (t := files) hon hno tempLocation_ne_nil
      (List.concat_ne_nil name _) []
    rw [List.append_nil, List.append_nil, htemp] at h
    exact h (.inl rfl)
  refine ⟨hsame, node_moveTree_old hon hno tempLocation_ne_nil List.prefix_rfl, fun a ha hm => ?_⟩
  by_cases hn : lexical [] dir ++ [name] <+: a
  · rcases eq_or_ne (lexical [] dir ++ [name]) a with rfl | hna
    · exact hsame
    · rw [hv.2.2 a hn hna] at ha
      cases ha
  · rw [node_moveTree files hm hn, ha]

/-- Where the temporary file is a directory, the path's end is vacant unless it is a file or there
is something below it. -/
theorem vacant_iff (htemp : files.node (tempLocation dir name random) = some .dir) :
    Vacant files dir name ↔ ¬ ((∃ c, files.node (lexical [] (dir ++ [name])) = some (.file c)) ∨
      ∃ a, lexical [] (dir ++ [name]) <+: a ∧ lexical [] (dir ++ [name]) ≠ a ∧
        (files.node a).isSome) := by
  by_cases hn : Ordinary name
  · rw [lexical_concat, step_ordinary _ hn]
    simp only [Vacant, hn, true_and, not_or, not_exists, not_and, Option.not_isSome_iff_eq_none]
  · rw [lexical_concat]
    have hp := isPrefix_step (lexical [] dir) hn
    refine iff_of_false (fun hv => hn hv.1) (not_not.mpr (.inr ⟨tempLocation dir name random,
      hp.trans (List.prefix_append _ _), fun he => ?_, by rw [htemp]; rfl⟩))
    have hlen := hp.length_le
    rw [he, tempLocation, List.length_append, List.length_singleton] at hlen
    omega

/-- Where a directory has it, what matters is what was there. -/
theorem readsBack_taken {cfg : Config} {path : Str} (hplain : ¬ HasNul (dir ++ [name]))
    (hmapped : cfg.mappedPath path = dir ++ [name]) (hclosed : files.Closed)
    (h : files.createDirectories [] dir = some files₁)
    (htemp : files₁.node (tempLocation dir name random) = some .dir) :
    ReadsBack cfg files path content random ↔
      content = bytes (files₁.node (lexical [] (dir ++ [name]))) ∧
        (tempLocation dir name random ∈ visited [] dir →
          (∃ c, files₁.node (lexical [] (dir ++ [name])) = some (.file c)) ∨
            ∃ a, lexical [] (dir ++ [name]) <+: a ∧ lexical [] (dir ++ [name]) ≠ a ∧
              (files₁.node a).isSome) := by
  obtain ⟨hw, hd⟩ := walk_createDirectories h
  have hclosed₁ := hclosed.createDirectories h
  obtain ⟨hmoved, hkept⟩ := commitWrite_taken content hplain h htemp
  have hpath : cfg.cPath path = dir ++ [name] := by
    rw [Config.cPath, hmapped, cSegments_plain hplain]
  have hfile : cfg.fileOf path = lexical [] (dir ++ [name]) := congrArg (lexical []) hpath
  by_cases hv : Vacant files₁ dir name
  · have hlex : lexical [] (dir ++ [name]) = lexical [] dir ++ [name] := by
      rw [lexical_concat, step_ordinary _ hv.1]
    obtain ⟨hsame, hgone, hstay⟩ := moved_spec htemp hv
    have hempty : bytes (files₁.node (lexical [] dir ++ [name])) = [] := by
      rcases hnode : files₁.node (lexical [] dir ++ [name]) with _ | _ | c
      · rfl
      · rfl
      · exact absurd hnode (hv.2.1 c)
    have hbusy := (vacant_iff htemp).mp hv
    rw [hlex] at hbusy
    rw [readsBack_iff_present (hmapped ▸ hmoved hv), hpath, hfile, hlex, hsame, hempty, and_comm]
    refine and_congr_right fun _ => ⟨fun hp hm => ?_, fun hm => ?_⟩
    · obtain ⟨hw', hd', -⟩ := isPresent_concat.mp hp
      rw [dirs_of_walk dir hw' hd' _ hm] at hgone
      cases hgone
    · have hpass : tempLocation dir name random ∉ visited [] dir := fun h => hbusy (hm h)
      have hdirs := dirs_of_walk dir hw hd
      obtain ⟨hw', hd'⟩ := walk_of_dirs dir (node_root (files₁.moveTree
        (tempLocation dir name random) (lexical [] dir ++ [name]))) fun a ha =>
          hstay a (hdirs a ha) fun hp => (prefix_mem_visited dir ha hp).elim
            (fun h => tempLocation_ne_nil (List.prefix_nil.mp h)) hpass
      exact isPresent_concat.mpr ⟨hw', hd', by rw [hlex, hsame]; rfl⟩
  · have hbusy := not_not.mp (mt (vacant_iff htemp).mpr hv)
    have hs : (files₁.node (lexical [] (dir ++ [name]))).isSome := by
      rcases hbusy with ⟨c, hc⟩ | ⟨a, hp, hne, hs⟩
      · rw [hc]
        rfl
      · rw [hclosed₁ a hs _ hp hne]
        rfl
    rw [readsBack_iff_present (hmapped ▸ hkept hv), hpath, hfile]
    exact ⟨fun h => ⟨h.2, fun _ => hbusy⟩, fun h => ⟨isPresent_concat.mpr ⟨hw, hd, hs⟩, h.1⟩⟩

/-- A write is read back exactly when nothing is in its way. -/
theorem readsBack_iff_of_closed {cfg : Config} (hclosed : files.Closed) (path content : Str)
    (random : ℕ) : ReadsBack cfg files path content random ↔
      Unobstructed files (cfg.mappedPath path) content random := by
  have hway := isSome_createDirectories (cSegments (cfg.mappedPath path).dropLast)
    (t := files) (m := [])
  rcases h : files.createDirectories [] (cSegments (cfg.mappedPath path).dropLast) with _ | files₁
  · have herr : commitFiles cfg files ⟨.write, path, content⟩ random = .error .filesystem := by
      simp [commitFiles, commitWrite, h]
    rw [h] at hway
    constructor
    · rintro ⟨files', hok, -⟩
      rw [herr] at hok
      cases hok
    · rintro ⟨hno, -, -⟩
      cases hway.mpr hno
  rw [h] at hway
  have hno := hway.mp rfl
  have hfree_iff : TempFree files (cfg.mappedPath path) random ↔
      ∀ a ∈ tempFile (cfg.mappedPath path) random,
        made files (cSegments (cfg.mappedPath path).dropLast) a ≠ some .dir := by
    refine forall₂_congr fun a _ => ?_
    rw [made_eq]
    show (a ∉ madeDirs _ ∧ _) ↔ (if a ∈ madeDirs _ then _ else _) ≠ _
    split_ifs with hv <;> simp [hv]
  by_cases hfree : TempFree files (cfg.mappedPath path) random
  · rw [readsBack_free hno hfree]
    exact ⟨fun hr => ⟨hno, fun _ => hr, fun a ha hd => absurd hd (hfree_iff.mp hfree a ha)⟩,
      fun hu => hu.free (hfree_iff.mp hfree)⟩
  have htaken := hfree_iff.not.mp hfree
  simp only [not_forall, not_not] at htaken
  obtain ⟨a, ha, hd⟩ := htaken
  have hplain : ¬ HasNul (cfg.mappedPath path) := fun hnul => by
    rw [tempFile, if_pos hnul] at ha
    cases ha
  obtain ⟨dir, name, hmapped⟩ : ∃ dir name, cfg.mappedPath path = dir ++ [name] :=
    ⟨_, _, (List.dropLast_append_getLast (mappedPath_ne_nil cfg path)).symm⟩
  have hnode : ∀ b, made files (cSegments (cfg.mappedPath path).dropLast) b = files₁.node b :=
    fun b => (made_eq b).trans (createDirectories_node _ h b).symm
  have hunobstructed : Unobstructed files (cfg.mappedPath path) content random ↔
      content = bytes (files₁.node (endOf (cfg.mappedPath path))) ∧
        (a ∈ madeDirs (cfg.mappedPath path) →
          (∃ c, files₁.node (endOf (cfg.mappedPath path)) = some (.file c)) ∨
            ∃ b, endOf (cfg.mappedPath path) <+: b ∧ endOf (cfg.mappedPath path) ≠ b ∧
              (files₁.node b).isSome) := by
    simp only [← hnode]
    refine ⟨fun hu => hu.taken a ha hd, fun hr => ⟨hno, fun hnd => absurd hd (hnd a ha), ?_⟩⟩
    intro a' ha' _
    obtain rfl : a = a' := Option.some.inj (ha.symm.trans ha')
    exact hr
  rw [hunobstructed]
  rw [hnode] at hd
  rw [hmapped] at hplain ha h ⊢
  rw [List.dropLast_concat, cSegments_of_notMem (notMem_of_plain hplain).1] at h
  obtain rfl : tempLocation dir name random = a :=
    Option.some.inj ((tempFile_plain hplain random).symm.trans ha)
  rw [readsBack_taken hplain hmapped hclosed h hd, endOf_plain hplain, madeDirs_plain hplain,
    lexical_concat]

theorem closed_commitFiles {cfg : Config} {payload : OpPayload} (hclosed : files.Closed)
    (h : commitFiles cfg files payload random = .ok files') : files'.Closed := by
  unfold commitFiles at h
  split at h
  · unfold commitWrite at h
    dsimp only at h
    split at h
    · cases h
    · rename_i files₁ hmade
      obtain rfl := Except.ok.inj h
      have hwritten : (files₁.write (cSegments ((cfg.mappedPath payload.path).dropLast ++
          [tempName ((cfg.mappedPath payload.path).getLastD []) random]))
          payload.content).Closed :=
        (hclosed.createDirectories hmade).write payload.content
      unfold Option.getD
      split
      · rename_i hrenamed
        exact hwritten.rename hrenamed
      · exact hwritten
  · exact Except.ok.inj h ▸ hclosed

/-- In every tree that commits lead to. -/
theorem readsBack_iff {cfg : Config} {files₀ : FileTree} {entries : List (OpPayload × ℕ)}
    (hclosed : files₀.Closed) (hrun : Run.run (commitNext cfg) files₀ entries = some files)
    (path content : Str) (random : ℕ) : ReadsBack cfg files path content random ↔
      Unobstructed files (cfg.mappedPath path) content random := by
  refine readsBack_iff_of_closed ?_ path content random
  refine Run.invariant (I := FileTree.Closed) (fun t entry t' ht _ hstep => ?_) hclosed
    Run.along_true hrun
  unfold commitNext at hstep
  split at hstep
  · rename_i hok
    exact closed_commitFiles ht (Option.some.inj hstep ▸ hok)
  · cases hstep

end Commit

/-- A file `a` is there, and the next path goes below it. -/
theorem readsBack_iff_below_file : ∃ files,
    Run.run (commitNext sampleConfig) .empty [(⟨.write, ascii ['a'], []⟩, 0)] = some files ∧
      (ReadsBack sampleConfig files (ascii ['a', '/', 'b']) [] 0 ↔
        Unobstructed files (sampleConfig.mappedPath (ascii ['a', '/', 'b'])) [] 0) := by
  obtain ⟨files, hfiles⟩ := Option.isSome_iff_exists.mp (by decide : (Run.run
    (commitNext sampleConfig) .empty [(⟨.write, ascii ['a'], []⟩, 0)]).isSome)
  exact ⟨files, hfiles, readsBack_iff .empty hfiles (ascii ['a', '/', 'b']) [] 0⟩

/-- No such file exists, so a lock may be opened there, and the commit throws. -/
theorem not_readsBack_below_file : ∃ files,
    Run.run (commitNext sampleConfig) .empty [(⟨.write, ascii ['a'], []⟩, 0)] = some files ∧
      isExists sampleConfig files (ascii ['a', '/', 'b']) = false ∧
      ¬ ReadsBack sampleConfig files (ascii ['a', '/', 'b']) [] 0 := by
  obtain ⟨files, hfiles, hshort⟩ := (Option.any_eq_true _ _).mp (by decide : (Run.run
    (commitNext sampleConfig) .empty [(⟨.write, ascii ['a'], []⟩, 0)]).any
      fun files => isExists sampleConfig files (ascii ['a', '/', 'b']) = false ∧
        (commitFiles sampleConfig files ⟨.write, ascii ['a', '/', 'b'], []⟩ 0).isOk = false)
  obtain ⟨hex, herr⟩ := of_decide_eq_true hshort
  refine ⟨files, hfiles, hex, ?_⟩
  rintro ⟨files', hok, -⟩
  rw [hok] at herr
  cases herr

end LockService
