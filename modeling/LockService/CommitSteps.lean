import LockService.ReadBack

/-!
# A commit, one call at a time

Between two calls of a `commit` to the file system others read, and the process may stop. The
directories come one by one, the temporary file is opened empty and fills as the stream hands on
its bytes, and one `rename` puts it in place. Of a path without a NUL nothing of this shows outside
the temporary file before the rename (`oldOrNew_run`), so a commit that was cut short is made good
by applying the entry again (`redone_run`).
-/

namespace LockService

open FileTree

/-- The next call of a `commit`. -/
inductive Stage where
  | making (at_ : Location) (left : List Name)
  | opening
  | writing (file : Location) (written left : Str)
  | moving
  | done
  | thrown

/-- The files, and how far the `commit` is. -/
structure Commit where
  files : FileTree
  stage : Stage

namespace Commit

/-- One call; the stream hands on so many of its bytes and one more. What does not open takes no
bytes, and the rename is tried all the same. -/
def next (mapped : List Name) (content : Str) (random : ℕ) (w : Commit) (bytes : ℕ) :
    Option Commit :=
  let temp := cSegments (mapped.dropLast ++ [tempName (mapped.getLastD []) random])
  match w.stage with
  | .making _ [] => some { w with stage := .opening }
  | .making m (seg :: segs) => match w.files.node (step m seg) with
    | some .dir => some { w with stage := .making (step m seg) segs }
    | some (.file _) => some { w with stage := .thrown }
    | none => some ⟨w.files.set (step m seg) .dir, .making (step m seg) segs⟩
  | .opening => match w.files.locate temp with
    | none => some { w with stage := .moving }
    | some m =>
      if w.files.node m = some .dir then some { w with stage := .moving }
      else some ⟨w.files.set m (.file []), .writing m [] content⟩
  | .writing _ _ [] => some { w with stage := .moving }
  | .writing m written left => some
      ⟨w.files.set m (.file (written ++ left.take (bytes + 1))),
        .writing m (written ++ left.take (bytes + 1)) (left.drop (bytes + 1))⟩
  | .moving => some ⟨(w.files.rename temp (cSegments mapped)).getD w.files, .done⟩
  | .done => none
  | .thrown => none

def initial (files : FileTree) (mapped : List Name) : Commit :=
  ⟨files, .making [] (cSegments mapped.dropLast)⟩

end Commit

section Stages

variable {files files₁ : FileTree} {dir : List Name} {name : Name} {content : Str} {random : ℕ}

/-- What a `commit` has done by each of its calls. -/
inductive Midway (files : FileTree) (dir : List Name) (name : Name) (content : Str) (random : ℕ) :
    Commit → Prop where
  | making {t : FileTree} {passed left : List Name} (h : dir = passed ++ left)
    (hway : ∀ a ∈ visited [] passed, ∀ c, files.node a ≠ some (.file c))
    (hnode : ∀ a, t.node a = made files passed a) :
    Midway files dir name content random ⟨t, .making (lexical [] passed) left⟩
  | opening {t files₁ : FileTree} (hmade : files.createDirectories [] dir = some files₁)
    (hnode : ∀ a, t.node a = files₁.node a) : Midway files dir name content random ⟨t, .opening⟩
  | writing {t files₁ : FileTree} {written left : Str} (h : written ++ left = content)
    (hmade : files.createDirectories [] dir = some files₁)
    (htemp : files₁.node (tempLocation dir name random) ≠ some .dir)
    (hnode : ∀ a, t.node a = if a = tempLocation dir name random then some (.file written)
      else files₁.node a) :
    Midway files dir name content random
      ⟨t, .writing (tempLocation dir name random) written left⟩
  | moving {t files₁ : FileTree} (hmade : files.createDirectories [] dir = some files₁)
    (hnode : ∀ a, t.node a = (files₁.write (dir ++ [tempName name random]) content).node a) :
    Midway files dir name content random ⟨t, .moving⟩
  | done {t files' : FileTree} (h : commitWrite files (dir ++ [name]) content random = .ok files')
    (hnode : ∀ a, t.node a = files'.node a) : Midway files dir name content random ⟨t, .done⟩
  | thrown {t : FileTree} {passed left : List Name} (h : dir = passed ++ left)
    (herr : commitWrite files (dir ++ [name]) content random = .error .filesystem)
    (hway : ∀ a ∈ visited [] passed, ∀ c, files.node a ≠ some (.file c))
    (hnode : ∀ a, t.node a = made files passed a) :
    Midway files dir name content random ⟨t, .thrown⟩

variable {t : FileTree}

theorem made_append (passed : List Name) (seg : Name) (a : Location) :
    made files (passed ++ [seg]) a =
      if a = step (lexical [] passed) seg then some .dir else made files passed a := by
  rw [made_eq, made_eq, visited_concat]
  by_cases ha : a = step (lexical [] passed) seg <;> simp [ha]

/-- The directory in which the temporary file is opened, in any tree with those directories. -/
theorem locate_temp (hmade : files.createDirectories [] dir = some files₁)
    (hnode : ∀ a, t.node a = files₁.node a) :
    t.locate (dir ++ [tempName name random]) = some (tempLocation dir name random) := by
  obtain ⟨hw, hd⟩ := walk_createDirectories hmade
  rw [locate_congr hnode, locate_of_walk hw hd (tempName_ordinary name random)]
  rfl

theorem createDirectories_way (hmade : files.createDirectories [] dir = some files₁) :
    (∀ a ∈ visited [] dir, ∀ c, files.node a ≠ some (.file c)) ∧
      ∀ a, files₁.node a = made files dir a :=
  ⟨(isSome_createDirectories dir).mp (by rw [hmade]; rfl),
    fun a => (createDirectories_node dir hmade a).trans (made_eq a).symm⟩

/-- A call of a `commit`. What is in the way of the directories is there before the first of them
is made, unless it is one of them. -/
theorem midway_next (hplain : ¬ HasNul (dir ++ [name])) {w w' : Commit} {n : ℕ}
    (hw : Midway files dir name content random w)
    (h : w.next (dir ++ [name]) content random n = some w') :
    Midway files dir name content random w' := by
  have htemp : cSegments (dir ++ [tempName name random]) = dir ++ [tempName name random] :=
    cSegments_temp hplain random
  cases hw with
  | @making t passed left hdir hway hnode =>
    cases left with
    | nil =>
      obtain rfl : dir = passed := by simpa using hdir
      obtain rfl := Option.some.inj h
      obtain ⟨files₁, hmade⟩ := Option.isSome_iff_exists.mp
        ((isSome_createDirectories dir).mpr hway)
      exact .opening hmade fun a => (hnode a).trans ((createDirectories_way hmade).2 a).symm
    | cons seg segs =>
      have hnext : dir = (passed ++ [seg]) ++ segs := by simpa using hdir
      have hlex : lexical [] (passed ++ [seg]) = step (lexical [] passed) seg := lexical_concat
      have hstep : ∀ n, t.node (step (lexical [] passed) seg) = n →
          (∀ c, n ≠ some (.file c)) → (∀ a ∈ visited [] (passed ++ [seg]), ∀ c,
            files.node a ≠ some (.file c)) := by
        intro n hn hne a ha c hc
        rw [visited_concat, List.mem_append, List.mem_singleton] at ha
        rcases ha with ha | rfl
        · exact hway a ha c hc
        · by_cases hv : step (lexical [] passed) seg ∈ visited [] passed
          · exact hway _ hv c hc
          · rw [hnode, made_eq, if_neg hv, hc] at hn
            exact hne c hn.symm
      simp only [Commit.next] at h
      rcases hn : t.node (step (lexical [] passed) seg) with _ | _ | c <;>
        simp only [hn, Option.some.injEq] at h <;> subst h
      · rw [← hlex]
        refine .making hnext (hstep _ hn (by simp)) fun a => ?_
        rw [node_set (by rw [hlex]; exact step_ne_nil hn), made_append, hlex, hnode]
      · rw [← hlex]
        refine .making hnext (hstep _ hn (by simp)) fun a => ?_
        rw [made_append, ← hnode]
        split_ifs with ha
        · rw [ha, hn]
        · rfl
      · refine .thrown hdir ?_ hway hnode
        have hfile : files.node (step (lexical [] passed) seg) = some (.file c) := by
          rw [hnode, made_eq] at hn
          split_ifs at hn
          · simp at hn
          · exact hn
        have hno : files.createDirectories [] dir = none := by
          rw [← Option.not_isSome_iff_eq_none, isSome_createDirectories]
          intro hall
          refine hall _ ?_ c hfile
          rw [hnext, visited_append, visited_concat]
          simp
        simp [commitWrite_plain hplain, hno]
  | @opening t files₁ hmade hnode =>
    simp only [Commit.next, List.dropLast_concat, List.getLastD_concat, htemp,
      locate_temp hmade hnode] at h
    split_ifs at h with hd
    · obtain rfl := Option.some.inj h
      rw [hnode] at hd
      refine .moving hmade fun a => ?_
      rw [node_write_temp _ hmade, hnode, if_neg fun hc => hc.2 hd]
    · obtain rfl := Option.some.inj h
      rw [hnode] at hd
      refine .writing (by simp) hmade hd fun a => ?_
      rw [node_set tempLocation_ne_nil, hnode]
  | @writing t files₁ written left hc hmade hd hnode =>
    cases left with
    | nil =>
      obtain rfl := Option.some.inj h
      obtain rfl : written = content := by simpa using hc
      refine .moving hmade fun a => ?_
      rw [node_write_temp _ hmade, hnode]
      simp only [hd, ne_eq, not_false_eq_true, and_true]
    | cons b bs =>
      obtain rfl := Option.some.inj h
      refine .writing (by rw [List.append_assoc, List.take_append_drop, hc]) hmade hd fun a => ?_
      rw [node_set tempLocation_ne_nil, hnode]
      split_ifs <;> rfl
  | @moving t files₁ hmade hnode =>
    obtain rfl := Option.some.inj h
    refine .done (by simp only [commitWrite_plain hplain, hmade]; rfl) fun a => ?_
    simp only [List.dropLast_concat, List.getLastD_concat, htemp, cSegments_plain hplain]
    exact rename_congr hnode _ _ a
  | done => simp [Commit.next] at h
  | thrown => simp [Commit.next] at h

/-- What there is of a `commit` until the rename: directories, and the temporary file. -/
theorem Midway.before {w : Commit} (hw : Midway files dir name content random w)
    (hnot : w.stage ≠ .done) : ∃ passed, passed <+: dir ∧
      (∀ a ∈ visited [] passed, ∀ c, files.node a ≠ some (.file c)) ∧
      (∀ a, a ≠ tempLocation dir name random → w.files.node a = made files passed a) ∧
      (w.files.node (tempLocation dir name random) =
          made files passed (tempLocation dir name random) ∨
        made files passed (tempLocation dir name random) ≠ some .dir ∧
          ∃ c, w.files.node (tempLocation dir name random) = some (.file c)) := by
  cases hw with
  | @making t passed left h hway hnode =>
    exact ⟨passed, ⟨left, h.symm⟩, hway, fun a _ => hnode a, .inl (hnode _)⟩
  | @opening t files₁ hmade hnode =>
    obtain ⟨hway, hm⟩ := createDirectories_way hmade
    have hall : ∀ a, t.node a = made files dir a := fun a => (hnode a).trans (hm a)
    exact ⟨dir, List.prefix_rfl, hway, fun a _ => hall a, .inl (hall _)⟩
  | @writing t files₁ written left _ hmade hd hnode =>
    obtain ⟨hway, hm⟩ := createDirectories_way hmade
    refine ⟨dir, List.prefix_rfl, hway, fun a ha => ?_, .inr ⟨hm _ ▸ hd, written, ?_⟩⟩
    · exact (hnode a).trans ((if_neg ha).trans (hm a))
    · exact (hnode _).trans (if_pos rfl)
  | @moving t files₁ hmade hnode =>
    obtain ⟨hway, hm⟩ := createDirectories_way hmade
    refine ⟨dir, List.prefix_rfl, hway, fun a ha => ?_, ?_⟩
    · show t.node a = _
      rw [hnode, node_write_temp _ hmade, if_neg fun hc => ha hc.1, hm]
    · show t.node _ = _ ∨ _ ∧ ∃ c, t.node _ = _
      rw [hnode, node_write_temp _ hmade, ← hm]
      split_ifs with hc
      · exact .inr ⟨hc.2, content, rfl⟩
      · exact .inl rfl
  | done => exact absurd rfl hnot
  | @thrown t passed left h _ hway hnode =>
    exact ⟨passed, ⟨left, h.symm⟩, hway, fun a _ => hnode a, .inl (hnode _)⟩

/-- No directory goes before the rename, and nothing else. -/
theorem Midway.keeps_before {w : Commit} (hw : Midway files dir name content random w)
    (hnot : w.stage ≠ .done) :
    (∀ a, files.node a = some .dir → w.files.node a = some .dir) ∧
      ∀ a, (files.node a).isSome → (w.files.node a).isSome := by
  obtain ⟨passed, -, -, hnode, htemp⟩ := hw.before hnot
  have hmade : ∀ a, files.node a = some .dir → made files passed a = some .dir := fun a ha => by
    rw [made_eq, ha, ite_self]
  have hsome : ∀ a, (files.node a).isSome → (made files passed a).isSome := fun a ha => by
    rw [made_eq]
    split_ifs
    · rfl
    · exact ha
  refine ⟨fun a ha => ?_, fun a ha => ?_⟩ <;>
    rcases eq_or_ne a (tempLocation dir name random) with rfl | hne
  · rcases htemp with h | ⟨h, -⟩
    · exact h.trans (hmade _ ha)
    · exact absurd (hmade _ ha) h
  · exact (hnode a hne).trans (hmade a ha)
  · rcases htemp with h | ⟨-, c, h⟩
    · rw [h]
      exact hsome _ ha
    · rw [h]
      rfl
  · rw [hnode a hne]
    exact hsome a ha

/-- Nor afterwards, where the temporary name is new. -/
theorem Midway.keeps (hfresh : FreshTemp files (dir ++ [name]) random) {w : Commit}
    (hw : Midway files dir name content random w) :
    (∀ a, files.node a = some .dir → w.files.node a = some .dir) ∧
      ∀ a, (files.node a).isSome → (w.files.node a).isSome := by
  by_cases hdone : w.stage = .done
  · cases hw with
    | done h hnode =>
      obtain ⟨hdir, hsome, -⟩ := commitWrite_spares (by simp) hfresh h
      exact ⟨fun a ha => (hnode a).trans (hdir a ha), fun a ha => by rw [hnode]; exact hsome a ha⟩
    | _ => simp at hdone
  exact hw.keeps_before hdone

/-- A node but the temporary file's is as it was, or a directory that was made, or the file in
place. -/
def Advanced (files t : FileTree) (mapped : List Name) (content : Str) (a : Location) : Prop :=
  t.node a = files.node a ∨
    (a ∈ madeDirs mapped ∧ t.node a = some .dir ∧ ∀ c, files.node a ≠ some (.file c)) ∨
    (a = endOf mapped ∧ Lands files mapped ∧ t.node a = some (.file content))

theorem Midway.advanced (hplain : ¬ HasNul (dir ++ [name]))
    (hfresh : FreshTemp files (dir ++ [name]) random) {w : Commit}
    (hw : Midway files dir name content random w) {a : Location}
    (ha : tempFile (dir ++ [name]) random ≠ some a) :
    Advanced files w.files (dir ++ [name]) content a := by
  by_cases hdone : w.stage = .done
  swap
  · obtain ⟨passed, hpre, hway, hnode, -⟩ := hw.before hdone
    rw [Advanced, madeDirs_plain hplain,
      hnode a fun he => ha (he ▸ tempFile_plain hplain random), made_eq]
    split_ifs with hv
    · exact .inr (.inl ⟨visited_mono hpre hv, rfl, hway a hv⟩)
    · exact .inl rfl
  cases hw with
  | @done t files' h hnode =>
    rcases commitWrite_cases content (by simp) hfresh.tempFree with
      ⟨-, herr⟩ | ⟨hway, files'', hok, hcases⟩
    · simp [herr] at h
    obtain rfl := Except.ok.inj (hok.symm.trans h)
    unfold Advanced
    rw [show t.node a = files''.node a from hnode a]
    rcases hcases with ⟨hlands, hnode'⟩ | ⟨-, hnode'⟩ <;> rw [hnode' a, if_neg ha]
    · split_ifs with h1 h2
      · exact .inr (.inr ⟨h1, hlands, rfl⟩)
      · exact .inr (.inl ⟨h2, rfl, hway a h2⟩)
      · exact .inl rfl
    · split_ifs with h2
      · exact .inr (.inl ⟨h2, rfl, hway a h2⟩)
      · exact .inl rfl
  | _ => simp at hdone

theorem tempFile_ne_endOf {mapped : List Name} (hne : mapped ≠ [])
    (hord : Ordinary ((cSegments mapped).getLastD [])) :
    tempFile mapped random ≠ some (endOf mapped) := by
  intro he
  have hplain : ¬ HasNul mapped := fun hnul => by
    rw [tempFile, if_pos hnul] at he
    cases he
  obtain ⟨dir, name, rfl⟩ : ∃ dir name, mapped = dir ++ [name] :=
    ⟨_, _, (List.dropLast_append_getLast hne).symm⟩
  rw [cSegments_plain hplain, List.getLastD_concat] at hord
  rw [tempFile_plain hplain, endOf_plain hplain, step_ordinary _ hord] at he
  exact ne_tempLocation (Option.some.inj he).symm

/-- A `commit` over what an earlier one of the same entry left comes to the same. -/
theorem redo_of_advanced {random' : ℕ} {mapped : List Name} (hne : mapped ≠ [])
    (hfresh : FreshTemp files mapped random) (hfresh' : FreshTemp t mapped random')
    (hadv : ∀ a, tempFile mapped random ≠ some a → Advanced files t mapped content a) :
    (commitWrite files mapped content random = .error .filesystem ∧
        commitWrite t mapped content random' = .error .filesystem) ∨
      ∃ files' t', commitWrite files mapped content random = .ok files' ∧
        commitWrite t mapped content random' = .ok t' ∧
        ∀ a, tempFile mapped random ≠ some a → tempFile mapped random' ≠ some a →
          t'.node a = files'.node a := by
  have hstop : ∀ a ∈ madeDirs mapped, tempFile mapped random ≠ some a := fun a ha he =>
    (hfresh a he).1 ha
  have hway : ∀ a ∈ madeDirs mapped, ∀ c,
      t.node a = some (.file c) ↔ files.node a = some (.file c) := by
    intro a ha c
    rcases hadv a (hstop a ha) with h | ⟨-, h, hno⟩ | ⟨rfl, hlands, -⟩
    · rw [h]
    · exact iff_of_false (by simp [h]) (hno c)
    · exact absurd ha hlands.2.1
  have hrest : ∀ a, a ∉ madeDirs mapped → tempFile mapped random ≠ some a →
      (a = endOf mapped → ¬ Lands files mapped) → t.node a = files.node a := by
    intro a ha htemp hno
    rcases hadv a htemp with h | ⟨h, -⟩ | ⟨h, hlands, -⟩
    · exact h
    · exact absurd h ha
    · exact absurd hlands (hno h)
  have htarget : Lands t mapped ↔ Lands files mapped := by
    refine and_congr_right fun hord => and_congr_right fun hv => ?_
    rcases hadv _ (tempFile_ne_endOf hne hord) with h | ⟨h, -⟩ | ⟨-, hlands, h⟩
    · rw [h]
    · exact absurd h hv
    · simp [hlands.2.2, h]
  rcases commitWrite_cases content hne hfresh.tempFree with
    ⟨⟨a, ha, c, hc⟩, herr⟩ | ⟨hno, files', hok, hcases⟩
  · refine .inl ⟨herr, ?_⟩
    rcases commitWrite_cases content hne hfresh'.tempFree with ⟨-, herr'⟩ | ⟨hno', -⟩
    · exact herr'
    · exact absurd ((hway a ha c).mpr hc) (hno' a ha c)
  rcases commitWrite_cases content hne hfresh'.tempFree with
    ⟨⟨a, ha, c, hc⟩, -⟩ | ⟨-, t', hok', hcases'⟩
  · exact absurd ((hway a ha c).mp hc) (hno a ha c)
  refine .inr ⟨files', t', hok, hok', fun a htemp htemp' => ?_⟩
  rcases hcases with ⟨hlands, hnode⟩ | ⟨hleft, hnode⟩ <;>
    rcases hcases' with ⟨hlands', hnode'⟩ | ⟨hleft', hnode'⟩
  · rw [hnode, hnode', if_neg htemp, if_neg htemp']
    split_ifs with h1 h2
    · rfl
    · rfl
    · exact hrest a h2 htemp fun h => absurd h h1
  · exact absurd (htarget.mpr hlands) hleft'
  · exact absurd (htarget.mp hlands') hleft
  · rw [hnode, hnode', if_neg htemp, if_neg htemp']
    split_ifs with h2
    · rfl
    · exact hrest a h2 htemp fun _ => hleft

theorem dir_of_commitWrite {mapped : List Name} (hne : mapped ≠ [])
    (hfresh : FreshTemp files mapped random)
    (h : commitWrite files mapped content random = .ok t) {a : Location}
    (ha : t.node a = some .dir) : a ∈ madeDirs mapped ∨ files.node a = some .dir := by
  rcases commitWrite_cases content hne hfresh.tempFree with ⟨-, herr⟩ | ⟨-, t', hok, hcases⟩
  · simp [herr] at h
  obtain rfl := Except.ok.inj (hok.symm.trans h)
  rcases hcases with ⟨-, hnode⟩ | ⟨-, hnode⟩ <;> rw [hnode] at ha <;> split_ifs at ha <;>
    simp_all

/-- The temporary file is none of the directories. -/
theorem Midway.temp_ne (hplain : ¬ HasNul (dir ++ [name]))
    (hfresh : FreshTemp files (dir ++ [name]) random) {w : Commit}
    (hw : Midway files dir name content random w) :
    w.files.node (tempLocation dir name random) ≠ some .dir := by
  obtain ⟨hvisit, hnone⟩ := hfresh _ (tempFile_plain hplain random)
  by_cases hdone : w.stage = .done
  · cases hw with
    | @done t files' h hnode =>
      show t.node _ ≠ _
      rw [hnode]
      intro hd
      rcases dir_of_commitWrite (by simp) hfresh h hd with hv | hd
      · exact hvisit hv
      · simp [hnone] at hd
    | _ => simp at hdone
  obtain ⟨passed, hpre, -, -, htemp⟩ := hw.before hdone
  rw [madeDirs_plain hplain] at hvisit
  rcases htemp with h | ⟨-, c, h⟩
  · rw [h, made_eq, if_neg fun hv => hvisit (visited_mono hpre hv), hnone]
    simp
  · simp [h]

/-- The bytes at a location other than the temporary file's are the old ones or, once the `commit`
is done, those it leaves. -/
theorem Midway.bytes_eq {w : Commit} (hw : Midway files dir name content random w) {a : Location}
    (ha : a ≠ tempLocation dir name random) (hnot : w.stage ≠ .done) :
    bytes (w.files.node a) = bytes (files.node a) := by
  obtain ⟨passed, -, hway, hnode, -⟩ := hw.before hnot
  rw [hnode a ha, made_eq]
  split_ifs with hv
  · rcases hn : files.node a with _ | _ | c
    · rfl
    · rfl
    · exact absurd hn (hway a hv c)
  · rfl

end Stages

/-- The temporary file of a `commit` at a path. -/
def Config.tempOf (cfg : Config) (path : Str) (random : ℕ) : Location :=
  tempLocation (cfg.mappedPath path).dropLast ((cfg.mappedPath path).getLastD []) random

/-- The temporary files of two commits at one path. -/
def Config.IsTemp (cfg : Config) (path : Str) (random random' : ℕ) (a : Location) : Prop :=
  a = cfg.tempOf path random ∨ a = cfg.tempOf path random'

instance (cfg : Config) (path : Str) (random random' : ℕ) (a : Location) :
    Decidable (cfg.IsTemp path random random' a) := inferInstanceAs (Decidable (_ ∨ _))

/-- What others see of a `commit`: until it is done, what there was; then, what it leaves. -/
structure OldOrNew (cfg : Config) (files : FileTree) (path content : Str) (random : ℕ)
    (w : Commit) : Prop where
  old : w.stage ≠ .done → ∀ p, cfg.fileOf p ≠ cfg.tempOf path random →
    (isExists cfg files p = true →
      isExists cfg w.files p = true ∧ readContent cfg w.files p = readContent cfg files p) ∧
    ∀ v, readContent cfg w.files p = .ok v → v = bytes (files.node (cfg.fileOf p))
  new : w.stage = .done → ∃ files',
    commitFiles cfg files ⟨.write, path, content⟩ random = .ok files' ∧
    ∀ p, isExists cfg w.files p = isExists cfg files' p ∧
      readContent cfg w.files p = readContent cfg files' p
  thrown : w.stage = .thrown →
    commitFiles cfg files ⟨.write, path, content⟩ random = .error .filesystem
  goes_on : w.stage = .done ∨ w.stage = .thrown ∨
    ∀ n, (w.next (cfg.mappedPath path) content random n).isSome

section Runs

variable {cfg : Config} {files files' : FileTree} {path p content : Str} {random : ℕ} {w : Commit}
  {ns : List ℕ}

theorem mappedPath_concat (cfg : Config) (path : Str) : cfg.mappedPath path =
    (cfg.mappedPath path).dropLast ++ [(cfg.mappedPath path).getLastD []] := by
  rw [List.getLastD_eq_getLast?, List.getLast?_eq_some_getLast (mappedPath_ne_nil cfg path)]
  exact (List.dropLast_append_getLast (mappedPath_ne_nil cfg path)).symm

theorem not_hasNul (cfg : Config) (h : 0 ∉ path) : ¬ HasNul (cfg.mappedPath path) :=
  fun ⟨name, hn, h0⟩ => nul_notMem_mappedPath h name hn h0

theorem tempFile_mappedPath (h : 0 ∉ path) {a : Location} :
    tempFile (cfg.mappedPath path) random = some a ↔ a = cfg.tempOf path random := by
  rw [tempFile, if_neg (not_hasNul cfg h), Option.some.injEq]
  exact eq_comm

theorem midway_run (hnul : 0 ∉ path)
    (h : Run.run (Commit.next (cfg.mappedPath path) content random)
      (.initial files (cfg.mappedPath path)) ns = some w) :
    Midway files (cfg.mappedPath path).dropLast ((cfg.mappedPath path).getLastD []) content random
      w := by
  have hplain := not_hasNul cfg hnul
  obtain ⟨dir, name, hmapped⟩ : ∃ dir name, cfg.mappedPath path = dir ++ [name] :=
    ⟨_, _, mappedPath_concat cfg path⟩
  rw [hmapped] at hplain h ⊢
  rw [List.dropLast_concat, List.getLastD_concat]
  refine Run.invariant (I := Midway files dir name content random) ?_ ?_ Run.along_true h
  · exact fun _ _ _ hw _ hn => midway_next hplain hw hn
  · rw [Commit.initial, List.dropLast_concat, cSegments_of_notMem (notMem_of_plain hplain).1]
    have hmaking : Midway files dir name content random ⟨files, .making (lexical [] []) dir⟩ :=
      .making rfl (by simp [visited]) fun a => by simp [made_eq, visited]
    exact hmaking

/-- How many calls a `commit` has left at most. -/
def Stage.fuel (content : Str) : Stage → ℕ
  | .making _ left => left.length + content.length + 4
  | .opening => content.length + 3
  | .writing _ _ left => left.length + 2
  | .moving => 1
  | .done | .thrown => 0

theorem fuel_next {mapped : List Name} {w w' : Commit} {n : ℕ}
    (h : w.next mapped content random n = some w') :
    w'.stage.fuel content < w.stage.fuel content := by
  obtain ⟨files, stage⟩ := w
  cases stage with
  | making m left =>
    cases left with
    | nil =>
      obtain rfl := Option.some.inj h
      simp [Stage.fuel]
    | cons seg segs =>
      simp only [Commit.next] at h
      split at h <;> obtain rfl := Option.some.inj h <;> simp [Stage.fuel]
  | opening =>
    simp only [Commit.next] at h
    split at h
    · obtain rfl := Option.some.inj h
      simp [Stage.fuel]
    · split_ifs at h <;> obtain rfl := Option.some.inj h <;> simp [Stage.fuel]
  | writing m written left =>
    cases left with
    | nil =>
      obtain rfl := Option.some.inj h
      simp [Stage.fuel]
    | cons b bs =>
      obtain rfl := Option.some.inj h
      simp only [Stage.fuel, List.drop_succ_cons, List.length_drop, List.length_cons]
      omega
  | moving =>
    obtain rfl := Option.some.inj h
    simp [Stage.fuel]
  | done => simp [Commit.next] at h
  | thrown => simp [Commit.next] at h

theorem fuel_run {mapped : List Name} :
    ∀ {ns : List ℕ} {w w' : Commit}, Run.run (Commit.next mapped content random) w ns = some w' →
      ns.length + w'.stage.fuel content ≤ w.stage.fuel content
  | [], w, w', h => by
    obtain rfl : w = w' := by simpa [Run.run] using h
    simp
  | n :: ns, w, w', h => by
    obtain ⟨u, hu, h⟩ := Run.run_cons_eq_some.mp h
    have hlt := fuel_next hu
    have hle := fuel_run h
    rw [List.length_cons]
    omega

theorem isSome_next {mapped : List Name} {n : ℕ} (hdone : w.stage ≠ .done)
    (hthrown : w.stage ≠ .thrown) : (w.next mapped content random n).isSome := by
  obtain ⟨files, stage⟩ := w
  cases stage with
  | making m left =>
    cases left with
    | nil => rfl
    | cons seg segs =>
      simp only [Commit.next]
      split <;> rfl
  | opening =>
    simp only [Commit.next]
    split
    · rfl
    · split_ifs <;> rfl
  | writing m written left => cases left <;> rfl
  | moving => rfl
  | done => exact absurd rfl hdone
  | thrown => exact absurd rfl hthrown

/-- At no point of a `commit` is anything read but the old content of a file or its new one, and
the `commit` comes to an end. -/
theorem oldOrNew_run (hnul : 0 ∉ path)
    (h : Run.run (Commit.next (cfg.mappedPath path) content random)
      (.initial files (cfg.mappedPath path)) ns = some w) :
    OldOrNew cfg files path content random w ∧
      ns.length ≤ (cfg.mappedPath path).length + content.length + 3 := by
  have hw := midway_run hnul h
  have hmapped := mappedPath_concat cfg path
  refine ⟨⟨fun hnot p hp => ⟨fun hex => ?_, fun v hv => ?_⟩, fun hdone => ?_, fun hthrown => ?_,
    ?_⟩, ?_⟩
  · obtain ⟨hdir, hsome⟩ := hw.keeps_before hnot
    have hex' := isExists_mono hdir hsome hex
    refine ⟨hex', ?_⟩
    rw [readContent_of_isExists hex, readContent_of_isExists hex', hw.bytes_eq hp hnot]
  · rw [← bytes_of_readContent hv, hw.bytes_eq hp hnot]
  · cases hw with
    | @done t files' hc hnode =>
      rw [← hmapped] at hc
      refine ⟨files', hc, fun p => ⟨isPresent_congr hnode _, ?_⟩⟩
      rw [readContent, readContent, read_congr hnode]
    | _ => simp at hdone
  · cases hw with
    | thrown _ herr =>
      rw [← hmapped] at herr
      exact herr
    | _ => simp at hthrown
  · by_cases hdone : w.stage = .done
    · exact .inl hdone
    by_cases hthrown : w.stage = .thrown
    · exact .inr (.inl hthrown)
    · exact .inr (.inr fun n => isSome_next hdone hthrown)
  · have hle := fuel_run h
    have hpos := List.length_pos_iff.mpr (mappedPath_ne_nil cfg path)
    have hdir := notMem_of_plain (hmapped ▸ not_hasNul cfg hnul)
    simp only [Commit.initial, cSegments_of_notMem hdir.1, Stage.fuel, List.length_dropLast] at hle
    omega

/-- One of three bytes is written when others look. -/
theorem oldOrNew_run_partly_written : ∃ w,
    Run.run (Commit.next (sampleConfig.mappedPath (ascii ['a'])) [1, 2, 3] 7)
      (.initial (sampleFiles [ascii ['a']]) (sampleConfig.mappedPath (ascii ['a'])))
      [0, 0, 0, 0, 0, 0] = some w ∧
    w.files.node (sampleConfig.tempOf (ascii ['a']) 7) = some (.file [1]) ∧
    OldOrNew sampleConfig (sampleFiles [ascii ['a']]) (ascii ['a']) [1, 2, 3] 7 w := by
  obtain ⟨w, hw, hcheck⟩ := (Option.any_eq_true _ _).mp (by decide +kernel :
    (Run.run (Commit.next (sampleConfig.mappedPath (ascii ['a'])) [1, 2, 3] 7)
      (.initial (sampleFiles [ascii ['a']]) (sampleConfig.mappedPath (ascii ['a'])))
      [0, 0, 0, 0, 0, 0]).any fun w =>
        w.files.node (sampleConfig.tempOf (ascii ['a']) 7) = some (.file [1]))
  exact ⟨w, hw, by simpa using hcheck, (oldOrNew_run (by decide) hw).1⟩

/-- A `commit` that stopped anywhere, or was done and forgotten, leaves the entry to be applied
again: that comes to what the one commit would have come to, the temporary files aside. -/
theorem redone_run {random' : ℕ} (hnul : 0 ∉ path)
    (hfresh : FreshTemp files (cfg.mappedPath path) random)
    (h : Run.run (Commit.next (cfg.mappedPath path) content random)
      (.initial files (cfg.mappedPath path)) ns = some w)
    (hfresh' : FreshTemp w.files (cfg.mappedPath path) random') :
    (commitFiles cfg files ⟨.write, path, content⟩ random = .error .filesystem ∧
        commitFiles cfg w.files ⟨.write, path, content⟩ random' = .error .filesystem) ∨
      ∃ files' files'', commitFiles cfg files ⟨.write, path, content⟩ random = .ok files' ∧
        commitFiles cfg w.files ⟨.write, path, content⟩ random' = .ok files'' ∧
        ∀ p, ¬ cfg.IsTemp path random random' (cfg.fileOf p) →
          isExists cfg files'' p = isExists cfg files' p ∧
            readContent cfg files'' p = readContent cfg files' p := by
  have hw := midway_run hnul h
  have hne := mappedPath_ne_nil cfg path
  have hmapped := mappedPath_concat cfg path
  have hplain := hmapped ▸ not_hasNul cfg hnul
  have htemp : ∀ random a, tempFile (cfg.mappedPath path) random = some a ↔
      a = cfg.tempOf path random := fun random a => tempFile_mappedPath hnul
  obtain ⟨hvisit, hnone⟩ := hfresh _ ((htemp random _).mpr rfl)
  obtain ⟨hvisit', hnone'⟩ := hfresh' _ ((htemp random' _).mpr rfl)
  have hadv : ∀ a, tempFile (cfg.mappedPath path) random ≠ some a →
      Advanced files w.files (cfg.mappedPath path) content a := fun a ha => by
    rw [hmapped] at ha ⊢
    exact hw.advanced hplain (hmapped ▸ hfresh) ha
  rcases redo_of_advanced hne hfresh hfresh' hadv with herr | ⟨files', files'', hok, hok', hsame⟩
  · exact .inl herr
  have hfiles' : ∀ a, cfg.IsTemp path random random' a → files'.node a ≠ some .dir := by
    rintro a (rfl | rfl) hd
    · rcases dir_of_commitWrite hne hfresh hok hd with hv | hd
      · exact hvisit hv
      · exact absurd (hnone.symm.trans hd) (by simp)
    · rcases dir_of_commitWrite hne hfresh hok hd with hv | hd
      · exact hvisit' hv
      · have hd' := (hw.keeps (hmapped ▸ hfresh)).1 _ hd
        exact absurd (hnone'.symm.trans hd') (by simp)
  have hfiles'' : ∀ a, cfg.IsTemp path random random' a → files''.node a ≠ some .dir := by
    rintro a (rfl | rfl) hd
    · rcases dir_of_commitWrite hne hfresh' hok' hd with hv | hd
      · exact hvisit hv
      · exact hw.temp_ne hplain (hmapped ▸ hfresh) hd
    · rcases dir_of_commitWrite hne hfresh' hok' hd with hv | hd
      · exact hvisit' hv
      · exact absurd (hnone'.symm.trans hd) (by simp)
  have hnode : ∀ a, ¬ cfg.IsTemp path random random' a → files''.node a = files'.node a :=
    fun a ha => hsame a (fun he => ha (.inl ((htemp random a).mp he)))
      fun he => ha (.inr ((htemp random' a).mp he))
  refine .inr ⟨files', files'', hok, hok', fun p hp => ⟨?_, ?_⟩⟩
  · exact isPresent_aside hnode hfiles'' hfiles' hp
  · rw [readContent, readContent, read_aside hnode hfiles'' hfiles' hp]

/-- The process stops when one of three bytes is written, and the entry is applied again. -/
theorem redone_run_partly_written : ∃ w files',
    Run.run (Commit.next (sampleConfig.mappedPath (ascii ['a'])) [1, 2, 3] 7)
      (.initial (sampleFiles [ascii ['a']]) (sampleConfig.mappedPath (ascii ['a'])))
      [0, 0, 0, 0, 0, 0] = some w ∧
    commitFiles sampleConfig w.files ⟨.write, ascii ['a'], [1, 2, 3]⟩ 8 = .ok files' ∧
    readContent sampleConfig files' (ascii ['a']) = .ok [1, 2, 3] := by
  obtain ⟨w, hw, hcheck⟩ := (Option.any_eq_true _ _).mp (by decide +kernel :
    (Run.run (Commit.next (sampleConfig.mappedPath (ascii ['a'])) [1, 2, 3] 7)
      (.initial (sampleFiles [ascii ['a']]) (sampleConfig.mappedPath (ascii ['a'])))
      [0, 0, 0, 0, 0, 0]).any fun w =>
        FreshTemp w.files (sampleConfig.mappedPath (ascii ['a'])) 8)
  obtain ⟨files, hfiles, hread⟩ : ∃ files, commitFiles sampleConfig (sampleFiles [ascii ['a']])
      ⟨.write, ascii ['a'], [1, 2, 3]⟩ 7 = .ok files ∧
      readContent sampleConfig files (ascii ['a']) = .ok [1, 2, 3] := ⟨_, rfl, by decide +kernel⟩
  have hredone := redone_run (by decide) (by decide +kernel) hw
    (by simpa using hcheck : FreshTemp w.files _ 8)
  rcases hredone with ⟨herr, -⟩ | ⟨files₁, files', hok, hok', hsame⟩
  · simp [hfiles] at herr
  obtain rfl := Except.ok.inj (hfiles.symm.trans hok)
  exact ⟨w, files', hw, hok', (hsame _ (by decide +kernel)).2.trans hread⟩

end Runs

end LockService
