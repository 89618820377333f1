import LockService.Convergence
import LockService.ReadBack

/-!
# Catching up through a snapshot

A follower that missed the first entries of the log gets the leader's snapshot and commits the rest.
The snapshot holds the path of the last entry, so the files and the directories of the missed
entries are there only when the rest of the log makes them again, and the transfer itself throws
when that path is longer than four bytes (`catchesUp_iff`).
-/

namespace LockService

open FileTree

section Built

variable (cfg : Config) (es : List Entry)

/-- There is a directory where a path of the entries passes, a file where one ends, and nothing
else. -/
structure Built (node : Location → Option Node) : Prop where
  dirs : ∀ a, node a = some .dir ↔ a = [] ∨ ∃ e ∈ es, a ∈ e.dirs cfg
  files : ∀ a, (∃ c, node a = some (.file c)) ↔ ∃ e ∈ es, a = e.file cfg

/-- The entries make the directories of the path, and its end. -/
def Makes (path : Str) : Prop :=
  (∀ a ∈ visited [] (cfg.cPath path).dropLast, a = [] ∨ ∃ e ∈ es, a ∈ e.dirs cfg) ∧
    (cfg.fileOf path = [] ∨ ∃ e ∈ es, cfg.fileOf path ∈ e.stops cfg)

/-- What writes that all go through leave of a tree. -/
def image (node : Location → Option Node) : Location → Option Node :=
  es.foldl (fun node e => e.paint cfg node) node

variable {cfg es} {es' : List Entry} {e : Entry} {files : FileTree} {random : ℕ} {path : Str}
  {host : Host}

theorem built_empty : Built cfg [] FileTree.empty.node where
  dirs a := by
    rcases eq_or_ne a [] with rfl | ha
    · simp
    · simp [node_empty ha, ha]
  files a := by
    rcases eq_or_ne a [] with rfl | ha
    · simp
    · simp [node_empty ha]

/-- A write that goes through adds its directories and its file. -/
theorem Built.paint (h : Built cfg es files.node) (hi : Installs cfg e random files) :
    Built cfg (es ++ [e]) (e.paint cfg files.node) where
  dirs a := by
    have hfile := (h.dirs (e.file cfg)).not.mp hi.target
    simp only [not_or, not_exists, not_and] at hfile
    simp only [Entry.paint, List.mem_append, List.mem_singleton, or_and_right, exists_or,
      exists_eq_left, ← or_assoc, ← h.dirs a]
    split_ifs with hf hd
    · subst hf
      simp [hi.apart, hi.target]
    · simp [hd]
    · simp [hd]
  files a := by
    simp only [Entry.paint, List.mem_append, List.mem_singleton, or_and_right, exists_or,
      exists_eq_left, ← h.files a]
    split_ifs with hf hd
    · simp [hf]
    · have hno : ¬ ∃ c, files.node a = some (.file c) := by
        rintro ⟨c, hc⟩
        rcases hi.way a hd with hn | hn <;> simp [hn] at hc
      simp [hf, hno]
    · simp [hf]

theorem Clear.congr :
    ∀ (es : List Entry) {idx : ℕ} {sm sm' : StateMachine}, sm.files = sm'.files →
      Clear cfg host idx es sm → Clear cfg host idx es sm'
  | [], _, _, _, _, _ => trivial
  | e :: es, idx, sm, sm', hf, h => by
    refine ⟨hf ▸ h.1, fun sm₁' hsm₁' => ?_⟩
    rcases advance_cases cfg host (idx + 1) e sm' with ⟨f, -, herr⟩ | ⟨sm₂', hok', hc', -⟩
    · simp [herr] at hsm₁'
    obtain rfl : sm₂' = sm₁' := by simpa [hok'] using hsm₁'
    rcases advance_cases cfg host (idx + 1) e sm with ⟨f, hc, -⟩ | ⟨sm₁, hok, hc, -⟩
    · rw [hf, hc'] at hc
      cases hc
    · rw [hf, hc'] at hc
      exact Clear.congr es (Except.ok.inj hc).symm (h.2 sm₁ hok)

/-- A clear replay of writes leaves what they paint. -/
theorem replay_clear :
    ∀ (es : List Entry) {done : List Entry} {idx : ℕ} {sm : StateMachine},
      (∀ e ∈ es, e.payload.type = .write) → Clear cfg host idx es sm →
      Built cfg done sm.files.node →
      ∃ sm', replay cfg host idx es sm = .ok sm' ∧ Built cfg (done ++ es) sm'.files.node ∧
        sm'.files.node = image cfg es sm.files.node
  | [], done, _, sm, _, _, hb => ⟨sm, rfl, by rwa [List.append_nil], rfl⟩
  | e :: es, done, idx, sm, hw, hc, hb => by
    simp only [List.mem_cons, forall_eq_or_imp] at hw
    obtain ⟨sm₁, hsm, hf⟩ := advance_clear hc.1
    obtain ⟨-, hnode⟩ := hf.resolve_right fun h => h.1 hw.1
    have hb₁ : Built cfg (done ++ [e]) sm₁.files.node := by
      rw [funext hnode]
      exact hb.paint (hc.1 hw.1)
    obtain ⟨sm', hr, hb', himage⟩ := replay_clear es hw.2 (hc.2 sm₁ hsm) hb₁
    refine ⟨sm', by rw [replay, hsm]; exact hr, by rwa [List.append_cons], ?_⟩
    rw [himage, funext hnode]
    rfl

/-- A path is there when the entries make it. -/
theorem isExists_iff_makes (h : Built cfg es files.node) :
    isExists cfg files path = true ↔ Makes cfg es path := by
  obtain ⟨dir, name, hpath⟩ : ∃ dir name, cfg.cPath path = dir ++ [name] :=
    ⟨_, _, (List.dropLast_append_getLast (cPath_ne_nil cfg path)).symm⟩
  have hend : (files.node (cfg.fileOf path)).isSome ↔
      cfg.fileOf path = [] ∨ ∃ e ∈ es, cfg.fileOf path ∈ e.stops cfg := by
    have hd := h.dirs (cfg.fileOf path)
    have hf := h.files (cfg.fileOf path)
    simp only [Entry.mem_stops, and_or_left, exists_or, ← or_assoc, ← hd, ← hf]
    rcases files.node (cfg.fileOf path) with _ | _ | c <;> simp
  rw [Makes, ← hend, isExists, hpath, isPresent_concat, List.dropLast_concat, ← hpath]
  simp only [← h.dirs]
  constructor
  · rintro ⟨hw, hd, hs⟩
    exact ⟨dirs_of_walk dir hw hd, hs⟩
  · rintro ⟨hdirs, hs⟩
    obtain ⟨hw, hd⟩ := walk_of_dirs dir (node_root files) hdirs
    exact ⟨hw, hd, hs⟩

theorem Makes.mono (h : Makes cfg es path) (hs : ∀ e ∈ es, e ∈ es') : Makes cfg es' path :=
  ⟨fun a ha => (h.1 a ha).imp_right fun ⟨e, he, hd⟩ => ⟨e, hs e he, hd⟩,
    h.2.imp_right fun ⟨e, he, hd⟩ => ⟨e, hs e he, hd⟩⟩

/-- A location holds what was last written there, whatever it held before. -/
theorem image_congr :
    ∀ (es : List Entry) {node node' : Location → Option Node} {a : Location},
      (∃ e ∈ es, a ∈ e.stops cfg) ∨ node a = node' a →
      image cfg es node a = image cfg es node' a
  | [], node, node', a, h => by simpa [image] using h
  | e :: es, node, node', a, h => by
    have hpaint : (∃ e ∈ es, a ∈ e.stops cfg) ∨ e.paint cfg node a = e.paint cfg node' a := by
      rcases h with ⟨e', he', ha⟩ | h
      · rcases List.mem_cons.mp he' with rfl | he'
        · refine .inr ?_
          unfold Entry.paint
          split_ifs with hf hd
          · rfl
          · rfl
          · exact absurd (Entry.mem_stops.mp ha) (not_or.mpr ⟨hd, hf⟩)
        · exact .inl ⟨e', he', ha⟩
      · refine .inr ?_
        unfold Entry.paint
        rw [h]
    exact image_congr es hpaint

end Built

section Servers

variable {cfg : Config} {i j : ℕ} {paths : List Str} {es : List Entry} {path : Str}

/-- The entries make a path on one server when they do on the other. -/
theorem makes_onServer (ha : Alike cfg i j paths) (hes : ∀ e ∈ es, e.payload.path ∈ paths)
    (hp : path ∈ paths) :
    Makes (cfg.onServer i) es path ↔ Makes (cfg.onServer j) es path := by
  have hdir : ∀ ab ∈ pairs cfg i j paths,
      ((ab.1 = [] ∨ ∃ e ∈ es, ab.1 ∈ e.dirs (cfg.onServer i)) ↔
          (ab.2 = [] ∨ ∃ e ∈ es, ab.2 ∈ e.dirs (cfg.onServer j))) ∧
        ((ab.1 = [] ∨ ∃ e ∈ es, ab.1 ∈ e.stops (cfg.onServer i)) ↔
          (ab.2 = [] ∨ ∃ e ∈ es, ab.2 ∈ e.stops (cfg.onServer j))) := by
    intro ab hab
    have hroot := ha ab hab ([], []) List.mem_cons_self
    refine ⟨or_congr hroot ?_, or_congr hroot ?_⟩ <;>
      refine exists_congr fun e => and_congr_right fun he => ?_ <;>
      obtain ⟨hfile, hdirs⟩ := mem_dirs_iff ha (hes e he) hab
    · exact hdirs
    · rw [Entry.mem_stops, Entry.mem_stops, hfile, hdirs]
  have hside : ∀ cd ∈ sideBySide cfg i j path, cd ∈ pairs cfg i j paths :=
    fun cd hcd => mem_pairs hp hcd
  simp only [sideBySide_eq, List.mem_append, or_imp, forall_and, List.mem_singleton,
    forall_eq] at hside
  have hlen : (visited [] ((cfg.onServer i).cPath path).dropLast).length =
      (visited [] ((cfg.onServer j).cPath path).dropLast).length := by
    simp [length_cPath_onServer cfg i j]
  obtain ⟨hleft, hright⟩ := exists_mem_zip _ _ hlen
  refine and_congr ⟨fun h b hb => ?_, fun h a ha' => ?_⟩ (hdir _ hside.2).2
  · obtain ⟨a, ha', hmem⟩ := hright b hb
    exact (hdir _ (hside.1 _ hmem)).1.mp (h a ha')
  · obtain ⟨b, hb, hmem⟩ := hleft a ha'
    exact (hdir _ (hside.1 _ hmem)).1.mpr (h b hb)

theorem inStep_image (ha : Alike cfg i j paths) :
    ∀ (es : List Entry) {node node' : Location → Option Node},
      (∀ e ∈ es, e.payload.path ∈ paths) → InStep cfg i j paths node node' →
      InStep cfg i j paths (image (cfg.onServer i) es node) (image (cfg.onServer j) es node')
  | [], _, _, _, h => h
  | e :: es, _, _, hes, h => by
    simp only [List.mem_cons, forall_eq_or_imp] at hes
    exact inStep_image ha es hes.2 (inStep_paint ha hes.1 h)

end Servers

section CatchUp

variable (cfg : Config) (i j : ℕ) (leader : StateMachine) (term : ℕ) (replica follower : Host)
  (early late : List Entry) (path : Str)

/-- Server `j` starts empty, receives the leader's snapshot after the early entries and commits the
late ones; at the path it has what server `i` has, that commits them all. -/
def CatchesUp : Prop :=
  ∃ behind caughtUp whole,
    (leader.createSnapshotInternal ⟨early.length, term⟩).sendObjects ⟨early.length, term⟩ 2 0
      (.initial .empty) = .ok (true, behind) ∧
    replay (cfg.onServer j) follower early.length late behind = .ok caughtUp ∧
    replay (cfg.onServer i) replica 0 (early ++ late) (.initial .empty) = .ok whole ∧
    isExists (cfg.onServer j) caughtUp.files path = isExists (cfg.onServer i) whole.files path ∧
    readContent (cfg.onServer j) caughtUp.files path =
      readContent (cfg.onServer i) whole.files path

/-- The last early path fits the snapshot, and the late entries make the path if all do. -/
def CarriesOver : Prop :=
  (∀ e, early.getLast? = some e → e.payload.path.length ≤ 4) ∧
    (Makes (cfg.onServer i) (early ++ late) path → Makes (cfg.onServer i) late path)

variable {cfg i j leader term replica follower early late path}

/-- A replay of the late entries has at the path what one of all has, if they make it or none
does. -/
theorem agree_iff_makes {files files' : FileTree}
    (ha : Alike cfg i j (path :: (early ++ late).map fun e => e.payload.path))
    (hb : Built (cfg.onServer j) late files.node)
    (hb' : Built (cfg.onServer i) (early ++ late) files'.node)
    (hn : files.node = image (cfg.onServer j) late FileTree.empty.node)
    (hn' : files'.node = image (cfg.onServer i) (early ++ late) FileTree.empty.node) :
    (isExists (cfg.onServer j) files path = isExists (cfg.onServer i) files' path ∧
        readContent (cfg.onServer j) files path = readContent (cfg.onServer i) files' path) ↔
      (Makes (cfg.onServer i) (early ++ late) path → Makes (cfg.onServer i) late path) := by
  have hlate : ∀ e ∈ late, e ∈ early ++ late := fun e he => List.mem_append_right _ he
  have hpaths : ∀ e ∈ early ++ late,
      e.payload.path ∈ path :: (early ++ late).map fun e => e.payload.path :=
    fun e he => List.mem_cons_of_mem _ (List.mem_map_of_mem he)
  have hex : isExists (cfg.onServer j) files path = true ↔
      Makes (cfg.onServer i) late path := by
    rw [isExists_iff_makes hb]
    exact (makes_onServer ha (fun e he => hpaths e (hlate e he)) List.mem_cons_self).symm
  have hex' : isExists (cfg.onServer i) files' path = true ↔
      Makes (cfg.onServer i) (early ++ late) path := isExists_iff_makes hb'
  refine ⟨fun h hr => hex.mp (h.1.trans (hex'.mpr hr)), fun h => ?_⟩
  have hsame : isExists (cfg.onServer j) files path = isExists (cfg.onServer i) files' path := by
    rw [Bool.eq_iff_iff, hex, hex']
    exact ⟨fun hr => hr.mono hlate, h⟩
  refine ⟨hsame, ?_⟩
  by_cases hr : Makes (cfg.onServer i) late path
  · rw [readContent_of_isExists (hex.mpr hr), readContent_of_isExists (hsame ▸ hex.mpr hr)]
    have hempty : InStep cfg i j (path :: (early ++ late).map fun e => e.payload.path)
        FileTree.empty.node FileTree.empty.node := by
      intro ab hab
      have hroot := ha ab hab ([], []) List.mem_cons_self
      by_cases h0 : ab.1 = []
      · rw [h0, hroot.mp h0]
      · rw [node_empty h0, node_empty fun h => h0 (hroot.mpr h)]
    have hpair : ((cfg.onServer i).fileOf path, (cfg.onServer j).fileOf path) ∈
        pairs cfg i j (path :: (early ++ late).map fun e => e.payload.path) :=
      mem_pairs List.mem_cons_self (sideBySide_eq path ▸ by simp)
    have hstep : image (cfg.onServer i) late FileTree.empty.node ((cfg.onServer i).fileOf path) =
        image (cfg.onServer j) late FileTree.empty.node ((cfg.onServer j).fileOf path) :=
      inStep_image ha late (fun e he => hpaths e (hlate e he)) hempty _ hpair
    have hroot : (cfg.onServer i).fileOf path = [] ↔ (cfg.onServer j).fileOf path = [] :=
      ha _ hpair ([], []) List.mem_cons_self
    rcases hr.2 with h0 | hend
    · rw [h0, hroot.mp h0, node_root, node_root]
    · have hwhole : image (cfg.onServer i) (early ++ late) FileTree.empty.node =
          image (cfg.onServer i) late (image (cfg.onServer i) early FileTree.empty.node) :=
        List.foldl_append
      rw [hn, hn', ← hstep, hwhole, image_congr late (.inl hend)]
  · have hno : ∀ {cfg : Config} {files : FileTree}, isExists cfg files path = false →
        readContent cfg files path = .error .openFailed := fun {cfg files} hx => by
      unfold isExists isPresent at hx
      unfold readContent FileTree.read
      rcases hw : files.walk [] (cfg.cPath path) with e | d
      · rfl
      · simp [hw, Except.isOk, Except.toBool] at hx
    have hx : isExists (cfg.onServer j) files path = false := by simpa using mt hex.mp hr
    rw [hno hx, hno (hsame ▸ hx)]

theorem catchesUp_iff {leaderCfg : Config} {host : Host} {files : FileTree}
    (hw : ∀ e ∈ early ++ late, e.payload.type = .write)
    (hleader : replay leaderCfg host 0 early (.initial files) = .ok leader)
    (hi : Clear (cfg.onServer i) replica 0 (early ++ late) (.initial .empty))
    (hj : Clear (cfg.onServer j) follower early.length late (.initial .empty))
    (ha : Alike cfg i j (path :: (early ++ late).map fun e => e.payload.path)) :
    CatchesUp cfg i j leader term replica follower early late path ↔
      CarriesOver cfg i early late path := by
  obtain ⟨hvalue, hkeys⟩ := replay_curValue early hleader
  have hkeys : ∀ k ∈ leader.snapshots, k ≤ early.length := by
    simpa using hkeys (by simp [StateMachine.initial])
  have hlen : leader.getCurrentValue.length ≤ 4 ↔
      ∀ e, early.getLast? = some e → e.payload.path.length ≤ 4 := by
    rw [StateMachine.getCurrentValue, hvalue]
    rcases early.getLast? with _ | e
    · simp [StateMachine.initial, ascii]
    · simp
  have hempty : ∀ k ∈ (StateMachine.initial .empty).snapshots, k ≤ early.length := by
    simp [StateMachine.initial]
  have hsend := sendObjects_cases
    (getElem?_createSnapshotInternal_last (s := ⟨early.length, term⟩) hkeys) hempty
  obtain ⟨whole, hr, hb', hn'⟩ := replay_clear _ hw hi built_empty
  have hstart : ∀ {behind : StateMachine}, behind.files = .empty →
      Clear (cfg.onServer j) follower early.length late behind := fun hfiles =>
    hj.congr late hfiles.symm
  have hagree : ∀ {behind caughtUp : StateMachine}, behind.files = .empty →
      replay (cfg.onServer j) follower early.length late behind = .ok caughtUp →
      ((isExists (cfg.onServer j) caughtUp.files path =
            isExists (cfg.onServer i) whole.files path ∧
          readContent (cfg.onServer j) caughtUp.files path =
            readContent (cfg.onServer i) whole.files path) ↔
        (Makes (cfg.onServer i) (early ++ late) path → Makes (cfg.onServer i) late path)) := by
    intro behind caughtUp hfiles hf
    obtain ⟨sm, hf', hb, hn⟩ := replay_clear late (fun e he => hw e (List.mem_append_right _ he))
      (hstart hfiles) (hfiles ▸ built_empty)
    obtain rfl : sm = caughtUp := by simpa [hf'] using hf
    exact agree_iff_makes ha hb hb' (hfiles ▸ hn) hn'
  constructor
  · rintro ⟨behind, caughtUp, whole', hsent, hf, hr', hsame⟩
    obtain rfl : whole = whole' := by simpa [hr] using hr'
    rcases hsend with ⟨-, herr⟩ | ⟨hshort, sm, hok, -, hbehind⟩
    · simp [herr] at hsent
    obtain rfl : sm = behind := by simpa [hok] using hsent
    exact ⟨hlen.mp hshort, (hagree hbehind hf).mp hsame⟩
  · rintro ⟨hshort, hreach⟩
    rcases hsend with ⟨hlong, -⟩ | ⟨-, behind, hok, -, hbehind⟩
    · exact absurd (hlen.mpr hshort) (not_le.mpr hlong)
    obtain ⟨caughtUp, hf, -⟩ := replay_clear late (fun e he => hw e (List.mem_append_right _ he))
      (hstart hbehind) (show Built _ _ behind.files.node by
        rw [hbehind]
        exact built_empty)
    exact ⟨behind, caughtUp, whole, hok, hf, hr, (hagree hbehind hf).mpr hreach⟩

/-- The leader that committed one byte. -/
def sampleLeader : StateMachine :=
  ((replay sampleConfig (sampleHost 0) 0 [sampleEntry 1] (.initial .empty)).toOption).getD
    (.initial .empty)

/-- A follower that missed one write catches up once the path is written again, though both servers
draw the same temporary name for it. -/
theorem catchesUp_iff_written_again :
    CatchesUp sampleConfig 1 2 sampleLeader 1 (sampleHost 0) (sampleHost 0)
      [sampleEntry 1] [sampleEntry 2] (ascii ['a']) := by
  have hleader : replay sampleConfig (sampleHost 0) 0 [sampleEntry 1] (.initial .empty) =
      .ok sampleLeader := rfl
  refine (catchesUp_iff (by decide) hleader ?_ ?_ ?_).mpr ⟨?_, fun _ => ⟨?_, .inr ?_⟩⟩
  · refine ⟨fun _ => by decide, fun sm hsm => ⟨fun _ => ?_, fun _ _ => trivial⟩⟩
    obtain rfl : ((advance (sampleConfig.onServer 1) (sampleHost 0) 1 (sampleEntry 1)
        (.initial .empty)).toOption).getD (.initial .empty) = sm := by
      rw [hsm]
      rfl
    decide
  · exact ⟨fun _ => by decide, fun _ _ => trivial⟩
  · unfold Alike
    decide
  · intro e he
    simp only [List.getLast?_singleton, Option.some.injEq] at he
    subst he
    decide
  · decide
  · decide

/-- A follower that missed the only write has no file. -/
theorem not_catchesUp_missed_write :
    replay sampleConfig (sampleHost 0) 0 [sampleEntry 1] (.initial .empty) = .ok sampleLeader ∧
      ¬ ∀ path, CatchesUp sampleConfig 1 2 sampleLeader 1 (sampleHost 0) (sampleHost 0)
        [sampleEntry 1] [] path := by
  refine ⟨rfl, fun h => ?_⟩
  obtain ⟨behind, caughtUp, whole, hs, hf, hr, hx, -⟩ := h (ascii ['a'])
  obtain rfl : ((replay (sampleConfig.onServer 1) (sampleHost 0) 0 [sampleEntry 1]
      (.initial .empty)).toOption).getD (.initial .empty) = whole := by
    rw [List.append_nil] at hr
    rw [hr]
    rfl
  simp only [replay, Except.ok.injEq] at hf
  subst hf
  have hsnapshot : (sampleLeader.createSnapshotInternal ⟨1, 1⟩).snapshots[1]? =
      some ⟨⟨1, 1⟩, ascii ['a']⟩ := rfl
  have hempty : ∀ k ∈ (StateMachine.initial .empty).snapshots, k ≤ 1 := by
    simp [StateMachine.initial]
  rcases sendObjects_cases (s := ⟨1, 1⟩) hsnapshot hempty with ⟨-, herr⟩ | ⟨-, sm, hok, -, hfiles⟩
  · exact absurd (herr.symm.trans hs) (by simp)
  · obtain rfl : sm = behind := by simpa using hok.symm.trans hs
    rw [hfiles] at hx
    revert hx
    decide

end CatchUp

end LockService
