import LockService.Lib.FilePath

/-!
# A tree of files and directories

Paths are resolved one segment at a time, as the operating system does, and whatever is left of a
path behind a regular file or behind nothing does not resolve. There are no links, so a path that
resolves does so to its lexical location (`walk_eq_lexical`), and a path through directories alone
resolves in every tree that has those directories (`walk_of_dirs`, `walk_dir_mono`).
-/

/-- A directory, or a regular file with its content. -/
inductive Node where
  | dir
  | file (content : List UInt8)
  deriving DecidableEq

/-- The nodes below the root, which is always a directory. -/
structure FileTree where
  nodes : Std.ExtTreeMap Location Node

namespace FileTree

def empty : FileTree := ⟨∅⟩

def node (t : FileTree) (m : Location) : Option Node := if m = [] then some .dir else t.nodes[m]?

def set (t : FileTree) (m : Location) (n : Node) : FileTree := ⟨t.nodes.insert m n⟩

def erase (t : FileTree) (m : Location) : FileTree := ⟨t.nodes.erase m⟩

@[simp]
theorem node_root (t : FileTree) : t.node [] = some .dir := rfl

theorem node_empty {m : Location} (h : m ≠ []) : empty.node m = none := by
  simp [node, empty, h]

theorem node_set {t : FileTree} {m : Location} (hm : m ≠ []) (n : Node) (a : Location) :
    (t.set m n).node a = if a = m then some n else t.node a := by
  by_cases ha : a = []
  · simp [node, ha, hm.symm]
  · simp [node, set, ha, Std.ExtTreeMap.getElem?_insert, @eq_comm _ a]

theorem node_erase {t : FileTree} {m : Location} (hm : m ≠ []) (a : Location) :
    (t.erase m).node a = if a = m then none else t.node a := by
  by_cases ha : a = []
  · simp [node, ha, hm.symm]
  · simp [node, erase, ha, Std.ExtTreeMap.getElem?_erase, @eq_comm _ a]

/-- What a path that does not resolve meets: nothing, or a regular file on the way. -/
inductive WalkError where
  | noEntry
  | notDir
  deriving DecidableEq

def walk (t : FileTree) : Location → List Name → Except WalkError Location
  | m, [] => .ok m
  | m, seg :: segs =>
    if t.node m = some .dir then
      if (t.node (step m seg)).isSome then walk t (step m seg) segs else .error .noEntry
    else .error .notDir

theorem walk_cons_eq_ok {t : FileTree} {m d : Location} {seg : Name} {segs : List Name} :
    t.walk m (seg :: segs) = .ok d ↔
      t.node m = some .dir ∧ (t.node (step m seg)).isSome ∧ t.walk (step m seg) segs = .ok d := by
  simp only [walk]
  split_ifs <;> simp_all

/-- Without links a path resolves to its lexical location. -/
theorem walk_eq_lexical {t : FileTree} :
    ∀ (segs : List Name) {m d : Location}, t.walk m segs = .ok d → d = lexical m segs
  | [], m, d, h => by simpa [walk, lexical, eq_comm] using h
  | seg :: segs, m, d, h => by
    obtain ⟨-, -, h⟩ := walk_cons_eq_ok.mp h
    simpa [lexical] using walk_eq_lexical segs h

theorem isSome_node_of_walk {t : FileTree} :
    ∀ (segs : List Name) {m d : Location}, (t.node m).isSome → t.walk m segs = .ok d →
      (t.node d).isSome
  | [], m, d, hm, h => by
    simp only [walk, Except.ok.injEq] at h
    exact h ▸ hm
  | seg :: segs, m, d, _, h => by
    obtain ⟨-, hs, h⟩ := walk_cons_eq_ok.mp h
    exact isSome_node_of_walk segs hs h

theorem walk_append {t : FileTree} {b : List Name} :
    ∀ (a : List Name) {m : Location}, t.walk m (a ++ b) = (t.walk m a).bind (t.walk · b)
  | [], m => rfl
  | seg :: a, m => by
    simp only [List.cons_append, walk]
    split_ifs
    · exact walk_append a
    · rfl
    · rfl

/-- A path whose every stop is a directory resolves, to a directory. -/
theorem walk_of_dirs {t : FileTree} :
    ∀ (segs : List Name) {m : Location}, t.node m = some .dir →
      (∀ a ∈ visited m segs, t.node a = some .dir) →
      t.walk m segs = .ok (lexical m segs) ∧ t.node (lexical m segs) = some .dir
  | [], _, hm, _ => ⟨rfl, hm⟩
  | seg :: segs, m, hm, h => by
    simp only [visited, List.mem_cons, forall_eq_or_imp] at h
    obtain ⟨hw, hd⟩ := walk_of_dirs segs h.1 h.2
    exact ⟨walk_cons_eq_ok.mpr ⟨hm, by simp [h.1], hw⟩, hd⟩

/-- Every stop of a path that resolves to a directory is one. -/
theorem dirs_of_walk {t : FileTree} :
    ∀ (segs : List Name) {m d : Location}, t.walk m segs = .ok d → t.node d = some .dir →
      ∀ a ∈ visited m segs, t.node a = some .dir
  | [], _, _, _, _ => by simp [visited]
  | seg :: segs, m, d, h, hd => by
    obtain ⟨-, -, h⟩ := walk_cons_eq_ok.mp h
    have ih := dirs_of_walk segs h hd
    simp only [visited, List.mem_cons, forall_eq_or_imp]
    refine ⟨?_, ih⟩
    rcases segs with _ | ⟨seg', segs⟩
    · simp only [walk, Except.ok.injEq] at h
      exact h ▸ hd
    · exact (walk_cons_eq_ok.mp h).1

/-- So is every location above its end. -/
theorem prefix_dirs_of_walk {t : FileTree} :
    ∀ (segs : List Name) {m : Location}, (∀ p, p <+: m → t.node p = some .dir) →
      (∀ a ∈ visited m segs, t.node a = some .dir) →
      ∀ p, p <+: lexical m segs → t.node p = some .dir
  | [], _, hm, _ => hm
  | seg :: segs, m, hm, h => by
    simp only [visited, List.mem_cons, forall_eq_or_imp] at h
    refine prefix_dirs_of_walk segs (m := step m seg) (fun p hp => ?_) h.2
    by_cases hs : p = step m seg
    · exact hs ▸ h.1
    · refine hm p ?_
      unfold step at hp hs
      split_ifs at hp hs
      · exact hp
      · exact hp.trans (List.dropLast_prefix m)
      · exact (List.prefix_concat_iff.mp hp).resolve_left hs

theorem walk_mono {t t' : FileTree} (hdir : ∀ a, t.node a = some .dir → t'.node a = some .dir)
    (hsome : ∀ a, (t.node a).isSome → (t'.node a).isSome) :
    ∀ (segs : List Name) {m d : Location}, t.walk m segs = .ok d → t'.walk m segs = .ok d
  | [], _, _, h => h
  | seg :: segs, m, d, h => by
    obtain ⟨hm, hs, h⟩ := walk_cons_eq_ok.mp h
    exact walk_cons_eq_ok.mpr ⟨hdir m hm, hsome _ hs, walk_mono hdir hsome segs h⟩

theorem walk_dir_mono {t t' : FileTree} (hdir : ∀ a, t.node a = some .dir → t'.node a = some .dir)
    {segs : List Name} {d : Location} (h : t.walk [] segs = .ok d) (hd : t.node d = some .dir) :
    t'.walk [] segs = .ok d := by
  rw [walk_eq_lexical segs h]
  exact (walk_of_dirs segs (node_root t')
    fun a ha => hdir a (dirs_of_walk segs h hd a ha)).1

theorem walk_congr {t t' : FileTree} (h : ∀ a, t.node a = t'.node a) :
    ∀ (segs : List Name) (m : Location), t.walk m segs = t'.walk m segs
  | [], _ => rfl
  | seg :: segs, m => by simp only [walk, h, walk_congr h segs]

/-- Two trees that differ only where neither has a directory resolve the same paths elsewhere. -/
theorem walk_aside {t t' : FileTree} {X : Location → Prop}
    (hsame : ∀ a, ¬ X a → t.node a = t'.node a) (hx : ∀ a, X a → t.node a ≠ some .dir) :
    ∀ (segs : List Name) {m d : Location}, t.walk m segs = .ok d → ¬ X d → t'.walk m segs = .ok d
  | [], _, _, h, _ => h
  | [seg], m, d, h, hd => by
    obtain ⟨hm, hs, h⟩ := walk_cons_eq_ok.mp h
    obtain rfl : step m seg = d := Except.ok.inj h
    refine walk_cons_eq_ok.mpr ⟨?_, hsame _ hd ▸ hs, rfl⟩
    rw [← hsame m fun hX => hx m hX hm, hm]
  | seg :: seg' :: segs, m, d, h, hd => by
    obtain ⟨hm, hs, h⟩ := walk_cons_eq_ok.mp h
    have hdir := (walk_cons_eq_ok.mp h).1
    refine walk_cons_eq_ok.mpr ⟨?_, ?_, walk_aside hsame hx (seg' :: segs) h hd⟩
    · rw [← hsame m fun hX => hx m hX hm, hm]
    · rwa [← hsame _ fun hX => hx _ hX hdir]

/-- Whether `stat` finds something. -/
def isPresent (t : FileTree) (segs : List Name) : Bool := (t.walk [] segs).isOk

/-- A path is there when its directory is and its end is something. -/
theorem isPresent_concat {t : FileTree} {dir : List Name} {name : Name} :
    t.isPresent (dir ++ [name]) ↔ t.walk [] dir = .ok (lexical [] dir) ∧
      t.node (lexical [] dir) = some .dir ∧ (t.node (lexical [] (dir ++ [name]))).isSome := by
  rw [isPresent, walk_append, lexical_concat]
  rcases hw : t.walk [] dir with e | d
  · simp [Except.bind, Except.isOk, Except.toBool]
  · obtain rfl := walk_eq_lexical dir hw
    simp only [Except.bind, walk]
    split_ifs with hd hs
    · simp [hd, hs, Except.isOk, Except.toBool]
    · simp [hs, Except.isOk, Except.toBool]
    · simp [hd, Except.isOk, Except.toBool]

/-- The bytes read from an opened path; a directory opens and yields none. -/
def read (t : FileTree) (segs : List Name) : Option (List UInt8) :=
  match t.walk [] segs with
  | .error _ => none
  | .ok m => match t.node m with
    | some (.file content) => some content
    | _ => some []

theorem isPresent_congr {t t' : FileTree} (h : ∀ a, t.node a = t'.node a) (segs : List Name) :
    t.isPresent segs = t'.isPresent segs := by
  rw [isPresent, isPresent, walk_congr h]

theorem read_congr {t t' : FileTree} (h : ∀ a, t.node a = t'.node a) (segs : List Name) :
    t.read segs = t'.read segs := by
  simp only [read, walk_congr h, h]

section Aside

variable {t t' : FileTree} {X : Location → Prop} {segs : List Name}

theorem isPresent_aside (hsame : ∀ a, ¬ X a → t.node a = t'.node a)
    (hx : ∀ a, X a → t.node a ≠ some .dir) (hx' : ∀ a, X a → t'.node a ≠ some .dir)
    (hlex : ¬ X (lexical [] segs)) : t.isPresent segs = t'.isPresent segs := by
  have hdown : ∀ d, t.walk [] segs = .ok d ↔ t'.walk [] segs = .ok d := by
    refine fun d => ⟨fun h => ?_, fun h => ?_⟩
    · exact walk_aside hsame hx segs h (walk_eq_lexical segs h ▸ hlex)
    · exact walk_aside (fun a ha => (hsame a ha).symm) hx' segs h (walk_eq_lexical segs h ▸ hlex)
  rcases h : t.walk [] segs with e | d
  · rcases h' : t'.walk [] segs with e' | d
    · simp [isPresent, h, h', Except.isOk, Except.toBool]
    · rw [(hdown d).mpr h'] at h
      cases h
  · simp [isPresent, h, (hdown d).mp h]

theorem read_aside (hsame : ∀ a, ¬ X a → t.node a = t'.node a)
    (hx : ∀ a, X a → t.node a ≠ some .dir) (hx' : ∀ a, X a → t'.node a ≠ some .dir)
    (hlex : ¬ X (lexical [] segs)) : t.read segs = t'.read segs := by
  have hpresent := isPresent_aside hsame hx hx' hlex
  unfold isPresent at hpresent
  rcases h : t.walk [] segs with e | d <;> rcases h' : t'.walk [] segs with e' | d' <;>
    simp only [h, h', Except.isOk, Except.toBool, Bool.false_eq_true, reduceCtorEq] at hpresent
  · simp [read, h, h']
  · obtain rfl := walk_eq_lexical segs h
    obtain rfl := walk_eq_lexical segs h'
    simp only [read, h, h', hsame _ hlex]

end Aside

/-- Two trees that have the same at every step of two paths resolve both or neither. -/
theorem walk_zip {t t' : FileTree} :
    ∀ (segs segs' : List Name) {m m' : Location}, segs.length = segs'.length →
      t.node m = t'.node m' →
      (∀ ab ∈ (visited m segs).zip (visited m' segs'), t.node ab.1 = t'.node ab.2) →
      (∃ e, t.walk m segs = .error e ∧ t'.walk m' segs' = .error e) ∨
        ∃ d d', t.walk m segs = .ok d ∧ t'.walk m' segs' = .ok d' ∧ t.node d = t'.node d'
  | [], [], m, m', _, hm, _ => .inr ⟨m, m', rfl, rfl, hm⟩
  | seg :: segs, seg' :: segs', m, m', hlen, hm, h => by
    simp only [visited, List.zip_cons_cons, List.mem_cons, forall_eq_or_imp] at h
    have ih := walk_zip segs segs' (Nat.succ.inj hlen) h.1 h.2
    simp only [walk, hm, h.1]
    split_ifs
    · exact ih
    · exact .inl ⟨_, rfl, rfl⟩
    · exact .inl ⟨_, rfl, rfl⟩

/-- Make every directory a path passes; none when a regular file is in the way. -/
def createDirectories (t : FileTree) : Location → List Name → Option FileTree
  | _, [] => some t
  | m, seg :: segs => match t.node (step m seg) with
    | some .dir => t.createDirectories (step m seg) segs
    | some (.file _) => none
    | none => (t.set (step m seg) .dir).createDirectories (step m seg) segs

theorem step_ne_nil {t : FileTree} {m : Location} {seg : Name} (h : t.node (step m seg) = none) :
    step m seg ≠ [] := by
  intro h0
  rw [h0, node_root] at h
  cases h

/-- The directories made are those the path passes, and nothing else changes. -/
theorem createDirectories_node :
    ∀ (segs : List Name) {t t' : FileTree} {m : Location},
      t.createDirectories m segs = some t' →
      ∀ a, t'.node a = if a ∈ visited m segs then some .dir else t.node a
  | [], t, t', m, h, a => by
    simp only [createDirectories, Option.some.injEq] at h
    simp [visited, h]
  | seg :: segs, t, t', m, h, a => by
    simp only [createDirectories] at h
    split at h
    · rename_i hd
      rw [createDirectories_node segs h a]
      by_cases ha : a = step m seg <;> simp [visited, ha, hd]
    · cases h
    · rename_i hn
      rw [createDirectories_node segs h a, node_set (step_ne_nil hn)]
      by_cases ha : a = step m seg <;> simp [visited, ha]

/-- The directories are made when no regular file is among the path's stops. -/
theorem isSome_createDirectories :
    ∀ (segs : List Name) {t : FileTree} {m : Location},
      (t.createDirectories m segs).isSome ↔
        ∀ a ∈ visited m segs, ∀ c, t.node a ≠ some (.file c)
  | [], t, m => by simp [createDirectories, visited]
  | seg :: segs, t, m => by
    simp only [createDirectories, visited, List.mem_cons, forall_eq_or_imp]
    split
    · rename_i hd
      rw [isSome_createDirectories segs]
      simp [hd]
    · rename_i c hf
      simp [hf]
    · rename_i hn
      rw [isSome_createDirectories segs]
      simp only [hn, reduceCtorEq, not_false_eq_true, implies_true, true_and, ne_eq]
      constructor
      · intro h a ha c hc
        have := h a ha c
        rw [node_set (step_ne_nil hn)] at this
        split_ifs at this with he
        · rw [he, hn] at hc
          cases hc
        · exact this hc
      · intro h a ha c hc
        rw [node_set (step_ne_nil hn)] at hc
        split_ifs at hc
        · cases hc
        · exact h a ha c hc

theorem walk_createDirectories {t t' : FileTree} {segs : List Name}
    (h : t.createDirectories [] segs = some t') :
    t'.walk [] segs = .ok (lexical [] segs) ∧ t'.node (lexical [] segs) = some .dir :=
  walk_of_dirs segs (node_root t') fun a ha => by rw [createDirectories_node segs h a, if_pos ha]

/-- The location a path's last name has in the directory the rest of it leads to. -/
def locate (t : FileTree) (segs : List Name) : Option Location :=
  match t.walk [] segs.dropLast with
  | .error _ => none
  | .ok d =>
    if t.node d = some .dir ∧ Ordinary (segs.getLastD []) then some (d ++ [segs.getLastD []])
    else none

theorem locate_of_walk {t : FileTree} {dir : List Name} {d : Location} {name : Name}
    (h : t.walk [] dir = .ok d) (hd : t.node d = some .dir) (hn : Ordinary name) :
    t.locate (dir ++ [name]) = some (d ++ [name]) := by
  simp [locate, h, hd, hn]

theorem locate_of_not_ordinary {t : FileTree} {dir : List Name} {name : Name}
    (hn : ¬ Ordinary name) : t.locate (dir ++ [name]) = none := by
  rw [locate, List.dropLast_concat, List.getLastD_concat]
  split
  · rfl
  · exact if_neg fun h => hn h.2

theorem locate_eq_some {t : FileTree} {segs : List Name} {m : Location}
    (h : t.locate segs = some m) :
    m = lexical [] segs.dropLast ++ [segs.getLastD []] ∧ m = lexical [] segs ∧
      Ordinary (segs.getLastD []) := by
  unfold locate at h
  split at h
  · cases h
  · rename_i d hw
    split_ifs at h with hd
    obtain ⟨dir, name, rfl⟩ : ∃ dir name, segs = dir ++ [name] := by
      refine ⟨_, _, (List.dropLast_append_getLast (l := segs) ?_).symm⟩
      rintro rfl
      exact hd.2.1 rfl
    rw [List.dropLast_concat, List.getLastD_concat] at *
    rw [← Option.some.inj h, walk_eq_lexical _ hw, lexical_append]
    exact ⟨rfl, (step_ordinary _ hd.2).symm, hd.2⟩

/-- Open a path for writing, write and close; nothing happens when it does not open. -/
def write (t : FileTree) (segs : List Name) (content : List UInt8) : FileTree :=
  match t.locate segs with
  | none => t
  | some m => if t.node m = some .dir then t else t.set m (.file content)

/-- Everything at and under `old` goes to `new`. -/
def moveTree (t : FileTree) (old new : Location) : FileTree :=
  ⟨t.nodes.foldl (fun nodes m n =>
    if old <+: m then (nodes.erase m).insert (new ++ m.drop old.length) n else nodes) t.nodes⟩

/-- Nothing changes but under the two. -/
theorem node_moveTree (t : FileTree) {old new a : Location} (ho : ¬ old <+: a)
    (hn : ¬ new <+: a) : (t.moveTree old new).node a = t.node a := by
  have hfold : ∀ (l : List (Location × Node)) (nodes : Std.ExtTreeMap Location Node),
      (l.foldl (fun nodes mn => if old <+: mn.1
        then (nodes.erase mn.1).insert (new ++ mn.1.drop old.length) mn.2 else nodes) nodes)[a]? =
        nodes[a]? := by
    intro l
    induction l with
    | nil => exact fun _ => rfl
    | cons mn l ih =>
      intro nodes
      rw [List.foldl_cons, ih]
      split_ifs with hp
      · have h1 : new ++ mn.1.drop old.length ≠ a := fun h => hn ⟨_, h⟩
        have h2 : mn.1 ≠ a := fun h => ho (h ▸ hp)
        simp [Std.ExtTreeMap.getElem?_insert, Std.ExtTreeMap.getElem?_erase, h1, h2]
      · rfl
  unfold node moveTree
  rw [Std.ExtTreeMap.foldl_eq_foldl_toList, hfold]

/-- `rename`: onto nothing or onto a node of the same kind, a directory only onto an empty one;
none when it fails. -/
def rename (t : FileTree) (old new : List Name) : Option FileTree := do
  let m ← t.locate old
  let m' ← t.locate new
  match ← t.node m, t.node m' with
  | .file _, some .dir => none
  | .file content, _ => some ((t.erase m).set m' (.file content))
  | .dir, some (.file _) => none
  | .dir, _ =>
    if m = m' then some t
    else if m <+: m' ∨ t.nodes.keys.any (fun a => m' <+: a ∧ m' ≠ a) then none
    else some (t.moveTree m m')

theorem node_write (t : FileTree) {segs : List Name} {content : List UInt8} {a : Location}
    (ha : a ≠ lexical [] segs) : (t.write segs content).node a = t.node a := by
  unfold write
  split
  · rfl
  · rename_i m hm
    obtain ⟨hm, rfl, -⟩ := locate_eq_some hm
    split_ifs
    · rfl
    · rw [node_set (by simp [hm]), if_neg ha]

theorem node_rename {t t' : FileTree} {old new : List Name} {a : Location}
    (h : t.rename old new = some t') (ho : ¬ lexical [] old <+: a)
    (hn : Ordinary (new.getLastD []) → ¬ lexical [] new <+: a) : t'.node a = t.node a := by
  simp only [rename, Option.bind_eq_bind, Option.bind_eq_some_iff] at h
  obtain ⟨m, hm, m', hm', n, -, h⟩ := h
  obtain ⟨hm, rfl, -⟩ := locate_eq_some hm
  obtain ⟨hm', rfl, hord⟩ := locate_eq_some hm'
  have hn := hn hord
  have hne : a ≠ lexical [] old := fun h => ho (h ▸ List.prefix_rfl)
  have hne' : a ≠ lexical [] new := fun h => hn (h ▸ List.prefix_rfl)
  split at h
  · cases h
  · obtain rfl := Option.some.inj h
    rw [node_set (by simp [hm']), if_neg hne', node_erase (by simp [hm]), if_neg hne]
  · cases h
  · split_ifs at h
    · rw [Option.some.inj h]
    · obtain rfl := Option.some.inj h
      exact node_moveTree t ho hn

/-- A path onto itself. -/
theorem node_rename_self (t : FileTree) (segs : List Name) (a : Location) :
    ((t.rename segs segs).getD t).node a = t.node a := by
  rcases hl : t.locate segs with _ | m
  · simp [rename, hl]
  have hm : m ≠ [] := by simp [(locate_eq_some hl).1]
  rcases hn : t.node m with _ | _ | content <;>
    simp only [rename, hl, hn, Option.bind_eq_bind, Option.bind_some, Option.bind_none,
      Option.getD_none, Option.getD_some, if_true]
  rw [node_set hm, node_erase hm]
  split_ifs with ha
  · rw [ha, hn]
  · rfl

/-- Where the directories of a path are there, it is written unless it ends in no name or in a
directory. -/
theorem node_write_of_dirs {t : FileTree} {segs : List Name} (hne : segs ≠ [])
    (h : ∀ a ∈ visited [] segs.dropLast, t.node a = some .dir) (content : List UInt8)
    (a : Location) : (t.write segs content).node a =
      if a = lexical [] segs ∧ Ordinary (segs.getLastD []) ∧ t.node (lexical [] segs) ≠ some .dir
      then some (.file content) else t.node a := by
  obtain ⟨dir, name, rfl⟩ : ∃ dir name, segs = dir ++ [name] :=
    ⟨_, _, (List.dropLast_append_getLast hne).symm⟩
  rw [List.dropLast_concat] at h
  rw [List.getLastD_concat]
  obtain ⟨hw, hd⟩ := walk_of_dirs dir (node_root t) h
  by_cases hn : Ordinary name
  · rw [write, locate_of_walk hw hd hn, lexical_append,
      show lexical (lexical [] dir) [name] = lexical [] dir ++ [name] from step_ordinary _ hn]
    dsimp only
    by_cases hdir : t.node (lexical [] dir ++ [name]) = some .dir
    · rw [if_pos hdir, if_neg fun h => h.2.2 hdir]
    · rw [if_neg hdir, node_set (by simp)]
      simp only [hn, hdir, ne_eq, not_false_eq_true, and_true]
  · rw [write, locate_of_not_ordinary hn, if_neg fun h => hn h.2.1]

section MoveTree

variable {t : FileTree} {old new : Location} (hon : ¬ old <+: new) (hno : ¬ new <+: old)

include hon hno in
theorem not_prefix_both {a : Location} (ho : old <+: a) : ¬ new <+: a := fun hn =>
  (List.prefix_or_prefix_of_prefix ho hn).elim hon hno

include hon hno in
/-- What was under the one is under the other. -/
theorem node_moveTree_new (hold : old ≠ []) (hnew : new ≠ []) (rest : Location)
    (h : (t.node (old ++ rest)).isSome ∨ t.node (new ++ rest) = none) :
    (t.moveTree old new).node (new ++ rest) = t.node (old ++ rest) := by
  have hfold : ∀ (v : Option Node) (l : List (Location × Node))
      (nodes : Std.ExtTreeMap Location Node), (∀ n, (old ++ rest, n) ∈ l → v = some n) →
      ((∃ n, (old ++ rest, n) ∈ l) ∨ nodes[new ++ rest]? = v) →
      (l.foldl (fun nodes mn => if old <+: mn.1
        then (nodes.erase mn.1).insert (new ++ mn.1.drop old.length) mn.2 else nodes)
          nodes)[new ++ rest]? = v := by
    intro v l
    induction l with
    | nil => exact fun nodes _ h => h.resolve_left (by simp)
    | cons mn l ih =>
      intro nodes hv h
      rw [List.foldl_cons]
      refine ih _ (fun n hn => hv n (List.mem_cons_of_mem _ hn)) ?_
      by_cases hk : mn.1 = old ++ rest
      · rw [if_pos (hk ▸ List.prefix_append _ _), hk, List.drop_left]
        refine .inr ?_
        rw [Std.ExtTreeMap.getElem?_insert_self]
        exact (hv mn.2 (hk ▸ List.mem_cons_self)).symm
      · have htail : ∀ n, (old ++ rest, n) ∈ mn :: l → (old ++ rest, n) ∈ l := fun n hn =>
          (List.mem_cons.mp hn).resolve_left fun he => hk (congrArg Prod.fst he.symm)
        refine h.imp (fun ⟨n, hn⟩ => ⟨n, htail n hn⟩) fun h => ?_
        rw [← h]
        split_ifs with hp
        · have hother : new ++ mn.1.drop old.length ≠ new ++ rest := fun he => hk (by
            rw [← List.append_cancel_left he, List.prefix_iff_eq_append.mp hp])
          have hkey : mn.1 ≠ new ++ rest := fun he =>
            not_prefix_both hon hno hp (he ▸ List.prefix_append _ _)
          simp [Std.ExtTreeMap.getElem?_insert, Std.ExtTreeMap.getElem?_erase, hother, hkey]
        · rfl
  have hold' : old ++ rest ≠ [] := List.append_ne_nil_of_left_ne_nil hold rest
  have hnew' : new ++ rest ≠ [] := List.append_ne_nil_of_left_ne_nil hnew rest
  simp only [node, if_neg hold', if_neg hnew'] at h ⊢
  unfold moveTree
  rw [Std.ExtTreeMap.foldl_eq_foldl_toList]
  refine hfold _ _ _ (fun n hn => Std.ExtTreeMap.mem_toList_iff_getElem?_eq_some.mp hn) ?_
  rcases hn : t.nodes[old ++ rest]? with _ | n
  · rw [hn] at h
    exact .inr (h.resolve_left Bool.false_ne_true)
  · exact .inl ⟨n, Std.ExtTreeMap.mem_toList_iff_getElem?_eq_some.mpr hn⟩

include hon hno in
/-- And nothing is left where it was. -/
theorem node_moveTree_old (hold : old ≠ []) {a : Location} (ha : old <+: a) :
    (t.moveTree old new).node a = none := by
  have hfold : ∀ (l : List (Location × Node)) (nodes : Std.ExtTreeMap Location Node),
      (nodes[a]?.isSome → a ∈ l.map Prod.fst) →
      (l.foldl (fun nodes mn => if old <+: mn.1
        then (nodes.erase mn.1).insert (new ++ mn.1.drop old.length) mn.2 else nodes)
          nodes)[a]? = none := by
    intro l
    induction l with
    | nil => exact fun nodes h => by simpa using h
    | cons mn l ih =>
      intro nodes h
      rw [List.foldl_cons]
      refine ih _ fun hs => ?_
      have hother : new ++ mn.1.drop old.length ≠ a := fun he =>
        not_prefix_both hon hno ha ⟨_, he⟩
      rw [List.map_cons, List.mem_cons] at h
      split_ifs at hs with hp
      · have hkey : mn.1 ≠ a := fun he => hother (by
          simpa [Std.ExtTreeMap.getElem?_insert, he] using hs)
        refine (h ?_).resolve_left hkey.symm
        simpa [Std.ExtTreeMap.getElem?_insert, Std.ExtTreeMap.getElem?_erase, hother, hkey] using hs
      · exact (h hs).resolve_left fun he => hp (he ▸ ha)
  have hne : a ≠ [] := fun h => hold (List.prefix_nil.mp (h ▸ ha))
  rw [node, if_neg hne, moveTree, Std.ExtTreeMap.foldl_eq_foldl_toList]
  refine hfold _ _ fun hs => ?_
  obtain ⟨n, hn⟩ := Option.isSome_iff_exists.mp hs
  exact List.mem_map.mpr ⟨(a, n), Std.ExtTreeMap.mem_toList_iff_getElem?_eq_some.mpr hn, rfl⟩

end MoveTree

/-- Something is under a location. -/
theorem any_under_iff {t : FileTree} {m : Location} :
    (t.nodes.keys.any fun a => m <+: a ∧ m ≠ a) = true ↔
      ∃ a, m <+: a ∧ m ≠ a ∧ (t.node a).isSome := by
  simp only [List.any_eq_true, decide_eq_true_eq, Std.ExtTreeMap.mem_keys]
  refine exists_congr fun a => ?_
  rcases eq_or_ne a [] with rfl | ha
  · exact ⟨fun h => absurd (List.prefix_nil.mp h.2.1) h.2.2,
      fun h => absurd (List.prefix_nil.mp h.1) h.2.1⟩
  · rw [node, if_neg ha, Std.ExtTreeMap.mem_iff_isSome_getElem?]
    tauto

/-- Where a directory goes onto nothing or onto an empty one, everything else stays. -/
theorem node_moveTree_of_vacant {t : FileTree} {old new : Location} (hold : old ≠ [])
    (hnew : new ≠ []) (hne : old ≠ new) (hon : ¬ old <+: new) (hdir : t.node old = some .dir)
    (hvacant : ∀ a, new <+: a → new ≠ a → t.node a = none) (a : Location) :
    (t.moveTree old new).node a =
      if new <+: a then t.node (old ++ a.drop new.length)
      else if old <+: a then none else t.node a := by
  have hno : ¬ new <+: old := fun hp => by
    rw [hvacant old hp hne.symm] at hdir
    cases hdir
  split_ifs with hn ho
  · obtain ⟨rest, rfl⟩ := hn
    rw [List.drop_left]
    refine node_moveTree_new hon hno hold hnew rest ?_
    rcases eq_or_ne rest [] with rfl | hrest
    · rw [List.append_nil, hdir]
      exact .inl rfl
    · exact .inr (hvacant _ (List.prefix_append _ _) fun he => hrest (by simpa using he))
  · exact node_moveTree_old hon hno hold ho
  · exact node_moveTree t ho hn

theorem locate_congr {t t' : FileTree} (h : ∀ a, t.node a = t'.node a) (segs : List Name) :
    t.locate segs = t'.locate segs := by
  simp only [locate, walk_congr h, h]

/-- Trees with the same nodes have the same after a rename. -/
theorem rename_congr {t t' : FileTree} (h : ∀ a, t.node a = t'.node a) (old new : List Name)
    (a : Location) :
    ((t.rename old new).getD t).node a = ((t'.rename old new).getD t').node a := by
  have hunder : ∀ m, (t.nodes.keys.any fun a => m <+: a ∧ m ≠ a) =
      t'.nodes.keys.any fun a => m <+: a ∧ m ≠ a := fun m => by
    rw [Bool.eq_iff_iff, any_under_iff, any_under_iff]
    simp only [h]
  simp only [rename, locate_congr h, h, hunder]
  rcases hm : t'.locate old with _ | m
  · exact h a
  rcases hm' : t'.locate new with _ | m'
  · exact h a
  have hnil : m ≠ [] := by simp [(locate_eq_some hm).1]
  have hnil' : m' ≠ [] := by simp [(locate_eq_some hm').1]
  rcases hn : t'.node m with _ | _ | content
  · simpa [hn] using h a
  · have hdirs : (Option.getD (if m = m' then some t
        else if m <+: m' ∨ (t'.nodes.keys.any fun a => m' <+: a ∧ m' ≠ a) = true then none
        else some (t.moveTree m m')) t).node a =
        (Option.getD (if m = m' then some t'
        else if m <+: m' ∨ (t'.nodes.keys.any fun a => m' <+: a ∧ m' ≠ a) = true then none
        else some (t'.moveTree m m')) t').node a := by
      split_ifs with hsame hbusy
      · exact h a
      · exact h a
      · rw [not_or, any_under_iff] at hbusy
        have hvacant : ∀ a, m' <+: a → m' ≠ a → t'.node a = none := fun a ha hne =>
          Option.not_isSome_iff_eq_none.mp fun hs => hbusy.2 ⟨a, ha, hne, hs⟩
        rw [Option.getD_some, Option.getD_some,
          node_moveTree_of_vacant hnil hnil' hsame hbusy.1 hn hvacant,
          node_moveTree_of_vacant hnil hnil' hsame hbusy.1 ((h m).trans hn)
            fun a ha hne => (h a).trans (hvacant a ha hne)]
        simp only [h]
    rcases hn' : t'.node m' with _ | _ | content
    · simpa [hn, hn'] using hdirs
    · simpa [hn, hn'] using hdirs
    · simpa [hn, hn'] using h a
  · rcases hn' : t'.node m' with _ | _ | content' <;>
      simp [hn, hn', node_set hnil', node_erase hnil, h a]

/-- Every node is in directories. -/
def Closed (t : FileTree) : Prop :=
  ∀ a, (t.node a).isSome → ∀ p, p <+: a → p ≠ a → t.node p = some .dir

namespace Closed

variable {t t' : FileTree} {dir segs : List Name} {name : Name}

theorem empty : FileTree.empty.Closed := fun a ha p hp hne => by
  rcases eq_or_ne a [] with rfl | h
  · exact absurd (List.prefix_nil.mp hp) hne
  · rw [node_empty h] at ha
    cases ha

/-- There is nothing under what is no directory. -/
theorem node_eq_none (h : t.Closed) {a b : Location} (ha : t.node a ≠ some .dir) (hab : a <+: b)
    (hne : a ≠ b) : t.node b = none :=
  Option.not_isSome_iff_eq_none.mp fun hb => ha (h b hb a hab hne)

theorem dirs_above (h : t.Closed) {d p : Location} (hd : t.node d = some .dir) (hp : p <+: d) :
    t.node p = some .dir := by
  rcases eq_or_ne p d with rfl | hne
  · exact hd
  · exact h d (by rw [hd]; rfl) p hp hne

theorem createDirectories (h : t.Closed) (ht : t.createDirectories [] dir = some t') :
    t'.Closed := fun a ha p hp hne => by
  rw [createDirectories_node dir ht] at ha ⊢
  split_ifs with hv
  · rfl
  · split_ifs at ha with hva
    · rcases prefix_mem_visited dir hva hp with hnil | hv'
      · rw [List.prefix_nil.mp hnil, node_root]
      · exact absurd hv' hv
    · exact h a ha p hp hne

/-- A file takes the place of what is not a directory. -/
theorem set_file (h : t.Closed) {d : Location} (hd : t.node d = some .dir)
    (hn : t.node (d ++ [name]) ≠ some .dir) (content : List UInt8) :
    (t.set (d ++ [name]) (.file content)).Closed := fun a ha p hp hne => by
  have hset := node_set (t := t) (List.concat_ne_nil name d) (.file content)
  rw [hset] at ha ⊢
  have hpa : p ≠ d ++ [name] := by
    rintro rfl
    rw [if_neg hne.symm, h.node_eq_none hn hp hne] at ha
    cases ha
  rw [if_neg hpa]
  split_ifs at ha with hda
  · subst hda
    exact h.dirs_above hd ((List.prefix_concat_iff.mp hp).resolve_left hpa)
  · exact h a ha p hp hne

theorem erase_file (h : t.Closed) {m : Location} {content : List UInt8}
    (hm : t.node m = some (.file content)) : (t.erase m).Closed := fun a ha p hp hne => by
  have hnil : m ≠ [] := by
    rintro rfl
    cases hm
  rw [node_erase hnil] at ha ⊢
  split_ifs at ha with ham
  · cases ha
  · rw [if_neg, h a ha p hp hne]
    rintro rfl
    rw [h.node_eq_none (by rw [hm]; exact nofun) hp hne] at ha
    cases ha

theorem moveTree (h : t.Closed) {m d : Location} (hm : m ≠ []) (hd : t.node d = some .dir)
    (hon : ¬ m <+: d ++ [name]) (hno : ¬ d ++ [name] <+: m)
    (hempty : ∀ a, d ++ [name] <+: a → d ++ [name] ≠ a → t.node a = none)
    (hdir : t.node m = some .dir) : (t.moveTree m (d ++ [name])).Closed := by
  have hnew : ∀ rest, (t.moveTree m (d ++ [name])).node (d ++ [name] ++ rest) =
      t.node (m ++ rest) := by
    intro rest
    refine node_moveTree_new hon hno hm (List.concat_ne_nil name d) rest ?_
    rcases eq_or_ne rest [] with rfl | hrest
    · rw [List.append_nil, hdir]
      exact .inl rfl
    · exact .inr (hempty _ (List.prefix_append _ _) fun he => hrest (by simpa using he))
  have hold := fun a => @node_moveTree_old t m (d ++ [name]) hon hno hm a
  intro a ha p hp hne
  by_cases han : d ++ [name] <+: a
  · obtain ⟨rest, rfl⟩ := han
    rw [hnew] at ha
    by_cases hpn : d ++ [name] <+: p
    · obtain ⟨rest', rfl⟩ := hpn
      have hrest : rest' <+: rest := (List.prefix_append_right_inj _).mp hp
      rw [hnew]
      exact h _ ha _ ((List.prefix_append_right_inj _).mpr hrest) fun he => hne (by
        rw [List.append_cancel_left he])
    · have hpd : p <+: d := by
        rcases List.prefix_or_prefix_of_prefix hp (List.prefix_append _ _) with hpd | hpd
        · exact (List.prefix_concat_iff.mp hpd).resolve_left fun he => hpn (he ▸ List.prefix_rfl)
        · exact absurd hpd hpn
      have hpm : ¬ m <+: p := fun hmp => hon ((hmp.trans hpd).trans (List.prefix_append _ _))
      rw [node_moveTree t hpm hpn]
      exact h.dirs_above hd hpd
  · by_cases ham : m <+: a
    · rw [hold a ham] at ha
      cases ha
    · rw [node_moveTree t ham han] at ha
      rw [node_moveTree t (fun hmp => ham (hmp.trans hp)) fun hnp => han (hnp.trans hp)]
      exact h a ha p hp hne

theorem dir_of_locate {m : Location} (hm : t.locate segs = some m) :
    ∃ d, m = d ++ [segs.getLastD []] ∧ t.node d = some .dir := by
  unfold locate at hm
  split at hm
  · cases hm
  · rename_i d hw
    split_ifs at hm with hd
    exact ⟨d, (Option.some.inj hm).symm, hd.1⟩

theorem write (h : t.Closed) (content : List UInt8) : (t.write segs content).Closed := by
  unfold FileTree.write
  split
  · exact h
  · rename_i m hm
    obtain ⟨d, rfl, hd⟩ := dir_of_locate hm
    split_ifs with hn
    · exact h
    · exact h.set_file hd hn content

theorem rename (h : t.Closed) {old new : List Name} (ht : t.rename old new = some t') :
    t'.Closed := by
  simp only [FileTree.rename, Option.bind_eq_bind, Option.bind_eq_some_iff] at ht
  obtain ⟨m, hm, m', hm', n, hn, ht⟩ := ht
  obtain ⟨d, rfl, hd⟩ := dir_of_locate hm
  obtain ⟨d', rfl, hd'⟩ := dir_of_locate hm'
  split at ht
  · cases ht
  · rename_i hnode
    obtain rfl := Option.some.inj ht
    refine (h.erase_file hn).set_file ?_ ?_ _ <;> rw [node_erase (List.concat_ne_nil _ _)]
    · rw [if_neg, hd']
      rintro rfl
      rw [hn] at hd'
      cases hd'
    · split_ifs
      · exact nofun
      · exact hnode
  · cases ht
  · split_ifs at ht with hsame hbusy
    · exact Option.some.inj ht ▸ h
    · obtain rfl := Option.some.inj ht
      rw [not_or, any_under_iff] at hbusy
      have hempty : ∀ a, d' ++ [new.getLastD []] <+: a → d' ++ [new.getLastD []] ≠ a →
          t.node a = none := fun a ha hne =>
        Option.not_isSome_iff_eq_none.mp fun hs => hbusy.2 ⟨a, ha, hne, hs⟩
      refine h.moveTree (List.concat_ne_nil _ _) hd' hbusy.1 (fun hp => ?_) hempty hn
      rw [hempty _ hp (Ne.symm hsame)] at hn
      cases hn

end Closed

/-- `remove`: a file or an empty directory, which ends in a name (`rmdir` does not take `.` nor
`..`, nor the root); none when it fails, which it does not for want of an entry. -/
def remove (t : FileTree) (segs : List Name) : Option FileTree :=
  match t.walk [] segs with
  | .error .noEntry => some t
  | .error .notDir => none
  | .ok m =>
    if ¬ Ordinary ((segs.filter (· ≠ [])).getLastD []) then none
    else if t.nodes.keys.any (fun a => m <+: a ∧ m ≠ a) then none
    else some (t.erase m)

theorem walk_eq_notDir_iff {t : FileTree} :
    ∀ (segs : List Name) (m : Location), t.walk m segs = .error .notDir ↔
      ∃ passed left d, segs = passed ++ left ∧ left ≠ [] ∧ t.walk m passed = .ok d ∧
        t.node d ≠ some .dir
  | [], m => by
    simp only [walk, reduceCtorEq, false_iff]
    rintro ⟨passed, left, d, h, hl, -⟩
    exact hl (List.append_eq_nil_iff.mp h.symm).2
  | seg :: segs, m => by
    have ih := walk_eq_notDir_iff segs (step m seg) (t := t)
    by_cases hm : t.node m = some .dir
    swap
    · refine iff_of_true (by simp [walk, hm]) ⟨[], seg :: segs, m, rfl, by simp, rfl, hm⟩
    have hcons : (∃ passed left d, seg :: segs = passed ++ left ∧ left ≠ [] ∧
        t.walk m passed = .ok d ∧ t.node d ≠ some .dir) ↔ (t.node (step m seg)).isSome ∧
        ∃ passed left d, segs = passed ++ left ∧ left ≠ [] ∧
          t.walk (step m seg) passed = .ok d ∧ t.node d ≠ some .dir := by
      constructor
      · rintro ⟨_ | ⟨seg', passed⟩, left, d, hs, hl, hw, hd⟩
        · obtain rfl : m = d := by simpa [walk] using hw
          exact absurd hm hd
        · simp only [List.cons_append, List.cons.injEq] at hs
          obtain ⟨rfl, hs⟩ := hs
          obtain ⟨-, hsome, hw⟩ := walk_cons_eq_ok.mp hw
          exact ⟨hsome, passed, left, d, hs, hl, hw, hd⟩
      · rintro ⟨hsome, passed, left, d, hs, hl, hw, hd⟩
        exact ⟨seg :: passed, left, d, by rw [hs, List.cons_append], hl,
          walk_cons_eq_ok.mpr ⟨hm, hsome, hw⟩, hd⟩
    rw [hcons, ← ih, walk, if_pos hm]
    split_ifs with hs
    · simp [hs]
    · simp [hs]

/-- What keeps `remove` from its work: a regular file on the way, or a path that is there and ends
in no name or in a directory that is not empty. -/
def Unremovable (t : FileTree) (segs : List Name) : Prop :=
  (∃ passed left content, segs = passed ++ left ∧ left ≠ [] ∧ t.isPresent passed = true ∧
      t.node (lexical [] passed) = some (.file content)) ∨
    t.isPresent segs = true ∧ (¬ Ordinary ((segs.filter (· ≠ [])).getLastD []) ∨
      ∃ a, lexical [] segs <+: a ∧ lexical [] segs ≠ a ∧ (t.node a).isSome)

theorem walk_eq_ok_iff {t : FileTree} {segs : List Name} {d : Location} :
    t.walk [] segs = .ok d ↔ t.isPresent segs = true ∧ d = lexical [] segs := by
  unfold isPresent
  rcases h : t.walk [] segs with e | d'
  · simp [Except.isOk, Except.toBool]
  · simp [Except.isOk, Except.toBool, ← walk_eq_lexical segs h, @eq_comm _ d]

theorem remove_eq_none_iff {t : FileTree} {segs : List Name} :
    t.remove segs = none ↔ t.Unremovable segs := by
  have hway : t.walk [] segs = .error .notDir ↔ ∃ passed left content, segs = passed ++ left ∧
      left ≠ [] ∧ t.isPresent passed = true ∧
      t.node (lexical [] passed) = some (.file content) := by
    rw [walk_eq_notDir_iff]
    constructor
    · rintro ⟨passed, left, d, hs, hl, hw, hd⟩
      have hsome := isSome_node_of_walk passed (by simp) hw
      obtain ⟨hp, rfl⟩ := walk_eq_ok_iff.mp hw
      rcases hn : t.node (lexical [] passed) with _ | _ | content
      · simp [hn] at hsome
      · exact absurd hn hd
      · exact ⟨passed, left, content, hs, hl, hp, hn⟩
    · rintro ⟨passed, left, content, hs, hl, hp, hn⟩
      exact ⟨passed, left, _, hs, hl, walk_eq_ok_iff.mpr ⟨hp, rfl⟩, by simp [hn]⟩
  rw [Unremovable, ← hway, remove]
  rcases hw : t.walk [] segs with (_ | _) | d
  · simp [isPresent, hw, Except.isOk, Except.toBool]
  · simp
  · obtain ⟨hp, rfl⟩ := walk_eq_ok_iff.mp hw
    simp only [reduceCtorEq, hp, true_and, false_or]
    by_cases ho : Ordinary ((segs.filter (· ≠ [])).getLastD [])
    · rw [if_neg (not_not.mpr ho), ← any_under_iff]
      split_ifs with hany
      · exact iff_of_true rfl (.inr hany)
      · exact iff_of_false (by simp) (not_or.mpr ⟨not_not.mpr ho, hany⟩)
    · exact iff_of_true (if_pos ho) (.inl ho)

end FileTree
