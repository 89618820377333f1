import Mathlib.Data.Finset.Basic
import Mathlib.Data.List.TakeWhile

/-!
# Paths

A path is cut at its separators; of a string that is handed to the operating system only what is
before the first NUL counts (`segments_cString`). Its segments are followed one at a time: an empty
one and `.` stay, `..` goes up, a name goes down. Where this leads, and past what, can be read off
the path alone (`lexical`, `visited`).
-/

/-- A file or a directory's name. -/
abbrev Name := List UInt8

/-- Where a node is: the names from the root down. -/
abbrev Location := List Name

/-- Whether a location is in a list is decided by way of this instance. -/
instance : LawfulBEq Location := inferInstance

namespace FileTree

def dot : Name := [0x2E]

def dotDot : Name := [0x2E, 0x2E]

/-- A name that is neither empty nor `.` nor `..`. -/
def Ordinary (name : Name) : Prop := name ≠ [] ∧ name ≠ dot ∧ name ≠ dotDot

instance (name : Name) : Decidable (Ordinary name) := inferInstanceAs (Decidable (_ ∧ _))

/-- The segments of a path: repeated separators count once, a final one leaves an empty segment. -/
def segments (path : List UInt8) : List Name :=
  (path.splitOn 0x2F).dropLast.filter (· ≠ []) ++ [(path.splitOn 0x2F).getLastD []]

def isAbsolute (path : List UInt8) : Bool := path.head? = some 0x2F

theorem notMem_splitOn {sep : UInt8} :
    ∀ (path : List UInt8), ∀ name ∈ path.splitOn sep, sep ∉ name
  | [] => by simp
  | b :: path => by
    have ih : ∀ name ∈ path.splitOn sep, sep ∉ name := notMem_splitOn path
    rw [List.splitOn_cons_eq_if_modifyHead]
    split_ifs with hb
    · simpa using ih
    · rcases hs : path.splitOn sep with _ | ⟨name, names⟩
      · simp
      · simp only [hs, List.mem_cons, forall_eq_or_imp] at ih
        simp only [List.modifyHead_cons, List.mem_cons, forall_eq_or_imp]
        refine ⟨?_, ih.2⟩
        simp only [beq_iff_eq] at hb
        simp [Ne.symm hb, ih.1]

theorem mem_splitOn_of_mem_segments {path : List UInt8} {name : Name} (h : name ∈ segments path) :
    name ∈ path.splitOn 0x2F := by
  simp only [segments, List.mem_append, List.mem_filter, List.mem_singleton] at h
  rcases h with h | rfl
  · exact List.mem_of_mem_dropLast h.1
  · rw [List.getLastD_eq_getLast?, List.getLast?_eq_some_getLast (List.splitOn_ne_nil _ _)]
    exact List.getLast_mem _

theorem mem_of_mem_splitOn {sep : UInt8} :
    ∀ (path : List UInt8), ∀ name ∈ path.splitOn sep, ∀ b ∈ name, b ∈ path
  | [] => by simp
  | b :: path => by
    have ih : ∀ name ∈ path.splitOn sep, ∀ b ∈ name, b ∈ path := mem_of_mem_splitOn path
    rw [List.splitOn_cons_eq_if_modifyHead]
    intro name hn b' hb'
    split_ifs at hn with hb
    · rcases List.mem_cons.mp hn with rfl | hn
      · simp at hb'
      · exact List.mem_cons_of_mem _ (ih name hn b' hb')
    · obtain ⟨first, rest, hs⟩ := List.exists_cons_of_ne_nil (List.splitOn_ne_nil sep path)
      rw [hs, List.modifyHead_cons] at hn
      rcases List.mem_cons.mp hn with rfl | hn
      · rcases List.mem_cons.mp hb' with rfl | hb'
        · exact List.mem_cons_self
        · exact List.mem_cons_of_mem _ (ih first (hs ▸ List.mem_cons_self) b' hb')
      · exact List.mem_cons_of_mem _ (ih name (hs ▸ List.mem_cons_of_mem _ hn) b' hb')

theorem mem_of_mem_segments {path : List UInt8} {name : Name} (h : name ∈ segments path) :
    ∀ b ∈ name, b ∈ path := mem_of_mem_splitOn path name (mem_splitOn_of_mem_segments h)

/-- The C string in a string: what is before its first NUL. -/
def cString (path : List UInt8) : List UInt8 := path.takeWhile (· ≠ 0)

/-- The segments the system gets of a path that is handed over as a C string. -/
def cSegments : List Name → List Name
  | [] => []
  | name :: names => if 0 ∈ name then [cString name] else name :: cSegments names

theorem cString_of_notMem {path : List UInt8} (h : 0 ∉ path) : cString path = path :=
  List.takeWhile_eq_self_iff.mpr fun b hb => by
    rw [decide_eq_true_iff]
    rintro rfl
    exact h hb

theorem cString_append {path : List UInt8} (h : 0 ∈ path) (rest : List UInt8) :
    cString (path ++ rest) = cString path := by
  induction path with
  | nil => simp at h
  | cons b path ih =>
    by_cases hb : b = 0
    · simp [cString, hb]
    · have ht := ih ((List.mem_cons.mp h).resolve_left (Ne.symm hb))
      unfold cString at ht ⊢
      rw [List.cons_append, List.takeWhile_cons_of_pos (by simp [hb]), ht,
        List.takeWhile_cons_of_pos (by simp [hb])]

theorem cSegments_append {segs : List Name} (h : ∀ name ∈ segs, 0 ∉ name) (rest : List Name) :
    cSegments (segs ++ rest) = segs ++ cSegments rest := by
  induction segs with
  | nil => rfl
  | cons name segs ih =>
    simp only [List.mem_cons, forall_eq_or_imp] at h
    rw [List.cons_append, cSegments, if_neg h.1, ih h.2, List.cons_append]

theorem cSegments_of_notMem {segs : List Name} (h : ∀ name ∈ segs, 0 ∉ name) :
    cSegments segs = segs := by
  simpa [cSegments] using cSegments_append h []

/-- What is behind a NUL does not count. -/
theorem cSegments_of_mem {segs : List Name} (h : ∃ name ∈ segs, 0 ∈ name) (rest : List Name) :
    cSegments (segs ++ rest) = cSegments segs := by
  induction segs with
  | nil => simp at h
  | cons name segs ih =>
    simp only [List.cons_append, cSegments]
    split_ifs with h0
    · rfl
    · obtain ⟨name', hmem, hn⟩ := h
      rcases List.mem_cons.mp hmem with rfl | hmem
      · exact absurd hn h0
      · rw [ih ⟨name', hmem, hn⟩]

theorem cSegments_singleton (name : Name) : cSegments [name] = [cString name] := by
  unfold cSegments
  split_ifs with h
  · rfl
  · rw [cString_of_notMem h, cSegments]

theorem cSegments_eq_nil {segs : List Name} : cSegments segs = [] ↔ segs = [] := by
  rcases segs with _ | ⟨name, segs⟩
  · simp [cSegments]
  · unfold cSegments
    split_ifs <;> simp

theorem cSegments_dropLast_of_mem {segs : List Name} (h : ∃ name ∈ segs.dropLast, 0 ∈ name) :
    cSegments segs.dropLast = cSegments segs := by
  obtain ⟨dir, name, rfl⟩ : ∃ dir name, segs = dir ++ [name] := by
    refine ⟨_, _, (List.dropLast_append_getLast (l := segs) ?_).symm⟩
    rintro rfl
    simp at h
  rw [List.dropLast_concat] at h ⊢
  exact (cSegments_of_mem h _).symm

theorem cSegments_dropLast_of_notMem {segs : List Name} (h : ∀ name ∈ segs.dropLast, 0 ∉ name) :
    cSegments segs.dropLast = (cSegments segs).dropLast := by
  rcases List.eq_nil_or_concat segs with rfl | ⟨dir, name, rfl⟩
  · rfl
  rw [List.concat_eq_append, List.dropLast_concat] at *
  rw [cSegments_of_notMem h, cSegments_append h, cSegments_singleton, List.dropLast_concat]

theorem cSegments_splitOn :
    ∀ (path : List UInt8), cSegments (path.splitOn 0x2F) = (cString path).splitOn 0x2F
  | [] => by simp [cString, cSegments]
  | b :: path => by
    have ih := cSegments_splitOn path
    have hne := List.splitOn_ne_nil (0x2F : UInt8) path
    rw [List.splitOn_cons_eq_if_modifyHead]
    by_cases h0 : b = 0
    · subst h0
      rcases hs : path.splitOn 0x2F with _ | ⟨name, names⟩
      · exact absurd hs hne
      · simp [cSegments, cString]
    have hc : cString (b :: path) = b :: cString path := by simp [cString, h0]
    rw [hc, List.splitOn_cons_eq_if_modifyHead, ← ih]
    split_ifs with hb
    · simp [cSegments]
    rcases hs : path.splitOn 0x2F with _ | ⟨name, names⟩
    · exact absurd hs hne
    · simp only [List.modifyHead_cons, cSegments, List.mem_cons, Ne.symm h0, false_or]
      split_ifs
      · simp [cString, h0]
      · rfl

theorem cSegments_filter :
    ∀ {names : List Name}, names ≠ [] →
      cSegments (names.dropLast.filter (· ≠ []) ++ [names.getLastD []]) =
        (cSegments names).dropLast.filter (· ≠ []) ++ [(cSegments names).getLastD []]
  | [], h => absurd rfl h
  | [name], _ => by simp [cSegments_singleton]
  | name :: name' :: names, _ => by
    have ih := cSegments_filter (List.cons_ne_nil name' names)
    have hne : cSegments (name' :: names) ≠ [] := by simp [cSegments_eq_nil]
    rw [cSegments, List.dropLast_cons_of_ne_nil (List.cons_ne_nil _ _)]
    split_ifs with h0
    · have hname : name ≠ [] := by
        rintro rfl
        simp at h0
      rw [List.filter_cons_of_pos (by simpa using hname), List.cons_append, cSegments, if_pos h0]
      simp
    · have hlast : (name :: name' :: names).getLastD [] = (name' :: names).getLastD [] := by
        simp [List.getLastD_eq_getLast?]
      have hlast' : (name :: cSegments (name' :: names)).getLastD [] =
          (cSegments (name' :: names)).getLastD [] := by
        obtain ⟨x, xs, hx⟩ := List.exists_cons_of_ne_nil hne
        simp [hx, List.getLastD_eq_getLast?]
      rw [List.dropLast_cons_of_ne_nil hne, hlast, hlast']
      by_cases hname : name = []
      · rw [List.filter_cons_of_neg (by simpa using hname), ih,
          List.filter_cons_of_neg (by simpa using hname)]
      · rw [List.filter_cons_of_pos (by simpa using hname), List.cons_append, cSegments,
          if_neg h0, ih, List.filter_cons_of_pos (by simpa using hname), List.cons_append]

/-- A path is cut in its segments where its string is. -/
theorem segments_cString (path : List UInt8) :
    segments (cString path) = cSegments (segments path) := by
  rw [segments, segments, cSegments_filter (List.splitOn_ne_nil _ _), cSegments_splitOn]

theorem isAbsolute_cString (path : List UInt8) : isAbsolute (cString path) = isAbsolute path := by
  rcases path with _ | ⟨b, path⟩
  · rfl
  · by_cases hb : b = 0
    · simp [isAbsolute, cString, hb]
    · simp [isAbsolute, cString, hb]

/-- One segment from `m`, read off the path alone. -/
def step (m : Location) (seg : Name) : Location :=
  if seg = [] ∨ seg = dot then m else if seg = dotDot then m.dropLast else m ++ [seg]

theorem step_ordinary (m : Location) {name : Name} (h : Ordinary name) :
    step m name = m ++ [name] := by
  obtain ⟨h0, h1, h2⟩ := h
  simp [step, h0, h1, h2]

theorem isPrefix_step (m : Location) {name : Name} (h : ¬ Ordinary name) : step m name <+: m := by
  unfold step
  split_ifs with h0 h1
  · exact List.prefix_rfl
  · exact List.dropLast_prefix m
  · exact absurd ⟨fun h => h0 (.inl h), fun h => h0 (.inr h), h1⟩ h

/-- Where a path leads from `m` when every segment resolves. -/
def lexical : Location → List Name → Location := List.foldl step

/-- The locations a path passes, its end among them. -/
def visited : Location → List Name → List Location
  | _, [] => []
  | m, seg :: segs => step m seg :: visited (step m seg) segs

theorem visited_append (segs' : List Name) :
    ∀ (segs : List Name) (m : Location),
      visited m (segs ++ segs') = visited m segs ++ visited (lexical m segs) segs'
  | [], m => rfl
  | seg :: segs, m => by
    simp only [List.cons_append, visited, lexical, List.foldl_cons, List.cons.injEq, true_and]
    exact visited_append segs' segs (step m seg)

theorem visited_concat (seg : Name) (segs : List Name) (m : Location) :
    visited m (segs ++ [seg]) = visited m segs ++ [step (lexical m segs) seg] :=
  visited_append [seg] segs m

theorem visited_mono {segs segs' : List Name} (h : segs <+: segs') {m a : Location}
    (ha : a ∈ visited m segs) : a ∈ visited m segs' := by
  obtain ⟨rest, rfl⟩ := h
  rw [visited_append, List.mem_append]
  exact .inl ha

theorem lexical_append (segs segs' : List Name) (m : Location) :
    lexical m (segs ++ segs') = lexical (lexical m segs) segs' := List.foldl_append

theorem lexical_concat {dir : List Name} {name : Name} :
    lexical [] (dir ++ [name]) = step (lexical [] dir) name := lexical_append dir [name] []

/-- A path, from so many names below some directory, does not go up past it. -/
def StaysBelow : ℕ → List Name → Prop
  | _, [] => True
  | n, seg :: segs =>
    if seg = [] ∨ seg = dot then StaysBelow n segs
    else if seg = dotDot then 0 < n ∧ StaysBelow (n - 1) segs
    else StaysBelow (n + 1) segs

/-- Then it passes only what is under the directory. -/
theorem prefix_of_staysBelow {base : Location} :
    ∀ (segs : List Name) {n : ℕ} {m : Location}, StaysBelow n segs → base <+: m →
      m.length = base.length + n →
      base <+: lexical m segs ∧ ∀ a ∈ visited m segs, base <+: a
  | [], n, m, _, hb, _ => ⟨hb, by simp [visited]⟩
  | seg :: segs, n, m, h, hb, hlen => by
    simp only [lexical, List.foldl_cons, visited, List.mem_cons, forall_eq_or_imp]
    unfold StaysBelow at h
    unfold step
    split_ifs at h ⊢ with h0 h1
    · exact (prefix_of_staysBelow segs h hb hlen).imp id fun ih => ⟨hb, ih⟩
    · have hup : base <+: m.dropLast := by
        rw [List.prefix_iff_eq_take] at hb ⊢
        rw [List.dropLast_eq_take, List.take_take, Nat.min_eq_left (by omega), ← hb]
      exact (prefix_of_staysBelow segs h.2 hup (by rw [List.length_dropLast]; omega)).imp id
        fun ih => ⟨hup, ih⟩
    · have hdown : base <+: m ++ [seg] := hb.trans (List.prefix_append _ _)
      exact (prefix_of_staysBelow segs h hdown (by simp; omega)).imp id fun ih => ⟨hdown, ih⟩

/-- What is outside a directory stays outside, unless the path has its name. -/
theorem not_prefix_lexical {parent : Location} {name : Name} :
    ∀ (segs : List Name) {m : Location}, name ∉ segs → ¬ parent ++ [name] <+: m →
      ¬ parent ++ [name] <+: lexical m segs
  | [], _, _, h => h
  | seg :: segs, m, hn, h => by
    simp only [List.mem_cons, not_or] at hn
    refine not_prefix_lexical segs hn.2 fun hp => ?_
    unfold step at hp
    split_ifs at hp
    · exact h hp
    · exact h (hp.trans (List.dropLast_prefix m))
    · rcases List.prefix_concat_iff.mp hp with he | hp
      · exact hn.1 (List.singleton_inj.mp (List.append_inj' he rfl).2)
      · exact h hp

/-- Otherwise it ends outside, unless the path has the directory's name. -/
theorem not_prefix_of_climbs {parent : Location} {name : Name} :
    ∀ (segs : List Name) {n : ℕ} {m : Location}, name ∉ segs → ¬ StaysBelow n segs →
      parent ++ [name] <+: m → m.length = parent.length + 1 + n →
      ¬ parent ++ [name] <+: lexical m segs
  | [], _, _, _, h, _, _ => absurd trivial h
  | seg :: segs, n, m, hn, h, hb, hlen => by
    have hn' : name ∉ segs := fun hs => hn (List.mem_cons_of_mem _ hs)
    unfold StaysBelow at h
    simp only [lexical, List.foldl_cons]
    unfold step
    split_ifs at h ⊢ with h0 h1
    · exact not_prefix_of_climbs segs hn' h hb hlen
    · by_cases hpos : 0 < n
      · have hup : parent ++ [name] <+: m.dropLast := by
          rw [List.prefix_iff_eq_take] at hb ⊢
          rw [List.dropLast_eq_take, List.take_take, Nat.min_eq_left (by simp; omega), ← hb]
        exact not_prefix_of_climbs segs hn' (fun hs => h ⟨hpos, hs⟩) hup
          (by rw [List.length_dropLast]; omega)
      · refine not_prefix_lexical segs hn' fun hp => ?_
        have hle := hp.length_le
        rw [List.length_append, List.length_singleton, List.length_dropLast] at hle
        omega
    · exact not_prefix_of_climbs segs hn' h (hb.trans (List.prefix_append _ _))
        (by simp; omega)

theorem lexical_eq_or_mem :
    ∀ (segs : List Name) (m : Location), lexical m segs = m ∨ lexical m segs ∈ visited m segs
  | [], m => .inl rfl
  | seg :: segs, m => by
    rcases lexical_eq_or_mem segs (step m seg) with h | h
    · exact .inr (by simp [lexical, visited, show segs.foldl step (step m seg) = step m seg from h])
    · exact .inr (List.mem_cons_of_mem _ h)

theorem prefix_step {m p : Location} {seg : Name} (h : p <+: step m seg) :
    p <+: m ∨ p = step m seg := by
  unfold step at h ⊢
  split_ifs at h ⊢
  · exact .inl h
  · exact .inl (h.trans (List.dropLast_prefix m))
  · exact (List.prefix_concat_iff.mp h).symm

/-- Above a stop of a path there are only stops of it and what lies above its start. -/
theorem prefix_mem_visited :
    ∀ (segs : List Name) {m a p : Location}, a ∈ visited m segs → p <+: a →
      p <+: m ∨ p ∈ visited m segs
  | [], _, _, _, ha, _ => by simp [visited] at ha
  | seg :: segs, m, a, p, ha, hp => by
    have hstep : p <+: step m seg → p <+: m ∨ p ∈ visited m (seg :: segs) := fun h =>
      (prefix_step h).imp id fun h => List.mem_cons.mpr (.inl h)
    simp only [visited, List.mem_cons] at ha
    rcases ha with rfl | ha
    · exact hstep hp
    · rcases prefix_mem_visited segs ha hp with h | h
      · exact hstep h
      · exact .inr (List.mem_cons_of_mem _ h)

@[simp]
theorem length_visited : ∀ (segs : List Name) (m : Location), (visited m segs).length = segs.length
  | [], _ => rfl
  | _ :: segs, _ => by rw [visited, List.length_cons, length_visited segs, List.length_cons]

end FileTree
