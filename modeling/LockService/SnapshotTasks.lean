import LockService.Runs
import LockService.Snapshots

/-!
# When a snapshot is taken

Raft asks for a snapshot of the last index committed. A server that takes it at once takes the path
committed there; one that leaves it to a thread of its own takes whatever path was committed last
when that thread gets to run. So the snapshots are exact just where each of those threads finds the
path of its own index, or comes so late that its snapshot is the one dropped
(`exact_iff_timely`).
-/

namespace LockService

/-- The state machine, the snapshots its threads have still to take, and each index committed with
the value read right after. -/
structure Snapshotting where
  sm : StateMachine
  tasks : List Snapshot
  committed : List (ℕ × Str)

namespace Snapshotting

inductive Event where
  | commit (logIdx : ℕ) (data : List UInt8) (random : ℕ)
  | createSnapshot (lastLogTerm : ℕ)
  | runTask (task : ℕ)

def initial (files : FileTree) : Snapshotting := ⟨.initial files, [], []⟩

/-- `create_snapshot`, at once or by a thread. -/
def createSnapshot (asyncSnapshot : Bool) (st : Snapshotting) (s : Snapshot) : Snapshotting :=
  if asyncSnapshot then { st with tasks := st.tasks ++ [s] }
  else { st with sm := st.sm.createSnapshotInternal s }

/-- Indices are committed in order, and a snapshot is asked for once one is. -/
def next (cfg : Config) (asyncSnapshot : Bool) (st : Snapshotting) : Event → Option Snapshotting
  | .commit logIdx data random =>
    if st.sm.lastCommittedIdx < logIdx then match st.sm.commit cfg logIdx data random with
      | .ok sm => some { st with sm, committed := (logIdx, sm.getCurrentValue) :: st.committed }
      | .error _ => none
    else none
  | .createSnapshot lastLogTerm =>
    if st.sm.lastCommittedIdx = 0 then none
    else some (st.createSnapshot asyncSnapshot ⟨st.sm.lastCommittedIdx, lastLogTerm⟩)
  | .runTask task => st.tasks[task]?.map fun s =>
    { st with sm := st.sm.createSnapshotInternal s, tasks := st.tasks.eraseIdx task }

/-- Every snapshot has the value committed at its index. -/
def Exact (st : Snapshotting) : Prop :=
  ∀ idx ctx, st.sm.snapshots[idx]? = some ctx → (idx, ctx.value) ∈ st.committed

/-- Three later snapshots are there, so that one of the index would be dropped at once. -/
def Dropped (st : Snapshotting) (idx : ℕ) : Prop :=
  st.sm.snapshots.size = 3 ∧ ∀ k ∈ st.sm.snapshots, idx < k

/-- A thread that gets to run finds the value committed at its index, or is too late. -/
def Timely (st : Snapshotting) : Event → Prop
  | .runTask task => ∀ s, st.tasks[task]? = some s →
    (s.lastLogIdx, st.sm.getCurrentValue) ∈ st.committed ∨ st.Dropped s.lastLogIdx
  | _ => True

/-- What holds of any run, however its threads are timed. -/
structure Ordered (st : Snapshotting) : Prop where
  current : st.sm.lastCommittedIdx ≠ 0 →
    (st.sm.lastCommittedIdx, st.sm.getCurrentValue) ∈ st.committed
  size : st.sm.snapshots.size ≤ 3

section Step

variable {cfg : Config} {asyncSnapshot : Bool} {st st' : Snapshotting}

/-- A snapshot is dropped at once just when it is not among the three greatest. -/
theorem dropped_iff (hsize : st.sm.snapshots.size ≤ 3) (s : Snapshot) :
    st.Dropped s.lastLogIdx ↔ s.lastLogIdx ∉ greatest 3 (insert s.lastLogIdx st.sm.indices) := by
  have hcard := st.sm.card_indices
  simp only [mem_greatest, Finset.mem_insert_self, true_and, not_lt, Finset.filter_insert,
    lt_irrefl, if_false]
  constructor
  · rintro ⟨hthree, hall⟩
    rw [Finset.filter_true_of_mem fun k hk => hall k (StateMachine.mem_indices.mp hk)]
    omega
  · intro hmany
    have hfilter := Finset.eq_of_subset_of_card_le
      (Finset.filter_subset (s.lastLogIdx < ·) st.sm.indices) (by omega)
    rw [hfilter] at hmany
    refine ⟨by omega, fun k hk => ?_⟩
    exact Finset.filter_eq_self.mp hfilter k (StateMachine.mem_indices.mpr hk)

/-- A snapshot that is taken leaves the others exact, and is exact itself where it has the value
committed at its index or is not kept. -/
theorem exact_createSnapshotInternal (hsize : st.sm.snapshots.size ≤ 3) (he : st.Exact)
    (s : Snapshot) (tasks : List Snapshot) :
    Exact { st with sm := st.sm.createSnapshotInternal s, tasks := tasks } ↔
      (s.lastLogIdx, st.sm.getCurrentValue) ∈ st.committed ∨ st.Dropped s.lastLogIdx := by
  have hlook := getElem?_createSnapshotInternal st.sm s
  rw [dropped_iff hsize]
  constructor
  · intro h
    by_cases hkept : s.lastLogIdx ∈ greatest 3 (insert s.lastLogIdx st.sm.indices)
    · exact .inl (h s.lastLogIdx _ (by dsimp only; rw [hlook, if_pos hkept, if_pos rfl]))
    · exact .inr hkept
  · intro h idx ctx hctx
    dsimp only at hctx
    rw [hlook] at hctx
    split_ifs at hctx with hkept heq
    · subst heq
      obtain rfl := Option.some.inj hctx
      exact h.resolve_right fun hno => hno hkept
    · exact he idx ctx hctx

theorem commit_eq_ok {sm sm' : StateMachine} {logIdx random : ℕ} {data : List UInt8}
    (h : sm.commit cfg logIdx data random = .ok sm') :
    sm'.lastCommittedIdx = logIdx ∧ sm'.snapshots = sm.snapshots := by
  unfold StateMachine.commit at h
  split at h
  · cases h
  · split at h
    · cases h
    · obtain rfl := Except.ok.inj h
      exact ⟨rfl, rfl⟩

/-- A step keeps the snapshots exact just when it is timely. -/
theorem exact_next {e : Event} (ho : st.Ordered) (he : st.Exact)
    (h : st.next cfg asyncSnapshot e = some st') :
    st'.Ordered ∧ (st'.Exact ↔ st.Timely e) := by
  cases e with
  | commit logIdx data random =>
    simp only [next] at h
    split_ifs at h with hlt
    split at h
    · rename_i sm hsm
      obtain rfl := Option.some.inj h
      obtain ⟨hidx, hsnaps⟩ := commit_eq_ok hsm
      refine ⟨⟨fun _ => ?_, ?_⟩, iff_of_true (fun idx ctx hctx => ?_) trivial⟩
      · dsimp only
        rw [hidx]
        exact List.mem_cons_self
      · dsimp only
        rw [hsnaps]
        exact ho.size
      · dsimp only at hctx
        rw [hsnaps] at hctx
        exact List.mem_cons_of_mem _ (he idx ctx hctx)
    · cases h
  | createSnapshot lastLogTerm =>
    simp only [next] at h
    split_ifs at h with hzero
    obtain rfl := Option.some.inj h
    unfold createSnapshot
    split_ifs
    · exact ⟨⟨ho.current, ho.size⟩, iff_of_true he trivial⟩
    · refine ⟨⟨ho.current, size_createSnapshotInternal _ _⟩, iff_of_true ?_ trivial⟩
      exact (exact_createSnapshotInternal ho.size he _ _).mpr (.inl (ho.current hzero))
  | runTask task =>
    simp only [next, Option.map_eq_some_iff] at h
    obtain ⟨s, hs, rfl⟩ := h
    refine ⟨⟨ho.current, size_createSnapshotInternal _ _⟩, ?_⟩
    rw [exact_createSnapshotInternal ho.size he]
    constructor
    · intro ht s' hs'
      obtain rfl := Option.some.inj (hs.symm.trans hs')
      exact ht
    · exact fun ht => ht s hs

/-- A thread is there only for a snapshot that is left to one. -/
theorem tasks_next (h : st.tasks = []) {e : Event} (hn : st.next cfg false e = some st') :
    st'.tasks = [] ∧ st.Timely e := by
  cases e with
  | commit logIdx data random =>
    simp only [next] at hn
    split_ifs at hn
    split at hn
    · obtain rfl := Option.some.inj hn
      exact ⟨h, trivial⟩
    · cases hn
  | createSnapshot lastLogTerm =>
    simp only [next] at hn
    split_ifs at hn
    obtain rfl := Option.some.inj hn
    exact ⟨h, trivial⟩
  | runTask task => simp [next, h] at hn

end Step

section Runs

variable (cfg : Config) (asyncSnapshot : Bool) (files : FileTree) (es : List Event)

/-- The snapshots of a run stay exact just when each of its threads is timely. -/
theorem exact_iff_timely :
    Run.Along (next cfg asyncSnapshot) (fun _ _ st' => st'.Exact) (initial files) es ↔
      Run.Along (next cfg asyncSnapshot) (fun st e _ => st.Timely e) (initial files) es := by
  have hinit : (initial files).Ordered ∧ (initial files).Exact := by
    refine ⟨⟨fun h => absurd rfl h, Nat.zero_le 3⟩, fun idx ctx h => ?_⟩
    simp [initial, StateMachine.initial] at h
  refine Run.along_congr (I := fun st => st.Ordered ∧ st.Exact) ?_ hinit Run.along_true
  intro st e st' h _ hn
  obtain ⟨ho, hiff⟩ := exact_next h.1 h.2 hn
  exact ⟨hiff, fun he => ⟨ho, he⟩⟩

/-- Snapshots that are taken at once are exact. -/
theorem exact_sync : Run.Along (next cfg false) (fun _ _ st' => st'.Exact) (initial files) es := by
  refine (exact_iff_timely cfg false files es).mpr ?_
  refine Run.Along.imp (I := fun st => st.tasks = []) ?_ rfl Run.along_true
  exact fun st e st' h _ hn => tasks_next h hn

end Runs

/-- The entry of an empty write. -/
def logData (path : Str) : List UInt8 := (encLog ⟨.write, path, []⟩).getD []

/-- A thread that runs after the next commit gives its snapshot the next path. -/
theorem not_exact_late_task : ∃ es st,
    Run.run (next sampleConfig true) (initial .empty) es = some st ∧
      (1, ascii ['a']) ∈ st.committed ∧
      (st.sm.snapshots[1]?).map SnapshotCtx.value = some (ascii ['b']) ∧ ¬ st.Exact := by
  have hrun := (Option.any_eq_true _ _).mp (by decide +kernel : (Run.run (next sampleConfig true)
    (initial .empty) [.commit 1 (logData (ascii ['a'])) 0, .createSnapshot 1,
      .commit 2 (logData (ascii ['b'])) 0, .runTask 0]).any fun st =>
    st.committed = [(2, ascii ['b']), (1, ascii ['a'])] ∧
      (st.sm.snapshots[1]?).map SnapshotCtx.value = some (ascii ['b']))
  obtain ⟨st, hst, hcheck⟩ := hrun
  obtain ⟨hcommitted, hvalue⟩ := of_decide_eq_true hcheck
  refine ⟨_, st, hst, by rw [hcommitted]; decide, hvalue, fun he => ?_⟩
  obtain ⟨ctx, hctx, hv⟩ := Option.map_eq_some_iff.mp hvalue
  have hmem := he 1 ctx hctx
  rw [hcommitted, hv] at hmem
  revert hmem
  decide

end Snapshotting

end LockService
