import LockService.Snapshots

/-!
# Which snapshots stay

`create_snapshot_internal` erases from the front of its map until three snapshots are left, so what
stays after each call are the three greatest indices of that call's map. They are the three greatest
of all indices there have been (`indices_takeSnapshots`), and since an index that is dropped never
counts again, a snapshot that is there is the last one taken of its index (`keepsNewest`).
-/

namespace LockService

/-- A call of `create_snapshot_internal`, and `cur_value_` at that time. -/
structure SnapshotCall where
  snapshot : Snapshot
  curValue : Option Str

namespace SnapshotCall

def idx (call : SnapshotCall) : ℕ := call.snapshot.lastLogIdx

/-- The context the call puts in the map. -/
def ctx (call : SnapshotCall) : SnapshotCtx := ⟨call.snapshot, call.curValue.getD (ascii ['/'])⟩

/-- Every index that was put in the map. -/
def inserted (calls : List SnapshotCall) : Finset ℕ := (calls.map idx).toFinset

end SnapshotCall

open SnapshotCall StateMachine

/-- Calls of `create_snapshot_internal` in a row, from the constructor on. -/
def takeSnapshots (files : FileTree) (calls : List SnapshotCall) : StateMachine :=
  calls.foldl (fun sm call =>
    { sm with curValue := call.curValue }.createSnapshotInternal call.snapshot) (.initial files)

/-- The snapshots of the three greatest indices are kept, each as it was last taken. -/
structure KeepsNewest (files : FileTree) (calls : List SnapshotCall) (sm : StateMachine) :
    Prop where
  taken : ∀ idx ∈ sm.snapshots, idx ∈ inserted calls
  count : sm.snapshots.size = min 3 (inserted calls).card
  newest : ∀ idx ∈ sm.snapshots, ∀ j ∈ inserted calls, j ∉ sm.snapshots → j < idx
  /-- There is a last call for the index, and the index was kept from then on. -/
  context : ∀ idx ctx, sm.snapshots[idx]? = some ctx → ∃ before call after,
    calls = before ++ call :: after ∧ call.idx = idx ∧ call.ctx = ctx ∧
      (∀ later ∈ after, later.idx ≠ idx) ∧
      ∀ rest, rest <+: after → idx ∈ (takeSnapshots files (before ++ call :: rest)).snapshots
  last : calls = [] ∧ sm.lastSnapshot = none ∨ ∃ idx ctx, sm.snapshots[idx]? = some ctx ∧
    (∀ j ∈ inserted calls, j ≤ idx) ∧ sm.lastSnapshot = some ctx.snapshot

section Calls

variable (files : FileTree) (calls : List SnapshotCall)

theorem takeSnapshots_concat (call : SnapshotCall) : takeSnapshots files (calls ++ [call]) =
    { takeSnapshots files calls with curValue := call.curValue }.createSnapshotInternal
      call.snapshot := by
  rw [takeSnapshots, List.foldl_concat]
  rfl

/-- Keeping the three greatest after each call keeps the three greatest of all. -/
theorem indices_takeSnapshots :
    (takeSnapshots files calls).indices = greatest 3 (inserted calls) := by
  induction calls using List.reverseRecOn with
  | nil => rfl
  | append_singleton calls call ih =>
    have hinserted : inserted (calls ++ [call]) = insert call.idx (inserted calls) := by
      ext j
      simp [inserted]
    rw [takeSnapshots_concat, indices_createSnapshotInternal, hinserted,
      ← greatest_insert_greatest 3 _ (inserted calls), ← ih]
    rfl

/-- A snapshot that is there was put there by the last call for its index. -/
theorem context_takeSnapshots {idx : ℕ} {ctx : SnapshotCtx}
    (h : (takeSnapshots files calls).snapshots[idx]? = some ctx) : ∃ before call after,
      calls = before ++ call :: after ∧ call.idx = idx ∧ call.ctx = ctx ∧
        (∀ later ∈ after, later.idx ≠ idx) ∧
        ∀ rest, rest <+: after →
          idx ∈ (takeSnapshots files (before ++ call :: rest)).snapshots := by
  induction calls using List.reverseRecOn generalizing idx ctx with
  | nil => simp [takeSnapshots, StateMachine.initial] at h
  | append_singleton calls call ih =>
    have hmem : idx ∈ (takeSnapshots files (calls ++ [call])).snapshots :=
      mem_iff_exists_getElem?.mpr ⟨ctx, h⟩
    rw [takeSnapshots_concat, getElem?_createSnapshotInternal] at h
    split_ifs at h with hkept hidx
    · refine ⟨calls, call, [], rfl, hidx.symm, Option.some.inj h, by simp, fun rest hrest => ?_⟩
      rwa [List.prefix_nil.mp hrest]
    · obtain ⟨before, call₀, after, rfl, hcall, hctx, hafter, hstays⟩ := ih h
      refine ⟨before, call₀, after ++ [call], by simp, hcall, hctx, fun later hl => ?_,
        fun rest hrest => ?_⟩
      · rcases List.mem_append.mp hl with hl | hl
        · exact hafter later hl
        · rw [List.mem_singleton.mp hl]
          exact Ne.symm hidx
      · rcases List.prefix_concat_iff.mp hrest with rfl | hrest
        · simpa using hmem
        · exact hstays rest hrest

/-- The calls keep the newest three. -/
theorem keepsNewest : KeepsNewest files calls (takeSnapshots files calls) := by
  have hindices := indices_takeSnapshots files calls
  have hmem : ∀ idx, idx ∈ (takeSnapshots files calls).snapshots ↔
      idx ∈ greatest 3 (inserted calls) := fun idx => by rw [← mem_indices, hindices]
  have hcount : (takeSnapshots files calls).snapshots.size = min 3 (inserted calls).card := by
    rw [← card_indices, hindices, card_greatest]
  have hnewest : ∀ idx ∈ (takeSnapshots files calls).snapshots,
      ∀ j ∈ inserted calls, j ∉ (takeSnapshots files calls).snapshots → j < idx := by
    intro idx hidx j hj hno
    exact lt_of_notMem_greatest ((hmem idx).mp hidx) hj (mt (hmem j).mpr hno)
  refine ⟨fun idx hidx => greatest_subset ((hmem idx).mp hidx), hcount, hnewest,
    fun idx ctx h => context_takeSnapshots files calls h, ?_⟩
  rcases List.eq_nil_or_concat calls with rfl | ⟨before, call, rfl⟩
  · exact .inl ⟨rfl, by simp [lastSnapshot, takeSnapshots, StateMachine.initial]⟩
  rw [List.concat_eq_append] at hcount hnewest ⊢
  right
  rcases hmax : (takeSnapshots files (before ++ [call])).snapshots.maxKey? with _ | idx
  · rw [Std.ExtTreeMap.maxKey?_eq_none_iff, Std.ExtTreeMap.eq_empty_iff_size_eq_zero,
      hcount] at hmax
    have hpos : 0 < (inserted (before ++ [call])).card :=
      Finset.card_pos.mpr ⟨call.idx, by simp [inserted]⟩
    omega
  · obtain ⟨hidx, hgreatest⟩ := Std.ExtTreeMap.maxKey?_eq_some_iff_mem_and_forall.mp hmax
    obtain ⟨ctx, hctx⟩ := mem_iff_exists_getElem?.mp hidx
    refine ⟨idx, ctx, hctx, fun j hj => ?_, by rw [lastSnapshot, hmax, Option.bind_some, hctx]; rfl⟩
    by_cases hin : j ∈ (takeSnapshots files (before ++ [call])).snapshots
    · exact Nat.isLE_compare.mp (hgreatest j hin)
    · exact (hnewest idx hidx j hj hin).le

end Calls

end LockService
