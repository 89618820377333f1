import LockService.Lib.Greatest
import LockService.Lib.Store
import LockService.StateMachine

/-!
# Snapshots of the state machine

The state machine keeps the path of the last entry committed, and up to three snapshots of it. A
follower that lags behind is sent one in two objects: the first is a dummy that makes it enter a
snapshot of its own, the second carries the value, in a buffer of eight bytes whatever its length
(`readLogicalSnpObj_value`). A snapshot that is entered stays if its index is among the three
greatest (`getElem?_createSnapshotInternal`). No object carries a file, so a snapshot that is
applied changes none (`sendObjects_cases`).
-/

namespace LockService

open Buffer

/-- A snapshot as Raft names it. -/
structure Snapshot where
  lastLogIdx : ℕ
  lastLogTerm : ℕ

/-- `snapshot_ctx`. -/
structure SnapshotCtx where
  snapshot : Snapshot
  value : Str

/-- `consensus_state_machine`, with the files it works on. -/
structure StateMachine where
  curValue : Option Str
  lastCommittedIdx : ℕ
  snapshots : Std.ExtTreeMap ℕ SnapshotCtx
  files : FileTree

/-- `snapshots_.erase(snapshots_.begin())`, so many times. -/
def eraseFirst : ℕ → Std.ExtTreeMap ℕ SnapshotCtx → Std.ExtTreeMap ℕ SnapshotCtx
  | 0, snapshots => snapshots
  | n + 1, snapshots => match snapshots.keys.head? with
    | none => snapshots
    | some idx => eraseFirst n (snapshots.erase idx)

namespace StateMachine

def initial (files : FileTree) : StateMachine := ⟨none, 0, ∅, files⟩

/-- `get_current_value`. -/
def getCurrentValue (sm : StateMachine) : Str := sm.curValue.getD (ascii ['/'])

def commit (cfg : Config) (sm : StateMachine) (logIdx : ℕ) (data : List UInt8) (random : ℕ) :
    Except Fault StateMachine :=
  match decLog data with
  | none => .error .bufferEnd
  | some payload => match commitFiles cfg sm.files payload random with
    | .error f => .error f
    | .ok files => .ok
      { sm with files, curValue := some payload.path, lastCommittedIdx := logIdx }

/-- `create_snapshot_internal`: only the last three snapshots stay. -/
def createSnapshotInternal (sm : StateMachine) (ss : Snapshot) : StateMachine :=
  let snapshots := sm.snapshots.insert ss.lastLogIdx ⟨ss, sm.getCurrentValue⟩
  { sm with snapshots := eraseFirst (snapshots.size - 3) snapshots }

/-- `read_logical_snp_obj`: the object, and whether it is the last one. -/
def readLogicalSnpObj (sm : StateMachine) (s : Snapshot) (objId : ℕ) :
    Except Fault (Option (List UInt8) × Bool) :=
  match sm.snapshots[s.lastLogIdx]? with
  | none => .ok (none, true)
  | some ctx =>
    if objId = 0 then match (Writer.alloc 4).put (i32Bytes 0) with
      | none => .error .bufferEnd
      | some bs => .ok (some bs.buffer, false)
    else match (Writer.alloc 8).put (strBytes ctx.value) with
      | none => .error .bufferEnd
      | some bs => .ok (some bs.buffer, true)

/-- `save_logical_snp_obj`, with the object asked for next. -/
def saveLogicalSnpObj (sm : StateMachine) (s : Snapshot) (objId : ℕ) (data : List UInt8) :
    Except Fault (StateMachine × ℕ) :=
  if objId = 0 then .ok (sm.createSnapshotInternal s, objId + 1)
  else match getStr data with
    | none => .error .bufferEnd
    | some (value, _) => match sm.snapshots[s.lastLogIdx]? with
      | none => .error .assertion
      | some ctx => .ok ({ sm with
          snapshots := sm.snapshots.insert s.lastLogIdx { ctx with value } }, objId + 1)

def applySnapshot (sm : StateMachine) (s : Snapshot) : Bool × StateMachine :=
  match sm.snapshots[s.lastLogIdx]? with
  | none => (false, sm)
  | some ctx => (true, { sm with curValue := some ctx.value })

/-- `last_snapshot`. -/
def lastSnapshot (sm : StateMachine) : Option Snapshot :=
  (sm.snapshots.maxKey?.bind fun idx => sm.snapshots[idx]?).map SnapshotCtx.snapshot

/-- The objects of a snapshot go from the leader to the follower, from one on up to the last; then
the follower applies it. -/
def sendObjects (leader : StateMachine) (s : Snapshot) :
    ℕ → ℕ → StateMachine → Except Fault (Bool × StateMachine)
  | 0, _, _ => .error .diverges
  | fuel + 1, objId, follower => do
    let (data, isLast) ← leader.readLogicalSnpObj s objId
    let (follower, objId) ← follower.saveLogicalSnpObj s objId (data.getD [])
    if isLast then return follower.applySnapshot s else sendObjects leader s fuel objId follower

end StateMachine

open StateMachine

section Keep

variable {sm : StateMachine} {s : Snapshot}

theorem card_keys (snapshots : Std.ExtTreeMap ℕ SnapshotCtx) :
    snapshots.keys.toFinset.card = snapshots.size := by
  rw [List.toFinset_card_of_nodup Std.ExtTreeMap.nodup_keys, Std.ExtTreeMap.length_keys]

/-- The first key is the least. -/
theorem head?_keys {snapshots : Std.ExtTreeMap ℕ SnapshotCtx} {k : ℕ}
    (h : snapshots.keys.head? = some k) : k ∈ snapshots ∧ ∀ j ∈ snapshots, k ≤ j := by
  obtain ⟨ks, hks⟩ := List.head?_eq_some_iff.mp h
  have hsorted := snapshots.ordered_keys
  rw [hks, List.pairwise_cons] at hsorted
  have hmem : ∀ j, j ∈ snapshots ↔ j = k ∨ j ∈ ks := fun j => by
    rw [← Std.ExtTreeMap.mem_keys, hks, List.mem_cons]
  refine ⟨(hmem k).mpr (.inl rfl), fun j hj => ?_⟩
  rcases (hmem j).mp hj with rfl | hj
  · exact le_rfl
  · exact (Nat.compare_eq_lt.mp (hsorted.1 j hj)).le

/-- The greatest indices are the last to be erased. -/
theorem getElem?_eraseFirst :
    ∀ (n : ℕ) (snapshots : Std.ExtTreeMap ℕ SnapshotCtx) (idx : ℕ),
      (eraseFirst n snapshots)[idx]? =
        if idx ∈ greatest (snapshots.size - n) snapshots.keys.toFinset then snapshots[idx]?
        else none
  | 0, snapshots, idx => by
    rw [eraseFirst, Nat.sub_zero, greatest_eq_self (card_keys snapshots).le]
    split_ifs with hidx
    · rfl
    · exact Std.ExtTreeMap.getElem?_eq_none (by simpa using hidx)
  | n + 1, snapshots, idx => by
    unfold eraseFirst
    rcases hk : snapshots.keys.head? with _ | k
    · rw [List.head?_eq_none_iff] at hk
      have hidx : idx ∉ snapshots := by simp [← Std.ExtTreeMap.mem_keys, hk]
      rw [Std.ExtTreeMap.getElem?_eq_none hidx, ite_self]
    · obtain ⟨hmem, hleast⟩ := head?_keys hk
      have hkeys : (snapshots.erase k).keys.toFinset = snapshots.keys.toFinset.erase k := by
        ext j
        simp only [List.mem_toFinset, Finset.mem_erase, Std.ExtTreeMap.mem_keys, mem_erase_eq]
      have hpos : 0 < snapshots.size := by
        rw [← card_keys]
        exact Finset.card_pos.mpr ⟨k, by simpa using hmem⟩
      have hsize : (snapshots.erase k).size - n = snapshots.size - (n + 1) := by
        rw [Std.ExtTreeMap.size_erase, if_pos (Std.ExtTreeMap.contains_iff_mem.mpr hmem)]
        omega
      have hsub := greatest_erase_of_forall_le (n := snapshots.size - (n + 1))
        (by simpa using hmem : k ∈ snapshots.keys.toFinset)
        (fun j hj => hleast j (by simpa using hj)) (by rw [card_keys]; omega)
      dsimp only
      rw [getElem?_eraseFirst n, hsize, hkeys, hsub, getElem?_erase_eq]
      by_cases hik : idx = k
      · subst hik
        have hno : idx ∉ greatest (snapshots.size - (n + 1)) snapshots.keys.toFinset := by
          rw [← hsub]
          exact fun h => Finset.notMem_erase idx _ (greatest_subset h)
        rw [if_neg hno, if_neg hno]
      · rw [if_neg hik]

namespace StateMachine

/-- The indices of the snapshots there are. -/
def indices (sm : StateMachine) : Finset ℕ := sm.snapshots.keys.toFinset

theorem mem_indices {idx : ℕ} : idx ∈ sm.indices ↔ idx ∈ sm.snapshots := by
  rw [indices, List.mem_toFinset, Std.ExtTreeMap.mem_keys]

theorem card_indices (sm : StateMachine) : sm.indices.card = sm.snapshots.size :=
  card_keys sm.snapshots

end StateMachine

/-- What `create_snapshot_internal` keeps: the three greatest indices, the new one among them. -/
theorem getElem?_createSnapshotInternal (sm : StateMachine) (s : Snapshot) (idx : ℕ) :
    (sm.createSnapshotInternal s).snapshots[idx]? =
      if idx ∈ greatest 3 (insert s.lastLogIdx sm.indices) then
        if idx = s.lastLogIdx then some ⟨s, sm.getCurrentValue⟩ else sm.snapshots[idx]?
      else none := by
  have hkeys : (sm.snapshots.insert s.lastLogIdx ⟨s, sm.getCurrentValue⟩).keys.toFinset =
      insert s.lastLogIdx sm.indices := by
    ext j
    rw [List.mem_toFinset, Std.ExtTreeMap.mem_keys, mem_insert_eq, Finset.mem_insert, mem_indices]
  have hcard := card_keys (sm.snapshots.insert s.lastLogIdx ⟨s, sm.getCurrentValue⟩)
  rw [createSnapshotInternal]
  dsimp only
  rw [getElem?_eraseFirst, hkeys, getElem?_insert_eq]
  rw [hkeys] at hcard
  congr 1
  by_cases hmany : 3 ≤ (sm.snapshots.insert s.lastLogIdx ⟨s, sm.getCurrentValue⟩).size
  · rw [Nat.sub_sub_self hmany]
  · rw [greatest_eq_self (n := 3) (by omega), greatest_eq_self (by omega)]

theorem indices_createSnapshotInternal (sm : StateMachine) (s : Snapshot) :
    (sm.createSnapshotInternal s).indices = greatest 3 (insert s.lastLogIdx sm.indices) := by
  ext idx
  rw [mem_indices, mem_iff_exists_getElem?, getElem?_createSnapshotInternal]
  constructor
  · rintro ⟨ctx, h⟩
    by_contra hno
    rw [if_neg hno] at h
    cases h
  · intro hidx
    rw [if_pos hidx]
    split_ifs with heq
    · exact ⟨_, rfl⟩
    · have hmem := (Finset.mem_insert.mp (greatest_subset hidx)).resolve_left heq
      exact mem_iff_exists_getElem?.mp (mem_indices.mp hmem)

theorem size_createSnapshotInternal (sm : StateMachine) (s : Snapshot) :
    (sm.createSnapshotInternal s).snapshots.size ≤ 3 := by
  rw [← card_indices, indices_createSnapshotInternal, card_greatest]
  exact min_le_left _ _

/-- A snapshot of the greatest index is kept. -/
theorem getElem?_createSnapshotInternal_last (h : ∀ k ∈ sm.snapshots, k ≤ s.lastLogIdx) :
    (sm.createSnapshotInternal s).snapshots[s.lastLogIdx]? = some ⟨s, sm.getCurrentValue⟩ := by
  rw [getElem?_createSnapshotInternal, if_pos, if_pos rfl]
  refine mem_greatest.mpr ⟨Finset.mem_insert_self _ _, ?_⟩
  have hnone : (insert s.lastLogIdx sm.indices).filter (s.lastLogIdx < ·) = ∅ := by
    refine Finset.filter_false_of_mem fun k hk => ?_
    rcases Finset.mem_insert.mp hk with rfl | hk
    · exact lt_irrefl _
    · exact (h k (mem_indices.mp hk)).not_gt
  simp [hnone]

end Keep

section Send

variable {leader follower : StateMachine} {s : Snapshot} {ctx : SnapshotCtx}

theorem readLogicalSnpObj_dummy (h : leader.snapshots[s.lastLogIdx]? = some ctx) :
    leader.readLogicalSnpObj s 0 = .ok (some (leBytes 4 0), false) := by
  rw [readLogicalSnpObj, h]
  rfl

/-- The second object is made only of a value of four bytes at most. -/
theorem readLogicalSnpObj_value (h : leader.snapshots[s.lastLogIdx]? = some ctx) {objId : ℕ}
    (hid : objId ≠ 0) :
    (leader.readLogicalSnpObj s objId = .error .bufferEnd ∧ 4 < ctx.value.length) ∨
      ctx.value.length ≤ 4 ∧ ∃ data, leader.readLogicalSnpObj s objId = .ok (some data, true) ∧
        ∃ rest, getStr data = some (ctx.value, rest) := by
  rw [readLogicalSnpObj, h]
  simp only [if_neg hid]
  rcases hp : (Writer.alloc 8).put (strBytes ctx.value) with _ | bs
  · rw [Writer.put_eq_none_iff, length_strBytes] at hp
    simp only [Writer.alloc, List.length_nil] at hp
    exact .inl ⟨rfl, by omega⟩
  · have hfit := (Writer.isSome_put (Writer.alloc 8) (strBytes ctx.value)).mp (by simp [hp])
    simp only [Writer.alloc, List.length_nil, length_strBytes] at hfit
    obtain ⟨rest, hrest⟩ := Writer.buffer_eq hp
    refine .inr ⟨by omega, bs.buffer, rfl, rest, ?_⟩
    rw [hrest, Writer.alloc, List.nil_append]
    exact getStr_strBytes (by omega) rest

/-- The follower gets the value when it has four bytes at most, and no file either way. -/
theorem sendObjects_cases (hl : leader.snapshots[s.lastLogIdx]? = some ctx)
    (hf : ∀ k ∈ follower.snapshots, k ≤ s.lastLogIdx) :
    (4 < ctx.value.length ∧ leader.sendObjects s 2 0 follower = .error .bufferEnd) ∨
      ctx.value.length ≤ 4 ∧ ∃ sm, leader.sendObjects s 2 0 follower = .ok (true, sm) ∧
        sm.curValue = some ctx.value ∧ sm.files = follower.files := by
  have hdummy := readLogicalSnpObj_dummy hl
  have hkept := getElem?_createSnapshotInternal_last hf
  simp only [sendObjects, hdummy, saveLogicalSnpObj, bind, Except.bind, if_true,
    Bool.false_eq_true, if_false]
  rcases readLogicalSnpObj_value hl (Nat.succ_ne_zero 0) with
    ⟨herr, hlen⟩ | ⟨hlen, data, hok, rest, hget⟩
  · exact .inl ⟨hlen, by rw [herr]⟩
  · refine .inr ⟨hlen, ?_⟩
    simp only [hok, Option.getD_some, hget, hkept, Nat.add_one_ne_zero, if_false, if_true,
      applySnapshot, Std.ExtTreeMap.getElem?_insert_self, pure, Except.pure]
    exact ⟨_, rfl, rfl, rfl⟩

end Send

end LockService
