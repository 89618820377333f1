import LockService.SnapshotTasks

/-!
# A snapshot on its way to a follower

The objects of a snapshot are read on one server and saved on another, and then applied. The value
gets across just where it fits the eight bytes the sender allocates for it, length and all, and the
receiver keeps the snapshot it enters for it, which it does not when it has three of later indices
(`transfers_iff`).
-/

namespace LockService

open Buffer StateMachine

/-- Both objects are read and saved, the second of them the last, and the receiver, once it has
applied the snapshot, has the value. -/
def Transfers (sender receiver : StateMachine) (s : Snapshot) (v : Str) : Prop :=
  ∃ dummy data sm₁ sm₂, sender.readLogicalSnpObj s 0 = .ok (some dummy, false) ∧
    sender.readLogicalSnpObj s 1 = .ok (some data, true) ∧
    receiver.saveLogicalSnpObj s 0 dummy = .ok (sm₁, 1) ∧
    sm₁.saveLogicalSnpObj s 1 data = .ok (sm₂, 2) ∧
    (sm₂.applySnapshot s).1 = true ∧ (sm₂.applySnapshot s).2.getCurrentValue = v

section Transfer

variable {sender receiver : StateMachine} {s : Snapshot} {ctx : SnapshotCtx} {data : List UInt8}

/-- The second object goes into the snapshot entered for the first, and is applied from there. -/
theorem saveLogicalSnpObj_value (sm : StateMachine) (s : Snapshot) {v rest : List UInt8}
    (hdata : getStr data = some (v, rest)) :
    (sm.snapshots[s.lastLogIdx]? = none ∧ sm.saveLogicalSnpObj s 1 data = .error .assertion) ∨
      (sm.snapshots[s.lastLogIdx]?).isSome ∧ ∃ sm', sm.saveLogicalSnpObj s 1 data = .ok (sm', 2) ∧
        (sm'.applySnapshot s).1 = true ∧ (sm'.applySnapshot s).2.getCurrentValue = v := by
  rw [saveLogicalSnpObj, if_neg Nat.one_ne_zero, hdata]
  rcases hlook : sm.snapshots[s.lastLogIdx]? with _ | ctx
  · exact .inl ⟨rfl, rfl⟩
  · refine .inr ⟨rfl, _, rfl, ?_, ?_⟩ <;>
      rw [applySnapshot, Std.ExtTreeMap.getElem?_insert_self]
    rfl

/-- The receiver has the snapshot it entered unless three of its own are later. -/
theorem isSome_createSnapshotInternal :
    ((receiver.createSnapshotInternal s).snapshots[s.lastLogIdx]?).isSome ↔
      (receiver.indices.filter (s.lastLogIdx < ·)).card < 3 := by
  have hiff : s.lastLogIdx ∈ greatest 3 (insert s.lastLogIdx receiver.indices) ↔
      (receiver.indices.filter (s.lastLogIdx < ·)).card < 3 := by
    rw [mem_greatest, Finset.filter_insert, if_neg (lt_irrefl _)]
    exact and_iff_right (Finset.mem_insert_self _ _)
  rw [getElem?_createSnapshotInternal, ← hiff]
  by_cases hkept : s.lastLogIdx ∈ greatest 3 (insert s.lastLogIdx receiver.indices)
  · simp [hkept]
  · simp [hkept]

/-- A snapshot gets across just where its value has four bytes at most and the receiver has fewer
than three later snapshots. -/
theorem transfers_iff (h : sender.snapshots[s.lastLogIdx]? = some ctx) :
    Transfers sender receiver s ctx.value ↔
      ctx.value.length ≤ 4 ∧ (receiver.indices.filter (s.lastLogIdx < ·)).card < 3 := by
  rw [← isSome_createSnapshotInternal]
  rcases readLogicalSnpObj_value h Nat.one_ne_zero with
    ⟨herr, hlong⟩ | ⟨hshort, data, hread, rest, hdata⟩
  · refine iff_of_false ?_ fun hc => by omega
    rintro ⟨dummy, data, sm₁, sm₂, -, hread, -⟩
    rw [herr] at hread
    cases hread
  constructor
  · rintro ⟨dummy, data', sm₁, sm₂, -, hread', hsave₁, hsave₂, -⟩
    obtain rfl : data = data' := by simpa [hread] using hread'
    obtain rfl : receiver.createSnapshotInternal s = sm₁ := by
      simpa [saveLogicalSnpObj] using hsave₁
    rcases saveLogicalSnpObj_value (receiver.createSnapshotInternal s) s hdata with
      ⟨-, herr⟩ | ⟨hsome, -⟩
    · rw [herr] at hsave₂
      cases hsave₂
    · exact ⟨hshort, hsome⟩
  · rintro ⟨-, hsome⟩
    rcases saveLogicalSnpObj_value (receiver.createSnapshotInternal s) s hdata with
      ⟨hnone, -⟩ | ⟨-, sm₂, hsave, happly, hvalue⟩
    · simp [hnone] at hsome
    · exact ⟨_, data, _, sm₂, readLogicalSnpObj_dummy h, hread, rfl, hsave, happly, hvalue⟩

/-- The first snapshot of a server that has committed one entry. -/
theorem exists_first_snapshot {v : Str}
    (h : ((StateMachine.initial .empty).commit sampleConfig 1
      (Snapshotting.logData v) 0).toOption.map StateMachine.curValue = some (some v)) :
    ∃ sm, (StateMachine.initial .empty).commit sampleConfig 1 (Snapshotting.logData v) 0 = .ok sm ∧
      (sm.createSnapshotInternal ⟨1, 1⟩).snapshots[1]? = some ⟨⟨1, 1⟩, v⟩ := by
  obtain ⟨sm, hsm, hv⟩ := Option.map_eq_some_iff.mp h
  rcases hc : (StateMachine.initial .empty).commit sampleConfig 1 (Snapshotting.logData v) 0 with
    f | sm'
  · simp [hc, Except.toOption] at hsm
  obtain rfl : sm' = sm := by simpa [hc, Except.toOption] using hsm
  have hempty := (Snapshotting.commit_eq_ok hc).2
  refine ⟨sm', rfl, ?_⟩
  rw [getElem?_createSnapshotInternal_last (s := ⟨1, 1⟩), getCurrentValue, hv]
  · rfl
  · simp [hempty, StateMachine.initial]

/-- A value of one byte, and a receiver that starts. -/
theorem transfers_iff_short_path : ∃ sm, (StateMachine.initial .empty).commit sampleConfig 1
      (Snapshotting.logData (ascii ['a'])) 0 = .ok sm ∧
    (Transfers (sm.createSnapshotInternal ⟨1, 1⟩) (.initial .empty) ⟨1, 1⟩ (ascii ['a']) ↔
      (ascii ['a']).length ≤ 4 ∧
        ((StateMachine.initial .empty).indices.filter (1 < ·)).card < 3) := by
  obtain ⟨sm, hsm, hctx⟩ := exists_first_snapshot (v := ascii ['a']) (by decide +kernel)
  exact ⟨sm, hsm, transfers_iff (s := ⟨1, 1⟩) hctx⟩

/-- A path of five bytes does not fit the buffer, and the read throws. -/
theorem not_transfers_long_path : ∃ sm, (StateMachine.initial .empty).commit sampleConfig 1
      (Snapshotting.logData (ascii ['f', 'i', 'l', 'e', '1'])) 0 = .ok sm ∧
    (sm.createSnapshotInternal ⟨1, 1⟩).snapshots[1]? =
      some ⟨⟨1, 1⟩, ascii ['f', 'i', 'l', 'e', '1']⟩ ∧
    ¬ Transfers (sm.createSnapshotInternal ⟨1, 1⟩) (.initial .empty) ⟨1, 1⟩
      (ascii ['f', 'i', 'l', 'e', '1']) := by
  obtain ⟨sm, hsm, hctx⟩ := exists_first_snapshot (v := ascii ['f', 'i', 'l', 'e', '1'])
    (by decide +kernel)
  refine ⟨sm, hsm, hctx, ?_⟩
  rintro ⟨dummy, data, sm₁, sm₂, -, hread, -⟩
  rcases readLogicalSnpObj_value (s := ⟨1, 1⟩) hctx Nat.one_ne_zero with ⟨herr, -⟩ | ⟨hshort, -⟩
  · rw [herr] at hread
    cases hread
  · revert hshort
    decide

end Transfer

end LockService
