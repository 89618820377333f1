import LockService.Lib.Run
import LockService.Lib.Store
import LockService.LogStore

/-!
# The log store keeps a log

Whatever is done to it, the store answers as a log without its first entries does (`refines_next`):
its keys are zero and one interval, so the map's size gives the next index (`Refines.size`). That
holds while no entry gets the last index an `ulong` has. With that index taken the next one is
zero, the interval is empty and the dummy is what the next entry goes over
(`not_answers_last_index`).
-/

namespace LockService

open Buffer

/-- What Raft asks of its log store. -/
inductive LogOp where
  | append (entry : LogEntry)
  | writeAt (index : ℕ) (entry : LogEntry)
  | compact (lastLogIndex : ℕ)
  | applyPack (index : ℕ) (bufs : List (List UInt8))

namespace InmemLogStore

/-- The store goes on after an operation that returns. -/
def next (deserialize : List UInt8 → Option LogEntry) (s : InmemLogStore) :
    LogOp → Option InmemLogStore
  | .append entry => some (s.append entry).2
  | .writeAt index entry => some (s.writeAt index entry)
  | .compact lastLogIndex => match s.compact lastLogIndex with
    | (.ok (), s) => some s
    | (.error _, _) => none
  | .applyPack index bufs => match s.applyPack deserialize index (packBytes bufs) with
    | (.ok (), s) => some s
    | (.error _, _) => none

end InmemLogStore

namespace LogOp

/-- A pack of at least one entry, each in a form that NuRaft reads. -/
structure WellFormed (deserialize : List UInt8 → Option LogEntry) (bufs : List (List UInt8)) :
    Prop where
  nonempty : bufs ≠ []
  count : bufs.length < 2 ^ 31
  sizes : ∀ bb ∈ bufs, bb.length < 2 ^ 31
  entries : ∀ bb ∈ bufs, (deserialize bb).isSome

/-- What an operation may be asked for. -/
def Allowed (deserialize : List UInt8 → Option LogEntry) (s : InmemLogStore) : LogOp → Prop
  | .append _ => True
  | .writeAt index _ => s.startIndex ≤ index ∧ index ≤ s.nextSlot
  | .compact lastLogIndex => lastLogIndex < 2 ^ 64 - 1
  | .applyPack index bufs => WellFormed deserialize bufs ∧
    (s.startIndex ≤ index ∧ index ≤ s.nextSlot ∨
      1 ≤ index ∧ index < 2 ^ 64 ∧ ∀ idx ∈ s.logs, idx = 0)

/-- The operation leaves the last index an `ulong` has free. -/
def Fits (s : InmemLogStore) : LogOp → Prop
  | .append _ => s.nextSlot < 2 ^ 64 - 1
  | .writeAt index _ => index < 2 ^ 64 - 1
  | .compact _ => True
  | .applyPack index bufs => index + bufs.length < 2 ^ 64

/-- What the operation is for. -/
def apply (deserialize : List UInt8 → Option LogEntry) (log : OffsetLog LogEntry) :
    LogOp → OffsetLog LogEntry
  | .append entry => log.append entry
  | .writeAt index entry => log.writeAt index entry
  | .compact lastLogIndex => log.compact lastLogIndex
  | .applyPack index bufs => log.install index (bufs.filterMap deserialize)

end LogOp

/-- The store holds the log, and the dummy. -/
structure Refines (s : InmemLogStore) (dummy : LogEntry) (log : OffsetLog LogEntry) : Prop where
  lookup : ∀ i, s.logs[i]? = if i = 0 then some dummy else log.get? i
  start : s.startIdx = log.offset
  pos : 0 < log.offset
  fits : log.next < 2 ^ 64

section Loops

variable {deserialize : List UInt8 → Option LogEntry} {logs : Std.ExtTreeMap ℕ LogEntry}

theorem getElem?_eraseRange :
    ∀ (n ii : ℕ) (logs : Std.ExtTreeMap ℕ LogEntry) (k : ℕ),
      (eraseRange n ii logs)[k]? = if ii ≤ k ∧ k < ii + n then none else logs[k]?
  | 0, ii, logs, k => by
    rw [if_neg (by omega)]
    rfl
  | n + 1, ii, logs, k => by
    rw [eraseRange, getElem?_eraseRange n, getElem?_erase_eq]
    split_ifs <;> first | rfl | omega

theorem getI32_size {n : ℕ} (h : n < 2 ^ 31) (rest : List UInt8) :
    ∃ size, getI32 (i32Bytes (.ofNat n) ++ rest) = some (size, rest) ∧ ¬ size < 0 ∧
      size.toInt.toNat = n := by
  refine ⟨_, getI32_i32Bytes _ rest, ?_, ?_⟩
  · rw [Int32.lt_iff_toInt_lt, Int32.toInt_ofNat_of_lt h]
    exact not_lt.mpr (Int.natCast_nonneg n)
  · rw [Int32.toInt_ofNat_of_lt h, Int.toNat_natCast]

/-- Entries that can be read go to the indices from the first one on, whatever comes after them. -/
theorem installRange_spec (index : ℕ) :
    ∀ (bufs : List (List UInt8)) (ii : ℕ) (logs : Std.ExtTreeMap ℕ LogEntry),
      (∀ bb ∈ bufs, bb.length < 2 ^ 31) → (∀ bb ∈ bufs, (deserialize bb).isSome) →
      index + ii + bufs.length ≤ 2 ^ 64 →
      ∃ logs', (∀ rest, installRange deserialize index bufs.length ii
          ((bufs.flatMap fun bb => i32Bytes (.ofNat bb.length) ++ bb) ++ rest) logs =
            (.ok (), logs')) ∧
        ∀ k, logs'[k]? = if index + ii ≤ k ∧ k < index + ii + bufs.length
          then (bufs.filterMap deserialize)[k - (index + ii)]? else logs[k]?
  | [], ii, logs, _, _, _ => by
    refine ⟨logs, fun rest => rfl, fun k => ?_⟩
    rw [if_neg (by simp only [List.length_nil]; omega)]
  | bb :: bufs, ii, logs, hsizes, hentries, hfit => by
    obtain ⟨le, hle⟩ := Option.isSome_iff_exists.mp (hentries bb (by simp))
    rw [List.length_cons] at hfit ⊢
    obtain ⟨logs', hrec, hlook⟩ := installRange_spec index bufs (ii + 1)
      (logs.insert (ulong (index + ii)) le) (fun b hb => hsizes b (List.mem_cons_of_mem _ hb))
      (fun b hb => hentries b (List.mem_cons_of_mem _ hb)) (by omega)
    refine ⟨logs', fun rest => ?_, fun k => ?_⟩
    · obtain ⟨size, hget, hneg, hsize⟩ := getI32_size (hsizes bb (by simp))
        (bb ++ ((bufs.flatMap fun bb => i32Bytes (.ofNat bb.length) ++ bb) ++ rest))
      rw [installRange, List.flatMap_cons, List.append_assoc, List.append_assoc, hget]
      simp only [if_neg hneg, hsize, take_append, hle]
      exact hrec rest
    · have hu : ulong ((index : ℤ) + (ii : ℤ)) = index + ii := by
        unfold ulong
        omega
      rw [hlook, List.filterMap_cons_some hle, getElem?_insert_eq, hu]
      split_ifs with h₁ h₂ h₃ h₄ h₅
      · have hk : k - (index + ii) = (k - (index + (ii + 1))) + 1 := by omega
        rw [hk, List.getElem?_cons_succ]
      · omega
      · rw [h₃, Nat.sub_self, List.getElem?_cons_zero]
      · omega
      · omega
      · rfl

/-- The first key above zero, of those in order. -/
theorem find?_pos {a : ℕ} (ha : 0 < a) :
    ∀ {ks : List ℕ}, ks.Pairwise (· < ·) → a ∈ ks → (∀ k ∈ ks, k = 0 ∨ a ≤ k) →
      ks.find? (0 < ·) = some a
  | [], _, hmem, _ => absurd hmem (by simp)
  | k :: ks, hsorted, hmem, hmin => by
    rw [List.pairwise_cons] at hsorted
    rcases hmin k (by simp) with rfl | hle
    · rw [List.find?_cons_of_neg (by simp)]
      refine find?_pos ha hsorted.2 ?_ fun k hk => hmin k (List.mem_cons_of_mem _ hk)
      exact (List.mem_cons.mp hmem).resolve_left (by omega)
    · rw [List.find?_cons_of_pos (by simp; omega)]
      rcases List.mem_cons.mp hmem with rfl | hin
      · rfl
      · have := hsorted.1 a hin
        omega

/-- The first key above zero of keys that are zero and an interval. -/
theorem firstKey_eq {i j : ℕ} (hi : 0 < i) (hij : i < j)
    (hmem : ∀ k, k ∈ logs ↔ k = 0 ∨ i ≤ k ∧ k < j) : (logs.keys.find? (0 < ·)).getD 1 = i := by
  have hkeys : ∀ k, k ∈ logs.keys ↔ k = 0 ∨ i ≤ k ∧ k < j := fun k => by
    rw [Std.ExtTreeMap.mem_keys, hmem]
  have hsorted : logs.keys.Pairwise (· < ·) :=
    logs.ordered_keys.imp fun hlt => Nat.compare_eq_lt.mp hlt
  rw [find?_pos hi hsorted ((hkeys i).mpr (.inr ⟨le_rfl, hij⟩))
    fun k hk => ((hkeys k).mp hk).imp id And.left]
  rfl

/-- A pack that can be read is put in place, whatever comes after it. -/
theorem applyPack_spec {bufs : List (List UInt8)} {index : ℕ} (hcount : bufs.length < 2 ^ 31)
    (hsizes : ∀ bb ∈ bufs, bb.length < 2 ^ 31) (hentries : ∀ bb ∈ bufs, (deserialize bb).isSome)
    (hfit : index + bufs.length < 2 ^ 64) (s : InmemLogStore) :
    ∃ logs, (∀ rest, s.applyPack deserialize index (InmemLogStore.packBytes bufs ++ rest) =
        (.ok (), ⟨logs, (logs.keys.find? (0 < ·)).getD 1⟩)) ∧
      ∀ k, logs[k]? = if index ≤ k ∧ k < index + bufs.length
        then (bufs.filterMap deserialize)[k - index]? else s.logs[k]? := by
  obtain ⟨logs, hloop, hlook⟩ := installRange_spec index bufs 0 s.logs hsizes hentries (by omega)
  refine ⟨logs, fun rest => ?_, hlook⟩
  obtain ⟨size, hget, -, hsize⟩ := getI32_size hcount
    ((bufs.flatMap fun bb => i32Bytes (.ofNat bb.length) ++ bb) ++ rest)
  rw [InmemLogStore.applyPack, InmemLogStore.packBytes, List.append_assoc, hget]
  simp only [hsize, hloop]

end Loops

namespace Refines

variable {deserialize : List UInt8 → Option LogEntry} {s : InmemLogStore} {dummy : LogEntry}
  {log : OffsetLog LogEntry}

theorem mem_iff (h : Refines s dummy log) {i : ℕ} :
    i ∈ s.logs ↔ i = 0 ∨ log.offset ≤ i ∧ i < log.next := by
  rw [Std.ExtTreeMap.mem_iff_isSome_getElem?, h.lookup]
  split_ifs with hi
  · simp [hi]
  · rw [OffsetLog.isSome_get?]
    omega

theorem size (h : Refines s dummy log) : s.logs.size = 1 + log.entries.length := by
  have hlen := length_of_interval (Std.ExtTreeMap.nodup_keys (t := s.logs)) h.pos fun k => by
    rw [Std.ExtTreeMap.mem_keys, h.mem_iff]
  rw [Std.ExtTreeMap.length_keys] at hlen
  rw [hlen, OffsetLog.next]
  omega

theorem nextSlot (h : Refines s dummy log) : s.nextSlot = log.next := by
  have hfits := h.fits
  unfold InmemLogStore.nextSlot ulong
  rw [h.size, h.start]
  rw [OffsetLog.next] at hfits ⊢
  omega

theorem find (h : Refines s dummy log) (i : ℕ) : s.find i = some ((log.get? i).getD dummy) := by
  have hzero : log.get? 0 = none := by
    refine OffsetLog.get?_eq_none ?_
    have := h.pos
    omega
  unfold InmemLogStore.find
  rw [h.lookup, h.lookup, if_pos rfl]
  split_ifs with hi
  · rw [hi, hzero]
    rfl
  · cases log.get? i <;> rfl

theorem lastEntry (h : Refines s dummy log) : s.lastEntry = some (log.last?.getD dummy) := by
  have hpos := h.pos
  have hfits := h.fits
  have hlast : ulong ((s.nextSlot : ℤ) - 1) = log.next - 1 := by
    rw [h.nextSlot]
    unfold ulong
    rw [OffsetLog.next] at hfits ⊢
    omega
  rw [InmemLogStore.lastEntry, hlast, h.find, OffsetLog.get?_next_pred]
  rfl

/-- With no entry there is only the dummy. -/
theorem entries_eq_nil (h : Refines s dummy log) :
    log.entries = [] ↔ ∀ idx ∈ s.logs, idx = 0 := by
  have hpos := h.pos
  rw [← List.length_eq_zero_iff]
  constructor
  · intro hnil idx hidx
    rcases h.mem_iff.mp hidx with rfl | hin
    · rfl
    · rw [OffsetLog.next] at hin
      omega
  · intro hall
    by_contra hne
    have hmem : log.offset ∈ s.logs := h.mem_iff.mpr (.inr ⟨le_rfl, by
      rw [OffsetLog.next]
      omega⟩)
    have := hall _ hmem
    omega

theorem new (buf : List UInt8) : Refines (.new buf) (InmemLogStore.dummy buf) ⟨1, []⟩ where
  lookup i := by
    rw [InmemLogStore.new, getElem?_insert_eq, OffsetLog.get?_mk]
    simp
  start := rfl
  pos := Nat.one_pos
  fits := by decide

theorem append (h : Refines s dummy log) {entry : LogEntry} (hfit : s.nextSlot < 2 ^ 64 - 1) :
    Refines (s.append entry).2 dummy (log.append entry) where
  lookup i := by
    have hidx : ulong ((s.startIdx : ℤ) + (s.logs.size : ℤ) - 1) = log.next := h.nextSlot
    have hpos := h.pos
    rw [InmemLogStore.append, getElem?_insert_eq, h.lookup, OffsetLog.get?_append, hidx]
    split_ifs with h₁ h₂
    · rw [OffsetLog.next] at h₁
      omega
    all_goals rfl
  start := h.start
  pos := h.pos
  fits := by
    rw [h.nextSlot] at hfit
    rw [OffsetLog.next_append]
    omega

theorem writeAt (h : Refines s dummy log) {index : ℕ} {entry : LogEntry}
    (hin : s.startIndex ≤ index ∧ index ≤ s.nextSlot) (hfit : index < 2 ^ 64 - 1) :
    Refines (s.writeAt index entry) dummy (log.writeAt index entry) where
  lookup i := by
    have hpos := h.pos
    rw [InmemLogStore.startIndex, h.start, h.nextSlot] at hin
    rw [InmemLogStore.writeAt, getElem?_insert_eq, Std.ExtTreeMap.getElem?_filter', h.lookup,
      OffsetLog.get?_writeAt hin.1 hin.2]
    split_ifs with h₁ h₂ h₃ h₄
    · omega
    · rfl
    · rw [Option.filter_some, if_pos (by simp; omega)]
    · cases log.get? i <;> simp [h₄]
    · simp [h₄]
  start := h.start
  pos := h.pos
  fits := by
    rw [InmemLogStore.startIndex, h.start, h.nextSlot] at hin
    rw [OffsetLog.next_writeAt hin.1 hin.2]
    omega

theorem compact (h : Refines s dummy log) {k : ℕ} (hk : k < 2 ^ 64 - 1) :
    ∃ s', s.compact k = (.ok (), s') ∧ Refines s' dummy (log.compact k) := by
  have hpos := h.pos
  have hfits := h.fits
  have hend : k ≠ ulong (-1) := by
    unfold ulong
    omega
  refine ⟨_, by rw [InmemLogStore.compact, if_neg hend], ?_, ?_, ?_, ?_⟩
  · intro i
    rw [getElem?_eraseRange, h.lookup, OffsetLog.get?_compact, h.start]
    have hnone : i < log.offset → log.get? i = none := fun hi =>
      OffsetLog.get?_eq_none (by omega)
    split_ifs <;> first | rfl | omega | (rw [hnone]; omega)
  · rw [OffsetLog.compact, h.start]
    dsimp only
    split_ifs <;> omega
  · rw [OffsetLog.compact]
    dsimp only
    omega
  · rw [OffsetLog.next_compact]
    omega

theorem applyPack (h : Refines s dummy log) {index : ℕ} {bufs : List (List UInt8)}
    (hbufs : LogOp.WellFormed deserialize bufs)
    (hin : log.offset ≤ index ∧ index ≤ log.next ∨ 1 ≤ index ∧ log.entries = [])
    (hfit : index + bufs.length < 2 ^ 64) :
    ∃ s', s.applyPack deserialize index (InmemLogStore.packBytes bufs) = (.ok (), s') ∧
      Refines s' dummy (log.install index (bufs.filterMap deserialize)) := by
  have hpos := h.pos
  have hfits := h.fits
  have hlen : (bufs.filterMap deserialize).length = bufs.length :=
    List.filterMap_length_eq_length.mpr hbufs.entries
  have hne : 0 < bufs.length := List.length_pos_iff.mpr hbufs.nonempty
  have hin' : log.offset ≤ index ∧ index ≤ log.next ∨ log.entries = [] := hin.imp id And.right
  obtain ⟨logs, happly, hlook⟩ := applyPack_spec hbufs.count hbufs.sizes hbufs.entries hfit s
  have hlookup : ∀ i, logs[i]? = if i = 0 then some dummy
      else (log.install index (bufs.filterMap deserialize)).get? i := by
    intro i
    rw [hlook, OffsetLog.get?_install hin', hlen, h.lookup]
    split_ifs <;> first | rfl | omega
  have hoffset := @OffsetLog.offset_install _ log index (bufs.filterMap deserialize)
  have hnext := @OffsetLog.next_install _ log index (bufs.filterMap deserialize) hin'
  rw [hlen] at hnext
  have hbounds : 0 < (log.install index (bufs.filterMap deserialize)).offset ∧
      (log.install index (bufs.filterMap deserialize)).offset <
        (log.install index (bufs.filterMap deserialize)).next ∧
      (log.install index (bufs.filterMap deserialize)).next < 2 ^ 64 := by
    rw [hoffset, hnext]
    split_ifs with hnil
    · omega
    · have := hin.resolve_right fun hc => hnil hc.2
      omega
  have happly := happly []
  rw [List.append_nil] at happly
  refine ⟨_, happly, hlookup, ?_, hbounds.1, hbounds.2.2⟩
  refine firstKey_eq hbounds.1 hbounds.2.1 fun k => ?_
  rw [Std.ExtTreeMap.mem_iff_isSome_getElem?, hlookup]
  split_ifs with hk
  · simp [hk]
  · rw [OffsetLog.isSome_get?]
    omega

/-- An operation does to the store what it is for. -/
theorem refines_next (h : Refines s dummy log) {op : LogOp} (hop : op.Allowed deserialize s)
    (hfit : op.Fits s) :
    ∃ s', s.next deserialize op = some s' ∧ Refines s' dummy (op.apply deserialize log) := by
  cases op with
  | append entry => exact ⟨_, rfl, h.append hfit⟩
  | writeAt index entry => exact ⟨_, rfl, h.writeAt hop hfit⟩
  | compact k =>
    obtain ⟨s', hs', h'⟩ := h.compact hop
    exact ⟨s', by rw [InmemLogStore.next, hs'], h'⟩
  | applyPack index bufs =>
    obtain ⟨hbufs, hin⟩ := hop
    rw [InmemLogStore.startIndex, h.start, h.nextSlot] at hin
    obtain ⟨s', hs', h'⟩ := h.applyPack hbufs
      (hin.imp id fun ⟨hpos, _, hall⟩ => ⟨hpos, h.entries_eq_nil.mpr hall⟩) hfit
    exact ⟨s', by rw [InmemLogStore.next, hs'], h'⟩

/-- The log starts at a lower index only when a pack refills it. -/
theorem offset_apply {op : LogOp} :
    log.offset ≤ (op.apply deserialize log).offset ∨
      log.entries = [] ∧ ∃ index bufs, op = .applyPack index bufs := by
  cases op with
  | append entry => exact .inl le_rfl
  | writeAt index entry => exact .inl le_rfl
  | compact k => exact .inl (le_max_left _ _)
  | applyPack index bufs =>
    by_cases hnil : log.entries = []
    · exact .inr ⟨hnil, index, bufs, rfl⟩
    · refine .inl ?_
      rw [LogOp.apply, OffsetLog.offset_install, if_neg hnil]

end Refines

/-- The store answers as the log does, whatever it is asked, and does what it is asked next. -/
structure Answers (deserialize : List UInt8 → Option LogEntry) (buf : List UInt8)
    (s : InmemLogStore) (log : OffsetLog LogEntry) : Prop where
  keys : ∀ i, i ∈ s.logs ↔ i = 0 ∨ s.startIndex ≤ i ∧ i < s.nextSlot
  startIndex : s.startIndex = log.offset
  nextSlot : s.nextSlot = log.next
  lastEntry : s.lastEntry = some (log.last?.getD (InmemLogStore.dummy buf))
  entryAt : ∀ i, s.entryAt i = some ((log.get? i).getD (InmemLogStore.dummy buf))
  termAt : ∀ i, s.termAt i = some (((log.get? i).map LogEntry.term).getD 0)
  outside : ∀ i, ¬ (s.startIndex ≤ i ∧ i < s.nextSlot) →
    s.entryAt i = some (InmemLogStore.dummy buf) ∧ s.termAt i = some 0
  append : ∀ entry, (s.append entry).1 = log.next
  goesOn : ∀ op, LogOp.Allowed deserialize s op → op.Fits s →
    ∃ s', s.next deserialize op = some s' ∧ (s.startIndex ≤ s'.startIndex ∨
      (∀ idx ∈ s.logs, idx = 0) ∧ ∃ index bufs, op = .applyPack index bufs)

section Runs

variable {deserialize : List UInt8 → Option LogEntry} {buf : List UInt8} {s : InmemLogStore}
  {log : OffsetLog LogEntry}

theorem Refines.answers (h : Refines s (InmemLogStore.dummy buf) log) :
    Answers deserialize buf s log where
  keys i := by rw [h.mem_iff, InmemLogStore.startIndex, h.start, h.nextSlot]
  startIndex := h.start
  nextSlot := h.nextSlot
  lastEntry := h.lastEntry
  entryAt i := by
    rw [InmemLogStore.entryAt, h.find]
    rfl
  termAt i := by
    rw [InmemLogStore.termAt, h.find]
    cases log.get? i <;> rfl
  outside i hi := by
    rw [InmemLogStore.startIndex, h.start, h.nextSlot] at hi
    rw [InmemLogStore.entryAt, InmemLogStore.termAt, h.find, OffsetLog.get?_eq_none hi]
    exact ⟨rfl, rfl⟩
  append entry := h.nextSlot
  goesOn op hop hfit := by
    obtain ⟨s', hs', h'⟩ := h.refines_next hop hfit
    refine ⟨s', hs', ?_⟩
    rw [InmemLogStore.startIndex, InmemLogStore.startIndex, h.start, h'.start,
      ← h.entries_eq_nil]
    exact Refines.offset_apply

theorem refines_run : ∀ {ops : List LogOp} {s s' : InmemLogStore} {log : OffsetLog LogEntry},
    Refines s (InmemLogStore.dummy buf) log →
    Run.Along (InmemLogStore.next deserialize) (fun s op _ => op.Allowed deserialize s ∧ op.Fits s)
      s ops →
    Run.run (InmemLogStore.next deserialize) s ops = some s' →
    Refines s' (InmemLogStore.dummy buf) (ops.foldl (LogOp.apply deserialize) log)
  | [], s, s', log, h, _, hrun => by
    obtain rfl : s = s' := by simpa [Run.run] using hrun
    exact h
  | op :: ops, s, s', log, h, hops, hrun => by
    obtain ⟨t, ht, hrun⟩ := Run.run_cons_eq_some.mp hrun
    obtain ⟨⟨hop, hfit⟩, hops⟩ := hops t ht
    obtain ⟨t', ht', h'⟩ := h.refines_next hop hfit
    obtain rfl := Option.some.inj (ht.symm.trans ht')
    rw [List.foldl_cons]
    exact refines_run h' hops hrun

/-- From the constructor on the store answers as the log made by the same operations. -/
theorem logStore_answers {ops : List LogOp}
    (hops : Run.Along (InmemLogStore.next deserialize)
      (fun s op _ => op.Allowed deserialize s ∧ op.Fits s) (.new buf) ops)
    (hrun : Run.run (InmemLogStore.next deserialize) (.new buf) ops = some s) :
    Answers deserialize buf s (ops.foldl (LogOp.apply deserialize) ⟨1, []⟩) :=
  (refines_run (Refines.new buf) hops hrun).answers

end Runs

/-- `log_entry::deserialize`: the term, the type and the rest. -/
def sampleDeserialize (bs : List UInt8) : Option LogEntry :=
  match take 8 bs with
  | some (term, valType :: buf) => some ⟨leValue term, buf, valType, 0⟩
  | _ => none

/-- An entry goes in and is compacted away, and a pack refills the store. -/
def sampleOps : List LogOp :=
  [.append ⟨1, [5], appLog, 0⟩, .writeAt 1 ⟨2, [6], appLog, 0⟩, .compact 7,
    .applyPack 3 [[2, 0, 0, 0, 0, 0, 0, 0, 1], [3, 0, 0, 0, 0, 0, 0, 0, 1, 9]]]

theorem logStore_answers_refilled : ∃ s,
    Run.run (InmemLogStore.next sampleDeserialize) (.new [0]) sampleOps = some s ∧
      Answers sampleDeserialize [0] s ⟨3, [⟨2, [], appLog, 0⟩, ⟨3, [9], appLog, 0⟩]⟩ := by
  obtain ⟨s, hs⟩ := Option.isSome_iff_exists.mp
    (by decide : (Run.run (InmemLogStore.next sampleDeserialize) (.new [0]) sampleOps).isSome)
  refine ⟨s, hs, logStore_answers ?_ hs⟩
  intro s₁ h₁
  obtain rfl := Option.some.inj h₁
  refine ⟨⟨trivial, by unfold LogOp.Fits; decide⟩, fun s₂ h₂ => ?_⟩
  obtain rfl := Option.some.inj h₂
  refine ⟨⟨by unfold LogOp.Allowed; decide, by unfold LogOp.Fits; decide⟩, fun s₃ h₃ => ?_⟩
  obtain rfl := Option.some.inj h₃
  refine ⟨⟨by unfold LogOp.Allowed; decide, trivial⟩, fun s₄ h₄ => ⟨⟨⟨?_, .inr ?_⟩, ?_⟩, trivial⟩⟩
  · exact ⟨by decide, by decide, by decide, by decide⟩
  · refine ⟨by decide, by decide, fun idx hidx => ?_⟩
    rw [← Std.ExtTreeMap.mem_keys] at hidx
    exact (by decide +kernel : ∀ idx ∈ InmemLogStore.logs _ |>.keys, idx = 0) idx hidx
  · unfold LogOp.Fits
    decide

/-- A pack of one entry at the last index: it is not in the interval, and the next index is zero. -/
theorem not_answers_last_index : ∃ (deserialize : List UInt8 → Option LogEntry) (buf : List UInt8)
    (ops : List LogOp) (s : InmemLogStore),
    Run.Along (InmemLogStore.next deserialize) (fun s op _ => op.Allowed deserialize s)
      (.new buf) ops ∧
    Run.run (InmemLogStore.next deserialize) (.new buf) ops = some s ∧ 2 ^ 64 - 1 ∈ s.logs ∧
      s.nextSlot = 0 ∧ ¬ ∀ i, i ∈ s.logs ↔ i = 0 ∨ s.startIndex ≤ i ∧ i < s.nextSlot := by
  obtain ⟨s, hs, hlast⟩ := (Option.any_eq_true _ _).mp (by decide :
    (Run.run (InmemLogStore.next sampleDeserialize) (.new [0])
      [.applyPack (2 ^ 64 - 1) [[2, 0, 0, 0, 0, 0, 0, 0, 1]]]).any
        fun s => 2 ^ 64 - 1 ∈ s.logs ∧ s.nextSlot = 0)
  obtain ⟨hmem, hzero⟩ := of_decide_eq_true hlast
  have hempty : ∀ idx ∈ (InmemLogStore.new [0]).logs, idx = 0 := by
    intro idx hidx
    rw [InmemLogStore.new, Std.ExtTreeMap.mem_insert] at hidx
    rcases hidx with h | h
    · exact (Std.LawfulEqCmp.eq_of_compare h).symm
    · exact absurd h Std.ExtTreeMap.not_mem_empty
  refine ⟨sampleDeserialize, [0], _, s, ?_, hs, hmem, hzero, fun hall => ?_⟩
  · intro s' _
    refine ⟨⟨⟨by decide, by decide, by decide, by decide⟩, .inr ⟨by decide, by decide, hempty⟩⟩,
      trivial⟩
  · rw [hall, hzero] at hmem
    omega

end LockService
