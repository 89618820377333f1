import LockService.Lib.Batch
import LockService.LogPacks

/-!
# Entries read in batches

What `log_entries_ext` gives is the front of what `log_entries` does: the first entries up to the
one that takes their size to the hint, and all of them for a hint of zero. There is at least one of
them in a range that is not empty, so calls that go on where the last one stopped come to the end
(`logEntriesExt_logEntries`).
-/

namespace LockService

namespace InmemLogStore

/-- Calls one after the other, each from where the entries so far end. -/
def fetch (s : InmemLogStore) (stop : ℕ) : List ℤ → ℕ → Except Fault (List LogEntry)
  | [], _ => .ok []
  | hint :: hints, start => match s.logEntriesExt start stop hint with
    | .error f => .error f
    | .ok batch => (s.fetch stop hints (start + batch.length)).map (batch ++ ·)

end InmemLogStore

/-- The bytes of the entries' buffers. -/
def bufSize (es : List LogEntry) : ℕ := (es.map fun e => e.buf.length).sum

/-- What a hint asks for of the entries of a range. -/
structure Batch (hint : ℤ) (all batch : List LogEntry) : Prop where
  front : batch <+: all
  nonempty : all ≠ [] → batch ≠ []
  whole : hint = 0 → batch = all
  within : 0 < hint → (bufSize batch.dropLast : ℤ) < hint
  full : 0 < hint → batch = all ∨ hint ≤ (bufSize batch : ℤ)

/-- The entries a hint gives of those of a range. -/
def takeBatch (hint : ℤ) (all : List LogEntry) : List LogEntry :=
  if hint = 0 then all else fill (fun e => e.buf.length) hint.toNat 0 all

theorem isPrefix_takeBatch (hint : ℤ) (all : List LogEntry) : takeBatch hint all <+: all := by
  unfold takeBatch
  split_ifs
  · exact List.prefix_rfl
  · exact isPrefix_fill 0 all

theorem takeBatch_ne_nil (hint : ℤ) (all : List LogEntry) (h : all ≠ []) :
    takeBatch hint all ≠ [] := by
  unfold takeBatch
  split_ifs
  · exact h
  · exact fill_ne_nil h

theorem batch_takeBatch (hint : ℤ) (all : List LogEntry) :
    Batch hint all (takeBatch hint all) := by
  refine ⟨isPrefix_takeBatch hint all, takeBatch_ne_nil hint all, fun hzero => if_pos hzero,
    fun hpos => ?_, fun hpos => ?_⟩ <;> rw [takeBatch, if_neg hpos.ne'] <;> unfold bufSize
  · have hlt := @sum_dropLast_fill_lt _ (fun e : LogEntry => e.buf.length) hint.toNat 0 all
      (by omega)
    omega
  · exact (fill_eq_or_le 0 all).imp id fun hle => by omega

section Loops

variable {logs : Std.ExtTreeMap ℕ LogEntry}

theorem readRange_eq :
    ∀ {es : List LogEntry} {ii : ℕ}, EntriesFrom logs ii es →
      readRange logs es.length ii = .ok es
  | [], _, _ => rfl
  | e :: es, ii, h => by
    rw [List.length_cons, readRange, h.head]
    dsimp only
    rw [readRange_eq h.tail]
    rfl

/-- Without a hint nothing ends the loop. -/
theorem readBatch_zero :
    ∀ (n ii acc : ℕ), readBatch logs 0 n ii acc = readRange logs n ii
  | 0, _, _ => rfl
  | n + 1, ii, acc => by
    rw [readBatch, readRange]
    cases logs[ii]? with
    | none => rfl
    | some src =>
      dsimp only
      rw [if_neg fun h => h.1 rfl, readBatch_zero n]

theorem readBatch_eq {hint : ℕ} (hpos : 0 < hint) :
    ∀ {es : List LogEntry} {ii : ℕ} (acc : ℕ), EntriesFrom logs ii es →
      readBatch logs hint es.length ii acc = .ok (fill (fun e => e.buf.length) hint acc es)
  | [], _, _, _ => rfl
  | e :: es, ii, acc, h => by
    rw [List.length_cons, readBatch, h.head, fill]
    dsimp only
    split_ifs with hboth hfull hfull
    · rfl
    · exact absurd hboth.2 hfull
    · exact absurd ⟨hpos.ne', hfull⟩ hboth
    · rw [readBatch_eq hpos _ h.tail]
      rfl

end Loops

variable {s : InmemLogStore} {start stop : ℕ}

theorem EntriesFrom.drop {logs : Std.ExtTreeMap ℕ LogEntry} {ii : ℕ} {es : List LogEntry}
    (h : EntriesFrom logs ii es) (n : ℕ) : EntriesFrom logs (ii + n) (es.drop n) := fun k hk => by
  rw [List.length_drop] at hk
  rw [Nat.add_assoc, h (n + k) (by omega), List.getElem?_drop]

theorem logEntriesExt_eq {all : List LogEntry} (hall : EntriesFrom s.logs start all)
    (hlen : all.length = stop - start) {hint : ℤ} (h : 0 ≤ hint) :
    s.logEntriesExt start stop hint = .ok (takeBatch hint all) := by
  rw [InmemLogStore.logEntriesExt, if_neg (not_lt.mpr h), ← hlen, takeBatch]
  split_ifs with hzero
  · rw [hzero, Int.toNat_zero, readBatch_zero, readRange_eq hall]
  · exact readBatch_eq (by omega) 0 hall

/-- The calls pick one batch after another off the front of the range. -/
theorem fetch_eq :
    ∀ (hints : List ℤ) {start : ℕ} {all : List LogEntry}, (∀ hint ∈ hints, 0 ≤ hint) →
      EntriesFrom s.logs start all → all.length = stop - start →
      s.fetch stop hints start = .ok (drain takeBatch hints all)
  | [], _, _, _, _, _ => rfl
  | hint :: hints, start, all, hnonneg, hall, hlen => by
    rw [InmemLogStore.fetch, logEntriesExt_eq hall hlen (hnonneg hint (by simp))]
    dsimp only
    rw [fetch_eq hints (fun h hh => hnonneg h (List.mem_cons_of_mem _ hh)) (hall.drop _)
      (by rw [List.length_drop]; omega), drain]
    rfl

/-- What is read in batches is what is read at once, cut where the hints say. -/
theorem logEntriesExt_logEntries (hs : s.Contiguous) (hstart : s.startIndex ≤ start)
    (hle : start ≤ stop) (hstop : stop ≤ s.nextSlot) :
    ∃ all, s.logEntries start stop = .ok all ∧ all.length = stop - start ∧
      (∀ hint, 0 ≤ hint → ∃ batch, s.logEntriesExt start stop hint = .ok batch ∧
        Batch hint all batch) ∧
      ∀ hints : List ℤ, (∀ hint ∈ hints, 0 ≤ hint) →
        ∃ got, s.fetch stop hints start = .ok got ∧ got <+: all ∧
          (stop - start ≤ hints.length → got = all) := by
  obtain ⟨all, hlen, hall⟩ := exists_entriesFrom (stop - start) start fun j hj hj' =>
    (hs j).mpr (.inr ⟨hstart.trans hj, by omega⟩)
  refine ⟨all, ?_, hlen, fun hint h => ⟨_, logEntriesExt_eq hall hlen h, batch_takeBatch hint all⟩,
    fun hints hnonneg => ⟨_, fetch_eq hints hnonneg hall hlen, ?_, fun hmany => ?_⟩⟩
  · rw [InmemLogStore.logEntries, if_neg (not_lt.mpr hle), ← hlen, readRange_eq hall]
  · exact isPrefix_drain isPrefix_takeBatch hints all
  · exact drain_eq isPrefix_takeBatch takeBatch_ne_nil hints all (hlen.trans_le hmany)

/-- A store with two entries, both of them in the range. -/
theorem logEntriesExt_logEntries_two_entries :
    ∃ all, sampleStore.logEntries 1 3 = .ok all ∧ all.length = 3 - 1 ∧
      (∀ hint, 0 ≤ hint → ∃ batch, sampleStore.logEntriesExt 1 3 hint = .ok batch ∧
        Batch hint all batch) ∧
      ∀ hints : List ℤ, (∀ hint ∈ hints, 0 ≤ hint) →
        ∃ got, sampleStore.fetch 3 hints 1 = .ok got ∧ got <+: all ∧
          (3 - 1 ≤ hints.length → got = all) :=
  logEntriesExt_logEntries refines_sampleStore.contiguous (by decide) (by decide) (by decide)

end LockService
