import LockService.Lib.Buffer
import LockService.Lib.OffsetLog
import LockService.Types
import Mathlib.Algebra.Group.Int.Defs
import Mathlib.Algebra.GroupWithZero.Nat

/-!
# The in-memory log store

The log of a server is a map from indices to entries, with a dummy at zero, and the index its
entries start at. No field has the number of entries or the next index: both are made of the map's
size, in sixty-four bits, and the dummy is what a lookup falls back on. A pack of entries comes as
bytes from another server, each entry in the form NuRaft serializes it to. Raft reads entries in
ranges (`logEntries`), which it may have cut where they get too large (`logEntriesExt`).
-/

namespace LockService

open Buffer

/-- `log_entry`; `log_val_type` is a byte. -/
structure LogEntry where
  term : ℕ
  buf : List UInt8
  valType : UInt8
  timestamp : ℕ
  deriving DecidableEq

/-- `app_log`, the type an entry has when none is named. -/
def appLog : UInt8 := 1

/-- The conversion of an integer to `ulong`. -/
def ulong (v : ℤ) : ℕ := (v % 2 ^ 64).toNat

/-- `inmem_log_store`. -/
structure InmemLogStore where
  logs : Std.ExtTreeMap ℕ LogEntry
  startIdx : ℕ

def makeClone (entry : LogEntry) : LogEntry :=
  ⟨entry.term, entry.buf, entry.valType, entry.timestamp⟩

/-- The loop of `compact`: so many indices from one on. -/
def eraseRange : ℕ → ℕ → Std.ExtTreeMap ℕ LogEntry → Std.ExtTreeMap ℕ LogEntry
  | 0, _, logs => logs
  | n + 1, ii, logs => eraseRange n (ii + 1) (logs.erase ii)

/-- The loop of `apply_pack`: the entries left are read and put in place one after the other. A
negative size becomes a huge one, which `buffer::alloc` refuses. -/
def installRange (deserialize : List UInt8 → Option LogEntry) (index : ℕ) :
    ℕ → ℕ → List UInt8 → Std.ExtTreeMap ℕ LogEntry →
      Except Fault Unit × Std.ExtTreeMap ℕ LogEntry
  | 0, _, _, logs => (.ok (), logs)
  | n + 1, ii, pack, logs => match getI32 pack with
    | none => (.error .bufferEnd, logs)
    | some (bufSize, pack) =>
      if bufSize < 0 then (.error .outOfRange, logs)
      else match take bufSize.toInt.toNat pack with
        | none => (.error .bufferEnd, logs)
        | some (bufLocal, pack) => match deserialize bufLocal with
          | none => (.error .bufferEnd, logs)
          | some le => installRange deserialize index n (ii + 1) pack
              (logs.insert (ulong (index + ii)) le)

/-- The loop of `log_entries`: so many entries from one on, each of them a clone. -/
def readRange (logs : Std.ExtTreeMap ℕ LogEntry) : ℕ → ℕ → Except Fault (List LogEntry)
  | 0, _ => .ok []
  | n + 1, ii => match logs[ii]? with
    | none => .error .assertion
    | some src => (readRange logs n (ii + 1)).map (makeClone src :: ·)

/-- The loop of `log_entries_ext`, with the size of the entries so far. That is below the hint when
the next one is added, so no `size_t` overflows. -/
def readBatch (logs : Std.ExtTreeMap ℕ LogEntry) (hint : ℕ) :
    ℕ → ℕ → ℕ → Except Fault (List LogEntry)
  | 0, _, _ => .ok []
  | n + 1, ii, accumSize => match logs[ii]? with
    | none => .error .assertion
    | some src =>
      let accumSize := accumSize + src.buf.length
      if hint ≠ 0 ∧ hint ≤ accumSize then .ok [makeClone src]
      else (readBatch logs hint n (ii + 1) accumSize).map (makeClone src :: ·)

/-- The first loop of `pack`. -/
def serializeRange (serialize : LogEntry → List UInt8) (logs : Std.ExtTreeMap ℕ LogEntry) :
    ℕ → ℕ → Except Fault (List (List UInt8))
  | 0, _ => .ok []
  | n + 1, ii => match logs[ii]? with
    | none => .error .assertion
    | some le => (serializeRange serialize logs n (ii + 1)).map (serialize le :: ·)

/-- The second loop of `pack`: each entry with its size before it. -/
def putEntries : List (List UInt8) → Writer → Option Writer
  | [], bufOut => some bufOut
  | bb :: logs, bufOut => do
    let bufOut ← bufOut.put (i32Bytes (.ofNat bb.length))
    let bufOut ← bufOut.put bb
    putEntries logs bufOut

namespace InmemLogStore

/-- The dummy entry; what its buffer has is left to the allocator. -/
def dummy (buf : List UInt8) : LogEntry := ⟨0, buf, appLog, 0⟩

/-- The constructor. -/
def new (buf : List UInt8) : InmemLogStore :=
  ⟨(∅ : Std.ExtTreeMap ℕ LogEntry).insert 0 (dummy buf), 1⟩

def nextSlot (s : InmemLogStore) : ℕ := ulong (s.startIdx + s.logs.size - 1)

def startIndex (s : InmemLogStore) : ℕ := s.startIdx

/-- `logs_.find`, or else the entry at zero; none where that is missing too. -/
def find (s : InmemLogStore) (index : ℕ) : Option LogEntry := s.logs[index]?.or s.logs[0]?

def lastEntry (s : InmemLogStore) : Option LogEntry :=
  (s.find (ulong (s.nextSlot - 1))).map makeClone

/-- `append`: the index the entry gets. -/
def append (s : InmemLogStore) (entry : LogEntry) : ℕ × InmemLogStore :=
  let idx := ulong (s.startIdx + s.logs.size - 1)
  (idx, { s with logs := s.logs.insert idx (makeClone entry) })

def writeAt (s : InmemLogStore) (index : ℕ) (entry : LogEntry) : InmemLogStore :=
  { s with logs := (s.logs.filter fun idx _ => idx < index).insert index (makeClone entry) }

def entryAt (s : InmemLogStore) (index : ℕ) : Option LogEntry := (s.find index).map makeClone

def termAt (s : InmemLogStore) (index : ℕ) : Option ℕ := (s.find index).map LogEntry.term

/-- `log_entries`; a negative length becomes a huge one, which `resize` refuses. -/
def logEntries (s : InmemLogStore) (start stop : ℕ) : Except Fault (List LogEntry) :=
  if stop < start then .error .outOfRange else readRange s.logs (stop - start) start

def logEntriesExt (s : InmemLogStore) (start stop : ℕ) (batchSizeHintInBytes : ℤ) :
    Except Fault (List LogEntry) :=
  if batchSizeHintInBytes < 0 then .ok []
  else readBatch s.logs batchSizeHintInBytes.toNat (stop - start) start 0

/-- `pack`; the count is an `int32`, the index and the size of the buffer have 64 bits, and
`buffer::alloc` refuses a size of 2^31 or more. -/
def pack (serialize : LogEntry → List UInt8) (s : InmemLogStore) (index : ℕ) (cnt : Int32) :
    Except Fault (List UInt8) :=
  match serializeRange serialize s.logs (ulong (index + cnt.toInt) - index) index with
  | .error f => .error f
  | .ok logs =>
    let size := ulong (4 + cnt.toInt * 4 + (logs.map List.length).sum)
    if 2 ^ 31 ≤ size then .error .outOfRange
    else match ((Writer.alloc size).put (i32Bytes cnt)).bind (putEntries logs) with
      | none => .error .bufferEnd
      | some bufOut => .ok bufOut.buffer

/-- What `pack` makes of entries that are serialized: how many there are, and each with its size. -/
def packBytes (bufs : List (List UInt8)) : List UInt8 :=
  i32Bytes (.ofNat bufs.length) ++ bufs.flatMap fun bb => i32Bytes (.ofNat bb.length) ++ bb

/-- `apply_pack`; a pack that throws leaves the entries it got to. -/
def applyPack (deserialize : List UInt8 → Option LogEntry) (s : InmemLogStore) (index : ℕ)
    (pack : List UInt8) : Except Fault Unit × InmemLogStore :=
  match getI32 pack with
  | none => (.error .bufferEnd, s)
  | some (numLogs, pack) =>
    match installRange deserialize index numLogs.toInt.toNat 0 pack s.logs with
    | (.error f, logs) => (.error f, { s with logs })
    | (.ok (), logs) => (.ok (), ⟨logs, (logs.keys.find? (0 < ·)).getD 1⟩)

/-- `compact`; no index is greater than the last one there is, so its loop does not end there. -/
def compact (s : InmemLogStore) (lastLogIndex : ℕ) : Except Fault Unit × InmemLogStore :=
  if lastLogIndex = ulong (-1) then (.error .diverges, s)
  else (.ok (), ⟨eraseRange (lastLogIndex + 1 - s.startIdx) s.startIdx s.logs,
    if s.startIdx ≤ lastLogIndex then lastLogIndex + 1 else s.startIdx⟩)

/-- The indices of a store are zero and one interval. -/
def Contiguous (s : InmemLogStore) : Prop :=
  ∀ i, i ∈ s.logs ↔ i = 0 ∨ s.startIndex ≤ i ∧ i < s.nextSlot

end InmemLogStore

end LockService
