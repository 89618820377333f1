import LockService.Types
import Mathlib.Algebra.GroupWithZero.Nat
import Mathlib.Data.List.Rotate

/-!
# The ring of the logger

A message is put in the next element of a ring; the element that is still full has the ring flushed
first, from there around. As long as one call is over before the next begins, the full elements are
the ones before the cursor, oldest first, so the files have the messages in order and the ring has
the rest (`ordered_put`, `ordered_flushAll`).
-/

namespace LockService

/-- `SimpleLogger::MSG_SIZE`. -/
def msgSize : ℕ := 4096

/-- `LogElem::Status`. -/
inductive ElemStatus where
  | clean
  | writing
  | dirty
  | flushing
  deriving DecidableEq

/-- `LogElem`; `len` is the length of `ctx`. -/
structure LogElem where
  ctx : Str
  status : ElemStatus
  deriving DecidableEq

namespace LogElem

/-- An element that waits to be flushed. -/
def full (ctx : Str) : LogElem := ⟨ctx, .dirty⟩

def needToFlush (e : LogElem) : Bool := e.status = .dirty

def available (e : LogElem) : Bool := e.status = .clean || e.status = .dirty

/-- `write`: the element stays as it is unless it is clean. -/
def write (e : LogElem) (msg : Str) : LogElem :=
  if e.status = .clean then full (msg.take msgSize) else e

end LogElem

/-- `SimpleLogger`, from `put`'s cursor to the files. -/
structure Logger where
  logs : List LogElem
  cursor : ℕ
  /-- Whether a thread has the mutex. -/
  flushingLogs : Bool
  /-- What has been written to the open file, call by call. -/
  fs : List Str
  /-- The files before it, in order, whether or not they have been removed. -/
  closed : List (List Str)
  curRevnum : ℕ
  maxLogFileSize : ℕ
  /-- The numbers of the files that wait to be compressed. -/
  pendingCompElems : List ℕ

/-- The elements in the order a flush gets to them. -/
def flushOrder (start num : ℕ) : List ℕ := List.range' start (num - start) ++ List.range start

namespace Logger

variable (L : Logger)

def setElem (pos : ℕ) (e : LogElem) : Logger := { L with logs := L.logs.set pos e }

/-- `LogElem::flush`. -/
def flushElem (pos : ℕ) : Logger :=
  match L.logs[pos]? with
  | none => L
  | some e =>
    if e.needToFlush then { L.setElem pos { e with status := .clean } with fs := L.fs ++ [e.ctx] }
    else L

/-- The end of a flush: a file that has grown too large is closed, and waits to be compressed. -/
def endFlush : Logger :=
  if L.maxLogFileSize ≠ 0 ∧ L.maxLogFileSize < (L.fs.map List.length).sum then
    { L with
      curRevnum := L.curRevnum + 1
      closed := L.closed ++ [L.fs]
      fs := []
      pendingCompElems := L.pendingCompElems ++ [L.curRevnum]
      flushingLogs := false }
  else { L with flushingLogs := false }

/-- `flush`: whether the mutex was free. -/
def flush (start : ℕ) : Bool × Logger :=
  if L.flushingLogs then (false, L)
  else (true, ((flushOrder start L.logs.length).foldl flushElem
    { L with flushingLogs := true }).endFlush)

def write (pos : ℕ) (msg : Str) : Logger :=
  match L.logs[pos]? with
  | none => L
  | some e => L.setElem pos (e.write msg)

/-- The rest of `put`, once it has its element. -/
def fill (pos : ℕ) (msg : Str) : Logger :=
  (if (L.logs[pos]?).any LogElem.needToFlush then (L.flush pos).2 else L).write pos msg

/-- `put` of a message, where no other thread is at the logger. -/
def put (msg : Str) : Logger :=
  { L with cursor := (L.cursor + 1) % L.logs.length }.fill L.cursor msg

def flushAll : Logger := (L.flush L.cursor).2

/-- All that has been written to files. -/
def written : List Str := L.closed.flatten ++ L.fs

/-- The ring is full from some element on to the one before the cursor, oldest first. -/
structure Ordered (ms : List Str) : Prop where
  unlocked : L.flushingLogs = false
  cursor : L.cursor < L.logs.length
  ring : ∃ cs ds, L.logs.rotate L.cursor = cs ++ ds.map LogElem.full ∧
    (∀ e ∈ cs, e.status = .clean) ∧ L.written ++ ds = ms

section Flush

variable {L : Logger} {start pos : ℕ} {msg : Str} {ms : List Str}

/-- What a flush writes of an element. -/
def flushed (e : LogElem) : Option Str := if e.needToFlush then some e.ctx else none

/-- What a flush leaves of it. -/
def settled (e : LogElem) : LogElem := if e.needToFlush then { e with status := .clean } else e

theorem flushElem_eq (L : Logger) (pos : ℕ) : L.flushElem pos = { L with
    logs := L.logs.modify pos settled
    fs := L.fs ++ (L.logs[pos]?.bind flushed).toList } := by
  unfold flushElem
  rcases h : L.logs[pos]? with _ | e
  · have hle : L.logs.length ≤ pos := List.getElem?_eq_none_iff.mp h
    simp [List.modify_eq_self hle]
  · have hmodify : L.logs.modify pos settled = L.logs.set pos (settled e) := by
      refine List.ext_getElem? fun q => ?_
      rw [List.getElem?_modify, List.getElem?_set']
      by_cases hq : pos = q
      · subst hq
        simp [h]
      · simp [hq]
    have hself : L.logs.set pos e = L.logs := by
      obtain ⟨hlt, rfl⟩ := List.getElem?_eq_some_iff.mp h
      exact List.set_getElem_self hlt
    dsimp only
    rw [hmodify]
    split_ifs with hd
    · simp [setElem, settled, flushed, hd]
    · simp [settled, flushed, hd, hself]

/-- Some elements are flushed one after the other. -/
theorem foldl_flushElem :
    ∀ {ps : List ℕ} (L : Logger), ps.Nodup →
      ∃ logs, ps.foldl flushElem L = { L with
          logs, fs := L.fs ++ ps.filterMap fun p => L.logs[p]?.bind flushed } ∧
        ∀ q, logs[q]? = if q ∈ ps then L.logs[q]?.map settled else L.logs[q]?
  | [], L, _ => ⟨L.logs, by simp, by simp⟩
  | p :: ps, L, hnd => by
    obtain ⟨hp, hnd⟩ := List.nodup_cons.mp hnd
    obtain ⟨logs, hfold, hlogs⟩ := foldl_flushElem (L.flushElem p) hnd
    refine ⟨logs, ?_, fun q => ?_⟩
    · have hrest : (ps.filterMap fun q => (L.flushElem p).logs[q]?.bind flushed) =
          ps.filterMap fun q => L.logs[q]?.bind flushed := by
        refine List.filterMap_congr fun q hq => ?_
        have hne : p ≠ q := fun h => hp (h ▸ hq)
        simp [flushElem_eq, hne]
      rw [List.foldl_cons, hfold, hrest, flushElem_eq]
      rcases h : L.logs[p]?.bind flushed with _ | c <;> simp [h]
    · rw [hlogs]
      simp only [flushElem_eq, List.getElem?_modify, List.mem_cons]
      by_cases hq : q = p
      · subst hq
        simp [hp]
      · have hne : p ≠ q := fun h => hq h.symm
        simp [hq, hne]

theorem mem_flushOrder {num : ℕ} (h : start ≤ num) {q : ℕ} :
    q ∈ flushOrder start num ↔ q < num := by
  simp only [flushOrder, List.mem_append, List.mem_range'_1, List.mem_range]
  omega

theorem nodup_flushOrder (start num : ℕ) : (flushOrder start num).Nodup := by
  refine List.Nodup.append (List.nodup_range' 1) List.nodup_range fun q hq hq' => ?_
  simp only [List.mem_range'_1, List.mem_range] at hq hq'
  omega

theorem filterMap_range' {α β : Type} (l : List α) (f : α → Option β) :
    ∀ n s : ℕ, ((List.range' s n).filterMap fun p => l[p]?.bind f) =
      ((l.drop s).take n).filterMap f
  | 0, s => by simp
  | n + 1, s => by
    rw [List.range'_succ, List.filterMap_cons, filterMap_range' l f n (s + 1)]
    rcases Nat.lt_or_ge s l.length with h | h
    · rw [List.drop_eq_getElem_cons h, List.take_succ_cons, List.filterMap_cons,
        List.getElem?_eq_getElem h, Option.bind_some]
    · simp [h, List.drop_of_length_le, Nat.le_succ_of_le h]

/-- A flush gets to the elements around the ring. -/
theorem filterMap_flushOrder {α β : Type} {l : List α} (f : α → Option β)
    (h : start ≤ l.length) : ((flushOrder start l.length).filterMap fun p => l[p]?.bind f) =
      (l.rotate start).filterMap f := by
  rw [flushOrder, List.filterMap_append, filterMap_range', List.range_eq_range', filterMap_range',
    List.rotate_eq_drop_append_take h, List.filterMap_append, List.drop_zero]
  congr 2
  rw [List.take_of_length_le]
  rw [List.length_drop]

theorem written_endFlush (L : Logger) : L.endFlush.written = L.written := by
  unfold endFlush
  split_ifs <;> simp [written]

theorem logs_endFlush (L : Logger) : L.endFlush.logs = L.logs ∧ L.endFlush.cursor = L.cursor ∧
    L.endFlush.flushingLogs = false := by
  unfold endFlush
  split_ifs <;> exact ⟨rfl, rfl, rfl⟩

/-- A flush that gets the mutex writes what is full, from its start around. -/
theorem flush_unlocked (hlock : L.flushingLogs = false) (hstart : start ≤ L.logs.length) :
    (L.flush start).2.logs = L.logs.map settled ∧ (L.flush start).2.cursor = L.cursor ∧
      (L.flush start).2.flushingLogs = false ∧
      (L.flush start).2.written = L.written ++ (L.logs.rotate start).filterMap flushed := by
  obtain ⟨logs, hfold, hlogs⟩ := foldl_flushElem { L with flushingLogs := true }
    (nodup_flushOrder start L.logs.length)
  have hmap : logs = L.logs.map settled := by
    refine List.ext_getElem? fun q => ?_
    rw [hlogs, List.getElem?_map]
    split_ifs with hq
    · rfl
    · rw [mem_flushOrder hstart, not_lt] at hq
      rw [List.getElem?_eq_none hq, Option.map_none]
  rw [filterMap_flushOrder flushed hstart] at hfold
  rw [flush, hlock]
  simp only [Bool.false_eq_true, if_false, hfold]
  obtain ⟨h₁, h₂, h₃⟩ := logs_endFlush { L with
    logs, fs := L.fs ++ (L.logs.rotate start).filterMap flushed, flushingLogs := true }
  refine ⟨h₁.trans hmap, h₂, h₃, ?_⟩
  rw [written_endFlush, written, written, List.append_assoc]

end Flush

section Calls

variable {L : Logger} {msg : Str} {ms : List Str}

/-- An element put at the cursor, which goes on, is the last one around the ring. -/
theorem rotate_set_succ {α : Type} {l : List α} {pos : ℕ} (h : pos < l.length) (x : α) :
    (l.set pos x).rotate ((pos + 1) % l.length) = (l.rotate pos).tail ++ [x] := by
  have hmod := List.rotate_mod (l.set pos x) (pos + 1)
  rw [List.length_set] at hmod
  have htake : (l.set pos x).take (pos + 1) = l.take pos ++ [x] := by
    rw [List.take_succ_eq_append_getElem (by rwa [List.length_set]), List.getElem_set_self,
      List.take_set, List.set_eq_of_length_le]
    rw [List.length_take]
    exact Nat.min_le_left _ _
  rw [hmod, List.rotate_eq_drop_append_take (by rw [List.length_set]; omega), htake,
    List.rotate_eq_drop_append_take h.le, List.drop_eq_getElem_cons h, List.cons_append,
    List.tail_cons, List.append_assoc, List.drop_set, if_pos (by omega)]

/-- The element at the cursor is the first around the ring. -/
theorem head?_ring (h : L.cursor < L.logs.length) :
    L.logs[L.cursor]? = (L.logs.rotate L.cursor).head? := (List.head?_rotate h).symm

theorem filterMap_ring {cs : List LogElem} {ds : List Str} (hcs : ∀ e ∈ cs, e.status = .clean) :
    (cs ++ ds.map LogElem.full).filterMap flushed = ds := by
  have hnone : cs.filterMap flushed = [] := List.filterMap_eq_nil_iff.mpr fun e he => by
    simp [flushed, LogElem.needToFlush, hcs e he]
  rw [List.filterMap_append, hnone, List.nil_append, List.filterMap_map]
  exact List.filterMap_some

theorem clean_settled {cs : List LogElem} {ds : List Str} (hcs : ∀ e ∈ cs, e.status = .clean) :
    ∀ e ∈ (cs ++ ds.map LogElem.full).map settled, e.status = .clean := by
  intro e he
  obtain ⟨e', he', rfl⟩ := List.mem_map.mp he
  unfold settled
  split_ifs with hd
  · rfl
  · rcases List.mem_append.mp he' with he' | he'
    · exact hcs e' he'
    · obtain ⟨d, -, rfl⟩ := List.mem_map.mp he'
      simp [LogElem.needToFlush, LogElem.full] at hd

/-- What a flush leaves of a ring that is full up to where it starts. -/
theorem flush_ring {pos : ℕ} {cs : List LogElem} {ds : List Str} (hlock : L.flushingLogs = false)
    (hpos : pos ≤ L.logs.length) (hring : L.logs.rotate pos = cs ++ ds.map LogElem.full)
    (hcs : ∀ e ∈ cs, e.status = .clean) : (L.flush pos).2.written = L.written ++ ds ∧
    (L.flush pos).2.flushingLogs = false ∧ (L.flush pos).2.cursor = L.cursor ∧
    (L.flush pos).2.logs.length = L.logs.length ∧
    ∀ e ∈ (L.flush pos).2.logs.rotate pos, e.status = .clean := by
  obtain ⟨hlogs, hcursor, hlock', hwritten⟩ := flush_unlocked hlock hpos
  refine ⟨?_, hlock', hcursor, by rw [hlogs, List.length_map], ?_⟩
  · rw [hwritten, hring, filterMap_ring hcs]
  · rw [hlogs, ← List.map_rotate, hring]
    exact clean_settled hcs

/-- After a flush of all there is nothing left in the ring. -/
theorem ordered_flushAll (h : L.Ordered ms) :
    L.flushAll.Ordered ms ∧ L.flushAll.written = ms := by
  obtain ⟨cs, ds, hring, hcs, hms⟩ := h.ring
  obtain ⟨hwritten, hlock, hcursor, hlen, hclean⟩ := flush_ring h.unlocked h.cursor.le hring hcs
  refine ⟨⟨hlock, ?_, _, [], (List.append_nil _).symm, ?_, ?_⟩, hwritten.trans hms⟩
  · rw [flushAll, hcursor, hlen]
    exact h.cursor
  · rwa [flushAll, hcursor]
  · rw [List.append_nil]
    exact hwritten.trans hms

/-- The write that ends a `put`, at an element that is clean. -/
theorem ordered_write {pos : ℕ} {c : LogElem} {cs : List LogElem} {ds : List Str}
    (hlock : L.flushingLogs = false) (hpos : pos < L.logs.length)
    (hcursor : L.cursor = (pos + 1) % L.logs.length)
    (hring : L.logs.rotate pos = c :: cs ++ ds.map LogElem.full)
    (hclean : ∀ e ∈ c :: cs, e.status = .clean) (hms : L.written ++ ds = ms) :
    (L.write pos msg).Ordered (ms ++ [msg.take msgSize]) := by
  have hc : L.logs[pos]? = some c := by
    rw [← List.head?_rotate hpos, hring]
    rfl
  have hwrite : L.write pos msg =
      { L with logs := L.logs.set pos (.full (msg.take msgSize)) } := by
    simp [Logger.write, hc, setElem, LogElem.write, hclean c (by simp)]
  rw [hwrite]
  refine ⟨hlock, ?_, cs, ds ++ [msg.take msgSize], ?_, fun e he => hclean e (by simp [he]), ?_⟩
  · rw [List.length_set, hcursor]
    exact Nat.mod_lt _ (by omega)
  · rw [hcursor, rotate_set_succ hpos, hring]
    simp
  · rw [← hms, List.append_assoc]
    rfl

/-- A message goes after those before it, whether or not the ring had to be flushed for it. -/
theorem ordered_put (h : L.Ordered ms) : (L.put msg).Ordered (ms ++ [msg.take msgSize]) := by
  obtain ⟨cs, ds, hring, hcs, hms⟩ := h.ring
  have hhead := head?_ring h.cursor
  have hlen : (L.logs.rotate L.cursor).length = L.logs.length := List.length_rotate ..
  have hcursor := h.cursor
  rw [put, fill]
  dsimp only
  rcases cs with _ | ⟨c, cs⟩
  · have hne : L.logs.rotate L.cursor ≠ [] := fun hnil => by
      rw [hnil, List.length_nil] at hlen
      omega
    have hdirty : (L.logs.rotate L.cursor).head?.any LogElem.needToFlush := by
      rw [hring] at hne ⊢
      rcases ds with _ | ⟨d, ds⟩
      · exact absurd rfl hne
      · rfl
    rw [hhead, if_pos hdirty]
    set L₁ : Logger := { L with cursor := (L.cursor + 1) % L.logs.length }
    obtain ⟨hwritten, hlock, hcursor', hlen', hclean⟩ :=
      flush_ring (L := L₁) h.unlocked hcursor.le hring (by simp)
    obtain ⟨c, cs, hc⟩ : ∃ c cs, (L₁.flush L.cursor).2.logs.rotate L.cursor = c :: cs := by
      refine List.exists_cons_of_ne_nil fun hnil => ?_
      have := congrArg List.length hnil
      rw [List.length_rotate, hlen', ← hlen, List.length_nil] at this
      exact hne (List.length_eq_zero_iff.mp this)
    rw [hc] at hclean
    have hring' : (L₁.flush L.cursor).2.logs.rotate L.cursor = c :: cs ++ [].map LogElem.full := by
      rw [hc, List.map_nil, List.append_nil]
    refine ordered_write hlock (hlen' ▸ hcursor) ?_ hring' hclean ?_
    · rw [hcursor', hlen']
    · rw [List.append_nil, hwritten]
      exact hms
  · rw [hhead, hring, if_neg (by simp [LogElem.needToFlush, hcs c (by simp)])]
    exact ordered_write h.unlocked hcursor rfl hring hcs hms

end Calls

end Logger

end LockService
