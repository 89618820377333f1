import LockService.Lib.Account
import LockService.Lib.Run
import LockService.Logger

/-!
# The threads at the logger

Any number of threads put messages in the ring and flush it, one atomic step at a time. A thread
that finds its element in another's hands gives its message up, and nobody is told; every other
message is in one place at any time, in a thread's hands, in the ring or in a file
(`accounted_run`). While the calls come one after the other, none is given up, and they are in order
(`ordered_run`).
-/

namespace LockService

/-- How far a call is. -/
inductive Task where
  /-- `put`, before it takes an element. -/
  | put (msg : Str)
  /-- It waits until no other thread works on its element. -/
  | await (pos : ℕ) (msg : Str)
  /-- It looks whether the element is full. -/
  | check (pos : ℕ) (msg : Str)
  | flushAll
  /-- `flush`, with the message of the `put` it is for. -/
  | tryFlush (start : ℕ) (msg : Option Str)
  /-- It has the mutex, and gets to the elements left one after the other. -/
  | flush (start : ℕ) (rest : List ℕ) (msg : Option Str)
  /-- It has an element to write to the file. -/
  | flushing (start pos : ℕ) (rest : List ℕ) (msg : Option Str)
  /-- It waits until another thread has got to its element. -/
  | drain (pos : ℕ) (msg : Str)
  | write (pos : ℕ) (msg : Str)
  /-- It has an element to copy the message to. -/
  | copy (pos : ℕ) (msg : Str)
  | done
  /-- `write` returned -1. -/
  | lost (msg : Str)

namespace Task

/-- What is left to do after a flush. -/
def resume (start : ℕ) : Option Str → Task
  | none => .done
  | some msg => .write start msg

def Ended : Task → Prop
  | .done | .lost _ => True
  | _ => False

instance : DecidablePred Ended
  | .done | .lost _ => .isTrue trivial
  | .put _ | .await _ _ | .check _ _ | .flushAll | .tryFlush _ _ | .flush _ _ _
  | .flushing _ _ _ _ | .drain _ _ | .write _ _ | .copy _ _ => .isFalse id

/-- The element a thread has in hand, and the status that says so. -/
def claim : Task → Option (ℕ × ElemStatus)
  | .copy pos _ => some (pos, .writing)
  | .flushing _ pos _ _ => some (pos, .flushing)
  | _ => none

/-- Whether the thread has the mutex. -/
def flushes : Task → Bool
  | .flush _ _ _ | .flushing _ _ _ _ => true
  | _ => false

/-- The message of a call that is not over. -/
def message : Task → Option Str
  | .put msg | .await _ msg | .check _ msg | .drain _ msg | .write _ msg | .copy _ msg => some msg
  | .tryFlush _ msg | .flush _ _ msg | .flushing _ _ _ msg => msg
  | .flushAll | .done | .lost _ => none

def lostMessage : Task → Option Str
  | .lost msg => some msg
  | _ => none

end Task

namespace Logger

/-- One atomic step of a thread; a thread that waits has none until it need not. -/
def step (L : Logger) : Task → Option (Logger × Task)
  | .put msg => some ({ L with cursor := (L.cursor + 1) % L.logs.length }, .await L.cursor msg)
  | .await pos msg =>
    if (L.logs[pos]?).any LogElem.available then some (L, .check pos msg) else none
  | .check pos msg =>
    if (L.logs[pos]?).any LogElem.needToFlush then some (L, .tryFlush pos msg)
    else some (L, .write pos msg)
  | .flushAll => some (L, .tryFlush L.cursor none)
  | .tryFlush start msg =>
    if L.flushingLogs then some (L, match msg with
      | none => .done
      | some msg => .drain start msg)
    else some ({ L with flushingLogs := true }, .flush start (flushOrder start L.logs.length) msg)
  | .flush start [] msg => some (L.endFlush, .resume start msg)
  | .flush start (p :: rest) msg => match L.logs[p]? with
    | none => some (L, .flush start rest msg)
    | some e =>
      if e.needToFlush then
        some (L.setElem p { e with status := .flushing }, .flushing start p rest msg)
      else some (L, .flush start rest msg)
  | .flushing start p rest msg => (L.logs[p]?).map fun e =>
    ({ L.setElem p { e with status := .clean } with fs := L.fs ++ [e.ctx] }, .flush start rest msg)
  | .drain pos msg =>
    if (L.logs[pos]?).any LogElem.needToFlush then none else some (L, .write pos msg)
  | .write pos msg => (L.logs[pos]?).map fun e =>
    if e.status = .clean then (L.setElem pos { e with status := .writing }, .copy pos msg)
    else (L, .lost msg)
  | .copy pos msg => some (L.setElem pos (.full (msg.take msgSize)), .done)
  | .done | .lost _ => none

/-- A ring with nothing in it, and the file it goes to. -/
def initial (maxLogElems maxLogFileSize curRevnum : ℕ) (fs : List Str) : Logger :=
  ⟨List.replicate maxLogElems ⟨[], .clean⟩, 0, false, fs, [], curRevnum, maxLogFileSize, []⟩

end Logger

/-- A logger, the calls there have been, and the messages of `put`, in order. -/
structure Logging where
  logger : Logger
  tasks : List Task
  accepted : List Str

namespace Logging

/-- A thread calls the logger, or one goes on. -/
inductive Event where
  | put (msg : Str)
  | flushAll
  | run (task : ℕ)

def next (G : Logging) : Event → Option Logging
  | .put msg => some { G with tasks := G.tasks ++ [.put msg], accepted := G.accepted ++ [msg] }
  | .flushAll => some { G with tasks := G.tasks ++ [.flushAll] }
  | .run t => match G.tasks[t]? with
    | none => none
    | some task => (G.logger.step task).map fun (L, task) =>
      { G with logger := L, tasks := G.tasks.set t task }

end Logging

/-- The message in a thread's hands, as `write` would cut it off. -/
def Task.held (t : Task) : Multiset Str := t.message.elim 0 fun msg => {msg.take msgSize}

/-- The message a thread has given up. -/
def Task.gone (t : Task) : Multiset Str := t.lostMessage.elim 0 fun msg => {msg.take msgSize}

def Task.claims (t : Task) : Multiset (ℕ × ElemStatus) := t.claim.elim 0 fun c => {c}

/-- The message that waits in an element. -/
def LogElem.kept (e : LogElem) : Multiset Str :=
  if e.status = .dirty ∨ e.status = .flushing then {e.ctx} else 0

/-- What a thread has an element in hand for. -/
def LogElem.claims (pos : ℕ) (e : LogElem) : Multiset (ℕ × ElemStatus) :=
  if e.status = .writing ∨ e.status = .flushing then {(pos, e.status)} else 0

/-- What a step does: it leaves the elements as they are, or changes one of them, which is in no
other thread's hands before it or after it. -/
inductive Handling (L : Logger) (a : Task) (L' : Logger) (b : Task) : Prop where
  | passes (hlogs : L'.logs = L.logs) (hwritten : L'.written = L.written)
    (hheld : b.held + b.gone = a.held + a.gone) (ha : a.claims = 0) (hb : b.claims = 0)
  | touches {pos : ℕ} {e e' : LogElem} (he : L.logs[pos]? = some e)
    (hlogs : L'.logs = L.logs.set pos e')
    (hheld : (L'.written : Multiset Str) + e'.kept + (b.held + b.gone) =
      L.written + e.kept + (a.held + a.gone))
    (ha : a.claims = e.claims pos) (hb : b.claims = e'.claims pos)

section Step

variable {L L' : Logger} {a b : Task}

theorem message_resume (start : ℕ) (msg : Option Str) :
    (Task.resume start msg).held = msg.elim 0 (fun msg => {msg.take msgSize}) ∧
      (Task.resume start msg).gone = 0 ∧ (Task.resume start msg).claims = 0 := by
  cases msg <;> exact ⟨rfl, rfl, rfl⟩

/-- A thread's step, where what it has in hand is so marked. -/
theorem handling_step (h : L.step a = some (L', b))
    (hclaim : ∀ p st, a.claim = some (p, st) → ∃ e, L.logs[p]? = some e ∧ e.status = st) :
    Handling L a L' b := by
  cases a with
  | put msg =>
    obtain ⟨rfl, rfl⟩ := Prod.mk.inj (Option.some.inj h)
    exact .passes rfl rfl rfl rfl rfl
  | await pos msg =>
    simp only [Logger.step] at h
    split_ifs at h
    obtain ⟨rfl, rfl⟩ := Prod.mk.inj (Option.some.inj h)
    exact .passes rfl rfl rfl rfl rfl
  | check pos msg =>
    simp only [Logger.step] at h
    split_ifs at h <;> obtain ⟨rfl, rfl⟩ := Prod.mk.inj (Option.some.inj h) <;>
      exact .passes rfl rfl rfl rfl rfl
  | flushAll =>
    obtain ⟨rfl, rfl⟩ := Prod.mk.inj (Option.some.inj h)
    exact .passes rfl rfl rfl rfl rfl
  | tryFlush start msg =>
    simp only [Logger.step] at h
    split_ifs at h <;> obtain ⟨rfl, rfl⟩ := Prod.mk.inj (Option.some.inj h)
    · cases msg <;> exact .passes rfl rfl rfl rfl rfl
    · exact .passes rfl rfl rfl rfl rfl
  | flush start rest msg =>
    rcases rest with _ | ⟨p, rest⟩
    · obtain ⟨rfl, rfl⟩ := Prod.mk.inj (Option.some.inj h)
      obtain ⟨hheld, hgone, hclaims⟩ := message_resume start msg
      exact .passes (Logger.logs_endFlush L).1 (Logger.written_endFlush L)
        (by rw [hheld, hgone]; rfl) rfl hclaims
    simp only [Logger.step] at h
    split at h
    · obtain ⟨rfl, rfl⟩ := Prod.mk.inj (Option.some.inj h)
      exact .passes rfl rfl rfl rfl rfl
    rename_i e he
    split_ifs at h with hd <;> obtain ⟨rfl, rfl⟩ := Prod.mk.inj (Option.some.inj h)
    · have hst : e.status = .dirty := of_decide_eq_true hd
      refine .touches he rfl ?_ ?_ rfl
      · simp [LogElem.kept, hst, Logger.setElem, Logger.written, Task.held, Task.gone, Task.message,
          Task.lostMessage]
      · simp [LogElem.claims, hst, Task.claims, Task.claim]
    · exact .passes rfl rfl rfl rfl rfl
  | flushing start p rest msg =>
    obtain ⟨e, he, hst⟩ := hclaim p .flushing rfl
    simp only [Logger.step, he, Option.map_some] at h
    obtain ⟨rfl, rfl⟩ := Prod.mk.inj (Option.some.inj h)
    refine .touches he rfl ?_ ?_ rfl
    · simp [LogElem.kept, hst, Logger.setElem, Logger.written, Task.held, Task.gone, Task.message,
        Task.lostMessage, ← Multiset.coe_add, add_assoc]
    · simp [LogElem.claims, hst, Task.claims, Task.claim]
  | drain pos msg =>
    simp only [Logger.step] at h
    split_ifs at h
    obtain ⟨rfl, rfl⟩ := Prod.mk.inj (Option.some.inj h)
    exact .passes rfl rfl rfl rfl rfl
  | write pos msg =>
    obtain ⟨e, he, hstep⟩ := Option.map_eq_some_iff.mp h
    split_ifs at hstep with hst <;> obtain ⟨rfl, rfl⟩ := Prod.mk.inj hstep
    · refine .touches he rfl ?_ ?_ rfl
      · simp [LogElem.kept, hst, Logger.setElem, Logger.written, Task.held, Task.gone, Task.message,
          Task.lostMessage]
      · simp [LogElem.claims, hst, Task.claims, Task.claim]
    · exact .passes rfl rfl (by simp [Task.held, Task.gone, Task.message, Task.lostMessage]) rfl rfl
  | copy pos msg =>
    obtain ⟨e, he, hst⟩ := hclaim pos .writing rfl
    obtain ⟨rfl, rfl⟩ := Prod.mk.inj (Option.some.inj h)
    refine .touches he rfl ?_ ?_ rfl
    · simp [LogElem.kept, LogElem.full, hst, Logger.setElem, Logger.written, Task.held, Task.gone,
        Task.message, Task.lostMessage]
    · simp [LogElem.claims, hst, Task.claims, Task.claim]
  | done => cases h
  | lost msg => cases h

/-- The mutex is taken by a thread that begins to flush, and given back by one that is through. -/
theorem flushes_step (h : L.step a = some (L', b)) (hflag : a.flushes → L.flushingLogs) :
    L'.flushingLogs.toNat + a.flushes.toNat = L.flushingLogs.toNat + b.flushes.toNat := by
  have hresume : ∀ start msg, (Task.resume start msg).flushes = false := fun start msg => by
    cases msg <;> rfl
  cases a with
  | put | flushAll | copy =>
    obtain ⟨rfl, rfl⟩ := Prod.mk.inj (Option.some.inj h)
    rfl
  | await | drain =>
    simp only [Logger.step] at h
    split_ifs at h
    obtain ⟨rfl, rfl⟩ := Prod.mk.inj (Option.some.inj h)
    rfl
  | check =>
    simp only [Logger.step] at h
    split_ifs at h <;> obtain ⟨rfl, rfl⟩ := Prod.mk.inj (Option.some.inj h) <;> rfl
  | tryFlush start msg =>
    simp only [Logger.step] at h
    split_ifs at h with hlock <;> obtain ⟨rfl, rfl⟩ := Prod.mk.inj (Option.some.inj h)
    · cases msg <;> rfl
    · simp [hlock, Task.flushes]
  | flush start rest msg =>
    have hlock : L.flushingLogs = true := hflag rfl
    rcases rest with _ | ⟨p, rest⟩
    · obtain ⟨rfl, rfl⟩ := Prod.mk.inj (Option.some.inj h)
      rw [(Logger.logs_endFlush L).2.2, hlock, hresume]
      rfl
    simp only [Logger.step] at h
    split at h
    · obtain ⟨rfl, rfl⟩ := Prod.mk.inj (Option.some.inj h)
      rfl
    split_ifs at h <;> obtain ⟨rfl, rfl⟩ := Prod.mk.inj (Option.some.inj h) <;> rfl
  | flushing =>
    obtain ⟨e, he, hstep⟩ := Option.map_eq_some_iff.mp h
    obtain ⟨rfl, rfl⟩ := Prod.mk.inj hstep
    rfl
  | write =>
    obtain ⟨e, he, hstep⟩ := Option.map_eq_some_iff.mp h
    split_ifs at hstep <;> obtain ⟨rfl, rfl⟩ := Prod.mk.inj hstep <;> rfl
  | done => cases h
  | lost => cases h

end Step

namespace Logging

/-- What the steps of threads keep. -/
structure Balanced (fs : List Str) (G : Logging) : Prop where
  account : ((fs ++ G.accepted.map (·.take msgSize) : List Str) : Multiset Str) =
    G.logger.written + (G.logger.logs.map LogElem.kept).sum +
      (G.tasks.map fun t => t.held + t.gone).sum
  claims : (G.tasks.map Task.claims).sum = (G.logger.logs.mapIdx LogElem.claims).sum
  mutex : (G.tasks.map fun t => t.flushes.toNat).sum = G.logger.flushingLogs.toNat

section Invariant

variable {G G' : Logging} {fs : List Str} {t : ℕ} {a : Task}

/-- What has an element in hand is so marked, and the other way round. -/
theorem Balanced.claim_iff (hG : G.Balanced fs) {pos : ℕ} {st : ElemStatus} :
    (∃ a ∈ G.tasks, a.claim = some (pos, st)) ↔
      ∃ e, G.logger.logs[pos]? = some e ∧ e.status = st ∧ (st = .writing ∨ st = .flushing) := by
  have htask : (pos, st) ∈ (G.tasks.map Task.claims).sum ↔
      ∃ a ∈ G.tasks, a.claim = some (pos, st) := by
    rw [Account.mem_sum_map]
    refine exists_congr fun a => and_congr_right fun _ => ?_
    rcases hc : a.claim with _ | c
    · simp [Task.claims, hc]
    · simp [Task.claims, hc, eq_comm]
  have helem : (pos, st) ∈ (G.logger.logs.mapIdx LogElem.claims).sum ↔
      ∃ e, G.logger.logs[pos]? = some e ∧ e.status = st ∧ (st = .writing ∨ st = .flushing) := by
    simp only [Account.mem_sum, List.mem_iff_getElem?, List.getElem?_mapIdx]
    constructor
    · rintro ⟨m, ⟨i, hm⟩, hmem⟩
      obtain ⟨e, he, rfl⟩ := Option.map_eq_some_iff.mp hm
      unfold LogElem.claims at hmem
      split_ifs at hmem with hst
      · obtain ⟨rfl, rfl⟩ := Prod.mk.inj (Multiset.mem_singleton.mp hmem)
        exact ⟨e, he, rfl, hst⟩
      · simp at hmem
    · rintro ⟨e, he, rfl, hst⟩
      exact ⟨_, ⟨pos, by rw [he]; rfl⟩, by simp [LogElem.claims, hst]⟩
  rw [← htask, hG.claims, helem]

theorem Balanced.step (hG : G.Balanced fs) {L : Logger} {b : Task}
    (ha : G.tasks[t]? = some a) (h : G.logger.step a = some (L, b)) :
    Balanced fs { G with logger := L, tasks := G.tasks.set t b } := by
  have hhandling := handling_step h fun p st hc => by
    obtain ⟨e, he, hst, -⟩ := hG.claim_iff.mp ⟨a, List.mem_of_getElem? ha, hc⟩
    exact ⟨e, he, hst⟩
  have hheld := Account.sum_map_set (fun t : Task => t.held + t.gone) ha b
  have hclaims := Account.sum_map_set Task.claims ha b
  refine ⟨?_, ?_, ?_⟩
  · have haccount := hG.account
    cases hhandling with
    | passes hlogs hwritten hsame =>
      rw [hsame] at hheld
      rw [hlogs, hwritten, haccount, add_right_cancel hheld]
    | @touches pos e e' he hlogs hsame =>
      have hkept := Account.sum_map_set LogElem.kept he e'
      rw [hlogs, haccount]
      exact (Account.sum_transfer hkept hheld hsame).symm
  · cases hhandling with
    | passes hlogs _ _ ha hb =>
      rw [ha, hb, add_zero, add_zero] at hclaims
      rw [hclaims, hG.claims, hlogs]
    | @touches pos e e' he hlogs _ ha hb =>
      have helems := Account.sum_mapIdx_set LogElem.claims he e'
      rw [ha, hb, hG.claims, ← helems] at hclaims
      rw [hlogs]
      exact add_right_cancel hclaims
  · have hflushes := Account.sum_map_set (fun t : Task => t.flushes.toNat) ha b
    have hstep := flushes_step h fun hf => by
      have hrest := Account.sum_map_set (fun t : Task => t.flushes.toNat) ha .done
      rw [hG.mutex, hf] at hrest
      refine Bool.eq_true_of_not_eq_false fun hlock => ?_
      simp [hlock, Task.flushes] at hrest
    rw [hG.mutex] at hflushes
    dsimp only at hflushes ⊢
    omega

theorem Balanced.call (hG : G.Balanced fs) {ms : List Str}
    (hheld : a.held + a.gone = (ms.map (·.take msgSize) : List Str)) (hclaims : a.claims = 0)
    (hflushes : a.flushes = false) :
    Balanced fs { G with tasks := G.tasks ++ [a], accepted := G.accepted ++ ms } where
  account := by
    have haccount := hG.account
    simp only [Account.sum_map_concat]
    rw [hheld, ← add_assoc, ← haccount, Multiset.coe_add, List.append_assoc, ← List.map_append]
  claims := by
    simp only [Account.sum_map_concat]
    rw [hG.claims, hclaims, add_zero]
  mutex := by
    simp only [Account.sum_map_concat]
    rw [hG.mutex, hflushes]
    exact Nat.add_zero _

theorem Balanced.next {e : Event} (hG : G.Balanced fs) (h : G.next e = some G') :
    G'.Balanced fs := by
  cases e with
  | put msg =>
    obtain rfl := Option.some.inj h
    exact hG.call rfl rfl rfl
  | flushAll =>
    obtain rfl := Option.some.inj h
    have hcall : Balanced fs { G with
        tasks := G.tasks ++ [.flushAll], accepted := G.accepted ++ [] } := hG.call rfl rfl rfl
    rwa [List.append_nil] at hcall
  | run t =>
    rcases ha : G.tasks[t]? with _ | a
    · simp [Logging.next, ha] at h
    simp only [Logging.next, ha] at h
    obtain ⟨⟨L, b⟩, hstep, rfl⟩ := Option.map_eq_some_iff.mp h
    exact hG.step ha hstep

/-- Of two threads with the same element in hand, the status of the element can tell of one. -/
theorem Balanced.claim_unique (hG : G.Balanced fs) {t' pos : ℕ} {st st' : ElemStatus} {a' : Task}
    (ha : G.tasks[t]? = some a) (ha' : G.tasks[t']? = some a') (hc : a.claim = some (pos, st))
    (hc' : a'.claim = some (pos, st')) : t = t' := by
  obtain ⟨e, he, rfl, hst⟩ := hG.claim_iff.mp ⟨a, List.mem_of_getElem? ha, hc⟩
  obtain ⟨e', he', rfl, -⟩ := hG.claim_iff.mp ⟨a', List.mem_of_getElem? ha', hc'⟩
  obtain rfl := Option.some.inj (he.symm.trans he')
  by_contra hne
  have hclaims := hG.claims
  have htasks := Account.sum_map_set Task.claims ha .done
  have helems := Account.sum_mapIdx_set LogElem.claims he ⟨[], .clean⟩
  have hzero : Task.done.claims = 0 := rfl
  have hclean : LogElem.claims pos ⟨[], .clean⟩ = 0 := rfl
  have hsame : a.claims = e.claims pos := by simp [Task.claims, hc, LogElem.claims, hst]
  rw [hzero, add_zero] at htasks
  rw [hclean, add_zero, ← hclaims, ← htasks, hsame] at helems
  have hmem : (pos, e.status) ∈ ((G.tasks.set t .done).map Task.claims).sum := by
    refine Account.mem_sum_map.mpr ⟨a', List.mem_of_getElem? (i := t') ?_, ?_⟩
    · rw [List.getElem?_set_ne hne, ha']
    · simp [Task.claims, hc']
  rw [← add_right_cancel helems] at hmem
  obtain ⟨m, hm, hin⟩ := Account.mem_sum.mp hmem
  obtain ⟨i, hi⟩ := List.mem_iff_getElem?.mp hm
  rw [List.getElem?_mapIdx] at hi
  obtain ⟨e', he', rfl⟩ := Option.map_eq_some_iff.mp hi
  unfold LogElem.claims at hin
  split_ifs at hin with hst'
  · obtain ⟨rfl, -⟩ := Prod.mk.inj (Multiset.mem_singleton.mp hin)
    rw [List.getElem?_set_self (List.getElem?_eq_some_iff.mp he).1] at he'
    obtain rfl := Option.some.inj he'
    simp at hst'
  · simp at hin

/-- At most one thread flushes. -/
theorem Balanced.flushes_unique (hG : G.Balanced fs) {t' : ℕ} {a' : Task}
    (ha : G.tasks[t]? = some a) (ha' : G.tasks[t']? = some a') (hf : a.flushes)
    (hf' : a'.flushes) : t = t' := by
  by_contra hne
  have hfirst := Account.sum_map_set (fun t : Task => t.flushes.toNat) ha .done
  have hsecond := Account.sum_map_set (fun t : Task => t.flushes.toNat)
    (show (G.tasks.set t .done)[t']? = some a' by rw [List.getElem?_set_ne hne, ha']) .done
  rw [hG.mutex, hf] at hfirst
  rw [hf'] at hsecond
  have hle := Bool.toNat_le G.logger.flushingLogs
  simp only [Bool.toNat_true, Task.flushes, Bool.toNat_false] at hfirst hsecond
  omega

end Invariant

/-- What holds of the logger at any time. -/
structure Sound (fs : List Str) (G : Logging) : Prop where
  /-- Every message is in one place. -/
  account : ((fs ++ G.accepted.map (·.take msgSize) : List Str) : Multiset Str) =
    G.logger.written + (G.logger.logs.map LogElem.kept).sum + (G.tasks.map Task.held).sum +
      (G.tasks.map Task.gone).sum
  /-- No two threads have one element in hand. -/
  alone : ∀ {t t' pos : ℕ} {a a' : Task} {st st'}, G.tasks[t]? = some a → G.tasks[t']? = some a' →
    a.claim = some (pos, st) → a'.claim = some (pos, st') → t = t'
  /-- No two threads write to the file. -/
  mutex : ∀ {t t' : ℕ} {a a' : Task}, G.tasks[t]? = some a → G.tasks[t']? = some a' → a.flushes →
    a'.flushes → t = t'
  /-- A message is given up at an element that is full, or in another's hands. -/
  lost : ∀ {t pos : ℕ} {msg G'}, G.tasks[t]? = some (.write pos msg) → G.next (.run t) = some G' →
    G'.tasks[t]? = some (.lost msg) → ∃ e, G.logger.logs[pos]? = some e ∧
      (e.status = .dirty ∨ ∃ a ∈ G.tasks, a.claim = some (pos, e.status))

section Runs

variable {G : Logging} {fs : List Str} {maxLogElems maxLogFileSize curRevnum : ℕ}

/-- No call yet. -/
def initial (maxLogElems maxLogFileSize curRevnum : ℕ) (fs : List Str) : Logging :=
  ⟨.initial maxLogElems maxLogFileSize curRevnum fs, [], []⟩

theorem balanced_initial :
    (initial maxLogElems maxLogFileSize curRevnum fs).Balanced fs where
  account := by
    simp [initial, Logger.initial, Logger.written, LogElem.kept]
  claims := by
    refine (Multiset.eq_zero_of_forall_notMem fun c hc => ?_).symm
    obtain ⟨m, hm, hin⟩ := Account.mem_sum.mp hc
    obtain ⟨i, hi⟩ := List.mem_iff_getElem?.mp hm
    rw [List.getElem?_mapIdx] at hi
    obtain ⟨e, he, rfl⟩ := Option.map_eq_some_iff.mp hi
    obtain rfl := List.eq_of_mem_replicate (List.mem_of_getElem? he)
    simp [LogElem.claims] at hin
  mutex := rfl

theorem sound_of_balanced (hG : G.Balanced fs) : G.Sound fs where
  account := by
    have haccount := hG.account
    rw [List.sum_map_add, ← add_assoc] at haccount
    exact haccount
  alone := hG.claim_unique
  mutex := hG.flushes_unique
  lost := by
    intro t pos msg G' ha hnext hlost
    simp only [Logging.next, ha] at hnext
    obtain ⟨⟨L, b⟩, hstep, rfl⟩ := Option.map_eq_some_iff.mp hnext
    rw [List.getElem?_set_self (List.getElem?_eq_some_iff.mp ha).1] at hlost
    obtain ⟨e, he, hwrite⟩ := Option.map_eq_some_iff.mp hstep
    refine ⟨e, he, ?_⟩
    split_ifs at hwrite with hst <;> obtain ⟨rfl, rfl⟩ := Prod.mk.inj hwrite
    · simp at hlost
    · rcases hstatus : e.status with _ | _ | _ | _
      · exact absurd hstatus hst
      · exact .inr (hG.claim_iff.mpr ⟨e, he, hstatus, .inl rfl⟩)
      · exact .inl rfl
      · exact .inr (hG.claim_iff.mpr ⟨e, he, hstatus, .inr rfl⟩)

/-- However the threads take their turns, no message is written twice, and none goes but one that
its own thread gives up. -/
theorem accounted_run {es : List Event}
    (hrun : Run.run next (initial maxLogElems maxLogFileSize curRevnum fs) es = some G) :
    G.Sound fs := by
  refine sound_of_balanced (Run.invariant (I := fun G : Logging => G.Balanced fs)
    (P := fun _ _ _ => True) ?_ balanced_initial Run.along_true hrun)
  exact fun G e G' hG _ h => hG.next h

/-- A message is lost while another thread flushes the element it is meant for. -/
def sampleLogging : List Event :=
  [.put [1], .run 0, .run 0, .run 0, .run 0, .run 0, .flushAll, .put [2], .run 1, .run 1, .run 2,
    .run 2, .run 1, .run 2, .run 2, .run 1, .run 1]

theorem accounted_run_lost : ∃ G, Run.run next (initial 1 0 0 []) sampleLogging = some G ∧
    G.logger.written = [[1]] ∧ G.tasks.map Task.lostMessage = [none, none, some [2]] ∧
      G.Sound [] := by
  obtain ⟨G, hG, hf⟩ := (Option.any_eq_true _ _).mp (by decide :
    (Run.run next (initial 1 0 0 []) sampleLogging).any fun G =>
      decide (G.logger.written = [[1]] ∧
        G.tasks.map Task.lostMessage = [none, none, some [2]]))
  obtain ⟨hwritten, hlost⟩ := of_decide_eq_true hf
  exact ⟨G, hG, hwritten, hlost, accounted_run hG⟩

end Runs

end Logging

section Alone

namespace Logger

/-- What follows a flush, all at once. -/
def resume (L : Logger) (start : ℕ) : Option Str → Logger
  | none => L
  | some msg => L.write start msg

/-- What the rest of a call does to the logger, where no other thread is at it. -/
def finish (L : Logger) : Task → Logger
  | .put msg => L.put msg
  | .await pos msg | .check pos msg => L.fill pos msg
  | .flushAll => L.flushAll
  | .tryFlush start msg => (L.flush start).2.resume start msg
  | .flush start rest msg => (rest.foldl flushElem L).endFlush.resume start msg
  | .flushing start p rest msg => match L.logs[p]? with
    | none => L
    | some e => (rest.foldl flushElem { L.setElem p { e with status := .clean } with
        fs := L.fs ++ [e.ctx] }).endFlush.resume start msg
  | .drain pos msg | .write pos msg => L.write pos msg
  | .copy pos msg => L.setElem pos (.full (msg.take msgSize))
  | .done | .lost _ => L

variable {L L' : Logger} {a b : Task}

theorem finish_resume (L : Logger) (start : ℕ) (msg : Option Str) :
    L.finish (.resume start msg) = L.resume start msg := by
  cases msg <;> rfl

theorem write_of_notClean {pos : ℕ} {e : LogElem} (he : L.logs[pos]? = some e)
    (hst : e.status ≠ .clean) (msg : Str) : L.write pos msg = L := by
  obtain ⟨hlt, rfl⟩ := List.getElem?_eq_some_iff.mp he
  simp [write, he, LogElem.write, hst, setElem]

/-- A step leaves what the call comes to as it is. -/
theorem finish_step (h : L.step a = some (L', b)) : L'.finish b = L.finish a := by
  cases a with
  | put msg =>
    obtain ⟨rfl, rfl⟩ := Prod.mk.inj (Option.some.inj h)
    rfl
  | await pos msg =>
    simp only [step] at h
    split_ifs at h
    obtain ⟨rfl, rfl⟩ := Prod.mk.inj (Option.some.inj h)
    rfl
  | check pos msg =>
    simp only [step] at h
    split_ifs at h with hd <;> obtain ⟨rfl, rfl⟩ := Prod.mk.inj (Option.some.inj h)
    · simp [finish, fill, hd, resume]
    · simp [finish, fill, hd]
  | flushAll =>
    obtain ⟨rfl, rfl⟩ := Prod.mk.inj (Option.some.inj h)
    rfl
  | tryFlush start msg =>
    simp only [step] at h
    split_ifs at h with hlock <;> obtain ⟨rfl, rfl⟩ := Prod.mk.inj (Option.some.inj h)
    · cases msg <;> simp [finish, flush, hlock, resume]
    · simp [finish, flush, hlock]
  | flush start rest msg =>
    rcases rest with _ | ⟨p, rest⟩
    · obtain ⟨rfl, rfl⟩ := Prod.mk.inj (Option.some.inj h)
      exact finish_resume _ _ _
    simp only [step] at h
    split at h
    · rename_i he
      obtain ⟨rfl, rfl⟩ := Prod.mk.inj (Option.some.inj h)
      simp [finish, flushElem, he]
    rename_i e he
    split_ifs at h with hd <;> obtain ⟨rfl, rfl⟩ := Prod.mk.inj (Option.some.inj h)
    · obtain ⟨hlt, rfl⟩ := List.getElem?_eq_some_iff.mp he
      simp [finish, flushElem, hd, setElem, hlt]
    · simp [finish, flushElem, he, hd]
  | flushing start p rest msg =>
    obtain ⟨e, he, hstep⟩ := Option.map_eq_some_iff.mp h
    obtain ⟨rfl, rfl⟩ := Prod.mk.inj hstep
    simp [finish, he]
  | drain pos msg =>
    simp only [step] at h
    split_ifs at h
    obtain ⟨rfl, rfl⟩ := Prod.mk.inj (Option.some.inj h)
    rfl
  | write pos msg =>
    obtain ⟨e, he, hstep⟩ := Option.map_eq_some_iff.mp h
    split_ifs at hstep with hst <;> obtain ⟨rfl, rfl⟩ := Prod.mk.inj hstep
    · simp [finish, write, he, LogElem.write, hst, setElem]
    · exact (write_of_notClean he hst msg).symm
  | copy pos msg =>
    obtain ⟨rfl, rfl⟩ := Prod.mk.inj (Option.some.inj h)
    rfl
  | done => cases h
  | lost msg => cases h

end Logger

namespace Logging

/-- A call begins when those before it are over. -/
def Serial (G : Logging) : Event → Prop
  | .put _ | .flushAll => ∀ a ∈ G.tasks, a.Ended
  | .run _ => True

instance (G : Logging) : DecidablePred G.Serial
  | .put _ | .flushAll => inferInstanceAs (Decidable (∀ a ∈ G.tasks, a.Ended))
  | .run _ => inferInstanceAs (Decidable True)

variable {G G' : Logging} {fs : List Str}

/-- All calls but the last are over, and with that one the messages are in order. -/
structure Queued (fs : List Str) (G : Logging) : Prop where
  ended : ∀ t a, G.tasks[t]? = some a → t + 1 < G.tasks.length → a.Ended
  ordered : ∀ a, G.tasks.getLast? = some a →
    (G.logger.finish a).Ordered (fs ++ G.accepted.map (·.take msgSize))
  empty : G.tasks = [] → G.logger.Ordered (fs ++ G.accepted.map (·.take msgSize))

theorem finish_of_ended {L : Logger} {a : Task} (h : a.Ended) : L.finish a = L := by
  cases a <;> first | rfl | exact h.elim

theorem Queued.ordered_of_ended (hG : G.Queued fs) (h : ∀ a ∈ G.tasks, a.Ended) :
    G.logger.Ordered (fs ++ G.accepted.map (·.take msgSize)) := by
  rcases hlast : G.tasks.getLast? with _ | a
  · exact hG.empty (List.getLast?_eq_none_iff.mp hlast)
  · have hordered := hG.ordered a hlast
    rwa [finish_of_ended (h a (List.mem_of_getLast? hlast))] at hordered

/-- A call after all others. -/
theorem Queued.call (hended : ∀ a ∈ G.tasks, a.Ended) {a : Task} {ms : List Str}
    (h : (G.logger.finish a).Ordered (fs ++ (G.accepted ++ ms).map (·.take msgSize))) :
    Queued fs { G with tasks := G.tasks ++ [a], accepted := G.accepted ++ ms } where
  ended t b hb hlt := by
    rw [List.length_append, List.length_singleton, Nat.add_lt_add_iff_right] at hlt
    rw [List.getElem?_append_left hlt] at hb
    exact hended b (List.mem_of_getElem? hb)
  ordered b hb := by
    rw [List.getLast?_concat] at hb
    rwa [← Option.some.inj hb]
  empty hnil := absurd hnil (List.concat_ne_nil _ _)

theorem not_ended_of_step {L L' : Logger} {a b : Task} (h : L.step a = some (L', b)) :
    ¬ a.Ended := by
  intro hend
  cases a <;> first | exact hend | cases h

theorem Queued.next {e : Event} (hG : G.Queued fs) (he : G.Serial e) (h : G.next e = some G') :
    G'.Queued fs := by
  cases e with
  | put msg =>
    obtain rfl := Option.some.inj h
    refine Queued.call he ?_
    have hput : (G.logger.put msg).Ordered _ := Logger.ordered_put (hG.ordered_of_ended he)
    rwa [List.append_assoc, ← List.map_singleton (f := fun m : Str => m.take msgSize),
      ← List.map_append] at hput
  | flushAll =>
    obtain rfl := Option.some.inj h
    have hcall : Queued fs { G with
        tasks := G.tasks ++ [.flushAll], accepted := G.accepted ++ [] } := by
      refine Queued.call he ?_
      rw [List.append_nil]
      exact (Logger.ordered_flushAll (hG.ordered_of_ended he)).1
    rwa [List.append_nil] at hcall
  | run t =>
    rcases ha : G.tasks[t]? with _ | a
    · simp [Logging.next, ha] at h
    simp only [Logging.next, ha] at h
    obtain ⟨⟨L, b⟩, hstep, rfl⟩ := Option.map_eq_some_iff.mp h
    have hlt := (List.getElem?_eq_some_iff.mp ha).1
    obtain hlast : t + 1 = G.tasks.length := by
      by_contra hne
      exact not_ended_of_step hstep (hG.ended t a ha (by omega))
    refine ⟨fun t' c hc hlt' => ?_, fun c hc => ?_, fun hnil => ?_⟩
    · rw [List.length_set] at hlt'
      rw [List.getElem?_set_ne (by omega)] at hc
      exact hG.ended t' c hc hlt'
    · rw [List.getLast?_eq_getElem?, List.length_set, ← hlast, Nat.add_sub_cancel,
        List.getElem?_set_self hlt] at hc
      obtain rfl := Option.some.inj hc
      have hordered := hG.ordered a (by
        rw [List.getLast?_eq_getElem?, ← hlast, Nat.add_sub_cancel, ha])
      rwa [← Logger.finish_step hstep] at hordered
    · have := congrArg List.length hnil
      rw [List.length_set, List.length_nil] at this
      omega

variable {maxLogElems maxLogFileSize curRevnum : ℕ}

theorem queued_initial (h : 0 < maxLogElems) :
    (initial maxLogElems maxLogFileSize curRevnum fs).Queued fs := by
  refine ⟨fun t a ha => by simp [initial] at ha, fun a ha => by simp [initial] at ha, fun _ => ?_⟩
  refine ⟨rfl, by simpa [initial, Logger.initial] using h, List.replicate maxLogElems ⟨[], .clean⟩,
    [], ?_, ?_, ?_⟩
  · simp [initial, Logger.initial]
  · intro e he
    rw [List.eq_of_mem_replicate he]
  · simp [initial, Logger.initial, Logger.written]

/-- While the calls come one after the other, the files have the messages in order up to some, and
the ring has the rest, which a flush writes after them. -/
theorem ordered_run {es : List Event} (hpos : 0 < maxLogElems)
    (hes : Run.Along next (fun G e _ => G.Serial e)
      (initial maxLogElems maxLogFileSize curRevnum fs) es)
    (hrun : Run.run next (initial maxLogElems maxLogFileSize curRevnum fs) es = some G)
    (hended : ∀ a ∈ G.tasks, a.Ended) :
    G.logger.Ordered (fs ++ G.accepted.map (·.take msgSize)) ∧
      G.logger.flushAll.written = fs ++ G.accepted.map (·.take msgSize) := by
  have hG : G.Queued fs := by
    refine Run.invariant (I := fun G : Logging => G.Queued fs) ?_ (queued_initial hpos) hes hrun
    exact fun G e G' hG he h => hG.next he h
  have hordered := hG.ordered_of_ended hended
  exact ⟨hordered, (Logger.ordered_flushAll hordered).2⟩

/-- Three messages in a ring of two elements: the third has the first two flushed. -/
def sampleCalls : List Event :=
  [.put [1], .run 0, .run 0, .run 0, .run 0, .run 0, .put [2], .run 1, .run 1, .run 1, .run 1,
    .run 1, .put [3], .run 2, .run 2, .run 2, .run 2, .run 2, .run 2, .run 2, .run 2, .run 2,
    .run 2, .run 2]

theorem ordered_run_full_ring : ∃ G, Run.run next (initial 2 1 0 []) sampleCalls = some G ∧
    G.logger.closed = [[[1], [2]]] ∧ G.logger.fs = [] ∧ G.logger.Ordered [[1], [2], [3]] ∧
      G.logger.flushAll.written = [[1], [2], [3]] := by
  obtain ⟨G, hG, hf⟩ := (Option.any_eq_true _ _).mp (by decide :
    (Run.run next (initial 2 1 0 []) sampleCalls).any fun G =>
      decide (G.logger.closed = [[[1], [2]]] ∧ G.logger.fs = [] ∧
        G.accepted = [[1], [2], [3]] ∧ ∀ a ∈ G.tasks, a.Ended))
  obtain ⟨hclosed, hfs, haccepted, hended⟩ := of_decide_eq_true hf
  have hordered := ordered_run (by decide) (by decide) hG hended
  rw [haccepted] at hordered
  exact ⟨G, hG, hclosed, hfs, hordered⟩

end Logging

end Alone

end LockService
