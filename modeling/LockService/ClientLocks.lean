import LockService.OneLeader
import LockService.Readers

/-!
# The client's table and the server's

Each call changes the client's table by its answer and the server's by what the server did, and the
two stay in step (`agrees_exchange`) as long as the client does not ask for what undoes it: `read`
erases the lock it read under, `close_session` erases nothing though the server releases, and
`start_session` erases everything though an old session keeps its locks.
-/

namespace LockService

namespace Service

variable {ι : Type*} [DecidableEq ι]

/-- The client takes itself to hold what it owns at the node, in the mode of the lock there. -/
def Agrees (D : Deployment ι) (i : ι) (w : Service ι) : Prop :=
  ∃ s, w.cluster.servers i = some s ∧
    ∀ p m, w.client.locks[p]? = some m ↔ Owns s D.address p m

/-- The node goes on and alone leads, nobody else has the client's address, and the lease that the
client has there does not run out. -/
def OneLeader (D : Deployment ι) (i : ι) (w : Service ι) (e : Event ι) (w' : Service ι) : Prop :=
  (w'.cluster.servers i).isSome ∧ match e with
  | .cluster (.elect leads) => ∀ j, leads j = true ↔ j = i
  | .cluster (.deliver j e) => j = i → ∀ s, w.cluster.servers i = some s → e.Foreign s D.address
  | .keepAlive _ isCancelled => isCancelled = false
  | .timeout _ => False
  | _ => True

/-- No commit at the node draws a temporary name in use, and none takes a path away. -/
def KeepsPaths (D : Deployment ι) (i : ι) (w : Service ι) (e : Event ι) : Prop :=
  ∀ s, w.cluster.servers i = some s → match e with
  | .cluster (.deliver j e) => j = i → e.KeepsPaths (D.cfg i) s
  | .openLock _ path answer | .write _ path _ answer => ∀ random, answer = .committed random →
    FreshTemp s.files ((D.cfg i).mappedPath path) random
  | _ => True

/-- The client starts a session when it holds nothing, closes one when the server has nothing to
release, and reads nothing that it holds and that can be read. -/
def Mindful (D : Deployment ι) (i : ι) (w : Service ι) : Event ι → Prop
  | .startSession => w.client.locks = ∅
  | .closeSession => ∀ s ptr session, w.cluster.servers i = some s →
    s.Registered D.address ptr session → session.terminated = false →
    reached (D.cfg i) s session D.address = []
  | .read _ path => ∀ s content, w.cluster.servers i = some s →
    readContent (D.cfg i) s.files path = .ok content → path ∉ w.client.locks
  | _ => True

/-- What the step relation keeps while one node leads. -/
structure InStep (D : Deployment ι) (i : ι) (w : Service ι) : Prop where
  led : Led D i w
  agrees : ∃ s, w.cluster.servers i = some s ∧ s.Aligned (D.cfg i) ∧
    ∀ p m, w.client.locks[p]? = some m ↔ Owns s D.address p m

section Calls

variable {cfg : Config} {s s' : State} {c path : Str} {locks : Dict LockStatus} {p : Str}
  {m : LockStatus}

/-- `insert` overwrites nothing, and has no need to: what the client has it holds as it asks. -/
theorem getElem?_insertIfNew_acquired (hs : s.WellFormed) {mode : LockStatus}
    (hown : ∀ m, locks[path]? = some m → Owns s c path m)
    (hok : (acquireLock cfg s c path mode).1 = .ok .ok) :
    (locks.insertIfNew path mode)[p]? = if p = path then some mode else locks[p]? := by
  rw [getElem?_insertIfNew_eq]
  rcases hl : locks[path]? with _ | m'
  · rfl
  · rw [Option.getD_some, (hown m' hl).mode_acquired hs hok]

theorem agrees_acquireLock (hs : s.WellFormed) (ha : s.Aligned cfg) {mode : LockStatus}
    (hagree : ∀ p m, locks[p]? = some m ↔ Owns s c p m)
    (hok : (acquireLock cfg s c path mode).1 = .ok .ok) :
    (locks.insertIfNew path mode)[p]? = some m ↔ Owns (acquireLock cfg s c path mode).2 c p m := by
  rw [owns_acquireLock hs ha hok,
    getElem?_insertIfNew_acquired hs (fun m hm => (hagree path m).mp hm) hok]
  split_ifs with hp
  · simp [eq_comm]
  · exact hagree p m

theorem agrees_releaseLock (hs : s.WellFormed) (ha : s.Aligned cfg)
    (hagree : ∀ p m, locks[p]? = some m ↔ Owns s c p m)
    (hok : (releaseLock cfg s c path).1 = .ok .ok) :
    (locks.erase path)[p]? = some m ↔ Owns (releaseLock cfg s c path).2 c p m := by
  rw [owns_releaseLock hs ha hok, getElem?_erase_eq]
  split_ifs with hp
  · simp [hp]
  · rw [hagree p m, and_iff_right hp]

theorem read_of_map (hok : (LockService.read cfg s c path).1.map Prod.fst = .ok .ok) :
    ∃ content, (LockService.read cfg s c path).1 = .ok (.ok, content) := by
  rcases hr : (LockService.read cfg s c path).1 with f | ⟨status, content⟩
  · simp [hr, Except.map] at hok
  · rw [hr] at hok
    obtain rfl : status = .ok := Except.ok.inj hok
    exact ⟨content, rfl⟩

end Calls

section Step

variable {D : Deployment ι} {w w' : Service ι} {i : ι} {e : Event ι}

omit [DecidableEq ι] in
theorem OneLeader.calm (h : OneLeader D i w e w') : Calm i e w' := by
  obtain ⟨hsurv, hone⟩ := h
  refine ⟨hsurv, ?_⟩
  cases e with
  | cluster e =>
    cases e with
    | elect leads => exact hone
    | deliver j e => trivial
  | _ => exact hone

theorem foreign_under {s : State} {c : Str} {e : LockService.Event} (leader : Bool) :
    (e.under leader).Foreign s c ↔ e.Foreign s c := by
  cases e <;> exact Iff.rfl

theorem keepsPaths_under {cfg : Config} {s : State} {e : LockService.Event} {leader : Bool} :
    (e.under leader).KeepsPaths cfg s ↔ e.KeepsPaths cfg s := by
  cases e <;> exact Iff.rfl

omit [DecidableEq ι] in
/-- Whatever a mindful client and the leader exchange, and whatever others ask for, the tables stay
in step. -/
theorem agrees_exchange {s s' : State} {client : Client ι} (hs : s.WellFormed)
    (ha : s.Aligned (D.cfg i)) (hserver : w.cluster.servers i = some s)
    (hagree : ∀ p m, w.client.locks[p]? = some m ↔ Owns s D.address p m)
    (hx : Exchange D i w s e client s') (hone : OneLeader D i w e w') (hkeeps : KeepsPaths D i w e)
    (hmind : Mindful D i w e) : s'.Aligned (D.cfg i) ∧
      ∀ p m, client.locks[p]? = some m ↔ Owns s' D.address p m := by
  cases hx with
  | idle => exact ⟨ha, hagree⟩
  | served hn =>
    have hf := persists_next hs ha (keepsPaths_under.mpr (hkeeps s hserver rfl)) hn
    refine ⟨aligned_next hs ha hf hn, fun p m => ?_⟩
    rw [hagree p m]
    exact (owns_foreign hs ha hf ((foreign_under _).mpr (hone.2 rfl s hserver)) hn).symm
  | starting =>
    refine ⟨ha, fun p m => ?_⟩
    rw [← hagree p m, show w.client.locks = ∅ from hmind]
    exact Iff.rfl
  | granted hn | denied hn | opened hn | deleted hn | written hn =>
    have hf := persists_next hs ha (by exact hkeeps s hserver) hn
    refine ⟨aligned_next hs ha hf hn, fun p m => ?_⟩
    rw [hagree p m]
    exact (owns_quiet hs ha hf (by trivial) hn).symm
  | closed hn =>
    refine ⟨aligned_next hs ha (persists_next hs ha (by trivial) hn) hn, fun p m => ?_⟩
    rw [hagree p m]
    refine (owns_closeSession hs (fun ptr session hreg ht => ?_) hn).symm
    rw [hmind s ptr session hserver hreg ht]
    exact List.not_mem_nil
  | acquired hn =>
    refine ⟨aligned_next hs ha (persists_next hs ha (by trivial) hn) hn, fun p m => ?_⟩
    obtain rfl := survivor_eq hn
    split_ifs with hok
    · exact agrees_acquireLock hs ha hagree hok
    · rw [acquireLock_unchanged hs hok]
      exact hagree p m
  | released hp hn =>
    refine ⟨aligned_next hs ha (persists_next hs ha (by trivial) hn) hn, fun p m => ?_⟩
    obtain rfl := survivor_eq hn
    split_ifs with hok
    · exact agrees_releaseLock hs ha hagree hok
    · rw [releaseLock_unchanged hs hok]
      exact hagree p m
  | read hp hn =>
    have hf := persists_next hs ha (by trivial) hn
    refine ⟨aligned_next hs ha hf hn, fun p m => ?_⟩
    rw [if_neg, hagree p m]
    · exact (owns_quiet hs ha hf (by trivial) hn).symm
    · intro hok
      obtain ⟨content, hr⟩ := read_of_map hok
      exact hmind s content hserver (readContent_of_read hr) hp
  | extended hr =>
    have hn : LockService.next (D.cfg i) s (.keepAlive true false D.address noClaims w.clock) =
        some s' := by
      rw [LockService.next, hr, Result.survivor]
    refine ⟨aligned_next hs ha (persists_next hs ha (by trivial) hn) hn, fun p m => ?_⟩
    rw [hagree p m]
    exact (owns_keepAlive hs ha rfl hn).symm

theorem inStep_next (hw : InStep D i w) (h : w.next D e = some w') (hone : OneLeader D i w e w')
    (hkeeps : KeepsPaths D i w e) (hmind : Mindful D i w e) : InStep D i w' := by
  obtain ⟨s, hs, ha, hagree⟩ := hw.agrees
  obtain ⟨t, ht, hwf⟩ := hw.led.server
  obtain rfl := Option.some.inj (hs.symm.trans ht)
  obtain ⟨hled, -, -, s', hs', hx⟩ := hw.led.step hs h hone.calm
  exact ⟨hled, s', hs', agrees_exchange hwf ha hs hagree hx hone hkeeps hmind⟩

end Step

section Runs

variable {D : Deployment ι} {i : ι}

theorem inStep_initial (D : Deployment ι) (i : ι) (files : ι → FileTree) (clock : ℤ) :
    InStep D i (initial files (fun j => decide (j = i)) clock) := by
  refine ⟨.initial D i files clock, .initial (files i), rfl, aligned_initial _, fun p m => ?_⟩
  simp [initial, Client.initial, Owns, State.lockOf, State.initial]

/-- In a run under one leader in which the client is mindful, its table is the server's. -/
theorem agrees_of_mindful {files : ι → FileTree} {clock : ℤ} {es : List (Event ι)} {w : Service ι}
    (h : Run.Along (next D)
      (fun w e w' => OneLeader D i w e w' ∧ KeepsPaths D i w e ∧ Mindful D i w e)
      (initial files (fun j => decide (j = i)) clock) es)
    (hrun : Run.run (next D) (initial files (fun j => decide (j = i)) clock) es = some w) :
    Agrees D i w := by
  have hw : InStep D i w := by
    refine Run.invariant (I := InStep D i) ?_ (inStep_initial D i files clock) h hrun
    exact fun t e t' hI hP hn => inStep_next hI hn hP.1 hP.2.1 hP.2.2
  obtain ⟨s, hs, -, hagree⟩ := hw.agrees
  exact ⟨s, hs, hagree⟩

/-- The client `[1]` and one node, which has the file `a`. -/
def sampleDeployment : Deployment Unit := ⟨[1], [()], fun _ => sampleConfig⟩

def sampleService : Service Unit :=
  initial (fun _ => sampleFiles [ascii ['a']]) (fun j => decide (j = ())) 0

/-- The client holds `a` in shared mode, gives it back and holds it alone in the end. -/
theorem agrees_of_mindful_holding : ∃ w, Run.run (next sampleDeployment) sampleService
      [.startSession, .initSession, .acquireLock false (ascii ['a']) .shared,
        .releaseLock false (ascii ['a']), .acquireLock false (ascii ['a']) .exclusive] = some w ∧
    w.client.locks[ascii ['a']]? = some .exclusive ∧ Agrees sampleDeployment () w := by
  obtain ⟨w, hw, hheld⟩ := (Option.any_eq_true _ _).mp (by decide : (Run.run
    (next sampleDeployment) sampleService [.startSession, .initSession,
      .acquireLock false (ascii ['a']) .shared, .releaseLock false (ascii ['a']),
      .acquireLock false (ascii ['a']) .exclusive]).any
        fun w => w.client.locks[ascii ['a']]? = some .exclusive)
  refine ⟨w, hw, by simpa using hheld, agrees_of_mindful ?_ hw⟩
  intro w₁ h₁
  obtain rfl := Option.some.inj h₁
  refine ⟨⟨⟨by decide, trivial⟩, fun _ _ => trivial, rfl⟩, fun w₂ h₂ => ?_⟩
  obtain rfl := Option.some.inj h₂
  refine ⟨⟨⟨by decide, trivial⟩, fun _ _ => trivial, trivial⟩, fun w₃ h₃ => ?_⟩
  obtain rfl := Option.some.inj h₃
  refine ⟨⟨⟨by decide, trivial⟩, fun _ _ => trivial, trivial⟩, fun w₄ h₄ => ?_⟩
  obtain rfl := Option.some.inj h₄
  refine ⟨⟨⟨by decide, trivial⟩, fun _ _ => trivial, trivial⟩, fun w₅ h₅ => ?_⟩
  obtain rfl := Option.some.inj h₅
  exact ⟨⟨⟨by decide, trivial⟩, fun _ _ => trivial, trivial⟩, trivial⟩

/-- A `read` of `a`, held in shared mode, has the client forget that it holds it. -/
theorem not_agrees_after_read : ∃ es w,
    Run.Along (next sampleDeployment) (OneLeader sampleDeployment ()) sampleService es ∧
      Run.run (next sampleDeployment) sampleService es = some w ∧
        ¬ Agrees sampleDeployment () w := by
  obtain ⟨w, hw, hf⟩ := (Option.any_eq_true _ _).mp (by decide :
    (Run.run (next sampleDeployment) sampleService
      [.startSession, .initSession, .acquireLock false (ascii ['a']) .shared,
        .read false (ascii ['a'])]).any fun w => ascii ['a'] ∉ w.client.locks ∧
          (w.cluster.servers ()).any fun s => (s.lockOf (ascii ['a'])).any fun lock =>
            lock.status = .shared ∧ [1] ∈ lock.owners)
  refine ⟨_, w, ?_, hw, ?_⟩
  · intro w₁ h₁
    obtain rfl := Option.some.inj h₁
    refine ⟨⟨by decide, trivial⟩, fun w₂ h₂ => ?_⟩
    obtain rfl := Option.some.inj h₂
    refine ⟨⟨by decide, trivial⟩, fun w₃ h₃ => ?_⟩
    obtain rfl := Option.some.inj h₃
    refine ⟨⟨by decide, trivial⟩, fun w₄ h₄ => ?_⟩
    obtain rfl := Option.some.inj h₄
    exact ⟨⟨by decide, trivial⟩, trivial⟩
  rintro ⟨s, hs, hagree⟩
  simp only [hs, Option.any_some, decide_eq_true_eq, Option.any_eq_true] at hf
  obtain ⟨hno, lock, hlock, hst, hc⟩ := hf
  have hlocks := (hagree (ascii ['a']) .shared).mpr ⟨lock, hlock, hst, hc⟩
  exact hno (mem_iff_exists_getElem?.mpr ⟨_, hlocks⟩)

end Runs

end Service

end LockService
