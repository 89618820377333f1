import LockService.LeaseSafety
import LockService.Registers

/-!
# What an exclusive lock keeps from a file

An owner of an exclusive lock alone changes its file under that path (`file_of_owns`); what is left
are Raft's other commits and calls that spell the path in another way, which the lock table takes
for another path. So while a client has a path in its table as an exclusive lock and its lease
runs, the file is a register of its own (`file_next`, `private_of_lease`).
-/

namespace LockService

open FileTree

/-- A call that may put something in the file of a path, under another spelling. -/
def Event.Respells (cfg : Config) (path : Str) : Event → Prop
  | .openLock _ q _ | .write _ q _ _ => q ≠ path ∧ cfg.fileOf q = cfg.fileOf path
  | _ => False

section Owned

variable {cfg : Config} {s s' : State} {e : Event} {c path : Str}

/-- Only its owner changes a file that is exclusively locked, under the path that is: it is there,
so no `open_lock` puts it there and no temporary file takes its name. -/
theorem file_of_owns (hs : s.WellFormed) (ha : s.Aligned cfg) (hk : e.KeepsPaths cfg s)
    (h : next cfg s e = some s') (hown : Owns s c path .exclusive) :
    (∃ content answer, e = .write c path content answer) ∨ (∃ files, e = .replicate files) ∨
      e.Respells cfg path ∨
      bytes (s'.files.node (cfg.fileOf path)) = bytes (s.files.node (cfg.fileOf path)) := by
  have hx : isExists cfg s.files path = true := hown.isExists hs ha
  rcases files_puts hs ha hk h (cfg.fileOf path) with
    (⟨q, random, hc, hat⟩ | ⟨files, he, -⟩) | ⟨-, hsame⟩
  · unfold putAt at hat
    split_ifs at hat with hland
    · by_cases hq : q = path
      · subst hq
        obtain ⟨d, rfl, -, hok⟩ | ⟨d, rfl, hok⟩ := commits_cases hc
        · rcases openLock_cases cfg d q hs (.committed random) with hr | ⟨-, -, -, -, hno, -⟩
          · exact absurd hok hr.1
          · simp [hx] at hno
        · rcases write_cases cfg d q hs _ (.committed random) with
            hr | ⟨ptr, session, l, lock, -, hreg, -, ho, -⟩
          · exact absurd hok hr.1
          · obtain rfl : d = c := (hown.compatible hs (owns_of_ownedLock hs ha hreg ho)).2 rfl
            exact .inl ⟨_, _, rfl⟩
      · right; right; left
        have hfile := Option.some.inj hat
        obtain ⟨d, rfl, -⟩ | ⟨d, rfl, -⟩ := commits_cases hc <;> exact ⟨hq, hfile⟩
    · have hnew := (freshTemp_of_commits hk hc _ hat).2
      have hsome := isSome_fileOf hx
      rw [hnew] at hsome
      simp at hsome
  · exact .inr (.inl ⟨files, he⟩)
  · exact .inr (.inr (.inr hsame))

theorem file_of_owns_quiet (hs : s.WellFormed) (ha : s.Aligned cfg) (hk : e.KeepsPaths cfg s)
    (h : next cfg s e = some s') (hown : Owns s c path .exclusive)
    (hwrite : ∀ content answer, e ≠ .write c path content answer)
    (hraft : ∀ files, e ≠ .replicate files) (hspell : ¬ e.Respells cfg path) :
    bytes (s'.files.node (cfg.fileOf path)) = bytes (s.files.node (cfg.fileOf path)) := by
  rcases file_of_owns hs ha hk h hown with ⟨content, answer, he⟩ | ⟨files, he⟩ | he | he
  · exact absurd he (hwrite content answer)
  · exact absurd he (hraft files)
  · exact absurd he hspell
  · exact he

end Owned

namespace Service

variable {ι : Type*} [DecidableEq ι]

/-- The client has the path as an exclusive lock and its lease runs; and what happens is none of
Raft's other commits at the node, and no call that spells the path in another way. -/
def Guarded (D : Deployment ι) (i : ι) (path : Str) (p : Service ι × Bool) (e : Event ι) : Prop :=
  (p.2 = true ∧ p.1.clock < p.1.client.deadline ∧ p.1.client.locks[path]? = some .exclusive) ∧
    match e with
    | .cluster (.deliver j call) =>
      j = i → (∀ files, call ≠ .replicate files) ∧ ¬ call.Respells (D.cfg i) path
    | .openLock _ q _ | .write _ q _ _ =>
      q ≠ path → (D.cfg i).fileOf q ≠ (D.cfg i).fileOf path
    | _ => True

/-- The client writes the content to the path, and the node puts it in the path's file. -/
def Writes (D : Deployment ι) (i : ι) (p : Service ι × Bool) (e : Event ι) (path content : Str) :
    Prop :=
  ∃ waited answer s, e = .write waited path content answer ∧
    (p.1.client.jeopardy || waited && p.1.client.expired) = false ∧
    p.1.cluster.servers i = some s ∧
    Puts (D.cfg i) s (.write D.address path content answer) ((D.cfg i).fileOf path) content

/-- What is in a path's file at the node. -/
def fileAt (D : Deployment ι) (i : ι) (p : Service ι × Bool) (path : Str) : Str :=
  (p.1.cluster.servers i).elim [] fun s => bytes (s.files.node ((D.cfg i).fileOf path))

section Step

variable {D : Deployment ι} {w w' : Service ι} {i : ι} {s s' : State} {client : Client ι}
  {path : Str}

theorem respells_under {cfg : Config} {e : LockService.Event} {leader : Bool} :
    (e.under leader).Respells cfg path ↔ e.Respells cfg path := by
  cases e <;> exact Iff.rfl

omit [DecidableEq ι] in
theorem fileAt_eq {p : Service ι × Bool} (hs : p.1.cluster.servers i = some s) :
    fileAt D i p path = bytes (s.files.node ((D.cfg i).fileOf path)) := by
  rw [fileAt, hs, Option.elim_some]

/-- The client's write to the path is refused by its library, or gets to the node. -/
theorem write_locked (hw : Led D i w) (hs : w.cluster.servers i = some s)
    (hpath : path ∈ w.client.locks) {waited : Bool} {content : Str} {answer : RaftAnswer}
    (h : w.next D (.write waited path content answer) = some w') :
    ((w.client.jeopardy || waited && w.client.expired) = true ∧ w' = w) ∨
      (w.client.jeopardy || waited && w.client.expired) = false ∧
        w'.cluster.servers i =
          LockService.next (D.cfg i) s (.write D.address path content answer) := by
  simp only [next, lockCall] at h
  split_ifs at h with hask hrefused hneeds
  · exact .inl ⟨hrefused, (Option.some.inj h).symm⟩
  · obtain ⟨j, hj, rfl⟩ := Option.map_eq_some_iff.mp h
    obtain ⟨rfl, hid⟩ := hw.master j hj
    refine .inr ⟨by simpa using hrefused, ?_⟩
    show (w.deliver D j _).cluster.servers j = _
    rw [servers_deliver, if_pos rfl, hs, Option.bind_some, hid]
    rfl
  · exact absurd (by simpa using hpath) hneeds

omit [DecidableEq ι] in
/-- Nothing the client and the node exchange changes the file, but for the client's own write. -/
theorem file_exchange {e : Event ι} {o : Bool} (hs : s.WellFormed) (ha : s.Aligned (D.cfg i))
    (hserver : w.cluster.servers i = some s) (hx : Exchange D i w s e client s')
    (hclock : OneClock D i w e w') (hkeeps : KeepsPaths D i w e)
    (hguard : Guarded D i path (w, o) e) (hown : Owns s D.address path .exclusive)
    (hno : ∀ waited content answer, e ≠ .write waited path content answer) :
    bytes (s'.files.node ((D.cfg i).fileOf path)) =
      bytes (s.files.node ((D.cfg i).fileOf path)) := by
  cases hx with
  | idle | starting => rfl
  | @served call _ hn =>
    obtain ⟨hraft, hspell⟩ := hguard.2 rfl
    refine file_of_owns_quiet hs ha (keepsPaths_under.mpr (hkeeps s hserver rfl)) hn hown ?_ ?_
      (respells_under.not.mpr hspell)
    · rintro content answer he
      obtain rfl : call = .write D.address path content answer := by
        cases call <;> simp_all [LockService.Event.under]
      exact hclock.2 rfl s hserver rfl
    · intro files he
      refine hraft files ?_
      cases call <;> simp_all [LockService.Event.under]
  | @opened waited q answer _ hn =>
    refine file_of_owns_quiet hs ha (by exact hkeeps s hserver) hn hown (by simp) (by simp) ?_
    exact fun hq => hguard.2 hq.1 hq.2
  | @written waited q content answer _ hn =>
    refine file_of_owns_quiet hs ha (by exact hkeeps s hserver) hn hown ?_ (by simp)
      fun hq => hguard.2 hq.1 hq.2
    rintro _ _ he
    obtain ⟨-, rfl, -, -⟩ := LockService.Event.write.inj he
    exact hno _ _ _ rfl
  | granted hn | denied hn | closed hn | deleted hn | acquired hn =>
    exact file_of_owns_quiet hs ha (by trivial) hn hown (by simp) (by simp) id
  | released _ hn | read _ hn =>
    exact file_of_owns_quiet hs ha (by trivial) hn hown (by simp) (by simp) id
  | extended hr =>
    have hn : LockService.next (D.cfg i) s (.keepAlive true false D.address noClaims w.clock) =
        some s' := by
      rw [LockService.next, hr, Result.survivor]
    exact file_of_owns_quiet hs ha (by trivial) hn hown (by simp) (by simp) id

/-- A step of a guarded path puts there what the client writes, or changes nothing. -/
theorem file_next {o o' : Bool} {e : Event ι} (hw : Held D i (w, o))
    (h : nextOpen D (w, o) e = some (w', o')) (hclock : OneClock D i w e w')
    (hkeeps : KeepsPaths D i w e) (hguard : Guarded D i path (w, o) e) :
    Writes D i (w, o) e path (fileAt D i (w', o') path) ∨
      (∀ v, ¬ Writes D i (w, o) e path v) ∧ fileAt D i (w', o') path = fileAt D i (w, o) path := by
  obtain ⟨hopen, hlease, hlocked⟩ := hguard.1
  obtain ⟨w₁, hn, hp⟩ := Option.map_eq_some_iff.mp h
  obtain ⟨rfl, -⟩ := Prod.mk.inj hp
  obtain ⟨s, hs, hexcl⟩ := hw.exclusive hopen hlease
  obtain ⟨t, ht, ha, -⟩ := hw.server
  obtain ⟨u, hu, hwf⟩ := hw.leasing.led.server
  obtain rfl := Option.some.inj (hs.symm.trans ht)
  obtain rfl := Option.some.inj (hs.symm.trans hu)
  obtain ⟨-, -, -, s', hs', hx⟩ := hw.leasing.led.step hs hn hclock.1
  have hown := (hexcl path _ hlocked).1
  rw [fileAt_eq hs, fileAt_eq hs']
  by_cases hmine : ∃ waited content answer, e = .write waited path content answer
  · obtain ⟨waited, content, answer, rfl⟩ := hmine
    have hmem : path ∈ w.client.locks := by
      rw [Std.ExtTreeMap.mem_iff_isSome_getElem?]
      exact hlocked ▸ rfl
    rcases write_locked hw.leasing.led hs hmem hn with ⟨hrefused, rfl⟩ | ⟨hsent, hcall⟩
    · obtain rfl := Option.some.inj (hs.symm.trans hs')
      refine .inr ⟨?_, rfl⟩
      rintro v ⟨_, _, _, he, hsent, -⟩
      obtain ⟨rfl, -, -, -⟩ := Event.write.inj he
      simp [hrefused] at hsent
    · have hcall := hcall.symm.trans hs'
      rcases files_puts hwf ha (by exact hkeeps s hs) hcall ((D.cfg i).fileOf path) with
        hput | ⟨hnone, hsame⟩
      · have hcontent : bytes (s'.files.node ((D.cfg i).fileOf path)) = content := by
          rcases hput with ⟨q, random, hc, -⟩ | ⟨files, he, -⟩
          · obtain ⟨d, he, -⟩ | ⟨d, he, -⟩ := commits_cases hc
            · simp at he
            · exact ((LockService.Event.write.inj he).2.2.1).symm
          · simp at he
        rw [hcontent] at hput ⊢
        exact .inl ⟨waited, answer, s, rfl, hsent, hs, hput⟩
      · refine .inr ⟨?_, hsame⟩
        rintro v ⟨_, _, _, he, -, hserver, hput⟩
        obtain ⟨rfl, -, rfl, rfl⟩ := Event.write.inj he
        obtain rfl := Option.some.inj (hs.symm.trans hserver)
        exact hnone _ hput
  · refine .inr ⟨?_, file_exchange hwf ha hs hx hclock hkeeps hguard hown fun waited content answer
      he => hmine ⟨waited, content, answer, he⟩⟩
    rintro v ⟨waited, answer, -, he, -⟩
    exact hmine ⟨waited, v, answer, he⟩

end Step

section Runs

variable {D : Deployment ι} {i : ι} {path : Str}

/-- Over a stretch of a run in which the client has a path as an exclusive lock under its lease, the
file is a register of the client's: what is read there is what it wrote last, or what there was. -/
theorem private_of_lease {files : ι → FileTree} {clock : ℤ} {es es' : List (Event ι)}
    {p q : Service ι × Bool} {s : State} {c content : Str}
    (h : Run.Along (nextOpen D)
      (fun p e p' => OneClock D i p.1 e p'.1 ∧ KeepsPaths D i p.1 e ∧ AsksAnew D i p.1 e)
      (initial files (fun j => decide (j = i)) clock, false) (es ++ es'))
    (hrun : Run.run (nextOpen D) (initial files (fun j => decide (j = i)) clock, false) es =
      some p)
    (hguard : Run.Along (nextOpen D) (fun p e _ => Guarded D i path p e) p es')
    (hrun' : Run.run (nextOpen D) p es' = some q) (hs : q.1.cluster.servers i = some s)
    (hr : (LockService.read (D.cfg i) s c path).1 = .ok (.ok, content)) :
    Run.LastPut (nextOpen D) (Writes D i) p es' path content ∨
      Run.NonePut (nextOpen D) (Writes D i) p es' path ∧ content = fileAt D i p path := by
  obtain rfl : fileAt D i q path = content := by
    rw [fileAt_eq hs]
    exact bytes_of_readContent (readContent_of_read hr)
  obtain ⟨hes, hes'⟩ := h.of_append hrun
  have hp : Held D i p := by
    refine Run.invariant (I := Held D i) ?_ (held_initial D i files clock) hes hrun
    exact fun t e t' hI hP hn => held_next hI hn hP.1 hP.2.1 hP.2.2
  refine @Run.last_or_kept _ _ Unit _ _ (fun p e _ v => Writes D i p e path v)
    (fun q _ => fileAt D i q path) (Held D i) _ ?_ () _ _ _ hp (hes'.and hguard) hrun'
  rintro t e t' hI ⟨⟨hclock, hkeeps, hanew⟩, hg⟩ hn
  exact ⟨held_next hI hn hclock hkeeps hanew, fun _ => file_next hI hn hclock hkeeps hg⟩

/-- Another client's write is no part of it. -/
theorem private_of_lease_intruder : ∃ p q s, Run.run (nextOpen sampleDeployment)
      (sampleService, false) [.startSession, .initSession,
        .acquireLock false (ascii ['a']) .exclusive] = some p ∧
    Run.run (nextOpen sampleDeployment) p [.write false (ascii ['a']) [5] (.committed 8),
        .cluster (.deliver () (.initSession true [9] 0)),
        .cluster (.deliver () (.write [9] (ascii ['a']) [6] (.committed 9)))] = some q ∧
    q.1.cluster.servers () = some s ∧
    (LockService.read sampleConfig s [1] (ascii ['a'])).1 = .ok (.ok, [5]) ∧
    Run.LastPut (nextOpen sampleDeployment) (Writes sampleDeployment ()) p
      [.write false (ascii ['a']) [5] (.committed 8),
        .cluster (.deliver () (.initSession true [9] 0)),
        .cluster (.deliver () (.write [9] (ascii ['a']) [6] (.committed 9)))]
      (ascii ['a']) [5] := by
  obtain ⟨p, hp, hcheck⟩ := (Option.any_eq_true _ _).mp (by decide +kernel :
    (Run.run (nextOpen sampleDeployment) (sampleService, false) [.startSession, .initSession,
      .acquireLock false (ascii ['a']) .exclusive]).any fun p =>
      (fileAt sampleDeployment () p (ascii ['a']) = []) &&
      (Run.run (nextOpen sampleDeployment) p [.write false (ascii ['a']) [5] (.committed 8),
        .cluster (.deliver () (.initSession true [9] 0)),
        .cluster (.deliver () (.write [9] (ascii ['a']) [6] (.committed 9)))]).any fun q =>
        (q.1.cluster.servers ()).any fun s =>
          (LockService.read sampleConfig s [1] (ascii ['a'])).1 = .ok (.ok, [5]))
  simp only [Bool.and_eq_true, decide_eq_true_eq, Option.any_eq_true] at hcheck
  obtain ⟨hempty, q, hq, s, hs, hread⟩ := hcheck
  have hother : ([9] : Str) ≠ [1] := by decide
  refine ⟨p, q, s, hp, hq, hs, hread, (private_of_lease ?_ hp ?_ hq hs hread).resolve_right ?_⟩
  · intro p₁ h₁
    obtain rfl := Option.some.inj h₁
    refine ⟨⟨⟨⟨by decide, trivial⟩, trivial⟩, fun _ _ => trivial, trivial⟩, fun p₂ h₂ => ?_⟩
    obtain rfl := Option.some.inj h₂
    refine ⟨⟨⟨⟨by decide, trivial⟩, trivial⟩, fun _ _ => trivial, fun s ptr session hs hreg => ?_⟩,
      fun p₃ h₃ => ?_⟩
    · obtain rfl : State.initial (sampleFiles [ascii ['a']]) = s := Option.some.inj hs
      simp [State.Registered, State.initial] at hreg
    obtain rfl := Option.some.inj h₃
    refine ⟨⟨⟨⟨by decide, trivial⟩, trivial⟩, fun _ _ => trivial, trivial⟩, fun p₄ h₄ => ?_⟩
    obtain rfl := Option.some.inj h₄
    refine ⟨⟨⟨⟨by decide +kernel, trivial⟩, trivial⟩, fun s hs => ?_, trivial⟩, fun p₅ h₅ => ?_⟩
    · obtain rfl := Option.some.inj hs
      rintro random ⟨⟩
      decide +kernel
    obtain rfl := Option.some.inj h₅
    refine ⟨⟨⟨⟨by decide +kernel, trivial⟩, fun _ _ _ => hother⟩, fun _ _ _ => trivial,
      trivial⟩, fun p₆ h₆ => ?_⟩
    obtain rfl := Option.some.inj h₆
    refine ⟨⟨⟨⟨by decide +kernel, trivial⟩, fun _ _ _ => hother⟩, fun s hs _ => ?_, trivial⟩,
      trivial⟩
    obtain rfl := Option.some.inj hs
    rintro random ⟨⟩
    decide +kernel
  · obtain rfl := Option.some.inj hp
    refine fun p₁ h₁ => ⟨⟨by decide +kernel, fun hne => absurd rfl hne⟩, fun p₂ h₂ => ?_⟩
    obtain rfl := Option.some.inj h₁
    refine ⟨⟨by decide +kernel, fun _ => ⟨fun _ => by simp, id⟩⟩, fun p₃ h₃ => ⟨⟨?_, ?_⟩, trivial⟩⟩
    · obtain rfl := Option.some.inj h₂
      decide +kernel
    · exact fun _ => ⟨fun _ => by simp, fun h => h.1 rfl⟩
  · rintro ⟨-, hkept⟩
    simp [hempty] at hkept

end Runs

end Service

end LockService
