import LockService.LogShipping
import LockService.StaleReads

/-!
# From the log to the files

A server commits what its own store has, entry by entry: it decodes the bytes a leader encoded,
which have come to it through whatever stores, and writes the file. While its commits go through,
its files are what the first entries of the one log wrote, as many as it has committed, whatever the
other servers have (`replicated_run`).
-/

namespace LockService

open FileTree

/-- `log_val_type::conf`. -/
def conf : UInt8 := 2

/-- What the state machine is to do for the entry. -/
def LogEntry.decoded (e : LogEntry) : Option Entry :=
  if e.valType = appLog then (decLog e.buf).bind fun payload =>
    if h : payload.Fits then some ⟨payload, h⟩ else none
  else none

/-- The entry is one that `append_log` encoded, or a configuration. -/
def LogEntry.Sent (e : LogEntry) : Prop :=
  (e.valType = appLog ∧ ∃ entry : Entry, e.buf = entry.data) ∨ e.valType = conf

/-- `commit_config`. -/
def StateMachine.commitConfig (sm : StateMachine) (logIdx : ℕ) : StateMachine :=
  { sm with lastCommittedIdx := logIdx }

/-- The servers' stores and their state machines. -/
structure Replicas (ι : Type*) where
  logs : LogGroup ι
  machines : ι → StateMachine

namespace Replicas

/-- Something happens to the stores; a server commits the next entry of its own, or takes a
snapshot of what it has committed. -/
inductive Event (ι : Type*) where
  | log (event : LogGroup.Event ι)
  | commit (server : ι) (random : ℕ)
  | snapshot (server : ι) (term : ℕ)

variable {ι : Type*} [DecidableEq ι] (serialize : LogEntry → List UInt8)
  (deserialize : List UInt8 → Option LogEntry) (cfg : ι → Config)

def initial (bufs : ι → List UInt8) : Replicas ι := ⟨.initial bufs, fun _ => .initial .empty⟩

def put (R : Replicas ι) (i : ι) (sm : StateMachine) : Replicas ι :=
  { R with machines := Function.update R.machines i sm }

/-- The index a server commits next, and what its store has there. -/
def nextIdx (R : Replicas ι) (i : ι) : ℕ := (R.machines i).lastCommittedIdx + 1

def nextEntry (R : Replicas ι) (i : ι) : Option LogEntry :=
  (R.logs.store i).entryAt (R.nextIdx i)

/-- The servers go on after a step in which nothing throws. -/
def next (R : Replicas ι) : Event ι → Option (Replicas ι)
  | .log e => (R.logs.next serialize deserialize e).map fun logs => { R with logs }
  | .commit i random => (R.nextEntry i).bind fun e =>
    if e.valType = appLog then
      match (R.machines i).commit (cfg i) (R.nextIdx i) e.buf random with
      | .error _ => none
      | .ok sm => some (R.put i sm)
    else some (R.put i ((R.machines i).commitConfig (R.nextIdx i)))
  | .snapshot i term => some (R.put i
    ((R.machines i).createSnapshotInternal ⟨(R.machines i).lastCommittedIdx, term⟩))

/-- Leaders append what they encoded; a server commits what is in its store, and a write that it
commits goes through. -/
def Orderly (R : Replicas ι) : Event ι → Prop
  | .log e => LogGroup.Orderly serialize deserialize R.logs e ∧ match e with
    | .append _ entry => entry.Sent
    | _ => True
  | .commit i random =>
    ((R.logs.store i).startIndex ≤ R.nextIdx i ∧ R.nextIdx i < (R.logs.store i).nextSlot) ∧
      ∀ e entry, R.nextEntry i = some e → e.decoded = some entry →
        entry.payload.type = .write → Installs (cfg i) entry random (R.machines i).files
  | .snapshot _ _ => True

/-- The entries of the one log that a server has committed. -/
def applied (R : Replicas ι) (i : ι) : List Entry :=
  (R.logs.history.entries.take (R.machines i).lastCommittedIdx).filterMap LogEntry.decoded

/-- What holds of the files at any time. -/
structure Replicated (R : Replicas ι) : Prop where
  /-- What a path reads is the newest the log has for its file, as far as the server is. -/
  read : ∀ i path content, readContent (cfg i) (R.machines i).files path = .ok content →
    (newestAt (cfg i) (R.applied i) ((cfg i).fileOf path)).getD [] = content
  /-- What was written can be read. -/
  written : ∀ i e, e ∈ R.applied i → e.payload.type = .write → ∃ content,
    newestAt (cfg i) (R.applied i) (e.file (cfg i)) = some content ∧
      readContent (cfg i) (R.machines i).files e.payload.path = .ok content
  /-- Of two servers the one has committed what the other has, and maybe more. -/
  behind : ∀ i j, (R.machines i).lastCommittedIdx ≤ (R.machines j).lastCommittedIdx →
    R.applied i <+: R.applied j
  /-- An orderly step throws nothing. -/
  goesOn : ∀ e, Orderly serialize deserialize cfg R e →
    (R.next serialize deserialize cfg e).isSome

/-- What a step keeps. -/
structure Sound (R : Replicas ι) : Prop where
  stores : ∀ i, ∃ log, LogGroup.Tracks R.logs.history (R.logs.store i) log
  first : R.logs.history.offset = 1
  sent : ∀ e ∈ R.logs.history.entries, e.Sent
  committed : ∀ i, (R.machines i).lastCommittedIdx ≤ R.logs.history.entries.length
  files : ∀ i, Written (cfg i) (R.applied i) (R.machines i).files
  there : ∀ i e, e ∈ R.applied i → e.payload.type = .write →
    isExists (cfg i) (R.machines i).files e.payload.path = true

section Entries

variable {e e' : LogEntry} {entry : Entry}

theorem decoded_data (htype : e.valType = appLog) (hbuf : e.buf = entry.data) :
    e.decoded = some entry := by
  rw [LogEntry.decoded, if_pos htype, hbuf, entry.decLog_data, Option.bind_some,
    dif_pos entry.fits]

theorem decoded_conf (htype : e.valType = conf) : e.decoded = none := by
  rw [LogEntry.decoded, if_neg (by rw [htype]; decide)]

/-- An entry does the same wherever it has come to. -/
theorem decoded_same (h : e.Same e') : e.decoded = e'.decoded := by
  rw [LogEntry.decoded, LogEntry.decoded, h.2.1, h.2.2]

theorem decoded_cases (h : e.Sent) :
    (e.valType = appLog ∧ ∃ entry : Entry, e.buf = entry.data ∧ e.decoded = some entry) ∨
      e.valType = conf ∧ e.decoded = none := by
  rcases h with ⟨htype, entry, hbuf⟩ | htype
  · exact .inl ⟨htype, entry, hbuf, decoded_data htype hbuf⟩
  · exact .inr ⟨htype, decoded_conf htype⟩

end Entries

section Commit

variable {cfg : Config} {es : List Entry} {sm : StateMachine} {entry : Entry} {random : ℕ}
  {files : FileTree}

theorem isSome_newestAt (h : entry ∈ es) (he : entry.payload.type = .write) :
    (newestAt cfg es (entry.file cfg)).isSome := by
  rw [newestAt, lastWritten, Option.isSome_map, List.getLast?_isSome]
  refine List.ne_nil_of_mem (List.mem_filter.mpr ⟨h, ?_⟩)
  simp [he]

/-- A commit that is in the clear is done, and its path is there. -/
theorem commit_clear (hw : Written cfg es sm.files)
    (hi : entry.payload.type = .write → Installs cfg entry random sm.files) (idx : ℕ) :
    ∃ sm', sm.commit cfg idx entry.data random = .ok sm' ∧ sm'.lastCommittedIdx = idx ∧
      Written cfg (es ++ [entry]) sm'.files ∧ Persists cfg sm.files sm'.files ∧
      (entry.payload.type = .write → isExists cfg sm'.files entry.payload.path = true) := by
  obtain ⟨files, hok⟩ : ∃ files, commitFiles cfg sm.files entry.payload random = .ok files := by
    by_cases he : entry.payload.type = .write
    · obtain ⟨files, hok, -⟩ := (hi he).paint he
      exact ⟨files, hok⟩
    · unfold commitFiles
      split
      · contradiction
      · exact ⟨sm.files, rfl⟩
  obtain ⟨hw', hkeep⟩ := written_commit hw hi hok
  refine ⟨{ sm with files, curValue := some entry.payload.path, lastCommittedIdx := idx }, ?_, rfl,
    hw', hkeep, fun he => ?_⟩
  · simp only [StateMachine.commit, entry.decLog_data, hok]
  · unfold commitFiles at hok
    rw [he] at hok
    exact isPresent_of_commitWrite (mappedPath_ne_nil _ _) (hi he).fresh.tempFree hok

end Commit

section Step

variable {serialize : LogEntry → List UInt8} {deserialize : List UInt8 → Option LogEntry}
  {cfg : ι → Config} {R R' : Replicas ι} {i : ι} {sm : StateMachine}

theorem applied_put : (R.put i sm).applied i =
    (R.logs.history.entries.take sm.lastCommittedIdx).filterMap LogEntry.decoded := by
  simp only [applied, put, Function.update_self]

omit [DecidableEq ι] in
/-- What a server commits next is what was appended there. -/
theorem Sound.nextEntry (hR : Sound cfg R)
    (hin : (R.logs.store i).startIndex ≤ R.nextIdx i ∧ R.nextIdx i < (R.logs.store i).nextSlot) :
    ∃ e e₀, R.nextEntry i = some e ∧ e.Same e₀ ∧
      R.logs.history.entries[(R.machines i).lastCommittedIdx]? = some e₀ := by
  obtain ⟨log, ⟨dummy, hs⟩, hf⟩ := hR.stores i
  rw [InmemLogStore.startIndex, hs.start, hs.nextSlot] at hin
  obtain ⟨e, he⟩ := Option.isSome_iff_exists.mp (OffsetLog.isSome_get?.mpr hin)
  obtain ⟨e₀, he₀, hsame⟩ := hf _ e he
  refine ⟨makeClone e, e₀, ?_, hsame, ?_⟩
  · rw [Replicas.nextEntry, InmemLogStore.entryAt, hs.find, he]
    rfl
  · unfold OffsetLog.get? at he₀
    rw [hR.first, nextIdx] at he₀
    simpa using he₀

/-- One server's machine goes on, the log and the others stay. -/
theorem Sound.put (hR : Sound cfg R)
    (hc : sm.lastCommittedIdx ≤ R.logs.history.entries.length)
    (hw : Written (cfg i) ((R.put i sm).applied i) sm.files)
    (ht : ∀ e ∈ (R.put i sm).applied i, e.payload.type = .write →
      isExists (cfg i) sm.files e.payload.path = true) : Sound cfg (R.put i sm) where
  stores := hR.stores
  first := hR.first
  sent := hR.sent
  committed j := by
    by_cases hj : j = i
    · subst hj
      simpa [Replicas.put] using hc
    · simpa [Replicas.put, hj] using hR.committed j
  files j := by
    by_cases hj : j = i
    · subst hj
      simpa [Replicas.put] using hw
    · simpa [Replicas.put, applied, hj] using hR.files j
  there j e he := by
    by_cases hj : j = i
    · subst hj
      simpa [Replicas.put] using ht e he
    · simpa [Replicas.put, hj] using hR.there j e (by simpa [Replicas.put, applied, hj] using he)

/-- The log grows at its end, if it does. -/
theorem history_next {G G' : LogGroup ι} {e : LogGroup.Event ι}
    (h : G.next serialize deserialize e = some G') :
    G'.history = G.history ∨ ∃ i entry, e = .append i entry ∧
      G'.history = G.history.append entry := by
  unfold LogGroup.next at h
  split at h
  · obtain rfl := Option.some.inj h
    exact .inr ⟨_, _, rfl, rfl⟩
  · obtain rfl := Option.some.inj h
    exact .inl rfl
  · split at h
    · obtain rfl := Option.some.inj h
      exact .inl rfl
    · cases h
  · split at h
    · cases h
    · split at h
      · obtain rfl := Option.some.inj h
        exact .inl rfl
      · cases h

/-- What happens to the stores leaves what is committed. -/
theorem Sound.log {e : LogGroup.Event ι} {G' : LogGroup ι} (hR : Sound cfg R)
    (he : Orderly serialize deserialize cfg R (.log e))
    (h : R.logs.next serialize deserialize e = some G') : Sound cfg { R with logs := G' } := by
  obtain ⟨horderly, hsent⟩ := he
  obtain ⟨G'', hG'', hstores⟩ := LogGroup.tracks_next hR.stores horderly
  obtain rfl := Option.some.inj (hG''.symm.trans h)
  rcases history_next h with hsame | ⟨i, entry, rfl, hgrown⟩
  · have happlied : ∀ j, applied ({ R with logs := G'' } : Replicas ι) j = R.applied j :=
      fun j => by rw [applied, applied, hsame]
    exact ⟨hstores, hsame ▸ hR.first, hsame ▸ hR.sent, hsame ▸ hR.committed,
      fun j => happlied j ▸ hR.files j, fun j => happlied j ▸ hR.there j⟩
  · have hentries : G''.history.entries = R.logs.history.entries ++ [entry] := by
      rw [hgrown]
      rfl
    have happlied : ∀ j, applied ({ R with logs := G'' } : Replicas ι) j = R.applied j := by
      intro j
      rw [applied, applied, hentries, List.take_append_of_le_length (hR.committed j)]
    refine ⟨hstores, ?_, fun e he => ?_, fun j => ?_, fun j => happlied j ▸ hR.files j,
      fun j => happlied j ▸ hR.there j⟩
    · rw [hgrown]
      exact hR.first
    · rw [hentries] at he
      rcases List.mem_append.mp he with he | he
      · exact hR.sent e he
      · exact List.mem_singleton.mp he ▸ hsent
    · rw [hentries, List.length_append]
      exact (hR.committed j).trans (Nat.le_add_right _ _)

/-- A server commits one entry more of the log. -/
theorem Sound.commit {random : ℕ} (hR : Sound cfg R)
    (h : Orderly serialize deserialize cfg R (.commit i random)) :
    ∃ R', R.next serialize deserialize cfg (.commit i random) = some R' ∧ Sound cfg R' := by
  obtain ⟨hin, hclear⟩ := h
  obtain ⟨e, e₀, he, hsame, he₀⟩ := hR.nextEntry hin
  have hlt : (R.machines i).lastCommittedIdx < R.logs.history.entries.length :=
    (List.getElem?_eq_some_iff.mp he₀).1
  have happlied : ∀ sm : StateMachine, sm.lastCommittedIdx = R.nextIdx i →
      (R.put i sm).applied i = R.applied i ++ e₀.decoded.toList := by
    intro sm hidx
    rw [applied_put, hidx, nextIdx, List.take_add_one, he₀, List.filterMap_append]
    rcases hd : e₀.decoded with _ | entry <;> simp [applied, hd]
  rcases decoded_cases (hR.sent e₀ (List.mem_of_getElem? he₀)) with
    ⟨htype, entry, hbuf, hdec⟩ | ⟨htype, hdec⟩
  · obtain ⟨sm, hcommit, hidx, hw, hkeep, hx⟩ := commit_clear (hR.files i)
      (hclear e entry he (decoded_same hsame ▸ hdec)) (R.nextIdx i)
    refine ⟨R.put i sm, ?_, hR.put (hidx ▸ hlt) ?_ ?_⟩
    · rw [Replicas.next, he, Option.bind_some, if_pos (hsame.2.1.trans htype), hsame.2.2, hbuf,
        hcommit]
    · rw [happlied sm hidx, hdec]
      exact hw
    · intro e' he' hwrite
      rw [happlied sm hidx, hdec] at he'
      rcases List.mem_append.mp he' with he' | he'
      · exact hkeep _ (hR.there i e' he' hwrite)
      · obtain rfl := List.mem_singleton.mp he'
        exact hx hwrite
  · refine ⟨R.put i ((R.machines i).commitConfig (R.nextIdx i)), ?_, hR.put hlt ?_ ?_⟩
    · rw [Replicas.next, he, Option.bind_some, if_neg]
      rw [hsame.2.1, htype]
      decide
    · rw [happlied _ rfl, hdec, Option.toList_none, List.append_nil]
      exact hR.files i
    · rw [happlied _ rfl, hdec, Option.toList_none, List.append_nil]
      exact hR.there i

theorem Sound.snapshot {term : ℕ} (hR : Sound cfg R) : Sound cfg (R.put i
    ((R.machines i).createSnapshotInternal ⟨(R.machines i).lastCommittedIdx, term⟩)) := by
  have happlied : (R.put i ((R.machines i).createSnapshotInternal
      ⟨(R.machines i).lastCommittedIdx, term⟩)).applied i = R.applied i := applied_put
  refine hR.put (hR.committed i) ?_ ?_
  · rw [happlied]
    exact hR.files i
  · rw [happlied]
    exact hR.there i

/-- What one step keeps. -/
theorem sound_next {e : Event ι} (hR : Sound cfg R)
    (he : Orderly serialize deserialize cfg R e) :
    ∃ R', R.next serialize deserialize cfg e = some R' ∧ Sound cfg R' := by
  cases e with
  | log e =>
    obtain ⟨G', hG', -⟩ := LogGroup.tracks_next hR.stores he.1
    exact ⟨_, by rw [next, hG', Option.map_some], hR.log he hG'⟩
  | commit i random => exact hR.commit he
  | snapshot i term => exact ⟨_, rfl, hR.snapshot⟩

theorem replicated_of_sound (hR : Sound cfg R) : Replicated serialize deserialize cfg R where
  read i path content h := readContent_written (hR.files i) h
  written i e he hwrite := by
    obtain ⟨v, hv⟩ := Option.isSome_iff_exists.mp (@isSome_newestAt (cfg i) _ _ he hwrite)
    obtain ⟨content, hread⟩ := isExists_iff_readContent.mpr (hR.there i e he hwrite)
    have hsame := readContent_written (hR.files i) hread
    rw [show (cfg i).fileOf e.payload.path = e.file (cfg i) from rfl, hv, Option.getD_some] at hsame
    exact ⟨v, hv, hsame ▸ hread⟩
  behind i j hle := (List.take_prefix_take_left hle).filterMap _
  goesOn e he := by
    obtain ⟨R', hR', -⟩ := sound_next hR he
    exact Option.isSome_of_eq_some hR'

omit [DecidableEq ι] in
theorem sound_initial (cfg : ι → Config) (bufs : ι → List UInt8) : Sound cfg (initial bufs) where
  stores i := ⟨⟨1, []⟩, ⟨_, Refines.new (bufs i)⟩, fun k e he => by simp [OffsetLog.get?] at he⟩
  first := rfl
  sent e he := by simp [initial, LogGroup.initial] at he
  committed i := le_rfl
  files i := written_empty
  there i e he := by simp [applied, initial, LogGroup.initial] at he

/-- In every run the files of a server are what the log has, as far as the server has committed
it. -/
theorem replicated_run {bufs : ι → List UInt8} {es : List (Event ι)}
    (hes : Run.Along (next serialize deserialize cfg)
      (fun R e _ => Orderly serialize deserialize cfg R e) (initial bufs) es)
    (hrun : Run.run (next serialize deserialize cfg) (initial bufs) es = some R) :
    Replicated serialize deserialize cfg R := by
  refine replicated_of_sound (Run.invariant (I := Sound cfg) ?_ (sound_initial cfg bufs) hes hrun)
  intro R e R' hR he hn
  obtain ⟨R'', h, hR''⟩ := sound_next hR he
  obtain rfl := Option.some.inj (h.symm.trans hn)
  exact hR''

end Step

/-- A server is sent two writes and a configuration, and commits the first of them. -/
def sampleReplication : List (Event Bool) :=
  [.log (.append true ⟨1, (sampleEntry 1).data, appLog, 7⟩), .log (.append true ⟨1, [4], conf, 8⟩),
    .log (.append true ⟨1, (sampleEntry 2).data, appLog, 9⟩), .log (.ship true false 1 3),
    .commit true 5, .commit true 6, .commit true 7, .log (.compact true 2), .snapshot true 1,
    .commit false 8]

/-- The steps of the sample are orderly, which can be checked on the way. -/
def checks (R : Replicas Bool) : Event Bool → Bool
  | .log (.append i entry) => (R.logs.store i).nextSlot = R.logs.history.next ∧
    R.logs.history.next < 2 ^ 64 - 1 ∧ (entry.valType = appLog ∧
      (entry.buf = (sampleEntry 1).data ∨ entry.buf = (sampleEntry 2).data) ∨
        entry.valType = conf)
  | .log (.compact _ k) => k < 2 ^ 64 - 1
  | .log (.ship i j index cnt) => (1 ≤ cnt ∧
    packSize sampleSerialize (R.logs.store i) index cnt < 2 ^ 31 ∧
    (R.logs.store i).startIndex ≤ index ∧ index + cnt ≤ (R.logs.store i).nextSlot ∧
    (R.logs.store j).startIndex ≤ index ∧ index ≤ (R.logs.store j).nextSlot) ∧
    ∀ k ∈ List.range' index cnt, ((R.logs.store i).logs[k]?).all fun e => e.term < 2 ^ 64
  | .log (.writeAt _ _ _) => false
  | .commit i random => ((R.logs.store i).startIndex ≤ R.nextIdx i ∧
      R.nextIdx i < (R.logs.store i).nextSlot) ∧
    (R.nextEntry i).all fun e => e.decoded.all fun entry =>
      Installs (Cluster.sampleConfigs i) entry random (R.machines i).files
  | .snapshot _ _ => true

theorem orderly_of_checks {R : Replicas Bool} {e : Event Bool} (h : checks R e = true) :
    Orderly sampleSerialize sampleDeserialize Cluster.sampleConfigs R e := by
  cases e with
  | log e =>
    cases e with
    | append i entry =>
      obtain ⟨hslot, hfit, hsent⟩ := of_decide_eq_true h
      refine ⟨⟨hslot, hfit⟩, hsent.imp_left fun ⟨htype, hbuf⟩ => ⟨htype, ?_⟩⟩
      exact hbuf.elim (fun h => ⟨_, h⟩) fun h => ⟨_, h⟩
    | writeAt i index entry => simp [checks] at h
    | compact i k =>
      have hfit : k < 2 ^ 64 - 1 := of_decide_eq_true h
      exact ⟨hfit, trivial⟩
    | ship i j index cnt =>
      obtain ⟨⟨h₁, h₂, h₃, h₄, h₅⟩, hsend⟩ := of_decide_eq_true h
      exact ⟨⟨h₁, h₂, h₃, h₄, .inl h₅, LogGroup.sendable_sample hsend⟩, trivial⟩
  | commit i random =>
    obtain ⟨hin, hclear⟩ := of_decide_eq_true h
    refine ⟨hin, fun e entry he hentry _ => ?_⟩
    have hall := (Option.all_eq_true _ _).mp hclear e he
    exact of_decide_eq_true ((Option.all_eq_true _ _).mp hall entry hentry)
  | snapshot i term => trivial

theorem replicated_run_behind : ∃ R,
    Run.run (next sampleSerialize sampleDeserialize Cluster.sampleConfigs) (initial fun _ => [0])
      sampleReplication = some R ∧
    readContent (Cluster.sampleConfigs true) (R.machines true).files (ascii ['a']) = .ok [2] ∧
    readContent (Cluster.sampleConfigs false) (R.machines false).files (ascii ['a']) = .ok [1] ∧
    Replicated sampleSerialize sampleDeserialize Cluster.sampleConfigs R := by
  obtain ⟨R, hR, hcheck⟩ := (Option.any_eq_true _ _).mp (by decide +kernel :
    (Run.run (next sampleSerialize sampleDeserialize Cluster.sampleConfigs) (initial fun _ => [0])
      sampleReplication).any fun R =>
      decide (readContent (Cluster.sampleConfigs true) (R.machines true).files (ascii ['a']) =
        .ok [2]) &&
      decide (readContent (Cluster.sampleConfigs false) (R.machines false).files (ascii ['a']) =
        .ok [1]))
  simp only [Bool.and_eq_true, decide_eq_true_eq] at hcheck
  have hchecks : Run.Along (next sampleSerialize sampleDeserialize Cluster.sampleConfigs)
      (fun R e _ => checks R e = true) (initial fun _ => [0]) sampleReplication := by
    decide +kernel
  refine ⟨R, hR, hcheck.1, hcheck.2, replicated_run ?_ hR⟩
  exact hchecks.imp (I := fun _ => True) (fun _ _ _ _ h _ => ⟨trivial, orderly_of_checks h⟩) trivial

end Replicas

end LockService
