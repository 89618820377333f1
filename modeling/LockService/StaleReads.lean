import LockService.Cluster
import LockService.Convergence
import LockService.Readers

/-!
# Reads on a server that is behind

The servers of a cell commit one log, each as much of it as has come to it so far, and a leader has
committed all of it. `read` asks for a session and a lock, both of which a server keeps when it
leads no more, and takes the content from its own files. While every commit goes through, these
hold the newest of what the server has committed (`Written`, `sound_next`), so an answer is as new
as that is (`read_newest_iff`): at the leader it is the newest there is, unless the log writes the
file under another spelling (`upToDate_leader`), and at a server that is behind it need not be
(`not_newest_deposed`).
-/

namespace LockService

open FileTree

section Log

/-- The content of the last write in the log that is one of those asked for. -/
def lastWritten (es : List Entry) (asked : Entry → Bool) : Option Str :=
  (es.filter fun e => e.payload.type = .write && asked e).getLast?.map fun e => e.payload.content

/-- The content of the newest write of a path. -/
def newest (es : List Entry) (path : Str) : Option Str :=
  lastWritten es fun e => e.payload.path = path

/-- The content of the newest write of a server's file, under whatever spelling. -/
def newestAt (cfg : Config) (es : List Entry) (a : Location) : Option Str :=
  lastWritten es fun e => e.file cfg = a

/-- The files of the server are what the writes of the log left. -/
def Written (cfg : Config) (es : List Entry) (files : FileTree) : Prop :=
  ∀ a content, files.node a = some (.file content) ↔ newestAt cfg es a = some content

variable {cfg : Config} {es : List Entry} {e : Entry} {random : ℕ} {files files' : FileTree}
  {path : Str}

theorem lastWritten_concat {asked : Entry → Bool} :
    lastWritten (es ++ [e]) asked =
      if e.payload.type = .write ∧ asked e = true then some e.payload.content
      else lastWritten es asked := by
  unfold lastWritten
  rw [List.filter_append]
  split_ifs with h
  · rw [List.filter_cons_of_pos (by simpa using h)]
    simp
  · rw [List.filter_cons_of_neg (by simpa using h)]
    simp

theorem newestAt_concat (he : e.payload.type = .write) (a : Location) :
    newestAt cfg (es ++ [e]) a =
      if a = e.file cfg then some e.payload.content else newestAt cfg es a := by
  rw [newestAt, lastWritten_concat]
  simp [he, newestAt, eq_comm]

theorem written_empty : Written cfg [] .empty := by
  intro a content
  have hno : newestAt cfg [] a = none := rfl
  rw [hno]
  by_cases ha : a = []
  · simp [ha]
  · simp [node_empty ha]

/-- A write that goes through leaves its content in its file, and in no other. -/
theorem written_paint (hw : Written cfg es files) (he : e.payload.type = .write)
    (hi : Installs cfg e random files)
    (hnode : ∀ a, files'.node a = e.paint cfg files.node a) : Written cfg (es ++ [e]) files' := by
  intro a content
  rw [hnode, newestAt_concat he, Entry.paint]
  by_cases hf : a = e.file cfg
  · simp [hf]
  rw [if_neg hf, if_neg hf]
  by_cases hd : a ∈ e.dirs cfg
  · have hno : files.node a ≠ some (.file content) := by
      rcases hi.way a hd with h | h <;> simp [h]
    rw [if_pos hd]
    exact iff_of_false (by simp) fun h => hno ((hw a content).mpr h)
  · rw [if_neg hd]
    exact hw a content

theorem written_other (hw : Written cfg es files) (he : e.payload.type ≠ .write) :
    Written cfg (es ++ [e]) files := by
  intro a content
  rw [newestAt, lastWritten_concat, if_neg fun h => he h.1]
  exact hw a content

theorem persists_paint (hi : Installs cfg e random files)
    (hnode : ∀ a, files'.node a = e.paint cfg files.node a) : Persists cfg files files' := by
  obtain ⟨hdir, hsome⟩ := hi.keeps hnode
  exact fun p => isExists_mono hdir hsome

/-- What a path reads is the newest of its file; a directory reads as empty. -/
theorem readContent_written (hw : Written cfg es files) {content : Str}
    (h : readContent cfg files path = .ok content) :
    (newestAt cfg es (cfg.fileOf path)).getD [] = content := by
  unfold readContent FileTree.read at h
  rcases hwalk : files.walk [] (cfg.cPath path) with f | d
  · simp [hwalk] at h
  obtain rfl : d = cfg.fileOf path := walk_eq_lexical _ hwalk
  rw [hwalk] at h
  dsimp only at h
  by_cases hf : ∃ c, files.node (cfg.fileOf path) = some (.file c)
  · obtain ⟨c, hc⟩ := hf
    simpa [hc, (hw _ c).mp hc] using h
  have hno : newestAt cfg es (cfg.fileOf path) = none :=
    Option.eq_none_iff_forall_ne_some.mpr fun c hc => hf ⟨c, (hw _ c).mpr hc⟩
  rw [hno, Option.getD_none]
  rcases hn : files.node (cfg.fileOf path) with _ | _ | c
  · simpa [hn] using h
  · simpa [hn] using h
  · exact absurd ⟨c, hn⟩ hf

end Log

section Requests

variable {cfg : Config} {s s' : State} {r : Request} {random : ℕ}

/-- A commit that throws ends the process, and any other leaves its files. -/
theorem call_committed (h : r.Appends cfg s) :
    r.call cfg s (.committed random) = (.error .stateMachine, s) ∨
      ∃ files, commitFiles cfg s.files r.entry random = .ok files ∧
        (r.call cfg s (.committed random)).2.files = files := by
  obtain ⟨hacc, hfits⟩ := h
  have happ := @appendLog_commit cfg s.files r.entry random hfits
  rcases r with ⟨c, path, content⟩ | ⟨c, path⟩
  · obtain ⟨ptr, session, l, lock, hreg, hx, ho⟩ := hacc
    rw [Request.call, write, withSession_registered hreg, if_pos hx, ho]
    simp only [Request.entry] at happ ⊢
    rcases hc : commitFiles cfg s.files ⟨.write, path, content⟩ random with f | files
    · simp [happ, hc, Except.mapError]
    · simp [happ, hc, Except.mapError]
  · obtain ⟨⟨ptr, session, hreg⟩, hx⟩ := hacc
    rw [Request.call, openLock, withSession_registered hreg, if_neg (by simp [hx])]
    simp only [Request.entry] at happ ⊢
    rcases hc : commitFiles cfg s.files ⟨.write, path, []⟩ random with f | files
    · simp [happ, hc, Except.mapError]
    · simp [happ, hc, Except.mapError, State.enter]

/-- A server that runs on after the request has committed its entry, or nothing was appended. -/
theorem files_request (hs : s.WellFormed)
    (h : (r.call cfg s (.committed random)).survivor = some s') :
    r.Appends cfg s ∧ commitFiles cfg s.files r.entry random = .ok s'.files ∨
      ¬ r.Appends cfg s ∧ s'.files = s.files := by
  by_cases ha : r.Appends cfg s
  · rcases @call_committed _ _ _ random ha with hcall | ⟨files, hc, hfiles⟩
    · rw [hcall] at h
      simp [Result.survivor, Fault.isFatal] at h
    · rw [← survivor_eq h, hfiles]
      exact .inl ⟨ha, hc⟩
  · rw [← survivor_eq h, (refused_of_not_appends hs _ ha).2]
    exact .inr ⟨ha, rfl⟩

/-- The request whose entry Raft commits, and what `rand()` yields then. -/
def Event.request : Event → Option (Request × ℕ)
  | .openLock c path (.committed random) => some (.openLock c path, random)
  | .write c path content (.committed random) => some (.write c path content, random)
  | _ => none

/-- The entry that comes to be committed at the server. -/
def Event.entry (cfg : Config) (s : State) (e : Event) : Option (Entry × ℕ) :=
  e.request.bind fun (r, random) =>
    if h : r.Appends cfg s then some (⟨r.entry, h.2⟩, random) else none

/-- What comes to a server otherwise than as an entry of the log. -/
def Event.isLocal : Event → Bool
  | .replicate _ => false
  | _ => true

/-- A server commits an entry of the log, unless that ends the process. -/
def State.commit (cfg : Config) (s : State) (e : Entry) (random : ℕ) : Option State :=
  match commitFiles cfg s.files e.payload random with
  | .error _ => none
  | .ok files => some { s with files }

/-- The files change by the entry the request hands to Raft, and otherwise not. -/
theorem files_entry {e : Event} (hs : s.WellFormed) (ha : s.Aligned cfg)
    (hl : e.isLocal = true) (h : next cfg s e = some s') :
    e.entry cfg s = none ∧ s'.files = s.files ∨ ∃ entry random,
      e.entry cfg s = some (entry, random) ∧
        commitFiles cfg s.files entry.payload random = .ok s'.files := by
  rcases hreq : e.request with _ | ⟨r, random⟩
  · refine .inl ⟨by simp [Event.entry, hreq], ?_⟩
    rcases files_cases hs ha h with hf | he | ⟨c, path, content, random, ⟨rfl, -⟩ | ⟨rfl, -⟩, -⟩
    · exact hf
    · rw [he] at hl
      cases hl
    · cases hreq
    · cases hreq
  · have hcall : (r.call cfg s (.committed random)).survivor = some s' := by
      unfold Event.request at hreq
      split at hreq <;> cases hreq <;> exact h
    rcases files_request hs hcall with ⟨hap, hc⟩ | ⟨hap, hf⟩
    · exact .inr ⟨⟨r.entry, hap.2⟩, random, by simp [Event.entry, hreq, hap], hc⟩
    · exact .inl ⟨by simp [Event.entry, hreq, hap], hf⟩

/-- Everything at a server is in order after some entries of the log. -/
structure Settled (cfg : Config) (es : List Entry) (s : State) : Prop where
  wellFormed : s.WellFormed
  aligned : s.Aligned cfg
  written : Written cfg es s.files

variable {es : List Entry} {entry : Entry}

/-- A commit that goes through, or one of an entry that is no write. -/
theorem written_commit {files files' : FileTree} (hw : Written cfg es files)
    (hi : entry.payload.type = .write → Installs cfg entry random files)
    (h : commitFiles cfg files entry.payload random = .ok files') :
    Written cfg (es ++ [entry]) files' ∧ Persists cfg files files' := by
  by_cases he : entry.payload.type = .write
  · obtain ⟨files₁, hok, hnode⟩ := (hi he).paint he
    obtain rfl : files₁ = files' := by simpa [hok] using h
    exact ⟨written_paint hw he (hi he) hnode, persists_paint (hi he) hnode⟩
  · obtain rfl : files = files' := by
      unfold commitFiles at h
      split at h
      · contradiction
      · simpa using h
    exact ⟨written_other hw he, fun _ => id⟩

theorem settled_commit (hs : Settled cfg es s)
    (hi : entry.payload.type = .write → Installs cfg entry random s.files)
    (h : s.commit cfg entry random = some s') : Settled cfg (es ++ [entry]) s' := by
  unfold State.commit at h
  split at h
  · cases h
  rename_i files hc
  obtain ⟨hw, hf⟩ := written_commit hs.written hi hc
  obtain rfl := Option.some.inj h
  have hnext : next cfg s (.replicate files) = some { s with files } := rfl
  exact ⟨wellFormed_next hs.wellFormed hnext, aligned_next hs.wellFormed hs.aligned hf hnext, hw⟩

/-- The tables and the files after an event that commits an entry, or none. -/
theorem settled_next {e : Event} (hs : Settled cfg es s) (hl : e.isLocal = true)
    (hi : ∀ entry random, e.entry cfg s = some (entry, random) → entry.payload.type = .write →
      Installs cfg entry random s.files)
    (h : next cfg s e = some s') :
    Settled cfg (es ++ ((e.entry cfg s).map Prod.fst).toList) s' := by
  have hwf := wellFormed_next hs.wellFormed h
  rcases files_entry hs.wellFormed hs.aligned hl h with ⟨hnone, hf⟩ | ⟨entry, random, he, hc⟩
  · refine ⟨hwf, aligned_next hs.wellFormed hs.aligned (fun p hp => hf ▸ hp) h, ?_⟩
    rw [hnone, hf]
    simpa using hs.written
  · obtain ⟨hw, hf⟩ := written_commit hs.written (hi entry random he) hc
    refine ⟨hwf, aligned_next hs.wellFormed hs.aligned hf h, ?_⟩
    rw [he]
    exact hw

end Requests

/-- The servers of a cell, the one Raft has for its leader, the entries that have come to be
committed and how many of them each server has committed itself. -/
structure Cell (ι : Type*) where
  servers : ι → Option State
  leader : ι
  log : List Entry
  committed : ι → ℕ

namespace Cell

/-- A server is elected; one commits the next entry of the log, or the leader a new one that no
request waits for any more; a request comes, or a thread has its turn. -/
inductive Event (ι : Type*) where
  | elect (server : ι)
  | commit (server : ι) (random : ℕ)
  | append (entry : Entry) (random : ℕ)
  | deliver (server : ι) (event : LockService.Event)

variable {ι : Type*} [DecidableEq ι]

def initial (leader : ι) : Cell ι := ⟨fun _ => some (.initial .empty), leader, [], fun _ => 0⟩

/-- The entry an event commits, and where. -/
def commits (cfg : ι → Config) (C : Cell ι) : Event ι → Option (ι × Entry × ℕ)
  | .elect _ => none
  | .commit i random => C.log[C.committed i]?.map (i, ·, random)
  | .append e random => some (C.leader, e, random)
  | .deliver i e => (C.servers i).bind fun s => (e.entry (cfg i) s).map (i, ·)

/-- A server has committed one entry more. -/
def settle (C : Cell ι) (i : ι) (server : Option State) : Cell ι :=
  { C with
    servers := Function.update C.servers i server
    committed := Function.update C.committed i (C.committed i + 1) }

def next (cfg : ι → Config) (C : Cell ι) : Event ι → Option (Cell ι)
  | .elect i => if C.committed i = C.log.length then some { C with leader := i } else none
  | .commit i random => C.log[C.committed i]?.map fun e =>
    C.settle i ((C.servers i).bind fun s => s.commit (cfg i) e random)
  | .append e random =>
    some ({ C with log := C.log ++ [e] }.settle C.leader
      ((C.servers C.leader).bind fun s => s.commit (cfg C.leader) e random))
  | .deliver i e =>
    if e.isLocal ∧ (e.request.isSome → i = C.leader) then
      let server := (C.servers i).bind fun s => LockService.next (cfg i) s e
      match C.commits cfg (.deliver i e) with
      | none => some { C with servers := Function.update C.servers i server }
      | some (_, entry, _) => some ({ C with log := C.log ++ [entry] }.settle i server)
    else none

/-- A write that is committed goes through at the server that commits it. -/
def Clear (cfg : ι → Config) (C : Cell ι) (e : Event ι) (_ : Cell ι) : Prop :=
  ∀ i entry random s, C.commits cfg e = some (i, entry, random) → C.servers i = some s →
    entry.payload.type = .write → Installs (cfg i) entry random s.files

/-- Among the entries the server has committed, the newest of the path's file has the content of
the newest of the path in the log; a directory has none. -/
def UpToDate (cfg : ι → Config) (C : Cell ι) (i : ι) (path : Str) : Prop :=
  newest C.log path =
    some ((newestAt (cfg i) (C.log.take (C.committed i)) ((cfg i).fileOf path)).getD [])

instance (cfg : ι → Config) (C : Cell ι) (i : ι) (path : Str) :
    Decidable (C.UpToDate cfg i path) := inferInstanceAs (Decidable (_ = _))

structure Sound (cfg : ι → Config) (C : Cell ι) : Prop where
  leads : C.committed C.leader = C.log.length
  behind : ∀ i, C.committed i ≤ C.log.length
  servers : ∀ i s, C.servers i = some s → Settled (cfg i) (C.log.take (C.committed i)) s

section Step

variable {cfg : ι → Config} {C C' : Cell ι} {ev : Event ι} {i : ι}

omit [DecidableEq ι] in
theorem sound_initial (leader : ι) : (initial leader).Sound cfg := by
  refine ⟨rfl, fun i => le_rfl, fun i s h => ?_⟩
  obtain rfl := Option.some.inj h
  exact ⟨.initial _, aligned_initial _, written_empty⟩

/-- A server that commits the next entry of the log, a new one where it leads. -/
theorem sound_settle {rest : List Entry} {e : Entry} {server : Option State} (hC : C.Sound cfg)
    (hnext : (C.log ++ rest)[C.committed i]? = some e)
    (hrest : rest = [] ∨ i = C.leader ∧ rest = [e])
    (hs : ∀ s', server = some s' → Settled (cfg i) (C.log.take (C.committed i) ++ [e]) s') :
    ({ C with log := C.log ++ rest }.settle i server).Sound cfg := by
  have hlt : C.committed i < (C.log ++ rest).length := (List.getElem?_eq_some_iff.mp hnext).1
  have htake : ∀ j, (C.log ++ rest).take (C.committed j) = C.log.take (C.committed j) :=
    fun j => List.take_append_of_le_length (hC.behind j)
  refine ⟨?_, fun j => ?_, fun j s' hj => ?_⟩
  · show Function.update C.committed i (C.committed i + 1) C.leader = (C.log ++ rest).length
    rcases hrest with rfl | ⟨rfl, rfl⟩
    · have hne : C.leader ≠ i := by
        rintro rfl
        rw [List.append_nil, hC.leads] at hlt
        omega
      rw [Function.update_of_ne hne, hC.leads, List.append_nil]
    · rw [Function.update_self, hC.leads, List.length_append, List.length_singleton]
  · show Function.update C.committed i (C.committed i + 1) j ≤ (C.log ++ rest).length
    rw [Function.update_apply]
    split_ifs
    · omega
    · rw [List.length_append]
      have := hC.behind j
      omega
  · change Function.update C.servers i server j = some s' at hj
    show Settled (cfg j)
      ((C.log ++ rest).take (Function.update C.committed i (C.committed i + 1) j)) s'
    by_cases hji : j = i
    · subst hji
      rw [Function.update_self] at hj
      rw [Function.update_self, List.take_add_one, hnext, htake]
      exact hs s' hj
    · rw [Function.update_of_ne hji] at hj
      rw [Function.update_of_ne hji, htake]
      exact hC.servers j s' hj

/-- What commits no entry there. -/
theorem sound_update {server : Option State} (hC : C.Sound cfg)
    (hs : ∀ s', server = some s' → Settled (cfg i) (C.log.take (C.committed i)) s') :
    ({ C with servers := Function.update C.servers i server } : Cell ι).Sound cfg := by
  refine ⟨hC.leads, hC.behind, fun j s' hj => ?_⟩
  simp only [Function.update_apply] at hj
  split_ifs at hj with hji
  · subst hji
    exact hs s' hj
  · exact hC.servers j s' hj

omit [DecidableEq ι] in
theorem commits_deliver {e : LockService.Event} {entry : Entry} {random : ℕ} {k : ι} :
    C.commits cfg (.deliver i e) = some (k, entry, random) ↔
      k = i ∧ ∃ s, C.servers i = some s ∧ e.entry (cfg i) s = some (entry, random) := by
  simp only [commits, Option.bind_eq_some_iff, Option.map_eq_some_iff, Prod.mk.injEq]
  constructor
  · rintro ⟨s, hs, a, he, rfl, rfl⟩
    exact ⟨rfl, s, hs, he⟩
  · rintro ⟨rfl, s, hs, he⟩
    exact ⟨s, hs, _, he, rfl, rfl⟩

theorem sound_next (hC : C.Sound cfg) (hclear : Clear cfg C ev C') (h : next cfg C ev = some C') :
    C'.Sound cfg := by
  cases ev with
  | elect j =>
    simp only [next] at h
    split_ifs at h with hj
    obtain rfl := Option.some.inj h
    exact ⟨hj, hC.behind, hC.servers⟩
  | commit j random =>
    obtain ⟨e, he, rfl⟩ := Option.map_eq_some_iff.mp h
    have hi : ∀ s, C.servers j = some s → e.payload.type = .write →
        Installs (cfg j) e random s.files := fun s => hclear j e random s (by simp [commits, he])
    have hsettled := @sound_settle _ _ cfg C j [] e
      ((C.servers j).bind fun s => s.commit (cfg j) e random) hC (by simpa using he) (.inl rfl)
      fun s' hs' => by
        obtain ⟨s, hs, hc⟩ := Option.bind_eq_some_iff.mp hs'
        exact settled_commit (hC.servers j s hs) (hi s hs) hc
    rwa [List.append_nil] at hsettled
  | append e random =>
    obtain rfl := Option.some.inj h
    refine sound_settle hC (by simp [hC.leads]) (.inr ⟨rfl, rfl⟩) fun s' hs' => ?_
    obtain ⟨s, hs, hc⟩ := Option.bind_eq_some_iff.mp hs'
    exact settled_commit (hC.servers _ s hs) (hclear _ e random s rfl hs) hc
  | deliver j e =>
    simp only [next] at h
    split_ifs at h with hg
    obtain ⟨hl, hlead⟩ := hg
    have hset : ∀ s s', C.servers j = some s → LockService.next (cfg j) s e = some s' →
        Settled (cfg j) (C.log.take (C.committed j) ++ ((e.entry (cfg j) s).map Prod.fst).toList)
          s' := fun s s' hs hn => settled_next (hC.servers j s hs) hl (fun entry random he =>
      hclear j entry random s (commits_deliver.mpr ⟨rfl, s, hs, he⟩) hs) hn
    split at h
    · rename_i hnone
      obtain rfl := Option.some.inj h
      refine sound_update hC fun s' hs' => ?_
      obtain ⟨s, hs, hn⟩ := Option.bind_eq_some_iff.mp hs'
      have he : e.entry (cfg j) s = none := by simpa [commits, hs] using hnone
      simpa [he] using hset s s' hs hn
    · rename_i k entry random hsome
      obtain rfl := Option.some.inj h
      obtain ⟨rfl, s, hs, he⟩ := commits_deliver.mp hsome
      have hk : k = C.leader := by
        refine hlead ?_
        rcases hr : e.request with _ | r
        · simp [Event.entry, hr] at he
        · rfl
      refine sound_settle hC (by simp [hk, hC.leads]) (.inr ⟨hk, rfl⟩) fun s' hs' => ?_
      obtain ⟨s₁, hs₁, hn⟩ := Option.bind_eq_some_iff.mp hs'
      obtain rfl := Option.some.inj (hs.symm.trans hs₁)
      simpa [he] using hset s s' hs hn

end Step

section Runs

variable {cfg : ι → Config} {C : Cell ι} {es : List (Event ι)} {leader i : ι} {s : State}
  {c path content : Str}

theorem sound_run (ha : Run.Along (next cfg) (Clear cfg) (initial leader) es)
    (h : Run.run (next cfg) (initial leader) es = some C) : C.Sound cfg := by
  refine Run.invariant (I := Sound cfg) ?_ (sound_initial leader) ha h
  exact fun C e C' hC hclear hn => sound_next hC hclear hn

omit [DecidableEq ι] in
/-- A server that has committed everything has the newest of what the log spells one way. -/
theorem upToDate_of_committed (hall : C.committed i = C.log.length)
    (hpath : ∀ e ∈ C.log, e.file (cfg i) = (cfg i).fileOf path → e.payload.path = path)
    (hnew : newest C.log path = some content) : C.UpToDate cfg i path := by
  have hsame : newestAt (cfg i) C.log ((cfg i).fileOf path) = newest C.log path := by
    unfold newestAt newest lastWritten
    congr 2
    refine List.filter_congr fun e he => ?_
    have hiff : e.file (cfg i) = (cfg i).fileOf path ↔ e.payload.path = path :=
      ⟨hpath e he, fun h => by rw [Entry.file, h]⟩
    simp only [hiff]
  rw [UpToDate, hall, List.take_length, hsame, hnew, Option.getD_some]

omit [DecidableEq ι] in
/-- A leader has. -/
theorem upToDate_leader (hC : C.Sound cfg)
    (hpath : ∀ e ∈ C.log, e.file (cfg C.leader) = (cfg C.leader).fileOf path →
      e.payload.path = path)
    (hnew : newest C.log path = some content) : C.UpToDate cfg C.leader path :=
  upToDate_of_committed hC.leads hpath hnew

/-- What a read answers is the newest of the path exactly where the server is up to date on it. -/
theorem read_newest_iff (ha : Run.Along (next cfg) (Clear cfg) (initial leader) es)
    (h : Run.run (next cfg) (initial leader) es = some C) (hs : C.servers i = some s)
    (hok : (LockService.read (cfg i) s c path).1 = .ok (.ok, content)) :
    newest C.log path = some content ↔ C.UpToDate cfg i path := by
  have hsettled := (sound_run ha h).servers i s hs
  rw [UpToDate, readContent_written hsettled.written (readContent_of_read hok)]

/-- The client `[1]` has a session at the first server, and the file `a` open and locked there. -/
def sampleReader : List (Event Bool) :=
  [.deliver true (.initSession true [1] 0),
    .deliver true (.openLock [1] (ascii ['a']) (.committed 0)),
    .deliver true (.acquireLock [1] (ascii ['a']) .shared)]

/-- What the client wrote under its lock the leader reads. -/
theorem read_newest_iff_written :
    ∃ C, Run.run (next Cluster.sampleConfigs) (initial true) (sampleReader ++
        [.deliver true (.write [1] (ascii ['a']) [7] (.committed 1))]) = some C ∧
      newest C.log (ascii ['a']) = some [7] := by
  have hrun : (Run.run (next Cluster.sampleConfigs) (initial true) (sampleReader ++
      [.deliver true (.write [1] (ascii ['a']) [7] (.committed 1))])).any fun C =>
        C.UpToDate Cluster.sampleConfigs true (ascii ['a']) ∧
        (C.servers true).any fun s =>
          (LockService.read (Cluster.sampleConfigs true) s [1] (ascii ['a'])).1 =
            .ok (.ok, [7]) := by
    decide
  obtain ⟨C, hC, hserver⟩ := (Option.any_eq_true _ _).mp hrun
  obtain ⟨hup, hserver⟩ := of_decide_eq_true hserver
  obtain ⟨s, hs, hread⟩ := (Option.any_eq_true _ _).mp hserver
  refine ⟨C, hC, (read_newest_iff ?_ hC hs (of_decide_eq_true hread)).mpr hup⟩
  intro C₁ h₁
  obtain rfl := Option.some.inj h₁
  refine ⟨fun i entry random s hc => ?_, fun C₂ h₂ => ⟨?_, fun C₃ h₃ => ⟨?_, fun C₄ h₄ =>
    ⟨?_, trivial⟩⟩⟩⟩
  · cases hc
  · intro i entry random s hc hs _
    obtain ⟨rfl, s', hs', he⟩ := commits_deliver.mp hc
    obtain rfl := Option.some.inj (hs.symm.trans hs')
    obtain rfl := Option.some.inj hs
    obtain ⟨rfl, rfl⟩ := Prod.mk.inj (Option.some.inj he)
    decide
  · obtain rfl := Option.some.inj h₂
    intro i entry random s hc
    obtain ⟨rfl, s', hs', he⟩ := commits_deliver.mp hc
    cases he
  · obtain rfl := Option.some.inj h₂
    obtain rfl := Option.some.inj h₃
    intro i entry random s hc hs _
    obtain ⟨rfl, s', hs', he⟩ := commits_deliver.mp hc
    obtain rfl := Option.some.inj (hs.symm.trans hs')
    obtain rfl := Option.some.inj hs
    obtain ⟨rfl, rfl⟩ := Prod.mk.inj (Option.some.inj he)
    decide

/-- The second server catches up, is elected and takes a write of the file. -/
def sampleDeposed : List (Event Bool) :=
  sampleReader ++ [.commit false 0, .elect false, .deliver false (.initSession true [2] 0),
    .deliver false (.acquireLock [2] (ascii ['a']) .exclusive),
    .deliver false (.write [2] (ascii ['a']) [7] (.committed 0))]

/-- Then the first server still answers what the file was. -/
theorem not_newest_deposed :
    ¬ ∀ es C i s c path content,
      Run.run (next Cluster.sampleConfigs) (initial true) es = some C → C.servers i = some s →
      (LockService.read (Cluster.sampleConfigs i) s c path).1 = .ok (.ok, content) →
      newest C.log path = some content := by
  intro h
  have hrun : (Run.run (next Cluster.sampleConfigs) (initial true) sampleDeposed).any fun C =>
      (C.servers true).any fun s =>
        (LockService.read (Cluster.sampleConfigs true) s [1] (ascii ['a'])).1 = .ok (.ok, []) ∧
          newest C.log (ascii ['a']) = some [7] := by decide
  obtain ⟨C, hC, hserver⟩ := (Option.any_eq_true _ _).mp hrun
  obtain ⟨s, hs, hread⟩ := (Option.any_eq_true _ _).mp hserver
  obtain ⟨hok, hnew⟩ := of_decide_eq_true hread
  have hold := h sampleDeposed C true s [1] (ascii ['a']) [] hC hs hok
  simp [hnew] at hold

end Runs

end Cell

end LockService
