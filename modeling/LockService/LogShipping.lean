import LockService.LogPacks

/-!
# One log in many stores

Leaders append to a common log. It gets to the store of another server entry by entry, or in packs
taken from whatever store has the entries; packs come in any sizes, some again, and each store is
compacted when its server sees fit. While a new leader has the whole log, every entry in a store is
the one that was appended at its index (`shipped_run`), but for the timestamp, which no pack
carries.
-/

namespace LockService

/-- The same entry, as far as `log_entry::serialize` goes. -/
def LogEntry.Same (e e' : LogEntry) : Prop :=
  e.term = e'.term ∧ e.valType = e'.valType ∧ e.buf = e'.buf

theorem LogEntry.Same.refl (e : LogEntry) : e.Same e := ⟨rfl, rfl, rfl⟩

theorem LogEntry.Same.trans {e e' e'' : LogEntry} (h : e.Same e') (h' : e'.Same e'') :
    e.Same e'' :=
  ⟨h.1.trans h'.1, h.2.1.trans h'.2.1, h.2.2.trans h'.2.2⟩

/-- The stores of the servers, and what leaders have appended, from the first entry on. -/
structure LogGroup (ι : Type*) where
  store : ι → InmemLogStore
  history : OffsetLog LogEntry

namespace LogGroup

/-- A leader appends, a server writes an entry it was sent, or compacts its log, or gets a pack of
the entries from an index on. -/
inductive Event (ι : Type*) where
  | append (server : ι) (entry : LogEntry)
  | writeAt (server : ι) (index : ℕ) (entry : LogEntry)
  | compact (server : ι) (lastLogIndex : ℕ)
  | ship (sender receiver : ι) (index cnt : ℕ)

variable {ι : Type*} [DecidableEq ι] (serialize : LogEntry → List UInt8)
  (deserialize : List UInt8 → Option LogEntry)

def initial (bufs : ι → List UInt8) : LogGroup ι := ⟨fun i => .new (bufs i), ⟨1, []⟩⟩

def put (G : LogGroup ι) (i : ι) (s : InmemLogStore) : LogGroup ι :=
  { G with store := Function.update G.store i s }

/-- The group goes on after a step in which nothing throws. -/
def next (G : LogGroup ι) : Event ι → Option (LogGroup ι)
  | .append i entry => some { G.put i ((G.store i).append entry).2 with
      history := G.history.append entry }
  | .writeAt i index entry => some (G.put i ((G.store i).writeAt index entry))
  | .compact i k => match (G.store i).compact k with
    | (.ok (), s) => some (G.put i s)
    | (.error _, _) => none
  | .ship i j index cnt => match (G.store i).pack serialize index (.ofNat cnt) with
    | .error _ => none
    | .ok packed => match (G.store j).applyPack deserialize index packed with
      | (.ok (), t) => some (G.put j t)
      | (.error _, _) => none

/-- A leader has the whole log, the entry a server is sent is the leader's, and a pack is of entries
its sender has, small enough for a buffer, from an index where the receiver's own log goes on, or
any if it has none. -/
def Orderly (G : LogGroup ι) : Event ι → Prop
  | .append i _ => (G.store i).nextSlot = G.history.next ∧ G.history.next < 2 ^ 64 - 1
  | .writeAt i index entry => (G.store i).startIndex ≤ index ∧ index ≤ (G.store i).nextSlot ∧
    index < 2 ^ 64 - 1 ∧ ∃ e, G.history.get? index = some e ∧ entry.Same e
  | .compact _ k => k < 2 ^ 64 - 1
  | .ship i j index cnt => 1 ≤ cnt ∧ packSize serialize (G.store i) index cnt < 2 ^ 31 ∧
    (G.store i).startIndex ≤ index ∧ index + cnt ≤ (G.store i).nextSlot ∧
    ((G.store j).startIndex ≤ index ∧ index ≤ (G.store j).nextSlot ∨
      ∀ k ∈ (G.store j).logs, k = 0) ∧
    ∀ k e, index ≤ k → k < index + cnt → (G.store i).logs[k]? = some e →
      Undoes serialize deserialize e

/-- A store holds a log that follows the history. -/
def Tracks (H : OffsetLog LogEntry) (s : InmemLogStore) (log : OffsetLog LogEntry) : Prop :=
  (∃ dummy, Refines s dummy log) ∧ log.Follows LogEntry.Same H.get?

/-- What holds of the stores at any time. -/
structure Shipped (G : LogGroup ι) : Prop where
  /-- There is no gap. -/
  contiguous : ∀ i, (G.store i).Contiguous
  /-- What is there was appended at that index. -/
  entryAt : ∀ i k, (G.store i).startIndex ≤ k → k < (G.store i).nextSlot →
    ∃ e e₀, (G.store i).entryAt k = some e ∧ G.history.get? k = some e₀ ∧ e.Same e₀
  /-- An orderly step throws nothing. -/
  goesOn : ∀ e, Orderly serialize deserialize G e → (G.next serialize deserialize e).isSome
  /-- A pack of all the sender has left brings the receiver level. -/
  level : ∀ {i j index cnt G'}, Orderly serialize deserialize G (.ship i j index cnt) →
    G.next serialize deserialize (.ship i j index cnt) = some G' →
    index + cnt = (G.store i).nextSlot → (G.store j).nextSlot ≤ (G.store i).nextSlot →
    (G'.store j).nextSlot = (G.store i).nextSlot

variable {serialize deserialize}

section Step

variable {G G' : LogGroup ι} {H : OffsetLog LogEntry} {s t : InmemLogStore}
  {log log' : OffsetLog LogEntry} {index cnt : ℕ}

omit [DecidableEq ι] in
theorem Tracks.mono {entry : LogEntry} (h : Tracks H s log) :
    Tracks (H.append entry) s log := by
  refine ⟨h.1, h.2.mono fun i e he => ?_⟩
  have hin := OffsetLog.isSome_get?.mp (Option.isSome_of_eq_some he)
  rwa [OffsetLog.get?_append, if_neg (by omega)]

/-- A pack of entries of one store, put in another. -/
theorem Tracks.ship (hs : Tracks H s log) (ht : Tracks H t log') (hcnt : 1 ≤ cnt)
    (hsize : packSize serialize s index cnt < 2 ^ 31) (hi : s.startIndex ≤ index)
    (hi' : index + cnt ≤ s.nextSlot)
    (hin : t.startIndex ≤ index ∧ index ≤ t.nextSlot ∨ ∀ k ∈ t.logs, k = 0)
    (hsend : ∀ k e, index ≤ k → k < index + cnt → s.logs[k]? = some e →
      Undoes serialize deserialize e) :
    ∃ packed t' es, s.pack serialize index (.ofNat cnt) = .ok packed ∧
      t.applyPack deserialize index packed = (.ok (), t') ∧ es.length = cnt ∧
      Tracks H t' (log'.install index es) ∧
      (log'.offset ≤ index ∧ index ≤ log'.next ∨ log'.entries = []) := by
  obtain ⟨⟨dummy, hs⟩, hfs⟩ := hs
  obtain ⟨⟨dummy', ht⟩, hft⟩ := ht
  have hstart : s.startIndex = log.offset := hs.start
  have hpos := hs.pos
  have hfits := hs.fits
  rw [hs.nextSlot] at hi'
  rw [InmemLogStore.startIndex, ht.start, ht.nextSlot, ← ht.entries_eq_nil] at hin
  obtain ⟨es, rfl, hes⟩ := exists_entriesFrom cnt index fun j hj hj' =>
    hs.mem_iff.mpr (.inr ⟨by omega, by omega⟩)
  rw [hes.packSize] at hsize
  obtain ⟨hcount, hsizes⟩ := sizes_of_packBytes hsize
  have hsent : ∀ e ∈ es, Undoes serialize deserialize e := by
    intro e he
    obtain ⟨k, hk, hk', hlog⟩ := hes.exists_index he
    exact hsend k e hk hk' hlog
  have hbufs : LogOp.WellFormed deserialize (es.map serialize) := by
    refine ⟨?_, hcount, hsizes, ?_⟩
    · rw [ne_eq, List.map_eq_nil_iff, ← List.length_eq_zero_iff]
      omega
    · refine List.forall_mem_map.mpr fun e he => ?_
      obtain ⟨e', he', -⟩ := hsent e he
      rw [he', Option.isSome_some]
  have hlen : (es.map serialize).length = es.length := List.length_map _
  have hpack := pack_eq (hlen ▸ hcount) (by omega) hlen (by omega) (serializeRange_eq hes)
  rw [if_neg (not_le.mpr hsize)] at hpack
  have hin' : log'.offset ≤ index ∧ index ≤ log'.next ∨ 1 ≤ index ∧ log'.entries = [] :=
    hin.imp id fun h => ⟨by omega, h⟩
  obtain ⟨t', happly, ht'⟩ := ht.applyPack hbufs hin' (by omega)
  refine ⟨_, t', _, hpack, happly, ?_, ⟨⟨dummy', ht'⟩, hft.install hin fun k e' he' => ?_⟩, hin⟩
  · rw [List.filterMap_length_eq_length.mpr hbufs.entries, hlen]
  · rw [getElem?_filterMap_isSome _ _ hbufs.entries, List.getElem?_map] at he'
    obtain ⟨bb, hbb, hread⟩ := Option.bind_eq_some_iff.mp he'
    obtain ⟨e, he, rfl⟩ := Option.map_eq_some_iff.mp hbb
    obtain ⟨e'', hread', hterm, htype, hbuf⟩ := hsent e (List.mem_of_getElem? he)
    obtain rfl := Option.some.inj (hread'.symm.trans hread)
    have hk : k < es.length := (List.getElem?_eq_some_iff.mp he).1
    have hlog : log.get? (index + k) = some e := by
      rw [← he, ← hes k hk, hs.lookup, if_neg (by omega)]
    obtain ⟨e₀, he₀, hsame⟩ := hfs _ e hlog
    exact ⟨e₀, he₀, LogEntry.Same.trans ⟨hterm, htype, hbuf⟩ hsame⟩

/-- What one step keeps. -/
theorem tracks_next (hG : ∀ i, ∃ log, Tracks G.history (G.store i) log) {e : Event ι}
    (he : Orderly serialize deserialize G e) :
    ∃ G', G.next serialize deserialize e = some G' ∧
      ∀ i, ∃ log, Tracks G'.history (G'.store i) log := by
  have hput : ∀ {i s log}, Tracks G.history s log →
      ∀ k, ∃ log, Tracks (G.put i s).history ((G.put i s).store k) log := by
    intro i s log hs k
    by_cases hk : k = i
    · subst hk
      exact ⟨log, by simpa [put] using hs⟩
    · simpa [put, hk] using hG k
  cases e with
  | append i entry =>
    obtain ⟨hnext, hfit⟩ := he
    obtain ⟨log, ⟨dummy, hs⟩, hf⟩ := hG i
    rw [hs.nextSlot] at hnext
    refine ⟨_, rfl, fun k => ?_⟩
    by_cases hk : k = i
    · subst hk
      refine ⟨log.append entry, ?_⟩
      simp only [put, Function.update_self]
      refine ⟨⟨dummy, hs.append (by rw [hs.nextSlot]; omega)⟩, ?_⟩
      have hmono : log.Follows LogEntry.Same (G.history.append entry).get? :=
        (Tracks.mono ⟨⟨dummy, hs⟩, hf⟩).2
      exact hmono.append (by rw [hnext, OffsetLog.get?_append, if_pos rfl]) (.refl entry)
    · obtain ⟨log, hlog⟩ := hG k
      exact ⟨log, by simpa [put, hk] using hlog.mono⟩
  | writeAt i index entry =>
    obtain ⟨hle, hle', hfit, e, he, hsame⟩ := he
    obtain ⟨log, ⟨dummy, hs⟩, hf⟩ := hG i
    have hs' : Refines ((G.store i).writeAt index entry) dummy (log.writeAt index entry) :=
      hs.writeAt ⟨hle, hle'⟩ hfit
    rw [InmemLogStore.startIndex, hs.start] at hle
    rw [hs.nextSlot] at hle'
    exact ⟨_, rfl, hput ⟨⟨dummy, hs'⟩, hf.writeAt hle hle' he hsame⟩⟩
  | compact i k =>
    obtain ⟨log, ⟨dummy, hs⟩, hf⟩ := hG i
    obtain ⟨s', hs', h'⟩ := hs.compact he
    refine ⟨G.put i s', by rw [next, hs'], hput ⟨⟨dummy, h'⟩, hf.compact⟩⟩
  | ship i j index cnt =>
    obtain ⟨hcnt, hsize, hi, hi', hin, hsend⟩ := he
    obtain ⟨log, hs⟩ := hG i
    obtain ⟨log', ht⟩ := hG j
    obtain ⟨packed, t', es, hpack, happly, -, ht', -⟩ :=
      Tracks.ship hs ht hcnt hsize hi hi' hin hsend
    refine ⟨G.put j t', ?_, hput ht'⟩
    simp only [next, hpack, happly]

theorem shipped_of_tracks (hG : ∀ i, ∃ log, Tracks G.history (G.store i) log) :
    Shipped serialize deserialize G where
  contiguous i := by
    obtain ⟨log, ⟨dummy, hs⟩, -⟩ := hG i
    exact hs.contiguous
  entryAt i k hk hk' := by
    obtain ⟨log, ⟨dummy, hs⟩, hf⟩ := hG i
    rw [InmemLogStore.startIndex, hs.start] at hk
    rw [hs.nextSlot] at hk'
    obtain ⟨e, he⟩ := Option.isSome_iff_exists.mp (OffsetLog.isSome_get?.mpr ⟨hk, hk'⟩)
    obtain ⟨e₀, he₀, hsame⟩ := hf k e he
    refine ⟨e, e₀, ?_, he₀, hsame⟩
    rw [InmemLogStore.entryAt, hs.find, he]
    rfl
  goesOn e he := by
    obtain ⟨G', h, -⟩ := tracks_next hG he
    exact Option.isSome_of_eq_some h
  level := by
    rintro i j index cnt G' ⟨hcnt, hsize, hi, hi', hin, hsend⟩ h hall hle
    obtain ⟨log, hs⟩ := hG i
    obtain ⟨log', ht⟩ := hG j
    obtain ⟨packed, t', es, hpack, happly, hlen, ⟨⟨dummy, ht'⟩, -⟩, hin'⟩ :=
      Tracks.ship hs ht hcnt hsize hi hi' hin hsend
    obtain ⟨⟨dummy', ht⟩, -⟩ := ht
    simp only [next, hpack, happly, Option.some.injEq] at h
    subst h
    rw [ht.nextSlot] at hle
    simp only [put, Function.update_self]
    rw [ht'.nextSlot, OffsetLog.next_install hin']
    split_ifs <;> omega

end Step

/-- In every run all that is in a store is what was appended at its index. -/
theorem shipped_run {bufs : ι → List UInt8} {es : List (Event ι)} {G : LogGroup ι}
    (hes : Run.Along (next serialize deserialize) (fun G e _ => Orderly serialize deserialize G e)
      (initial bufs) es)
    (hrun : Run.run (next serialize deserialize) (initial bufs) es = some G) :
    Shipped serialize deserialize G := by
  have hinit : ∀ i, ∃ log, Tracks (initial bufs).history ((initial bufs).store i) log :=
    fun i => ⟨⟨1, []⟩, ⟨_, Refines.new (bufs i)⟩, fun k e he => by
      simp [OffsetLog.get?] at he⟩
  refine shipped_of_tracks (Run.invariant
    (I := fun G : LogGroup ι => ∀ i, ∃ log, Tracks G.history (G.store i) log) ?_ hinit hes hrun)
  intro G e G' hG he hn
  obtain ⟨G'', h, hG''⟩ := tracks_next hG he
  obtain rfl := Option.some.inj (h.symm.trans hn)
  exact hG''

/-- A server has two packs of one entry each, and the sender compacted its log between them. -/
def sampleShipping : List (Event Bool) :=
  [.append true ⟨1, [5], appLog, 7⟩, .append true ⟨2, [6, 8], appLog, 9⟩, .ship true false 1 1,
    .compact true 1, .ship true false 2 1]

theorem sendable_sample {s : InmemLogStore} {index cnt : ℕ}
    (h : ∀ k ∈ List.range' index cnt, (s.logs[k]?).all fun e => decide (e.term < 2 ^ 64)) :
    ∀ k e, index ≤ k → k < index + cnt → s.logs[k]? = some e →
      Undoes sampleSerialize sampleDeserialize e := by
  intro k e hk hk' he
  have h := (Option.all_eq_true _ _).mp (h k (List.mem_range'_1.mpr ⟨hk, hk'⟩)) e he
  exact undoes_sampleSerialize (of_decide_eq_true h)

theorem shipped_run_compacted : ∃ G, Run.run (next sampleSerialize sampleDeserialize)
      (initial fun _ => [0]) sampleShipping = some G ∧ (G.store false).nextSlot = 3 ∧
    Shipped sampleSerialize sampleDeserialize G := by
  obtain ⟨G, hG, hslot⟩ := (Option.any_eq_true _ _).mp (by decide +kernel :
    (Run.run (next sampleSerialize sampleDeserialize) (initial fun _ => [0])
      sampleShipping).any fun G => decide ((G.store false).nextSlot = 3))
  refine ⟨G, hG, of_decide_eq_true hslot, shipped_run ?_ hG⟩
  intro G₁ h₁
  obtain rfl := Option.some.inj h₁
  refine ⟨⟨by decide, by decide⟩, fun G₂ h₂ => ?_⟩
  obtain rfl := Option.some.inj h₂
  refine ⟨⟨by decide, by decide⟩, fun G₃ h₃ => ?_⟩
  obtain rfl := Option.some.inj h₃
  refine ⟨⟨by decide, by decide, by decide, by decide, .inl ⟨by decide, by decide⟩,
    sendable_sample (by decide)⟩, fun G₄ h₄ => ?_⟩
  obtain rfl := Option.some.inj h₄
  refine ⟨(by decide : 1 < 2 ^ 64 - 1), fun G₅ h₅ => ?_⟩
  obtain rfl := Option.some.inj h₅
  exact ⟨⟨by decide, by decide, by decide +kernel, by decide +kernel,
    .inl ⟨by decide +kernel, by decide +kernel⟩, sendable_sample (by decide +kernel)⟩,
    trivial⟩

end LogGroup

end LockService
