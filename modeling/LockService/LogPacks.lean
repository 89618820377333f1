import LockService.LogRefinement
import Mathlib.Algebra.Order.BigOperators.Group.List
import Mathlib.Algebra.Order.Group.Nat

/-!
# A pack of entries from one log store to another

`pack` lays out entries one after the other, each behind its size, and `apply_pack` reads as many
as the first four bytes say. Between a store whose indices have no gap and any other, the entries of
a range come out as they went in, no byte is left or missing, and an empty store starts with the
first of them (`applyPack_pack`). A range that makes a pack of two gigabytes is not packed at all.
-/

namespace LockService

open Buffer

/-- A store that holds a log is one of these. -/
theorem Refines.contiguous {s : InmemLogStore} {dummy : LogEntry} {log : OffsetLog LogEntry}
    (h : Refines s dummy log) : s.Contiguous := fun i => by
  rw [h.mem_iff, InmemLogStore.startIndex, h.start, h.nextSlot]

/-- The entries from an index on are these. -/
def EntriesFrom (logs : Std.ExtTreeMap ℕ LogEntry) (ii : ℕ) (es : List LogEntry) : Prop :=
  ∀ k, k < es.length → logs[ii + k]? = es[k]?

/-- `log_entry::deserialize` gives back the term, the type and the data of what `serialize` made of
an entry. -/
def Undoes (serialize : LogEntry → List UInt8) (deserialize : List UInt8 → Option LogEntry)
    (e : LogEntry) : Prop :=
  ∃ e', deserialize (serialize e) = some e' ∧ e'.term = e.term ∧ e'.valType = e.valType ∧
    e'.buf = e.buf

/-- The call reads every byte of the pack and none after it. -/
def ReadsExactly (deserialize : List UInt8 → Option LogEntry) (t : InmemLogStore) (index : ℕ)
    (pack : List UInt8) : Prop :=
  (∀ rest, t.applyPack deserialize index (pack ++ rest) = t.applyPack deserialize index pack) ∧
    ∀ k, k < pack.length → (t.applyPack deserialize index (pack.take k)).1 = .error .bufferEnd

/-- The entries of a range are in the second store as in the first, and nothing else changed. -/
structure Copied (s t t' : InmemLogStore) (i n : ℕ) : Prop where
  entryAt : ∀ j, i ≤ j → j < i + n → ∃ e e', s.entryAt j = some e ∧ t'.entryAt j = some e' ∧
    e'.term = e.term ∧ e'.valType = e.valType ∧ e'.buf = e.buf
  termAt : ∀ j, i ≤ j → j < i + n → t'.termAt j = s.termAt j
  others : ∀ j, ¬ (i ≤ j ∧ j < i + n) → t'.logs[j]? = t.logs[j]?
  refilled : 1 ≤ i → (∀ j, j ∈ t.logs ↔ j = 0) → t'.startIndex = i ∧ t'.nextSlot = i + n

/-- How many bytes a pack of the range has: the count, and each entry with its size. -/
def packSize (serialize : LogEntry → List UInt8) (s : InmemLogStore) (i n : ℕ) : ℕ :=
  4 + n * 4 + ((List.range' i n).map fun j =>
    (s.logs[j]?).elim 0 fun e => (serialize e).length).sum

section Pack

variable {serialize : LogEntry → List UInt8} {deserialize : List UInt8 → Option LogEntry}
  {logs : Std.ExtTreeMap ℕ LogEntry}

theorem EntriesFrom.head {ii : ℕ} {e : LogEntry} {es : List LogEntry}
    (h : EntriesFrom logs ii (e :: es)) : logs[ii]? = some e := h 0 (by simp)

theorem EntriesFrom.tail {ii : ℕ} {e : LogEntry} {es : List LogEntry}
    (h : EntriesFrom logs ii (e :: es)) : EntriesFrom logs (ii + 1) es := fun k hk => by
  rw [Nat.add_right_comm, Nat.add_assoc, h (k + 1) (by simpa using hk), List.getElem?_cons_succ]

theorem exists_entriesFrom :
    ∀ (n ii : ℕ), (∀ j, ii ≤ j → j < ii + n → j ∈ logs) →
      ∃ es, es.length = n ∧ EntriesFrom logs ii es
  | 0, _, _ => ⟨[], rfl, fun k hk => absurd hk (Nat.not_lt_zero k)⟩
  | n + 1, ii, h => by
    obtain ⟨le, hle⟩ := mem_iff_exists_getElem?.mp (h ii le_rfl (by omega))
    obtain ⟨es, hlen, hes⟩ := exists_entriesFrom n (ii + 1) fun j hj hj' =>
      h j (by omega) (by omega)
    refine ⟨le :: es, by rw [List.length_cons, hlen], fun k hk => ?_⟩
    rcases k with _ | k
    · exact hle
    · rw [← Nat.add_assoc, Nat.add_right_comm, hes k (by simpa using hk), List.getElem?_cons_succ]

theorem EntriesFrom.lookup {i j : ℕ} {es : List LogEntry} (h : EntriesFrom logs i es) (hj : i ≤ j)
    (hj' : j < i + es.length) : logs[j]? = es[j - i]? := by
  rw [← h (j - i) (by omega), Nat.add_sub_of_le hj]

theorem EntriesFrom.exists_index {i : ℕ} {es : List LogEntry} {e : LogEntry}
    (h : EntriesFrom logs i es) (he : e ∈ es) :
    ∃ j, i ≤ j ∧ j < i + es.length ∧ logs[j]? = some e := by
  obtain ⟨k, hk, rfl⟩ := List.mem_iff_getElem.mp he
  exact ⟨i + k, by omega, by omega, by rw [h k hk, List.getElem?_eq_getElem hk]⟩

/-- Entries that are there are serialized one after the other. -/
theorem serializeRange_eq :
    ∀ {es : List LogEntry} {ii : ℕ}, EntriesFrom logs ii es →
      serializeRange serialize logs es.length ii = .ok (es.map serialize)
  | [], _, _ => rfl
  | e :: es, ii, h => by
    rw [List.length_cons, serializeRange, h.head]
    dsimp only
    rw [serializeRange_eq h.tail]
    rfl

/-- The entries are put as one layout. -/
theorem putEntries_eq : ∀ (bufs : List (List UInt8)) (w : Writer), putEntries bufs w =
    w.put (bufs.flatMap fun bb => i32Bytes (.ofNat bb.length) ++ bb)
  | [], w => (Writer.put_eq_some_iff.mpr ⟨rfl, (List.append_nil _).symm⟩).symm
  | bb :: bufs, w => by
    simp only [putEntries, List.flatMap_cons, ← Writer.put_bind_put, Option.bind_eq_bind,
      Option.bind_assoc, putEntries_eq bufs]

theorem length_layout (bufs : List (List UInt8)) :
    (bufs.flatMap fun bb => i32Bytes (.ofNat bb.length) ++ bb).length =
      4 * bufs.length + (bufs.map List.length).sum := by
  induction bufs with
  | nil => rfl
  | cons bb bufs ih =>
    simp only [List.flatMap_cons, List.length_append, length_i32Bytes, ih, List.length_cons,
      List.map_cons, List.sum_cons]
    omega

theorem length_packBytes (bufs : List (List UInt8)) :
    (InmemLogStore.packBytes bufs).length =
      4 + bufs.length * 4 + (bufs.map List.length).sum := by
  rw [InmemLogStore.packBytes, List.length_append, length_i32Bytes, length_layout]
  omega

/-- The pack of a range is as large as this. -/
theorem EntriesFrom.packSize {s : InmemLogStore} {i : ℕ} {es : List LogEntry}
    (h : EntriesFrom s.logs i es) : packSize serialize s i es.length =
      (InmemLogStore.packBytes (es.map serialize)).length := by
  rw [length_packBytes, List.length_map, LockService.packSize]
  congr 1
  induction es generalizing i with
  | nil => rfl
  | cons e es ih =>
    simp only [List.length_cons, List.range'_succ, List.map_cons, List.sum_cons, h.head,
      Option.elim_some, ih h.tail]

/-- The sizes that a pack below the limit is made of are below it. -/
theorem sizes_of_packBytes {bufs : List (List UInt8)}
    (h : (InmemLogStore.packBytes bufs).length < 2 ^ 31) :
    bufs.length < 2 ^ 31 ∧ ∀ bb ∈ bufs, bb.length < 2 ^ 31 := by
  rw [length_packBytes] at h
  refine ⟨by omega, fun bb hbb => ?_⟩
  have hle : bb.length ≤ (bufs.map List.length).sum := 
    List.single_le_sum (fun _ _ => Nat.zero_le _) _ (List.mem_map_of_mem hbb)
  omega

/-- The buffer is as large as what is put in it, and as large as that it must be allocated. -/
theorem pack_eq {s : InmemLogStore} {i n : ℕ} {bufs : List (List UInt8)} (hn : n < 2 ^ 31)
    (hfit : i + n < 2 ^ 64) (hlen : bufs.length = n)
    (hsize : (InmemLogStore.packBytes bufs).length < 2 ^ 64)
    (h : serializeRange serialize s.logs n i = .ok bufs) :
    s.pack serialize i (.ofNat n) =
      if 2 ^ 31 ≤ (InmemLogStore.packBytes bufs).length then .error .outOfRange
      else .ok (InmemLogStore.packBytes bufs) := by
  have hcnt : (Int32.ofNat n).toInt = n := Int32.toInt_ofNat_of_lt hn
  have hrange : ulong ((i : ℤ) + (n : ℤ)) - i = n := by
    unfold ulong
    omega
  have hcapacity : ulong (4 + (n : ℤ) * 4 + ((bufs.map List.length).sum : ℕ)) =
      (InmemLogStore.packBytes bufs).length := by
    rw [length_packBytes, hlen] at hsize ⊢
    unfold ulong
    omega
  have hput : (Writer.alloc (InmemLogStore.packBytes bufs).length).put
      (InmemLogStore.packBytes bufs) = some ⟨_, InmemLogStore.packBytes bufs, le_rfl⟩ :=
    Writer.put_eq_some_iff.mpr ⟨rfl, rfl⟩
  rw [InmemLogStore.pack, hcnt, hrange, h]
  dsimp only
  rw [hcapacity]
  congr 1
  rw [funext (putEntries_eq bufs), Writer.put_bind_put]
  rw [InmemLogStore.packBytes, hlen] at hput ⊢
  rw [hput]
  simp [Writer.buffer]

/-- A pack cut short is found to end. -/
theorem installRange_take (index : ℕ) :
    ∀ (bufs : List (List UInt8)) (ii k : ℕ) (logs : Std.ExtTreeMap ℕ LogEntry),
      (∀ bb ∈ bufs, bb.length < 2 ^ 31) → (∀ bb ∈ bufs, (deserialize bb).isSome) →
      k < (bufs.flatMap fun bb => i32Bytes (.ofNat bb.length) ++ bb).length →
      (installRange deserialize index bufs.length ii
        ((bufs.flatMap fun bb => i32Bytes (.ofNat bb.length) ++ bb).take k) logs).1 =
          .error .bufferEnd
  | [], _, _, _, _, _, hk => absurd hk (by simp)
  | bb :: bufs, ii, k, logs, hsizes, hentries, hk => by
    rw [List.flatMap_cons, List.append_assoc] at hk ⊢
    rw [List.length_cons, installRange]
    rcases Nat.lt_or_ge k 4 with hlt | hge
    · rw [getI32_eq_none (by rw [List.length_take]; omega)]
    obtain ⟨size, hget, hneg, hsize⟩ := getI32_size (hsizes bb (by simp))
      ((bb ++ bufs.flatMap fun bb => i32Bytes (.ofNat bb.length) ++ bb).take (k - 4))
    rw [List.take_append, length_i32Bytes, List.take_of_length_le (by simpa using hge), hget]
    simp only [if_neg hneg, hsize]
    rw [List.take_append]
    rcases Nat.lt_or_ge (k - 4) bb.length with hlt | hge'
    · rw [take_eq_none]
      rw [List.length_append, List.length_take, List.length_take]
      omega
    · obtain ⟨le, hle⟩ := Option.isSome_iff_exists.mp (hentries bb (by simp))
      rw [List.take_of_length_le hge', take_append]
      simp only [hle]
      refine installRange_take index bufs (ii + 1) _ _ (fun b hb => hsizes b ?_)
        (fun b hb => hentries b ?_) ?_
      · exact List.mem_cons_of_mem _ hb
      · exact List.mem_cons_of_mem _ hb
      · rw [List.length_append, List.length_append, length_i32Bytes] at hk
        omega

theorem getElem?_filterMap_isSome :
    ∀ (bufs : List (List UInt8)) (k : ℕ), (∀ bb ∈ bufs, (deserialize bb).isSome) →
      (bufs.filterMap deserialize)[k]? = bufs[k]?.bind deserialize
  | [], _, _ => rfl
  | bb :: bufs, k, h => by
    obtain ⟨le, hle⟩ := Option.isSome_iff_exists.mp (h bb (by simp))
    rw [List.filterMap_cons_some hle]
    rcases k with _ | k
    · simp [hle]
    · simpa using getElem?_filterMap_isSome bufs k fun b hb => h b (List.mem_cons_of_mem _ hb)

/-- A pack is read to its end. -/
theorem readsExactly_packBytes {bufs : List (List UInt8)} {i : ℕ} (hcount : bufs.length < 2 ^ 31)
    (hsizes : ∀ bb ∈ bufs, bb.length < 2 ^ 31) (hentries : ∀ bb ∈ bufs, (deserialize bb).isSome)
    (hfit : i + bufs.length < 2 ^ 64) (t : InmemLogStore) :
    ReadsExactly deserialize t i (InmemLogStore.packBytes bufs) := by
  obtain ⟨logs, happly, -⟩ := applyPack_spec hcount hsizes hentries hfit t
  have hwhole := happly []
  rw [List.append_nil] at hwhole
  refine ⟨fun rest => (happly rest).trans hwhole.symm, fun k hk => ?_⟩
  rw [InmemLogStore.packBytes, List.length_append, length_i32Bytes] at hk
  rw [InmemLogStore.applyPack, InmemLogStore.packBytes]
  rcases Nat.lt_or_ge k 4 with hlt | hge
  · rw [getI32_eq_none (by rw [List.length_take]; omega)]
  obtain ⟨size, hget, -, hsize⟩ := getI32_size hcount
    ((bufs.flatMap fun bb => i32Bytes (.ofNat bb.length) ++ bb).take (k - 4))
  rw [List.take_append, length_i32Bytes, List.take_of_length_le (by simpa using hge), hget]
  simp only [hsize]
  have hcut := installRange_take i bufs 0 (k - 4) t.logs hsizes hentries (by omega)
  split
  · rename_i f logs' hf
    rw [hf] at hcut
    exact hcut
  · rename_i logs' hok
    rw [hok] at hcut
    cases hcut

/-- An empty store starts with the first entry of the pack and ends with the last. -/
theorem refilled_spec {logs : Std.ExtTreeMap ℕ LogEntry} {i n : ℕ} (hn : 1 ≤ n) (hi : 1 ≤ i)
    (hfit : i + n < 2 ^ 64) (hmem : ∀ k, k ∈ logs ↔ k = 0 ∨ i ≤ k ∧ k < i + n) :
    (logs.keys.find? (0 < ·)).getD 1 = i ∧ InmemLogStore.nextSlot ⟨logs, i⟩ = i + n := by
  have hkeys : ∀ k, k ∈ logs.keys ↔ k = 0 ∨ i ≤ k ∧ k < i + n := fun k => by
    rw [Std.ExtTreeMap.mem_keys, hmem]
  have hsize := length_of_interval (Std.ExtTreeMap.nodup_keys (t := logs)) hi hkeys
  rw [Std.ExtTreeMap.length_keys] at hsize
  refine ⟨firstKey_eq hi (by omega) hmem, ?_⟩
  unfold InmemLogStore.nextSlot ulong
  dsimp only
  omega

variable {s : InmemLogStore} {i n : ℕ}

/-- What is packed from a range of one store and applied to another is there as it was. -/
theorem applyPack_pack (hs : s.Contiguous) (hn : 1 ≤ n) (hi : s.startIndex ≤ i)
    (hi' : i + n ≤ s.nextSlot) (hsize : packSize serialize s i n < 2 ^ 31)
    (hundo : ∀ j e, i ≤ j → j < i + n → s.logs[j]? = some e → Undoes serialize deserialize e)
    (t : InmemLogStore) :
    ∃ packed t', s.pack serialize i (.ofNat n) = .ok packed ∧
      t.applyPack deserialize i packed = (.ok (), t') ∧ ReadsExactly deserialize t i packed ∧
      Copied s t t' i n := by
  have hfit : i + n < 2 ^ 64 := by
    unfold InmemLogStore.nextSlot ulong at hi'
    omega
  have hthere : ∀ j, i ≤ j → j < i + n → j ∈ s.logs := fun j hj hj' =>
    (hs j).mpr (.inr ⟨by omega, by omega⟩)
  obtain ⟨es, rfl, hes⟩ := exists_entriesFrom n i hthere
  rw [hes.packSize] at hsize
  obtain ⟨hcount, hsmall⟩ := sizes_of_packBytes hsize
  have hread : ∀ bb ∈ es.map serialize, (deserialize bb).isSome := by
    intro bb hbb
    obtain ⟨e, he, rfl⟩ := List.mem_map.mp hbb
    obtain ⟨j, hj, hj', hlog⟩ := hes.exists_index he
    obtain ⟨e', he', -⟩ := hundo j e hj hj' hlog
    rw [he', Option.isSome_some]
  have hlen : (es.map serialize).length = es.length := List.length_map _
  have hfits : i + (es.map serialize).length < 2 ^ 64 := by rw [hlen]; exact hfit
  have hpack := pack_eq (hlen ▸ hcount) hfit hlen (by omega) (serializeRange_eq hes)
  rw [if_neg (not_le.mpr hsize)] at hpack
  obtain ⟨logs, happly, hlogs⟩ := applyPack_spec hcount hsmall hread hfits t
  have happly := happly []
  rw [List.append_nil] at happly
  have hexact := readsExactly_packBytes hcount hsmall hread hfits t
  simp only [hlen, getElem?_filterMap_isSome _ _ hread] at hlogs
  have hpair : ∀ j, i ≤ j → j < i + es.length → ∃ e e', s.logs[j]? = some e ∧
      logs[j]? = some e' ∧ e'.term = e.term ∧ e'.valType = e.valType ∧ e'.buf = e.buf := by
    intro j hj hj'
    have he : s.logs[j]? = some es[j - i] := by
      rw [hes.lookup hj hj', List.getElem?_eq_getElem]
    obtain ⟨e', he', hsame⟩ := hundo j _ hj hj' he
    refine ⟨es[j - i], e', he, ?_, hsame⟩
    rw [hlogs, if_pos ⟨hj, hj'⟩, List.getElem?_map, List.getElem?_eq_getElem (by omega)]
    exact he'
  refine ⟨_, _, hpack, happly, hexact, fun j hj hj' => ?_, fun j hj hj' => ?_,
    fun j hj => by rw [hlogs, if_neg hj], fun hpos hempty => ?_⟩
  · obtain ⟨e, e', he, he', hsame⟩ := hpair j hj hj'
    refine ⟨e, e', ?_, ?_, hsame⟩ <;>
      simp [InmemLogStore.entryAt, InmemLogStore.find, he, he', makeClone]
  · obtain ⟨e, e', he, he', hterm, -⟩ := hpair j hj hj'
    simp [InmemLogStore.termAt, InmemLogStore.find, he, he', hterm]
  · have hkeys : ∀ k, k ∈ logs ↔ k = 0 ∨ i ≤ k ∧ k < i + es.length := by
      intro k
      by_cases hk : i ≤ k ∧ k < i + es.length
      · obtain ⟨e, e', -, he', -⟩ := hpair k hk.1 hk.2
        exact iff_of_true (mem_iff_exists_getElem?.mpr ⟨e', he'⟩) (.inr hk)
      · rw [mem_iff_exists_getElem?, hlogs, if_neg hk, ← mem_iff_exists_getElem?, hempty]
        exact (or_iff_left hk).symm
    obtain ⟨hstart, hnext⟩ := refilled_spec hn hpos hfit hkeys
    refine ⟨hstart, ?_⟩
    rw [hstart]
    exact hnext

end Pack

/-- `log_entry::serialize`, which leaves the timestamp out. -/
def sampleSerialize (e : LogEntry) : List UInt8 := leBytes 8 e.term ++ e.valType :: e.buf

theorem exists_length_sampleSerialize (n : ℕ) :
    ∃ e : LogEntry, (sampleSerialize e).length = n + 9 ∧ e.term < 2 ^ 64 := by
  refine ⟨⟨1, List.replicate n 0, appLog, 0⟩, ?_, (by decide : 1 < 2 ^ 64)⟩
  simp only [sampleSerialize, List.length_append, length_leBytes, List.length_cons,
    List.length_replicate]
  omega

theorem undoes_sampleSerialize {e : LogEntry} (h : e.term < 2 ^ 64) :
    Undoes sampleSerialize sampleDeserialize e := by
  have ht := take_append (leBytes 8 e.term) (e.valType :: e.buf)
  have hv : leValue (leBytes 8 e.term) = e.term := by
    rw [leValue_leBytes]
    exact Nat.mod_eq_of_lt h
  rw [length_leBytes] at ht
  exact ⟨⟨e.term, e.buf, e.valType, 0⟩, by simp [sampleDeserialize, sampleSerialize, ht, hv], rfl,
    rfl, rfl⟩

/-- A store that got two entries. -/
def sampleStore : InmemLogStore :=
  (((InmemLogStore.new [0]).append ⟨1, [5], appLog, 7⟩).2.append ⟨2, [6, 8], appLog, 9⟩).2

theorem refines_sampleStore : Refines sampleStore (InmemLogStore.dummy [0])
    ⟨1, [⟨1, [5], appLog, 7⟩, ⟨2, [6, 8], appLog, 9⟩]⟩ := by
  have hfirst : Refines ((InmemLogStore.new [0]).append ⟨1, [5], appLog, 7⟩).2 _ _ :=
    (Refines.new [0]).append (by decide)
  exact hfirst.append (by decide)

/-- Two entries go to a new store. -/
theorem applyPack_pack_two_entries : ∃ packed t',
    sampleStore.pack sampleSerialize 1 2 = .ok packed ∧
      (InmemLogStore.new [0]).applyPack sampleDeserialize 1 packed = (.ok (), t') ∧
      ReadsExactly sampleDeserialize (.new [0]) 1 packed ∧
      Copied sampleStore (.new [0]) t' 1 2 := by
  have hterm : ∀ j e, 1 ≤ j → j < 1 + 2 → sampleStore.logs[j]? = some e → e.term < 2 ^ 64 := by
    intro j e hj hj' he
    rw [refines_sampleStore.lookup, if_neg (by omega)] at he
    obtain rfl | rfl : j = 1 ∨ j = 2 := by omega
    · obtain rfl := Option.some.inj he
      decide
    · obtain rfl := Option.some.inj he
      decide
  exact applyPack_pack refines_sampleStore.contiguous (by decide) (by decide) (by decide)
    (by decide) (fun j e hj hj' he => undoes_sampleSerialize (hterm j e hj hj' he)) (.new [0])

/-- Two entries of a gigabyte each are one pack too large for a buffer. -/
theorem not_pack_two_gigabytes : ∃ s : InmemLogStore, s.Contiguous ∧ s.startIndex ≤ 1 ∧
    1 + 2 ≤ s.nextSlot ∧
    (∀ j e, 1 ≤ j → j < 1 + 2 → s.logs[j]? = some e → (sampleSerialize e).length < 2 ^ 31 ∧
      Undoes sampleSerialize sampleDeserialize e) ∧
    s.pack sampleSerialize 1 2 = .error .outOfRange := by
  obtain ⟨e, hlen, hterm⟩ := exists_length_sampleSerialize (2 ^ 30)
  have hfirst : Refines ((InmemLogStore.new [0]).append e).2 (InmemLogStore.dummy [0]) ⟨1, [e]⟩ :=
    (Refines.new [0]).append (by decide)
  obtain ⟨s, hs⟩ : ∃ s, Refines s (InmemLogStore.dummy [0]) ⟨1, [e, e]⟩ :=
    ⟨_, hfirst.append (by rw [hfirst.nextSlot]; exact (by decide : 2 < 2 ^ 64 - 1))⟩
  have hlog : EntriesFrom s.logs 1 [e, e] := by
    intro k hk
    rw [hs.lookup, if_neg (by omega)]
    simp [OffsetLog.get?]
  have hall : ∀ j e', 1 ≤ j → j < 1 + 2 → s.logs[j]? = some e' → e' = e := by
    intro j e' hj hj' he'
    rw [hlog.lookup hj hj'] at he'
    simpa using List.mem_of_getElem? he'
  have hsize : (InmemLogStore.packBytes ([e, e].map sampleSerialize)).length = 2 ^ 31 + 30 := by
    simp only [length_packBytes, List.map_cons, List.map_nil, List.length_cons, List.length_nil,
      List.sum_cons, List.sum_nil, hlen]
    omega
  have hpack : s.pack sampleSerialize 1 (.ofNat 2) = _ :=
    pack_eq (by decide) (by decide) rfl (by rw [hsize]; decide) (serializeRange_eq hlog)
  rw [hsize, if_pos (by decide)] at hpack
  refine ⟨s, hs.contiguous, hs.start.le, hs.nextSlot.ge, fun j e' hj hj' he' => ?_, hpack⟩
  rw [hall j e' hj hj' he', hlen]
  exact ⟨by decide, undoes_sampleSerialize hterm⟩

end LockService
