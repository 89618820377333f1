import Mathlib.Algebra.Group.Nat.Defs
import Mathlib.Data.Finset.Basic

/-!
# Byte buffers of a fixed capacity

A writer fills a buffer from its start and refuses what would pass the end; a reader takes the
same layout back. Puts compose: two puts in a row are one put of the bytes in a row
(`Writer.put_bind_put`), so whether a sequence of puts goes through is a question about the length
of the whole layout, and what the buffer then starts with is that layout (`Writer.buffer_eq`).
-/

namespace Buffer

/-- The `n` low bytes of a number, least significant first. -/
def leBytes : ℕ → ℕ → List UInt8
  | 0, _ => []
  | n + 1, v => UInt8.ofNat v :: leBytes n (v / 256)

/-- The number a list of bytes spells, least significant first. -/
def leValue : List UInt8 → ℕ
  | [] => 0
  | b :: bs => b.toNat + 256 * leValue bs

@[simp]
theorem length_leBytes : ∀ n v, (leBytes n v).length = n
  | 0, _ => rfl
  | n + 1, v => by simp [leBytes, length_leBytes n]

theorem leValue_leBytes : ∀ n v, leValue (leBytes n v) = v % 256 ^ n
  | 0, v => by simp [leBytes, leValue, Nat.mod_one]
  | n + 1, v => by
    have hb : (UInt8.ofNat v).toNat = v % 256 := by simp
    rw [leBytes, leValue, leValue_leBytes n, hb, Nat.pow_succ', Nat.mod_mul]

/-- A buffer being filled: what has been put so far, never more than it holds. -/
structure Writer where
  capacity : ℕ
  written : List UInt8
  fits : written.length ≤ capacity

namespace Writer

def alloc (capacity : ℕ) : Writer := ⟨capacity, [], Nat.zero_le _⟩

/-- Put bytes after those already there; nothing is put when they would pass the end. -/
def put (w : Writer) (bs : List UInt8) : Option Writer :=
  if h : (w.written ++ bs).length ≤ w.capacity then some ⟨w.capacity, w.written ++ bs, h⟩ else none

/-- The whole buffer; what was never written is zero. -/
def buffer (w : Writer) : List UInt8 :=
  w.written ++ List.replicate (w.capacity - w.written.length) 0

theorem put_eq_some_iff {w w' : Writer} {bs : List UInt8} :
    w.put bs = some w' ↔ w'.capacity = w.capacity ∧ w'.written = w.written ++ bs := by
  obtain ⟨c, ws, hw⟩ := w
  obtain ⟨c', ws', hw'⟩ := w'
  simp only [put]
  constructor
  · intro h
    split at h
    · simp only [Option.some.injEq, mk.injEq] at h
      exact ⟨h.1.symm, h.2.symm⟩
    · cases h
  · rintro ⟨rfl, rfl⟩
    rw [dif_pos hw']

theorem put_eq_none_iff {w : Writer} {bs : List UInt8} :
    w.put bs = none ↔ w.capacity < w.written.length + bs.length := by
  simp [put]

theorem isSome_put (w : Writer) (bs : List UInt8) :
    (w.put bs).isSome ↔ w.written.length + bs.length ≤ w.capacity := by
  rw [Option.isSome_iff_ne_none, Ne, put_eq_none_iff, not_lt]

/-- Two puts in a row are one put of the bytes in a row. -/
theorem put_bind_put (w : Writer) (as bs : List UInt8) :
    (w.put as).bind (·.put bs) = w.put (as ++ bs) := by
  rcases h : w.put (as ++ bs) with _ | w'
  · rw [put_eq_none_iff, List.length_append] at h
    rcases ha : w.put as with _ | w₁
    · rfl
    · obtain ⟨hc, hw⟩ := put_eq_some_iff.mp ha
      rw [Option.bind_some, put_eq_none_iff, hc, hw, List.length_append]
      omega
  · obtain ⟨hc, hw⟩ := put_eq_some_iff.mp h
    have hfit := w'.fits
    rw [hc, hw, List.length_append, List.length_append] at hfit
    obtain ⟨w₁, ha⟩ := Option.isSome_iff_exists.mp ((isSome_put w as).mpr (by omega))
    obtain ⟨hc₁, hw₁⟩ := put_eq_some_iff.mp ha
    rw [ha, Option.bind_some, put_eq_some_iff, hc₁, hw₁]
    exact ⟨hc, by rw [hw, List.append_assoc]⟩

theorem buffer_eq {w w' : Writer} {bs : List UInt8} (h : w.put bs = some w') :
    ∃ rest, w'.buffer = w.written ++ (bs ++ rest) := by
  obtain ⟨-, hw⟩ := put_eq_some_iff.mp h
  exact ⟨_, by rw [buffer, hw, List.append_assoc]⟩

end Writer

/-- Take the next `n` bytes, when there are that many. -/
def take (n : ℕ) (bs : List UInt8) : Option (List UInt8 × List UInt8) :=
  if n ≤ bs.length then some (bs.splitAt n) else none

theorem take_append (bs rest : List UInt8) : take bs.length (bs ++ rest) = some (bs, rest) := by
  simp [take, List.splitAt_eq]

theorem take_eq_none {n : ℕ} {bs : List UInt8} (h : bs.length < n) : take n bs = none :=
  if_neg (by omega)

/-- The bytes of a 32-bit integer. -/
def i32Bytes (v : Int32) : List UInt8 := leBytes 4 v.toUInt32.toNat

/-- A string on the wire: its length in four bytes, then its bytes. -/
def strBytes (s : List UInt8) : List UInt8 := leBytes 4 s.length ++ s

def getI32 (bs : List UInt8) : Option (Int32 × List UInt8) :=
  (take 4 bs).map fun (v, rest) => ((UInt32.ofNat (leValue v)).toInt32, rest)

def getStr (bs : List UInt8) : Option (List UInt8 × List UInt8) :=
  (take 4 bs).bind fun (n, rest) => take (leValue n) rest

@[simp]
theorem length_i32Bytes (v : Int32) : (i32Bytes v).length = 4 := by simp [i32Bytes]

@[simp]
theorem length_strBytes (s : List UInt8) : (strBytes s).length = 4 + s.length := by
  simp [strBytes]

theorem getI32_i32Bytes (v : Int32) (rest : List UInt8) :
    getI32 (i32Bytes v ++ rest) = some (v, rest) := by
  have ht := take_append (i32Bytes v) rest
  have hv : leValue (i32Bytes v) = v.toUInt32.toNat := by
    rw [i32Bytes, leValue_leBytes]
    exact Nat.mod_eq_of_lt v.toUInt32.toNat_lt
  rw [length_i32Bytes] at ht
  simp only [getI32, ht, Option.map_some, hv, UInt32.ofNat_toNat, Int32.toInt32_toUInt32]

theorem getI32_eq_none {bs : List UInt8} (h : bs.length < 4) : getI32 bs = none := by
  rw [getI32, take_eq_none h, Option.map_none]

theorem getStr_strBytes {s : List UInt8} (hs : s.length < 2 ^ 32) (rest : List UInt8) :
    getStr (strBytes s ++ rest) = some (s, rest) := by
  have ht := take_append (leBytes 4 s.length) (s ++ rest)
  have hv : leValue (leBytes 4 s.length) = s.length := by
    rw [leValue_leBytes]
    exact Nat.mod_eq_of_lt hs
  rw [length_leBytes] at ht
  simp [getStr, strBytes, ht, hv, take_append]

end Buffer
