import Mathlib.Data.List.Basic

/-!
# Decimal numerals as bytes

A numeral is one digit or more, of any value, leading zeros among them (`digitsValue`). A sign may
come before it (`sign`). The digits of a number are a numeral of that value
(`isNumeral_toDigits`, `digitsValue_toDigits`).
-/

def isDigit (b : UInt8) : Bool := 0x30 ≤ b && b ≤ 0x39

/-- The number that the digits write. -/
def digitsValue (ds : List UInt8) : ℕ := ds.foldl (fun v d => 10 * v + (d.toNat - 0x30)) 0

def IsNumeral (ds : List UInt8) : Prop := ds ≠ [] ∧ ∀ d ∈ ds, isDigit d = true

instance (ds : List UInt8) : Decidable (IsNumeral ds) := inferInstanceAs (Decidable (_ ∧ _))

/-- Whether a sign makes what follows negative, and what follows. -/
def sign : List UInt8 → Bool × List UInt8
  | [] => (false, [])
  | b :: s => if b = 0x2D then (true, s) else if b = 0x2B then (false, s) else (false, b :: s)

section Digits

variable {ds : List UInt8} {d : UInt8}

theorem ne_of_isDigit (h : isDigit d = true) : d ≠ 0x2D ∧ d ≠ 0x2B ∧ d ≠ 0x3A := by
  refine ⟨?_, ?_, ?_⟩ <;> rintro rfl <;> cases h

/-- A numeral by itself has no sign. -/
theorem sign_numeral (h : IsNumeral ds) : sign ds = (false, ds) := by
  obtain ⟨d, ds, rfl⟩ := List.exists_cons_of_ne_nil h.1
  obtain ⟨hminus, hplus, -⟩ := ne_of_isDigit (h.2 d (by simp))
  rw [sign, if_neg hminus, if_neg hplus]

theorem sign_minus (s : List UInt8) : sign (0x2D :: s) = (true, s) := rfl

theorem sign_plus (s : List UInt8) : sign (0x2B :: s) = (false, s) := rfl

theorem sign_cases (s : List UInt8) :
    sign s = (true, s.tail) ∧ s = 0x2D :: s.tail ∨
      sign s = (false, s.tail) ∧ s = 0x2B :: s.tail ∨ sign s = (false, s) := by
  rcases s with _ | ⟨b, s⟩
  · exact .inr (.inr rfl)
  · rw [sign]
    split_ifs with hminus hplus
    · exact .inl ⟨rfl, by rw [hminus, List.tail_cons]⟩
    · exact .inr (.inl ⟨rfl, by rw [hplus, List.tail_cons]⟩)
    · exact .inr (.inr rfl)

theorem isDigit_char {c : Char} (h : c.isDigit = true) :
    isDigit (UInt8.ofNat c.toNat) = true ∧ (UInt8.ofNat c.toNat).toNat = c.toNat := by
  obtain ⟨h₁, h₂⟩ := Char.isDigit_iff_toNat.mp h
  simp only [Char.reduceToNat] at h₁ h₂
  have hnat : (UInt8.ofNat c.toNat).toNat = c.toNat := by
    rw [UInt8.toNat_ofNat']
    omega
  refine ⟨?_, hnat⟩
  simp only [isDigit, Bool.and_eq_true, decide_eq_true_eq, UInt8.le_iff_toNat_le, hnat,
    UInt8.reduceToNat]
  omega

theorem isNumeral_toDigits (n : ℕ) :
    IsNumeral ((Nat.toDigits 10 n).map fun c => UInt8.ofNat c.toNat) := by
  refine ⟨by simp [Nat.toDigits_ne_nil], fun d hd => ?_⟩
  obtain ⟨c, hc, rfl⟩ := List.mem_map.mp hd
  exact (isDigit_char (Nat.isDigit_of_mem_toDigits (by decide) (by decide) hc)).1

theorem digitsValue_toDigits (n : ℕ) :
    digitsValue ((Nat.toDigits 10 n).map fun c => UInt8.ofNat c.toNat) = n := by
  have hfold : ∀ (cs : List Char) (v : ℕ), (∀ c ∈ cs, c.isDigit = true) →
      (cs.map fun c => UInt8.ofNat c.toNat).foldl (fun v d => 10 * v + (d.toNat - 0x30)) v =
        Nat.ofDigitChars 10 cs v := by
    intro cs
    induction cs with
    | nil => exact fun v _ => Nat.ofDigitChars_nil.symm
    | cons c cs ih =>
      intro v h
      have hc := (isDigit_char (h c (by simp))).2
      rw [List.map_cons, List.foldl_cons, ih _ fun c hc => h c (List.mem_cons_of_mem _ hc), hc,
        Nat.ofDigitChars_cons]
      rfl
  rw [digitsValue, hfold _ _ fun c hc => Nat.isDigit_of_mem_toDigits (by decide) (by decide) hc]
  exact Nat.ofDigitChars_ten_toDigits

end Digits
