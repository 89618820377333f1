import LockService.Lib.Numeral
import LockService.Paths
import Mathlib.Algebra.Group.Int.Defs
import Mathlib.Data.List.TakeWhile

/-!
# Addresses and endpoints

A server gets its own endpoint and the addresses of its peers as text, and reads them in two ways:
the endpoint up to the last colon and with `atoi`, which takes what it can of the rest
(`parseEndpoint`), an address as two tokens with `lexical_cast`, which takes all of it or nothing
(`makeAddress`). Where they part is a matter of colons and of what comes after the last one
(`agree_iff`).
-/

namespace LockService

/-- What ends the program on its options. -/
inductive OptionFault where
  /-- `validation_error::invalid_option_value`. -/
  | invalidOptionValue (option : String) (value : Str)
  | badLexicalCast
  /-- `throw(1)`, after the message and the value in it. -/
  | wrongEndpoint (message : String) (endpoint : Str)
  | wrongPort (message : String) (port : ℤ)
  deriving DecidableEq

/-- `utility::parse::Address`. -/
structure Address where
  address : Str
  port : UInt16
  deriving DecidableEq

/-- `:`. -/
def colon : UInt8 := 0x3A

/-- `std::to_string` of an `int`. -/
def toStr (v : ℤ) : Str := if v < 0 then 0x2D :: decimal v.natAbs else decimal v.natAbs

def Address.toString (a : Address) : Str := a.address ++ colon :: decimal a.port.toNat

/-- `make_address`. -/
def makeAddress (lexicalCast : Str → Option UInt16) (addressAndPort : Str) :
    Except OptionFault Address :=
  match addressAndPort.splitOn colon with
  | [address, port] => match lexicalCast port with
    | some port => .ok ⟨address, port⟩
    | none => .error .badLexicalCast
  | _ => .error (.invalidOptionValue "cluster.address" addressAndPort)

/-- `rfind` of one character. -/
def rfind (c : UInt8) : Str → Option ℕ
  | [] => none
  | b :: s => match rfind c s with
    | some pos => some (pos + 1)
    | none => if b = c then some 0 else none

/-- `isspace`. -/
def isSpace (b : UInt8) : Bool := b = 0x20 || (0x09 ≤ b && b ≤ 0x0D)

/-- `atoi`, which is undefined where the number is no `int`. -/
def atoi (overflow : Str → ℤ) (s : Str) : ℤ :=
  let (negative, digits) := sign (s.dropWhile isSpace)
  let value : ℤ := digitsValue (digits.takeWhile isDigit)
  let value := if negative then -value else value
  if -2 ^ 31 ≤ value ∧ value < 2 ^ 31 then value else overflow s

/-- How `parse_options` reads `consensus.endpoint`: the address and the port. -/
def parseEndpoint (overflow : Str → ℤ) (endpoint : Str) : Except OptionFault (Str × ℤ) :=
  match rfind colon endpoint with
  | none => .error (.wrongEndpoint "wrong endpoint: " endpoint)
  | some pos =>
    let port := atoi overflow (endpoint.drop (pos + 1))
    if port < 1000 then .error (.wrongPort "wrong port (should be >= 1000): " port)
    else .ok (endpoint.take pos, port)

/-- `stuff.endpoint_`, the one given to Raft. -/
def raftEndpoint (address : Str) (port : ℤ) : Str := address ++ colon :: toStr port

/-- `boost::lexical_cast<unsigned short>`: a numeral that fits, a sign before it or not, and nothing
else; a minus takes the port round. -/
structure LexicalCast (lexicalCast : Str → Option UInt16) : Prop where
  numeral : ∀ ds, IsNumeral ds → digitsValue ds < 2 ^ 16 →
    lexicalCast ds = some (.ofNat (digitsValue ds))
  plus : ∀ ds, IsNumeral ds → digitsValue ds < 2 ^ 16 →
    lexicalCast (0x2B :: ds) = some (.ofNat (digitsValue ds))
  minus : ∀ ds, IsNumeral ds → digitsValue ds < 2 ^ 16 →
    lexicalCast (0x2D :: ds) = some (-.ofNat (digitsValue ds))
  other : ∀ s, ¬ (IsNumeral (sign s).2 ∧ digitsValue (sign s).2 < 2 ^ 16) → lexicalCast s = none

/-- The parsers take the same text with a port of at least 1000, read it alike, and so they do what
is given to Raft. -/
structure Agree (lexicalCast : Str → Option UInt16) (overflow : Str → ℤ) (s : Str) : Prop where
  accepted : (∃ endpoint, parseEndpoint overflow s = .ok endpoint) ↔
    ∃ a, makeAddress lexicalCast s = .ok a ∧ 1000 ≤ a.port.toNat
  same : ∀ host port a, parseEndpoint overflow s = .ok (host, port) →
    makeAddress lexicalCast s = .ok a → a.address = host ∧ (a.port.toNat : ℤ) = port
  reparsed : ∀ host port, parseEndpoint overflow s = .ok (host, port) →
    parseEndpoint overflow (raftEndpoint host port) = .ok (host, port) ∧
      ∃ a, makeAddress lexicalCast (raftEndpoint host port) = .ok a ∧ a.address = host ∧
        (a.port.toNat : ℤ) = port

/-- A numeral that fits a port, a plus before it or not. -/
def IsPort (port : Str) : Prop :=
  ∃ ds, IsNumeral ds ∧ digitsValue ds < 2 ^ 16 ∧ (port = ds ∨ port = 0x2B :: ds)

/-- A numeral that a minus takes round to a port of at least 1000. -/
def Wraps (port : Str) : Prop :=
  ∃ ds, IsNumeral ds ∧ 0 < digitsValue ds ∧ digitsValue ds ≤ 2 ^ 16 - 1000 ∧ port = 0x2D :: ds

/-- There is no colon; or there is one, with a port after it; or what is after the last one is no
port to `atoi`, and none either to `lexical_cast`. -/
def Unambiguous (overflow : Str → ℤ) (s : Str) : Prop :=
  colon ∉ s ∨ ∃ host port, s = host ++ colon :: port ∧ colon ∉ port ∧
    (colon ∉ host ∧ IsPort port ∨
      atoi overflow port < 1000 ∧ ¬ (colon ∉ host ∧ Wraps port))

section Parsers

variable {lexicalCast : Str → Option UInt16} {overflow : Str → ℤ} {host port s : Str}

theorem isNumeral_decimal (n : ℕ) : IsNumeral (decimal n) := isNumeral_toDigits n

theorem digitsValue_decimal (n : ℕ) : digitsValue (decimal n) = n := digitsValue_toDigits n

theorem colon_notMem_numeral (h : IsNumeral port) : colon ∉ port := fun hc =>
  (ne_of_isDigit (h.2 _ hc)).2.2 rfl

theorem rfind_eq_none : ∀ {s : Str}, colon ∉ s → rfind colon s = none
  | [], _ => rfl
  | b :: s, h => by
    rw [List.mem_cons, not_or] at h
    rw [rfind, rfind_eq_none h.2]
    exact if_neg (Ne.symm h.1)

theorem rfind_append (h : colon ∉ port) :
    ∀ host : Str, rfind colon (host ++ colon :: port) = some host.length
  | [] => by
    rw [List.nil_append, rfind, rfind_eq_none h]
    rfl
  | b :: host => by
    rw [List.cons_append, rfind, rfind_append h host]
    rfl

/-- Text with a colon has a last one. -/
theorem exists_last_colon :
    ∀ {s : Str}, colon ∈ s → ∃ host port, s = host ++ colon :: port ∧ colon ∉ port
  | [], h => absurd h (by simp)
  | b :: s, h => by
    by_cases hs : colon ∈ s
    · obtain ⟨host, port, rfl, hport⟩ := exists_last_colon hs
      exact ⟨b :: host, port, rfl, hport⟩
    · obtain rfl := (List.mem_cons.mp h).resolve_right hs
      exact ⟨[], s, rfl, hs⟩

variable (overflow host) in
theorem parseEndpoint_append (h : colon ∉ port) :
    parseEndpoint overflow (host ++ colon :: port) = if atoi overflow port < 1000
      then .error (.wrongPort "wrong port (should be >= 1000): " (atoi overflow port))
      else .ok (host, atoi overflow port) := by
  have hdrop : (host ++ colon :: port).drop (host.length + 1) = port := by
    rw [List.drop_append, List.drop_of_length_le (Nat.le_succ _), Nat.add_sub_cancel_left]
    rfl
  rw [parseEndpoint, rfind_append h]
  simp only [hdrop, List.take_left]

variable (lexicalCast) in
theorem makeAddress_append (h : colon ∉ host) (h' : colon ∉ port) :
    makeAddress lexicalCast (host ++ colon :: port) = match lexicalCast port with
      | some port => .ok ⟨host, port⟩
      | none => .error .badLexicalCast := by
  rw [makeAddress, List.splitOn_append_cons_self, List.splitOn_eq_singleton h,
    List.splitOn_eq_singleton h']
  rfl

/-- Any other number of colons is refused. -/
theorem makeAddress_of_length (h : (s.splitOn colon).length ≠ 2) :
    makeAddress lexicalCast s = .error (.invalidOptionValue "cluster.address" s) := by
  unfold makeAddress
  split
  · rename_i address port hs
    exact absurd (congrArg List.length hs) h
  · rfl

theorem makeAddress_no_colon (h : colon ∉ s) :
    makeAddress lexicalCast s = .error (.invalidOptionValue "cluster.address" s) :=
  makeAddress_of_length (by simp [List.splitOn_eq_singleton h])

theorem makeAddress_colons (h : colon ∈ host) :
    makeAddress lexicalCast (host ++ colon :: port) =
      .error (.invalidOptionValue "cluster.address" (host ++ colon :: port)) := by
  refine makeAddress_of_length ?_
  obtain ⟨a, b, rfl, -⟩ := exists_last_colon h
  have ha := List.length_pos_iff.mpr (List.splitOn_ne_nil colon a)
  have hb := List.length_pos_iff.mpr (List.splitOn_ne_nil colon b)
  have hp := List.length_pos_iff.mpr (List.splitOn_ne_nil colon port)
  rw [List.splitOn_append_cons_self, List.splitOn_append_cons_self, List.length_append,
    List.length_append]
  omega

/-- What `atoi` makes of a numeral and its sign. -/
theorem atoi_eq {negative : Bool} {ds : Str} (hs : s.dropWhile isSpace = s)
    (hsign : sign s = (negative, ds)) (hds : ∀ d ∈ ds, isDigit d = true)
    (hfit : digitsValue ds < 2 ^ 31) :
    atoi overflow s = if negative then -(digitsValue ds : ℤ) else digitsValue ds := by
  rw [atoi, hs, hsign]
  dsimp only
  rw [List.takeWhile_eq_self_iff.mpr hds]
  split_ifs <;> omega

theorem dropWhile_numeral {ds : Str} (h : IsNumeral ds) : ds.dropWhile isSpace = ds := by
  obtain ⟨d, ds, rfl⟩ := List.exists_cons_of_ne_nil h.1
  have hd := h.2 d (by simp)
  rw [List.dropWhile_cons_of_neg]
  simp only [isDigit, Bool.and_eq_true, decide_eq_true_eq, UInt8.le_iff_toNat_le,
    UInt8.reduceToNat] at hd
  simp only [isSpace, Bool.or_eq_true, Bool.and_eq_true, decide_eq_true_eq, UInt8.le_iff_toNat_le,
    ← UInt8.toNat_inj, UInt8.reduceToNat]
  omega

theorem toNat_neg_ofNat {v : ℕ} (h : v < 2 ^ 16) :
    (-UInt16.ofNat v).toNat = (2 ^ 16 - v) % 2 ^ 16 := by
  rw [UInt16.toNat_neg, UInt16.toNat_ofNat_of_lt' h]
  rfl

variable (overflow) in
/-- Both read a port as what it is. -/
theorem IsPort.spec (hcast : LexicalCast lexicalCast) (h : IsPort port) :
    ∃ p : UInt16, lexicalCast port = some p ∧ atoi overflow port = p.toNat := by
  obtain ⟨ds, hds, hfit, hport⟩ := h
  have hnat : (UInt16.ofNat (digitsValue ds)).toNat = digitsValue ds :=
    UInt16.toNat_ofNat_of_lt' hfit
  refine ⟨.ofNat (digitsValue ds), ?_, ?_⟩
  · rcases hport with rfl | rfl
    · exact hcast.numeral _ hds hfit
    · exact hcast.plus _ hds hfit
  · rw [hnat]
    rcases hport with rfl | rfl
    · exact atoi_eq (dropWhile_numeral hds) (sign_numeral hds) hds.2 (by omega)
    · exact atoi_eq rfl (sign_plus ds) hds.2 (by omega)

variable (overflow) in
theorem Wraps.spec (hcast : LexicalCast lexicalCast) (h : Wraps port) :
    (∃ p : UInt16, lexicalCast port = some p ∧ 1000 ≤ p.toNat) ∧ atoi overflow port < 1000 := by
  obtain ⟨ds, hds, hpos, hle, rfl⟩ := h
  have hfit : digitsValue ds < 2 ^ 16 := by omega
  refine ⟨⟨_, hcast.minus _ hds hfit, ?_⟩, ?_⟩
  · rw [toNat_neg_ofNat hfit]
    omega
  · rw [atoi_eq rfl (sign_minus ds) hds.2 (by omega), if_pos rfl]
    omega

/-- Only these two forms of a port are read by `make_address` as one of at least 1000. -/
theorem port_of_makeAddress (hcast : LexicalCast lexicalCast) (h : colon ∉ port) {a : Address}
    (ha : makeAddress lexicalCast (host ++ colon :: port) = .ok a) (hport : 1000 ≤ a.port.toNat) :
    colon ∉ host ∧ (IsPort port ∨ Wraps port) := by
  have hhost : colon ∉ host := fun hc => by
    rw [makeAddress_colons hc] at ha
    cases ha
  refine ⟨hhost, ?_⟩
  rw [makeAddress_append lexicalCast hhost h] at ha
  by_cases hnum : IsNumeral (sign port).2 ∧ digitsValue (sign port).2 < 2 ^ 16
  · obtain ⟨hds, hfit⟩ := hnum
    rcases sign_cases port with ⟨hsign, heq⟩ | ⟨hsign, heq⟩ | hsign <;> rw [hsign] at hds hfit <;>
      dsimp only at hds hfit
    · rw [heq, hcast.minus _ hds hfit] at ha
      obtain rfl := Except.ok.inj ha
      rw [toNat_neg_ofNat hfit] at hport
      exact .inr ⟨_, hds, by omega, by omega, heq⟩
    · exact .inl ⟨_, hds, hfit, .inr heq⟩
    · exact .inl ⟨_, hds, hfit, .inl rfl⟩
  · rw [hcast.other port hnum] at ha
    cases ha

theorem toStr_natCast (n : ℕ) : toStr n = decimal n := by
  rw [toStr, if_neg (by omega), Int.natAbs_natCast]

/-- Where `make_address` reads no such port, all depends on `atoi`. -/
theorem agree_of_refused (h : colon ∉ port)
    (hrefused : ¬ ∃ a, makeAddress lexicalCast (host ++ colon :: port) = .ok a ∧
      1000 ≤ a.port.toNat) :
    Agree lexicalCast overflow (host ++ colon :: port) ↔ atoi overflow port < 1000 := by
  have hparse := parseEndpoint_append overflow host h
  constructor
  · intro hagree
    by_contra hge
    rw [if_neg hge] at hparse
    exact hrefused (hagree.accepted.mp ⟨_, hparse⟩)
  · intro hlt
    rw [if_pos hlt] at hparse
    have hno : ∀ e, parseEndpoint overflow (host ++ colon :: port) ≠ .ok e := fun e => by
      rw [hparse]
      exact nofun
    exact ⟨iff_of_false (fun ⟨e, he⟩ => hno e he) hrefused, fun _ _ _ he => absurd he (hno _),
      fun _ _ he => absurd he (hno _)⟩

/-- With a port after the one colon they agree. -/
theorem agree_port (hcast : LexicalCast lexicalCast) (hhost : colon ∉ host) (h : colon ∉ port)
    (hisport : IsPort port) : Agree lexicalCast overflow (host ++ colon :: port) := by
  obtain ⟨p, hp, hatoi⟩ := hisport.spec overflow hcast
  have hparse := parseEndpoint_append overflow host h
  have hmake := makeAddress_append lexicalCast hhost h
  rw [hatoi] at hparse
  rw [hp] at hmake
  dsimp only at hmake
  have hnat : toStr (p.toNat : ℤ) = decimal p.toNat := toStr_natCast _
  have hdec := isNumeral_decimal p.toNat
  have hvalue := digitsValue_decimal p.toNat
  have hlt : p.toNat < 2 ^ 16 := p.toNat_lt
  have hparse' : parseEndpoint overflow (raftEndpoint host p.toNat) = if (p.toNat : ℤ) < 1000
      then .error (.wrongPort "wrong port (should be >= 1000): " p.toNat)
      else .ok (host, p.toNat) := by
    have hatoi' : atoi overflow (decimal p.toNat) = p.toNat := by
      rw [atoi_eq (dropWhile_numeral hdec) (sign_numeral hdec) hdec.2 (by omega), hvalue]
      rfl
    rw [raftEndpoint, hnat, parseEndpoint_append _ _ (colon_notMem_numeral hdec), hatoi']
  have hmake' : makeAddress lexicalCast (raftEndpoint host p.toNat) = .ok ⟨host, p⟩ := by
    rw [raftEndpoint, hnat, makeAddress_append _ hhost (colon_notMem_numeral hdec),
      hcast.numeral _ hdec (by omega), hvalue, UInt16.ofNat_toNat]
  rcases lt_or_ge (p.toNat : ℤ) 1000 with hsmall | hlarge
  · refine (agree_of_refused h ?_).mpr (hatoi ▸ hsmall)
    rintro ⟨a, ha, hge⟩
    rw [hmake] at ha
    obtain rfl := Except.ok.inj ha
    dsimp only at hge
    omega
  · rw [if_neg (not_lt.mpr hlarge)] at hparse
    rw [if_neg (not_lt.mpr hlarge)] at hparse'
    refine ⟨?_, fun host' port' a hok hok' => ?_, fun host' port' hok => ?_⟩
    · have hge : 1000 ≤ p.toNat := by omega
      exact iff_of_true ⟨_, hparse⟩ ⟨_, hmake, hge⟩
    · rw [hparse] at hok
      rw [hmake] at hok'
      obtain rfl := Except.ok.inj hok'
      obtain ⟨rfl, rfl⟩ := Prod.mk.inj (Except.ok.inj hok)
      exact ⟨rfl, rfl⟩
    · rw [hparse] at hok
      obtain ⟨rfl, rfl⟩ := Prod.mk.inj (Except.ok.inj hok)
      exact ⟨hparse', _, hmake', rfl, rfl⟩

theorem agree_append (hcast : LexicalCast lexicalCast) (h : colon ∉ port) :
    Agree lexicalCast overflow (host ++ colon :: port) ↔ colon ∉ host ∧ IsPort port ∨
      atoi overflow port < 1000 ∧ ¬ (colon ∉ host ∧ Wraps port) := by
  by_cases hisport : colon ∉ host ∧ IsPort port
  · exact iff_of_true (agree_port hcast hisport.1 h hisport.2) (.inl hisport)
  by_cases hwraps : colon ∉ host ∧ Wraps port
  · refine iff_of_false (fun hagree => ?_) fun hor => ?_
    · obtain ⟨⟨p, hp, hge⟩, hlt⟩ := hwraps.2.spec overflow hcast
      have hmake := makeAddress_append lexicalCast hwraps.1 h
      rw [hp] at hmake
      obtain ⟨e, he⟩ := hagree.accepted.mpr ⟨_, hmake, hge⟩
      rw [parseEndpoint_append _ _ h, if_pos hlt] at he
      cases he
    · exact hor.elim hisport fun hno => hno.2 hwraps
  · have hrefused : ¬ ∃ a, makeAddress lexicalCast (host ++ colon :: port) = .ok a ∧
        1000 ≤ a.port.toNat := by
      rintro ⟨a, ha, hport⟩
      obtain ⟨hhost, hform⟩ := port_of_makeAddress hcast h ha hport
      exact hform.elim (fun hp => hisport ⟨hhost, hp⟩) fun hw => hwraps ⟨hhost, hw⟩
    rw [agree_of_refused h hrefused]
    exact ⟨fun hlt => .inr ⟨hlt, hwraps⟩, fun hor => (hor.resolve_left hisport).1⟩

/-- The parsers agree exactly where there is one way to read the port. -/
theorem agree_iff (hcast : LexicalCast lexicalCast) (s : Str) :
    Agree lexicalCast overflow s ↔ Unambiguous overflow s := by
  by_cases hs : colon ∈ s
  · constructor
    · obtain ⟨host, port, rfl, h⟩ := exists_last_colon hs
      exact fun hagree => .inr ⟨host, port, rfl, h, (agree_append hcast h).mp hagree⟩
    · rintro (hno | ⟨host, port, rfl, h, hport⟩)
      · exact absurd hs hno
      · exact (agree_append hcast h).mpr hport
  · refine iff_of_true ?_ (.inl hs)
    have hparse : ∀ e, parseEndpoint overflow s ≠ .ok e := fun e => by
      rw [parseEndpoint, rfind_eq_none hs]
      exact nofun
    have hmake : ∀ a, makeAddress lexicalCast s ≠ .ok a := fun a => by
      rw [makeAddress_no_colon hs]
      exact nofun
    exact ⟨iff_of_false (fun ⟨e, he⟩ => hparse e he) fun ⟨a, ha, _⟩ => hmake a ha,
      fun _ _ _ he => absurd he (hparse _), fun _ _ he => absurd he (hparse _)⟩

end Parsers

/-- `lexical_cast` as it is. -/
def ushortCast (s : Str) : Option UInt16 :=
  let (negative, ds) := sign s
  if IsNumeral ds ∧ digitsValue ds < 2 ^ 16 then
    some (if negative then -.ofNat (digitsValue ds) else .ofNat (digitsValue ds))
  else none

theorem lexicalCast_ushortCast : LexicalCast ushortCast where
  numeral ds hds hfit := by
    rw [ushortCast, sign_numeral hds]
    exact if_pos ⟨hds, hfit⟩
  plus ds hds hfit := by
    rw [ushortCast, sign_plus]
    exact if_pos ⟨hds, hfit⟩
  minus ds hds hfit := by
    rw [ushortCast, sign_minus]
    exact if_pos ⟨hds, hfit⟩
  other s h := by
    rw [ushortCast]
    exact if_neg h

/-- A port that is too large, and one with a letter after it. -/
theorem agree_iff_bad_port :
    (Agree ushortCast (fun _ => 0) (ascii ['h', ':', '7', '0', '0', '0', '0']) ↔
      Unambiguous (fun _ => 0) (ascii ['h', ':', '7', '0', '0', '0', '0'])) ∧
    (Agree ushortCast (fun _ => 0) (ascii ['h', ':', '1', '2', '3', '4', 'x']) ↔
      Unambiguous (fun _ => 0) (ascii ['h', ':', '1', '2', '3', '4', 'x'])) :=
  ⟨agree_iff lexicalCast_ushortCast _, agree_iff lexicalCast_ushortCast _⟩

/-- `h:1234x` is an endpoint, and no address. -/
theorem not_agree_trailing_letter :
    ¬ Agree ushortCast (fun _ => 0) (ascii ['h', ':', '1', '2', '3', '4', 'x']) := by
  intro hagree
  have hparse : parseEndpoint (fun _ => 0) (ascii ['h', ':', '1', '2', '3', '4', 'x']) =
      .ok (ascii ['h'], 1234) := by decide
  obtain ⟨a, ha, -⟩ := hagree.accepted.mp ⟨_, hparse⟩
  have hmake : makeAddress ushortCast (ascii ['h', ':', '1', '2', '3', '4', 'x']) =
      .error .badLexicalCast := by decide +kernel
  rw [hmake] at ha
  cases ha

end LockService
