import Mathlib.Algebra.Group.Nat.Defs
import Mathlib.Data.Finset.Basic

/-!
# Strings, statuses and constants

The enumerations keep the values the wire gives them. Both `op_type` and protobuf's `LockStatus`
are open: an integer with no name is a value like any other, so each has a constructor for those.
-/

namespace LockService

/-- A `std::string`: any bytes. -/
abbrev Str := List UInt8

/-- The bytes of an ASCII literal. -/
def ascii (cs : List Char) : Str := cs.map fun c => UInt8.ofNat c.toNat

/-- A `std::map` keyed by strings, iterated in byte order. -/
abbrev Dict (β : Type) := Std.ExtTreeMap Str β

/-- `MAX_PATH_SIZE`: the longest file path the service says it supports. -/
def maxPathSize : ℕ := 256

/-- `DEFAULT_LEASE_EXTENSION`, in milliseconds. -/
def defaultLeaseExtension : ℕ := 15000

/-- `op_type`, an `int`: the three named operations and every other value. -/
inductive OpType where
  | create
  | write
  | delete
  | unnamed (v : Int32) (h : v ≠ 0 ∧ v ≠ 1 ∧ v ≠ 2)
  deriving DecidableEq

namespace OpType

def toInt : OpType → Int32
  | .create => 2
  | .write => 0
  | .delete => 1
  | .unnamed v _ => v

/-- The cast of an `int` back to `op_type`. -/
def ofInt (v : Int32) : OpType :=
  if h0 : v = 0 then .write
  else if h1 : v = 1 then .delete
  else if h2 : v = 2 then .create
  else .unnamed v ⟨h0, h1, h2⟩

@[simp]
theorem ofInt_toInt (t : OpType) : ofInt t.toInt = t := by
  rcases t with _ | _ | _ | ⟨v, h0, h1, h2⟩
  · rfl
  · rfl
  · rfl
  · simp [ofInt, toInt, h0, h1, h2]

end OpType

/-- `LockStatus` of the interface: what a lock is in, and the mode a client asks for. -/
inductive LockStatus where
  | exclusive
  | shared
  | free
  | unnamed (v : Int32) (h : v ≠ 0 ∧ v ≠ 1 ∧ v ≠ 2)
  deriving DecidableEq

/-- The codes of `grpc::Status` the service answers with. -/
inductive StatusCode where
  | ok
  | cancelled
  | aborted
  deriving DecidableEq

/-- `grpc::Status`. -/
structure Status where
  code : StatusCode
  message : String
  deriving DecidableEq

namespace Status

def ok : Status := ⟨.ok, ""⟩

def cancelled : Status := ⟨.cancelled, ""⟩

def aborted (message : String) : Status := ⟨.aborted, message⟩

@[simp]
theorem aborted_ne_ok (message : String) : aborted message ≠ ok := by simp [aborted, ok]

@[simp]
theorem cancelled_ne_ok : cancelled ≠ ok := by simp [cancelled, ok]

end Status

/-- How a call can leave other than by returning. -/
inductive Fault where
  /-- `std::out_of_range`, from `at`. -/
  | outOfRange
  /-- NuRaft's buffer refuses a put or a get past its end. -/
  | bufferEnd
  /-- `throw("Failed to open file.")`: a `const char*`, no `std::exception`. -/
  | openFailed
  /-- `std::filesystem::filesystem_error`. -/
  | filesystem
  /-- A null pointer is thrown on or dereferenced. -/
  | nullPointer
  /-- `end()` is dereferenced: undefined behaviour. -/
  | endIterator
  /-- `assert` fails. -/
  | assertion
  /-- `commit` throws on Raft's own thread. -/
  | stateMachine
  /-- The call waits on an empty channel. -/
  | blocked
  /-- The call does not return. -/
  | diverges
  deriving DecidableEq

/-- The faults the process does not survive: what a handler throws, the server turns into an
answer of its own. -/
def Fault.isFatal : Fault → Bool
  | .nullPointer | .endIterator | .assertion | .stateMachine | .diverges => true
  | .outOfRange | .bufferEnd | .openFailed | .filesystem | .blocked => false

end LockService
