import Polish.Compile

/-!
Many texts at once.  Settings say how many workers there are and how much
stack each of them has; they are checked when they are made.  They bear on how
the work is done, and not on what comes of it: results are those of the single
texts, in the order of the texts.
-/

namespace Polish

/-- The part of a stack that is kept free, in bytes. -/
def redZone : Nat := 65536

inductive SettingsError
  | stackTooSmall (size : UInt64)
  deriving DecidableEq, Repr

def SettingsError.message : SettingsError → String
  | .stackTooSmall size =>
    "worker_stack_size must exceed red_zone (" ++ toString redZone ++ "): " ++ toString size.toNat

/-- How to run a batch.  Zero threads stands for as many as the machine has. -/
structure Settings where
  threads : UInt64
  stackSize : UInt64
  redZone_lt : redZone < stackSize.toNat
  deriving DecidableEq, Repr

namespace Settings

/-- Settings with the given numbers; a stack has to be larger than its red zone. -/
def make (threads stackSize : UInt64) : Except SettingsError Settings :=
  if h : redZone < stackSize.toNat then .ok ⟨threads, stackSize, h⟩
  else .error (.stackTooSmall stackSize)

/-- As many threads as the machine has, with eight mebibytes of stack each. -/
def standard : Settings where
  threads := 0
  stackSize := 8 * 1024 * 1024
  redZone_lt := by decide

end Settings

def compileBatch (inputs : List String) : List (Except CompileError String) :=
  inputs.map compile

def compileBatchWith (_settings : Settings) (inputs : List String) :
    List (Except CompileError String) :=
  compileBatch inputs

def earliestFailure? (results : List (Except CompileError String)) : Option Stage :=
  Stage.earliest? <| results.filterMap fun
    | .error e => some e.stage
    | .ok _ => none

end Polish
