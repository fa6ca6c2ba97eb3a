/-!
# Levels of a journal

Every event has a level. Levels are ordered by how much detail they stand for:
errors come first, details that help to find an error last. A journal with a
given level keeps the events of that level and of those before it.
-/

namespace UniformBlock

inductive Level where
  | error
  | warning
  | info
  | debug
deriving DecidableEq, Repr, Inhabited

namespace Level

def rank : Level → Nat
  | error => 0
  | warning => 1
  | info => 2
  | debug => 3

/-- A journal of this level keeps events of the given one. -/
def admits (most level : Level) : Bool := level.rank ≤ most.rank

def name : Level → String
  | error => "ERROR"
  | warning => "WARN"
  | info => "INFO"
  | debug => "DEBUG"

def keyword : Level → String
  | error => "error"
  | warning => "warning"
  | info => "info"
  | debug => "debug"

def all : List Level := [error, warning, info, debug]

def ofKeyword? (keyword : String) : Option Level := all.find? (·.keyword == keyword)

/-- The level that a variable names, in upper or lower case: by its keyword, by
`warn`, or by its place in the order. -/
def ofVariable? (value : String) : Option Level :=
  let lower := String.ofList (value.toList.map Char.toLower)
  if lower = "warn" then some warning
  else (ofKeyword? lower).or (all.find? fun level => toString level.rank == lower)

@[simp] theorem admits_self (level : Level) : level.admits level = true := by
  simp [admits]

@[simp] theorem admits_error (most : Level) : most.admits error = true := by
  simp [admits, rank]

@[simp] theorem debug_admits (level : Level) : debug.admits level = true := by
  cases level <;> rfl

end Level

end UniformBlock
