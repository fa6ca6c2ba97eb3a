/-!
# Capacities

The bounds that every source, declaration and journal has to respect. They are
plain natural numbers, fixed for the whole library, so that a statement about a
bound can be read without consulting any configuration.
-/

namespace UniformBlock

namespace Limits

def sourceBytes : Nat := 1048576

def sourceLines : Nat := 100000

def uniforms : Nat := 128

def nameBytes : Nat := 128

def pathBytes : Nat := 1024

def storedEvents : Nat := 10000

def messageBytes : Nat := 10000

def documentEvents : Nat := 1000

/-- The least message length that still holds a diagnostic. -/
def leastMessageBytes : Nat := 80

def profile : String := "development"

def origin : String := "Generated from config/" ++ profile ++ ".toml"

/-- The bounds fit together: the store holds something, one document cannot
fill it, and a message has room for a diagnostic. On failure the message says
which of these does not hold; the first one that fails is reported. -/
def check : Except String Unit :=
  if storedEvents = 0 then
    .error "Log buffer size cannot be zero"
  else if storedEvents < documentEvents then
    .error "Max log events per document exceeds total buffer size"
  else if messageBytes < leastMessageBytes then
    .error ("Max log message length too small for diagnostics: " ++ toString messageBytes)
  else
    .ok ()

theorem check_eq_ok : check = .ok () := rfl

end Limits

end UniformBlock
