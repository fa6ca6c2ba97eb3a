import UniformBlock.Number.Word
import UniformBlock.Source.Head

/-!
# Offsets and texts around the reading head

Readers move a head by the length of what stands in front of it. A jump goes by
a distance that comes from elsewhere and may be any 64-bit word. The offset it
aims at has to fit a word as well, also where the source ends long before it;
otherwise there is an arithmetic fault. A jump without fault is a skip, and a
look ahead without fault is a peek.

What is left to read, and what stands between an offset and the head, can be asked
for as a text. Such a text is refused inside a character; `remaining` and `textFrom`
answer with the empty text then.
-/

namespace UniformBlock

namespace Head

/-! ## Offsets -/

/-- The offset that lies a given distance beyond the head. -/
def target (h : Head) (distance : UInt64) : Except ArithmeticFault Nat :=
  if h.pos + distance.toNat < UInt64.size then .ok (h.pos + distance.toNat)
  else .error .addOverflow

/-- Move on by a given distance, at most to the end of the source. -/
def jump (h : Head) (distance : UInt64) : Except ArithmeticFault Head := do
  let _ ← h.target distance
  pure (h.skip distance.toNat)

def lookAhead (h : Head) (distance : UInt64) : Except ArithmeticFault (Option UInt8) := do
  let _ ← h.target distance
  pure (h.peekAt? distance.toNat)

/-- Move to the given offset, at most to the end of the source. -/
def seek (h : Head) (n : Nat) : Head where
  source := h.source
  pos := min n h.source.size
  rest := h.source.bytes.drop (min n h.source.size)
  rest_eq := rfl
  pos_le := Nat.min_le_right _ _

def isBefore (h later : Head) : Bool := h.pos < later.pos

/-! ## Texts -/

def remaining? (h : Head) : Option String := h.source.slice? h.pos h.source.size

def remaining (h : Head) : String := h.remaining?.getD ""

/-- The text between an offset and the head. -/
def textFrom? (h : Head) (offset : Nat) : Option String := h.source.slice? offset h.pos

def textFrom (h : Head) (offset : Nat) : String := (h.textFrom? offset).getD ""

end Head

end UniformBlock
