import UniformBlock.Declaration

/-!
# Uniform blocks

A `Block` holds the uniforms of a source in the order of their declaration,
each with its place. A uniform that lives in the buffer begins at the end of
the buffer so far, rounded up to the alignment of its type. A sampler takes no
slots: it repeats the offset of the uniform before it and takes the next texture
unit.

All places are 32-bit words, so every operation that computes one may end in an
`ArithmeticFault`. A block read from elsewhere can hold any words; the ones that
`ofDeclarations` builds are far from the limits.
-/

namespace UniformBlock

/-- A uniform and its place: `offset` and `size` count slots, `unit` is the
texture unit of a sampler. -/
structure Uniform where
  name : String
  type : UniformType
  mean : Hint
  scale : Hint
  offset : UInt32
  size : UInt32
  unit : Option UInt32
  file : Option String
deriving DecidableEq, Repr

namespace Uniform

def isSampler (u : Uniform) : Bool := u.type.isSampler

def slotEnd (u : Uniform) : Except ArithmeticFault UInt32 := Word.add u.offset u.size

/-- The two uniforms agree, with numbers compared by value. -/
def agrees (u v : Uniform) : Bool :=
  u.name == v.name && u.type == v.type &&
    (u.mean.toList.zip v.mean.toList).all (fun p => p.1.agrees p.2) &&
    (u.scale.toList.zip v.scale.toList).all (fun p => p.1.agrees p.2) &&
    u.offset == v.offset && u.size == v.size && u.unit == v.unit && u.file == v.file

end Uniform

structure Placement where
  offset : UInt32
  size : UInt32
  unit : Option UInt32
deriving DecidableEq, Repr

/-- The uniforms of a source, and the number of samplers among them. -/
structure Block where
  uniforms : List Uniform
  samplerCount : UInt32
deriving DecidableEq, Repr

namespace Block

/-- The bytes of a slot. -/
def slotBytes : UInt32 := 4

def empty : Block := ⟨[], 0⟩

def size (b : Block) : Nat := b.uniforms.length

def isEmpty (b : Block) : Bool := b.uniforms.isEmpty

def get? (b : Block) (i : Nat) : Option Uniform := b.uniforms[i]?

def find? (b : Block) (name : String) : Option Uniform :=
  b.uniforms.find? (·.name == name)

def indexOf? (b : Block) (name : String) : Option Nat :=
  b.uniforms.findIdx? (·.name == name)

/-- The offset of the first uniform with a given name, unless it is a sampler. -/
def offsetOf? (b : Block) (name : String) : Option UInt32 :=
  ((b.find? name).filter (!·.isSampler)).map (·.offset)

def buffered (b : Block) : List Uniform := b.uniforms.filter (!·.isSampler)

def samplers (b : Block) : List Uniform := b.uniforms.filter (·.isSampler)

/-- The number of slots that hold all buffered uniforms. -/
def slots (b : Block) : Except ArithmeticFault UInt32 :=
  b.buffered.foldlM (fun most u => do
    let slotEnd ← u.slotEnd
    pure (max most slotEnd)) 0

/-- The number of bytes that hold all buffered uniforms. -/
def bytes (b : Block) : Except ArithmeticFault UInt32 := do
  let slots ← b.slots
  Word.mul slots slotBytes

/-- The place of the next uniform if it has the given type. -/
def place (b : Block) (type : UniformType) : Except ArithmeticFault Placement :=
  match type.layout? with
  | some layout => do
    let slots ← b.slots
    let offset ← alignUp slots layout.alignment
    pure ⟨offset, layout.size, none⟩
  | none =>
    pure ⟨(b.uniforms.getLast?.map (·.offset)).getD 0, 0, some b.samplerCount⟩

def uniformOf (b : Block) (d : Declaration) : Except ArithmeticFault Uniform := do
  let place ← b.place d.type
  pure
    { name := d.name
      type := d.type
      mean := d.metadata.mean
      scale := d.metadata.scale
      offset := place.offset
      size := place.size
      unit := place.unit
      file := d.metadata.file }

def push (b : Block) (u : Uniform) : Except ArithmeticFault Block :=
  if u.isSampler then do
    let count ← Word.add b.samplerCount 1
    pure ⟨b.uniforms ++ [u], count⟩
  else
    pure ⟨b.uniforms ++ [u], b.samplerCount⟩

def declare (b : Block) (d : Declaration) : Except ArithmeticFault Block := do
  let u ← b.uniformOf d
  b.push u

def ofDeclarations (ds : List Declaration) : Except ArithmeticFault Block :=
  ds.foldlM declare empty

/-- The two blocks agree, with numbers compared by value. -/
def agrees (b c : Block) : Bool :=
  b.uniforms.length == c.uniforms.length &&
    (b.uniforms.zip c.uniforms).all (fun p => p.1.agrees p.2) &&
    b.samplerCount == c.samplerCount

end Block

end UniformBlock
