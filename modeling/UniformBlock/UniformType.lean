import UniformBlock.Number.Word

/-!
# Types of uniforms and their layout

Thirteen types can be declared. Scalars, vectors and matrices live in the
buffer, where they take a number of slots of four bytes at a multiple of their
base alignment; a matrix is laid out as its columns, each in a row of four
slots. Samplers take no slots.

`alignUp` rounds an offset up to a multiple of an alignment.
-/

namespace UniformBlock

/-- The space a type takes in the buffer, in slots. -/
structure Layout where
  size : UInt32
  alignment : UInt32
deriving DecidableEq, Repr

inductive UniformType where
  | float
  | vec2
  | vec3
  | vec4
  | mat2
  | mat3
  | mat4
  | int
  | ivec2
  | ivec3
  | ivec4
  | sampler1D
  | sampler2D
deriving DecidableEq, Repr, Inhabited

namespace UniformType

/-- All types, in the order in which their keywords are tried. -/
def all : List UniformType :=
  [float, vec2, vec3, vec4, mat2, mat3, mat4, int, ivec2, ivec3, ivec4, sampler1D, sampler2D]

def keyword : UniformType → String
  | float => "float"
  | vec2 => "vec2"
  | vec3 => "vec3"
  | vec4 => "vec4"
  | mat2 => "mat2"
  | mat3 => "mat3"
  | mat4 => "mat4"
  | int => "int"
  | ivec2 => "ivec2"
  | ivec3 => "ivec3"
  | ivec4 => "ivec4"
  | sampler1D => "sampler1D"
  | sampler2D => "sampler2D"

def ofKeyword? (keyword : String) : Option UniformType :=
  all.find? (·.keyword == keyword)

/-- The layout of a type, unless it is a sampler. -/
def layout? : UniformType → Option Layout
  | float | int => some ⟨1, 1⟩
  | vec2 | ivec2 => some ⟨2, 2⟩
  | vec3 | ivec3 => some ⟨3, 4⟩
  | vec4 | ivec4 => some ⟨4, 4⟩
  | mat2 => some ⟨8, 4⟩
  | mat3 => some ⟨12, 4⟩
  | mat4 => some ⟨16, 4⟩
  | sampler1D | sampler2D => none

def isSampler : UniformType → Bool
  | sampler1D | sampler2D => true
  | _ => false

def isMatrix : UniformType → Bool
  | mat2 | mat3 | mat4 => true
  | _ => false

/-- The number of components of a scalar or a vector. These are the types that
take hints. -/
def components? : UniformType → Option Nat
  | float | int => some 1
  | vec2 | ivec2 => some 2
  | vec3 | ivec3 => some 3
  | vec4 | ivec4 => some 4
  | _ => none

def index (t : UniformType) : Nat := all.idxOf t

theorem mem_all (t : UniformType) : t ∈ all := by
  cases t <;> simp [all]

/-- The types without a layout are the samplers. -/
theorem layout?_eq_none_iff {t : UniformType} : t.layout? = none ↔ t.isSampler = true := by
  cases t <;> simp [layout?, isSampler]

end UniformType

/-- The least multiple of `alignment` that is not below `offset`. -/
def alignUp (offset alignment : UInt32) : Except ArithmeticFault UInt32 := do
  let excess ← Word.rem offset alignment
  if excess = 0 then pure offset else Word.add offset (alignment - excess)

end UniformBlock
