import UniformBlock.Block
import UniformBlock.Json.Reader

/-!
# Blocks as JSON

A block is written as an object with its uniforms and the number of samplers; a
uniform is written with its fields in the order of the structure, and the
texture unit and the file only where there is one. Both are read as structures
with the same members; a texture unit and a file that are missing or `null` are
none.

The library that knows JSON is an argument. With `Json.standard` a block is a
`Json`, whose text the program prints.
-/

namespace UniformBlock

variable (L : Json.Library)

def UniformType.ofDoc? (d : L.Doc) : Option UniformType := (L.toVariant? d).bind ofKeyword?

namespace Hint

def toDoc (hint : Hint) : L.Doc := L.array (hint.toList.map L.single)

def ofDoc? (d : L.Doc) : Option Hint :=
  match (L.toItems? d).bind (·.mapM L.toSingle?) with
  | some [a, b, c, d] => some #v[a, b, c, d]
  | _ => none

end Hint

namespace Uniform

/-- The names of the members, in order. -/
def memberNames : List String :=
  ["name", "type", "mean", "scale", "std140_offset", "std140_size", "assigned_tex_unit", "file"]

def fields (u : Uniform) : List (String × L.Doc) :=
  [("name", L.text u.name), ("type", L.text u.type.keyword),
    ("mean", u.mean.toDoc L), ("scale", u.scale.toDoc L),
    ("std140_offset", L.word u.offset), ("std140_size", L.word u.size)] ++
  (u.unit.map fun n => ("assigned_tex_unit", L.word n)).toList ++
  (u.file.map fun path => ("file", L.text path)).toList

def toDoc (u : Uniform) : L.Doc := L.record (u.fields L)

def ofDoc? (d : L.Doc) : Option Uniform := do
  let member ← L.toStructure? memberNames d
  let name ← (member "name").bind L.toText?
  let type ← (member "type").bind (UniformType.ofDoc? L)
  let mean ← (member "mean").bind (Hint.ofDoc? L)
  let scale ← (member "scale").bind (Hint.ofDoc? L)
  let offset ← (member "std140_offset").bind L.toWord?
  let size ← (member "std140_size").bind L.toWord?
  let unit ← L.optional? L.toWord? (member "assigned_tex_unit")
  let file ← L.optional? L.toText? (member "file")
  pure { name, type, mean, scale, offset, size, unit, file }

end Uniform

namespace Block

def memberNames : List String := ["params", "sampler_count"]

def fields (b : Block) : List (String × L.Doc) :=
  [("params", L.array (b.uniforms.map (Uniform.toDoc L))),
    ("sampler_count", L.word b.samplerCount)]

def toDoc (b : Block) : L.Doc := L.record (b.fields L)

def ofDoc? (d : L.Doc) : Option Block := do
  let member ← L.toStructure? memberNames d
  let items ← (member "params").bind L.toItems?
  let uniforms ← items.mapM (Uniform.ofDoc? L)
  let samplerCount ← (member "sampler_count").bind L.toWord?
  pure ⟨uniforms, samplerCount⟩

def write? (b : Block) : Option String := L.write? (b.toDoc L)

def read? (s : String) : Option Block := (L.read? s).bind (ofDoc? L)

def toJson (b : Block) : Json := b.toDoc Json.standard

def ofText? (s : String) : Option Block := read? Json.standard s

end Block

end UniformBlock
