import UniformBlock.Number.Single

/-!
# A library for JSON

Whatever is written or read as JSON here goes through a library that knows JSON, and
takes it as an argument. A `Json.Library` has documents, functions that build them,
functions that decode them, and a writer and a reader of texts without blanks.

`Lawful` is what is relied on. The text of a document that was built is put together
from the texts of its parts; in the text of a string the quote, the backslash and
control characters are escaped; what was written is read back; and what was built is
decoded. One thing is not among the laws, since it takes the digits of a number to
see it: that finite numbers of the 32-bit format are decoded to what they were. It is
assumed of the numbers in question where it is needed.
-/

namespace UniformBlock

namespace Json

structure Library where
  Doc : Type
  null : Doc
  bool : Bool → Doc
  nat : Nat → Doc
  single : Single → Doc
  text : String → Doc
  array : List Doc → Doc
  record : List (String × Doc) → Doc
  /-- The text of a document, if it can be written. -/
  write? : Doc → Option String
  read? : String → Option Doc
  isNull : Doc → Bool
  toNat? : Doc → Option Nat
  toWord? : Doc → Option UInt32
  toSingle? : Doc → Option Single
  toText? : Doc → Option String
  toItems? : Doc → Option (List Doc)
  toMembers? : Doc → Option (List (String × Doc))
  /-- The name of one of several variants that carry nothing. -/
  toVariant? : Doc → Option String
  /-- The members of a structure that has members of the given names only. -/
  toStructure? : List String → Doc → Option (String → Option Doc)

namespace Library

variable (L : Library)

def word (n : UInt32) : L.Doc := L.nat n.toNat

/-- Decode a member that may be missing; `null` counts as missing. -/
def optional? {α : Type} (decode : L.Doc → Option α) : Option L.Doc → Option (Option α)
  | none => some none
  | some d => if L.isNull d then some none else (decode d).map some

def writeMember? (m : String × L.Doc) : Option String := do
  let name ← L.write? (L.text m.1)
  let value ← L.write? m.2
  pure (name ++ ":" ++ value)

/-- The documents that are built. Naturals are 64-bit words, and no name stands
twice in a record. -/
inductive Built : L.Doc → Prop
  | null : Built L.null
  | bool (b : Bool) : Built (L.bool b)
  | nat {n : Nat} (hn : n < UInt64.size) : Built (L.nat n)
  | single (x : Single) : Built (L.single x)
  | text (s : String) : Built (L.text s)
  | array {items : List L.Doc} (hitems : ∀ d ∈ items, Built d) : Built (L.array items)
  | record {fields : List (String × L.Doc)} (hnames : (fields.map (·.1)).Nodup)
      (hvalues : ∀ f ∈ fields, Built f.2) : Built (L.record fields)

/-- How a character may stand between quotes. An escape is a backslash with further
characters, none of which is a control character. -/
def IsEscape (c : Char) (cs : List Char) : Prop :=
  if c = '"' ∨ c = '\\' ∨ c.toNat < 0x20 then
    ∃ ds, cs = '\\' :: ds ∧ ∀ d ∈ ds, 0x20 ≤ d.toNat
  else
    cs = [c]

structure Lawful : Prop where
  write?_null : L.write? L.null = some "null"
  write?_bool : ∀ b : Bool, L.write? (L.bool b) = some (toString b)
  write?_nat : ∀ n : Nat, L.write? (L.nat n) = some (toString n)
  write?_single : ∀ x : Single, ∃ s, L.write? (L.single x) = some s ∧ ∀ c ∈ s.toList, 0x20 ≤ c.toNat
  write?_text : ∃ escape : Char → List Char, (∀ c, IsEscape c (escape c)) ∧
    ∀ s : String,
      L.write? (L.text s) = some (String.ofList ('"' :: (s.toList.flatMap escape ++ ['"'])))
  write?_array : ∀ items : List L.Doc,
    L.write? (L.array items) =
      (items.mapM L.write?).map fun texts => "[" ++ ",".intercalate texts ++ "]"
  write?_record : ∀ fields : List (String × L.Doc),
    L.write? (L.record fields) =
      (fields.mapM L.writeMember?).map fun texts => "\x7b" ++ ",".intercalate texts ++ "\x7d"
  read?_of_write? : ∀ {d : L.Doc} {s : String},
    L.Built d → L.write? d = some s → L.read? s = some d
  /-- There are no infinite numbers in JSON. -/
  single_eq_null : ∀ x : Single, x.isFinite = false → L.single x = L.null
  toSingle?_null : L.toSingle? L.null = none
  isNull_nat : ∀ n : Nat, L.isNull (L.nat n) = false
  isNull_text : ∀ s : String, L.isNull (L.text s) = false
  toNat?_nat : ∀ n < UInt64.size, L.toNat? (L.nat n) = some n
  toWord?_word : ∀ n : UInt32, L.toWord? (L.word n) = some n
  toText?_text : ∀ s : String, L.toText? (L.text s) = some s
  toVariant?_text : ∀ s : String, L.toVariant? (L.text s) = some s
  toItems?_array : ∀ items : List L.Doc, L.toItems? (L.array items) = some items
  toMembers?_record : ∀ {fields : List (String × L.Doc)},
    (fields.map (·.1)).Nodup → L.toMembers? (L.record fields) = some fields
  toStructure?_record : ∀ {names : List String} {fields : List (String × L.Doc)},
    (fields.map (·.1)).Nodup → (∀ f ∈ fields, f.1 ∈ names) →
      ∃ member, L.toStructure? names (L.record fields) = some member ∧
        ∀ name ∈ names, member name = fields.lookup name

end Library

end Json

end UniformBlock
