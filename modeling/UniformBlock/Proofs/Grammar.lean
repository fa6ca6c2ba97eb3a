import Mathlib.Data.List.Basic
import UniformBlock.Document

/-!
# The grammar of documents

The languages that the readers of the library accept, stated on bytes and
without reference to any reader. A relation `FooText a w` says that the bytes
`w` write down the value `a`. With `B` for a blank, the grammar is

    document    := (comment | word | character | "uniform" declaration)*
    declaration := B+ type B+ name B* [list B*] ";"
    list        := "(" B* [item (B* "," B* item)*] B* ")"
    argument    := ("mean" | "scale") B* "=" B* hint | "file" B* "=" B* string

where a hint is one number or a list of as many numbers as the type has
components. `Decomposes` is the greedy decomposition of a document from the left.
-/

namespace UniformBlock

namespace Grammar

open Ascii

variable {α : Type}

/-- All bytes belong to a class. -/
def Run (p : UInt8 → Bool) (bs : List UInt8) : Prop := ∀ b ∈ bs, p b = true

/-- The bytes do not begin with a byte of a class. -/
def Stops (p : UInt8 → Bool) (bs : List UInt8) : Prop := ∀ b ∈ bs.head?, p b = false

instance (p : UInt8 → Bool) (bs : List UInt8) : Decidable (Run p bs) :=
  decidable_of_iff (bs.all p = true) List.all_eq_true

abbrev Blanks (bs : List UInt8) : Prop := Run isBlank bs

/-! ## Values -/

/-- An exponent mark, an optional sign and at least one digit. -/
structure ExponentForm (e : Exponent) : Prop where
  mark : e.mark = lowerE ∨ e.mark = upperE
  sign : ∀ b ∈ e.sign, isSign b = true
  digits : Run isDigit e.digits
  digits_ne_nil : e.digits ≠ []

/-- An optional sign, digits with an optional fraction, where at least one side
of the point has a digit, and an optional exponent. -/
structure LiteralForm (l : FloatLiteral) : Prop where
  sign : ∀ b ∈ l.sign, isSign b = true
  whole : Run isDigit l.whole
  fraction : ∀ ds ∈ l.fraction, Run isDigit ds
  mantissa : l.whole ≠ [] ∨ ∃ ds, l.fraction = some ds ∧ ds ≠ []
  exponent : ∀ e ∈ l.exponent, ExponentForm e

/-- An optional sign and at least one digit. -/
structure IntegerForm (l : IntegerLiteral) : Prop where
  sign : ∀ b ∈ l.sign, isSign b = true
  digits : Run isDigit l.digits
  digits_ne_nil : l.digits ≠ []

def NumberText (x : Single) (w : List UInt8) : Prop :=
  ∃ l : FloatLiteral, LiteralForm l ∧ l.value = x ∧ l.bytes = w

/-- A text between two equal quotes that do not occur in it. -/
def QuotedText (s : String) (w : List UInt8) : Prop :=
  ∃ quote, Value.isQuote quote = true ∧ quote ∉ Utf8.bytes s ∧
    w = quote :: (Utf8.bytes s ++ [quote])

/-- What follows an item of a list: further items, each behind a comma, and the
closing parenthesis. -/
inductive MoreText (ItemText : α → List UInt8 → Prop) : List α → List UInt8 → Prop
  | close {b : List UInt8} (hb : Blanks b) : MoreText ItemText [] (b ++ [closeParen])
  | item {b c w t : List UInt8} {a : α} {as : List α} (hb : Blanks b) (hc : Blanks c)
      (ha : ItemText a w) (has : MoreText ItemText as t) :
      MoreText ItemText (a :: as) (b ++ (comma :: (c ++ (w ++ t))))

/-- A parenthesised list of items. -/
inductive ListText (ItemText : α → List UInt8 → Prop) : List α → List UInt8 → Prop
  | empty {b : List UInt8} (hb : Blanks b) :
      ListText ItemText [] (openParen :: (b ++ [closeParen]))
  | items {b w t : List UInt8} {a : α} {as : List α} (hb : Blanks b) (ha : ItemText a w)
      (has : MoreText ItemText as t) :
      ListText ItemText (a :: as) (openParen :: (b ++ (w ++ t)))

/-- The hint of a type with `n` components: one number by itself, or a list. -/
inductive HintText : Nat → List Single → List UInt8 → Prop
  | scalar {x : Single} {w : List UInt8} (hx : NumberText x w) : HintText 1 [x] w
  | tuple {n : Nat} {xs : List Single} {w : List UInt8} (hn : 2 ≤ n) (hlength : xs.length = n)
      (hxs : ListText NumberText xs w) : HintText n xs w

/-! ## Declarations -/

inductive Argument where
  | mean (values : List Single)
  | scale (values : List Single)
  | file (path : String)

/-- The effect of an argument; the last one of its kind counts. -/
def Argument.apply (m : Metadata) : Argument → Metadata
  | mean values => { m with mean := m.mean.overwrite values }
  | scale values => { m with scale := m.scale.overwrite values }
  | file path => { m with file := some path }

/-- A name, an equals sign and the bytes `w` of a value. -/
def AssignedText (name : String) (w t : List UInt8) : Prop :=
  ∃ b c, Blanks b ∧ Blanks c ∧ t = Utf8.bytes name ++ (b ++ (equals :: (c ++ w)))

/-- The arguments that a type takes. -/
inductive ArgumentText (type : UniformType) : Argument → List UInt8 → Prop
  | mean {n : Nat} {values : List Single} {w t : List UInt8} (hn : type.components? = some n)
      (hw : HintText n values w) (ht : AssignedText "mean" w t) :
      ArgumentText type (.mean values) t
  | scale {n : Nat} {values : List Single} {w t : List UInt8} (hn : type.components? = some n)
      (hw : HintText n values w) (ht : AssignedText "scale" w t) :
      ArgumentText type (.scale values) t
  | file {path : String} {w t : List UInt8} (htype : type.isSampler = true)
      (hpath : path.utf8ByteSize ≤ Limits.pathBytes) (hw : QuotedText path w)
      (ht : AssignedText "file" w t) : ArgumentText type (.file path) t

/-- The optional list of arguments, with the blanks behind it. -/
inductive MetadataText (type : UniformType) : Metadata → List UInt8 → Prop
  | none : MetadataText type .default []
  | list {args : List Argument} {w b : List UInt8} (hw : ListText (ArgumentText type) args w)
      (hb : Blanks b) : MetadataText type (args.foldl Argument.apply .default) (w ++ b)

structure NameText (name : String) : Prop where
  word : Run isWord (Utf8.bytes name)
  pos : 1 ≤ (Utf8.bytes name).length
  le : (Utf8.bytes name).length ≤ Limits.nameBytes

/-- What follows the word `uniform`. -/
inductive DeclarationText : Declaration → List UInt8 → Prop
  | mk {type : UniformType} {name : String} {metadata : Metadata} {b c d w : List UInt8}
      (hb : Blanks b) (hb' : b ≠ []) (hc : Blanks c) (hc' : c ≠ []) (hname : NameText name)
      (hd : Blanks d) (hmetadata : MetadataText type metadata w) :
      DeclarationText ⟨type, name, metadata⟩
        (b ++ (Utf8.bytes type.keyword ++ (c ++ (Utf8.bytes name ++ (d ++ (w ++ [semicolon]))))))

/-! ## Documents -/

/-- A comment begins here. -/
def OpensComment (bs : List UInt8) : Prop := [slash, slash] <+: bs ∨ [slash, star] <+: bs

/-- The word of a declaration begins here, as the whole of a word. -/
def OpensDeclaration (bs : List UInt8) : Prop :=
  bs.takeWhile isWord = Utf8.bytes Document.declarationKeyword

/-- The pieces `w` of the decomposition, other than declarations, where `rest`
follows. -/
inductive Piece : List UInt8 → List UInt8 → Prop
  /-- A line comment with all newline bytes that end it. -/
  | lineComment {body newlines rest : List UInt8} (hbody : Run (!isNewline ·) body)
      (hnewlines : Run isNewline newlines) (hrest : Stops isNewline rest)
      (hend : newlines = [] → rest = []) : Piece (slash :: slash :: (body ++ newlines)) rest
  /-- A block comment up to its first end mark. -/
  | blockComment {body rest : List UInt8} (hbody : ¬ [star, slash] <:+: body) :
      Piece (slash :: star :: (body ++ [star, slash])) rest
  /-- A block comment without an end mark. -/
  | openComment {body : List UInt8} (hbody : ¬ [star, slash] <:+: body) :
      Piece (slash :: star :: body) []
  /-- A longest run of letters and digits. -/
  | word {w rest : List UInt8} (hw : Run isWord w) (hne : w ≠ []) (hrest : Stops isWord rest)
      (hkeyword : w ≠ Utf8.bytes Document.declarationKeyword) : Piece w rest
  /-- Any other character. -/
  | other {c : Char} {rest : List UInt8} (hword : Stops isWord (String.utf8EncodeChar c))
      (hcomment : ¬ OpensComment (String.utf8EncodeChar c ++ rest)) :
      Piece (String.utf8EncodeChar c) rest

/-- Decomposing `before ++ rest` greedily from the left passes `before`, which
makes the declarations `ds`, and comes to `rest`. -/
inductive Decomposes : List UInt8 → List Declaration → List UInt8 → Prop
  | start {text : List UInt8} : Decomposes [] [] text
  | piece {before w rest : List UInt8} {ds : List Declaration}
      (hbefore : Decomposes before ds (w ++ rest)) (hw : Piece w rest) :
      Decomposes (before ++ w) ds rest
  | declaration {before w rest : List UInt8} {ds : List Declaration} {d : Declaration}
      (hbefore : Decomposes before ds (Utf8.bytes Document.declarationKeyword ++ w ++ rest))
      (hw : DeclarationText d w) :
      Decomposes (before ++ (Utf8.bytes Document.declarationKeyword ++ w)) (ds ++ [d]) rest

/-- The texts of the grammar: every word `uniform` that the decomposition comes
to begins a declaration, and there are not too many of them. -/
structure Conforms (text : List UInt8) : Prop where
  declares : ∀ before ds rest, text = before ++ rest → Decomposes before ds rest →
    OpensDeclaration rest →
      ∃ d w tail, DeclarationText d w ∧ rest = Utf8.bytes Document.declarationKeyword ++ w ++ tail
  few : ∀ before ds rest, text = before ++ rest → Decomposes before ds rest →
    ds.length ≤ Limits.uniforms

end Grammar

end UniformBlock
