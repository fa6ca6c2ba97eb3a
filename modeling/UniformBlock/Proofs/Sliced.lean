import UniformBlock.Document
import UniformBlock.Source.Jump

/-!
# Reading through slices

The readers of the library look at bytes and cut them as they like. Here is the
same reading with every text taken as a slice: what is left to read and the text
behind an offset exist only between characters, a slice of bytes only inside
them. `Sliced α` is the type of such readers. They have no result at all, not
even a fault, once a slice is refused; nothing stands in for it.

Only the places where texts and numbers are cut out differ from the readers
themselves. The compositions repeat theirs and are not shared, because the loops
end for another reason: that a reader only moves its head on is known of the
readers, and of these only once they are shown to agree. Until then a turn of a
loop that gets no further is refused too.
-/

namespace UniformBlock

open Ascii

/-- A reader that has no result when a slice is refused. -/
def Sliced (α : Type) : Type := Head → Option (Except Fault α × Head)

namespace Sliced

variable {α β : Type}

instance : Monad Sliced where
  pure a h := some (.ok a, h)
  bind r f h :=
    match r h with
    | none => none
    | some (.ok a, k) => f a k
    | some (.error e, k) => some (.error e, k)

/-- Readers that take no slice are never refused. -/
instance : MonadLift Reading Sliced where
  monadLift r h := some (r h)

def mapFault (f : Fault → Fault) (r : Sliced α) : Sliced α := fun h =>
  match r h with
  | none => none
  | some (.ok a, k) => some (.ok a, k)
  | some (.error e, k) => some (.error (f e), k)

/-! ## Slices -/

/-- The first `n` bytes of a text. -/
def initial? (t : String) (n : Nat) : Option String := (Source.ofString t).slice? 0 n

/-- The number of digits from an index on, which may be the end of the bytes but
not lie beyond it. -/
def digitsFrom? (bs : List UInt8) (n : Nat) : Option Nat :=
  if n ≤ bs.length then some ((bs.drop n).takeWhile isDigit).length else none

/-- Replace the first `n` components of a hint, if there are as many. -/
def overwrite? (hint : Hint) (n : Nat) (values : List Single) : Option Hint :=
  if n ≤ 4 then some (hint.overwrite values) else none

/-! ## Words and gaps -/

def keyword? (h : Head) (keyword : String) : Option (Option Head) := do
  let rest ← h.remaining?
  let n := (Utf8.bytes keyword).length
  if (Utf8.bytes keyword).isPrefixOf (Utf8.bytes rest) && !(h.peekAt? n).any isWord then
    some (some (h.skip n))
  else
    some none

def firstKeyword? (h : Head) : List (String × α) → Option (Option (α × Head))
  | [] => some none
  | (keyword, a) :: more => do
    match ← keyword? h keyword with
    | some k => some (some (a, k))
    | none => firstKeyword? h more

def skipComment? (h : Head) : Option (Option Head) :=
  if Head.startsLine h.rest then
    some (some ((h.skipWhile (!isNewline ·)).skipWhile isNewline))
  else if Head.startsBlock h.rest then do
    let rest ← (h.skip 2).remaining?
    some (some ((h.skip 2).skip (Head.blockLength 0 (Utf8.bytes rest))))
  else
    some none

def skipGap? (h : Head) : Option (Option Head) := do
  match ← skipComment? h with
  | some later => some (some later)
  | none =>
    if h.rest.head?.any isBlank then some (some h.skipBlanks)
    else if Head.punctuationLength 0 h.rest = 0 then some none
    else some (some h.skipPunctuation)

def toWord (h : Head) : Option Head := do
  match ← skipGap? h with
  | none => some h
  | some later => if _hlt : later.rest.length < h.rest.length then toWord later else none
termination_by h.rest.length

def takeWord (h : Head) : Option (String × Head) := do
  let k := h.skipWhile isWord
  let word ← k.textFrom? h.pos
  some (word, k)

/-! ## Numbers -/

/-- The length of a sign at an index. -/
def signLength (bs : List UInt8) (n : Nat) : Nat := if bs[n]?.any isSign then 1 else 0

/-- The number of digits behind a point at an index, if there is one and a digit
on either side of it; `whole` is the number of digits before it. -/
def fractionLength? (bs : List UInt8) (whole n : Nat) : Option (Option Nat) :=
  if bs[n]? = some point then do
    let digits ← digitsFrom? bs (n + 1)
    some (if whole = 0 ∧ digits = 0 then none else some digits)
  else
    some none

/-- The length of an exponent at an index; zero if there is none. -/
def exponentLength? (bs : List UInt8) (n : Nat) : Option Nat :=
  if bs[n]?.any fun b => b == lowerE || b == upperE then do
    let sign := signLength bs (n + 1)
    let digits ← digitsFrom? bs (n + 1 + sign)
    some (if digits = 0 then 0 else 1 + sign + digits)
  else
    some 0

/-- The length of the float literal in front of the bytes, if there is one. -/
def scanNumber? (bs : List UInt8) : Option (Option Nat) := do
  let sign := signLength bs 0
  let whole ← digitsFrom? bs sign
  let fraction ← fractionLength? bs whole (sign + whole)
  if whole = 0 ∧ fraction = none then
    some none
  else do
    let mantissa := sign + whole + (fraction.map (· + 1)).getD 0
    let exponent ← exponentLength? bs mantissa
    some (some (mantissa + exponent))

def float : Sliced Single := fun h => do
  let rest ← h.remaining?
  match ← scanNumber? (Utf8.bytes rest) with
  | none => some (.error ⟨h.pos, .notANumber⟩, h)
  | some n =>
    let literal ← initial? rest n
    match FloatLiteral.take? (Utf8.bytes literal) with
    | none => some (.error ⟨h.pos, .notANumber⟩, h)
    | some l => some (.ok l.value, h.skip n)

def components (kind : TupleKind) (component : Sliced α) : Nat → Nat → Sliced (List α)
  | _, 0 => pure []
  | index, n + 1 => do
    Value.separator index
    Reading.skipBlanks
    let a ← component.mapFault (Value.asComponent index kind)
    let as ← components kind component (index + 1) n
    pure (a :: as)

def tuple (kind : TupleKind) (component : Sliced α) (n : Nat) : Sliced (List α) := do
  Reading.expect openParen (.tupleUnopened kind)
  let as ← components kind component 1 n
  Reading.skipBlanks
  Reading.expect closeParen (.tupleUnclosed kind)
  pure as

/-! ## Strings -/

def stringBody (quote : UInt8) : Sliced String := fun h => do
  let rest ← h.remaining?
  let k := h.skip ((Utf8.bytes rest).takeWhile (· != quote)).length
  match k.eat? quote with
  | some l =>
    let body ← k.textFrom? h.pos
    some (.ok body, l)
  | none => some (.error ⟨k.pos, .stringUnclosed⟩, k)

def string : Sliced String := fun h =>
  match h.peek? with
  | some b =>
    if Value.isQuote b then stringBody b (h.skip 1)
    else some (.error ⟨h.pos, .stringUnopened⟩, h)
  | none => some (.error ⟨h.pos, .stringUnopened⟩, h)

def boundedString (max : Option Nat) : Sliced String := fun h =>
  match string h with
  | none => none
  | some (.error e, k) => some (.error e, k)
  | some (.ok s, k) =>
    match max with
    | none => some (.ok s, k)
    | some bound =>
      if s.utf8ByteSize ≤ bound then some (.ok s, k)
      else some (.error ⟨h.pos, .stringTooLong s.utf8ByteSize bound⟩, k)

/-! ## Arguments -/

def afterName (name : String) (value : Sliced α) : Sliced α := do
  Reading.skipBlanks
  Reading.expect equals (.argumentWithoutEquals name)
  Reading.skipBlanks
  value

def argument (name : String) (value : Sliced α) : Sliced (Option α) := fun h => do
  match ← keyword? h name with
  | none => some (.ok none, h)
  | some k =>
    match ← afterName name value k with
    | (.ok a, l) => some (.ok (some a), l)
    | (.error e, l) => some (.error e, l)

def readHint (components : Nat) : Sliced (List Single) :=
  if components = 1 then do
    let x ← float
    pure [x]
  else
    tuple .float float components

def readHints (components : Nat) (metadata : Metadata) : Sliced (Option Metadata) := fun h => do
  match ← argument "mean" (readHint components) h with
  | (.error e, k) => some (.error e, k)
  | (.ok (some values), k) =>
    let mean ← overwrite? metadata.mean components values
    some (.ok (some { metadata with mean }), k)
  | (.ok none, k) =>
    match ← argument "scale" (readHint components) k with
    | (.error e, l) => some (.error e, l)
    | (.ok (some values), l) =>
      let scale ← overwrite? metadata.scale components values
      some (.ok (some { metadata with scale }), l)
    | (.ok none, l) => some (.ok none, l)

def readFile (metadata : Metadata) : Sliced (Option Metadata) := fun h => do
  match ← argument "file" (boundedString (some Limits.pathBytes)) h with
  | (.error e, k) => some (.error e, k)
  | (.ok (some path), k) => some (.ok (some { metadata with file := some path }), k)
  | (.ok none, k) => some (.ok none, k)

def readArgument (type : UniformType) (metadata : Metadata) : Sliced (Option Metadata) :=
  match type.components? with
  | some components => readHints components metadata
  | none => if type.isSampler then readFile metadata else pure none

def readArguments (type : UniformType) (list : ArgumentList) (metadata : Metadata)
    (h : Head) : Option (Except Fault Metadata × Head) :=
  match list.next h with
  | (.error e, k) => some (.error e, k)
  | (.ok (false, later), k) =>
    match later.finish k with
    | (.error e, l) => some (.error e, l)
    | (.ok _, l) => some (.ok metadata, l)
  | (.ok (true, later), k) =>
    match readArgument type metadata k with
    | none => none
    | some (.error e, l) => some (.error e, l)
    | some (.ok (some updated), l) =>
      if _hlt : 2 * l.rest.length + later.turns < 2 * h.rest.length + list.turns then
        readArguments type later updated l
      else
        none
    | some (.ok none, l) =>
      if _hlt : 2 * l.rest.length + later.flag.turns < 2 * h.rest.length + list.turns then
        readArguments type later.flag metadata l
      else
        none
termination_by 2 * h.rest.length + list.turns

/-! ## Declarations and documents -/

def readType : Sliced UniformType := fun h => do
  match ← firstKeyword? h (UniformType.all.map fun t => (t.keyword, t)) with
  | some (t, k) => some (.ok t, k)
  | none => some (.error ⟨h.pos, .typeUnknown⟩, h)

def readName : Sliced String := fun h => do
  let (name, k) ← takeWord h
  if name.utf8ByteSize = 0 then some (.error ⟨h.pos, .nameMissing⟩, k)
  else if k.atEnd then some (.error ⟨h.pos, .sourceEnds⟩, k)
  else if Limits.nameBytes < name.utf8ByteSize then
    some (.error ⟨h.pos, .nameTooLong name.utf8ByteSize Limits.nameBytes⟩, k)
  else some (.ok name, k)

def readMetadata (type : UniformType) : Sliced Metadata := fun h =>
  if h.peek? = some openParen then
    match ArgumentList.begin h with
    | (.error e, k) => some (.error e, k)
    | (.ok list, k) => readArguments type list .default k
  else
    some (.ok .default, h)

def readDeclaration (declared : Nat) : Sliced Declaration :=
  if Limits.uniforms ≤ declared then
    Reading.fail (.tooManyUniforms Limits.uniforms)
  else do
    Reading.skipBlanks
    let type ← readType
    Reading.skipBlanks
    let name ← readName
    Reading.skipBlanks
    let metadata ← readMetadata type
    Reading.skipBlanks
    Reading.expect semicolon .declarationUnterminated
    pure ⟨type, name, metadata⟩

def readFrom (h : Head) (declared : Nat) (acc : List Declaration) : Option Document.Contents := do
  let k ← toWord h
  if k.atEnd then
    some ⟨acc.reverse, none⟩
  else
    match ← keyword? k Document.declarationKeyword with
    | none =>
      let (_, l) ← takeWord k
      if _hlt : l.rest.length < h.rest.length then readFrom l declared acc else none
    | some l =>
      match ← readDeclaration declared l with
      | (.error fault, _) => some ⟨acc.reverse, some fault⟩
      | (.ok d, m) =>
        if _hlt : m.rest.length < h.rest.length then readFrom m (declared + 1) (d :: acc) else none
termination_by h.rest.length

/-- The declarations of a source, unless a slice is refused on the way. -/
def read (source : Source) : Option Document.Contents := readFrom (Head.start source) 0 []

/-- Layout takes no slices. -/
def scan (source : Source) : Option (Except ArithmeticFault Document.Scan) := do
  let contents ← read source
  some do
    let block ← Block.ofDeclarations contents.declarations
    pure ⟨block, contents.fault⟩

end Sliced

end UniformBlock
