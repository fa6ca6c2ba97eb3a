/-!
# UTF-8

`encode` writes characters as bytes and `text` reads bytes as a text. Reading
never fails: bytes that are not UTF-8 become U+FFFD, one replacement for each
longest run of bytes that could still have begun a character. `text?` is the
strict reader, which refuses such bytes.

Both readers repeat one step, `takeChar`, that takes either one character or
one ill-formed run off the front of the input.
-/

namespace UniformBlock

namespace Utf8

def encode (cs : List Char) : List UInt8 := cs.flatMap String.utf8EncodeChar

@[simp] theorem encode_nil : encode [] = [] := rfl

@[simp] theorem encode_cons (c : Char) (cs : List Char) :
    encode (c :: cs) = String.utf8EncodeChar c ++ encode cs := by
  simp [encode]

@[simp] theorem encode_append (cs ds : List Char) :
    encode (cs ++ ds) = encode cs ++ encode ds := by
  simp [encode]

def bytes (s : String) : List UInt8 := encode s.toList

/-- A byte that continues a character begun earlier. -/
def isContinuation (b : UInt8) : Bool := b &&& 0xC0 == 0x80

/-- A list of bytes that a character may begin with, or that is empty: what
remains of a text at a character boundary has this form. -/
def StartsChar (bs : List UInt8) : Prop := ∀ b ∈ bs.head?, isContinuation b = false

/-- What the first byte of a character of several bytes announces: the bits it
contributes, the range of the byte after it, and how many continuation bytes
follow that one. The ranges exclude overlong forms, surrogates and code points
above U+10FFFF. -/
structure Lead where
  bits : Nat
  low : UInt8
  high : UInt8
  more : Nat

def lead? (b : UInt8) : Option Lead :=
  let low := b.toNat % 0x40
  if b < 0xC2 then none
  else if b ≤ 0xDF then some ⟨low % 0x20, 0x80, 0xBF, 0⟩
  else if b = 0xE0 then some ⟨low % 0x10, 0xA0, 0xBF, 1⟩
  else if b = 0xED then some ⟨low % 0x10, 0x80, 0x9F, 1⟩
  else if b ≤ 0xEF then some ⟨low % 0x10, 0x80, 0xBF, 1⟩
  else if b = 0xF0 then some ⟨low % 0x08, 0x90, 0xBF, 2⟩
  else if b ≤ 0xF3 then some ⟨low % 0x08, 0x80, 0xBF, 2⟩
  else if b = 0xF4 then some ⟨low % 0x08, 0x80, 0x8F, 2⟩
  else none

def addBits (acc : Nat) (b : UInt8) : Nat := acc * 0x40 + b.toNat % 0x40

/-- Take `n` continuation bytes, collecting their bits; stop in front of the
first byte that is none. -/
def takeContinuation : Nat → Nat → List UInt8 → Option Nat × List UInt8
  | acc, 0, bs => (some acc, bs)
  | _, _ + 1, [] => (none, [])
  | acc, n + 1, b :: bs =>
    if isContinuation b then takeContinuation (addBits acc b) n bs else (none, b :: bs)

/-- Take one character off the input that begins with `b`, or, where there is
none, the longest run of bytes that could have begun one (at least `b`). -/
def takeChar (b : UInt8) (bs : List UInt8) : Option Char × List UInt8 :=
  if b < 0x80 then
    (some (Char.ofNat b.toNat), bs)
  else
    match lead? b, bs with
    | none, _ => (none, bs)
    | some _, [] => (none, [])
    | some lead, c :: cs =>
      if lead.low ≤ c && c ≤ lead.high then
        let (code, rest) := takeContinuation (addBits lead.bits c) lead.more cs
        (code.map Char.ofNat, rest)
      else
        (none, bs)

theorem length_takeContinuation_le (acc n : Nat) (bs : List UInt8) :
    (takeContinuation acc n bs).2.length ≤ bs.length := by
  induction bs generalizing acc n with
  | nil => cases n <;> simp [takeContinuation]
  | cons b bs ih =>
    cases n with
    | zero => simp [takeContinuation]
    | succ n =>
      by_cases hb : isContinuation b = true
      · have := ih (addBits acc b) n
        simp only [takeContinuation, hb, if_true, List.length_cons]
        omega
      · simp [takeContinuation, hb]

theorem length_takeChar_le (b : UInt8) (bs : List UInt8) :
    (takeChar b bs).2.length ≤ bs.length := by
  unfold takeChar
  split
  · simp
  · split
    · simp
    · simp
    · rename_i lead c cs _
      split
      · have := length_takeContinuation_le (addBits lead.bits c) lead.more cs
        simp only [List.length_cons]
        omega
      · simp

/-- Read bytes as characters after those of `acc`, which come in reverse. An
ill-formed run gives `none`. -/
def readAfter (acc : List (Option Char)) : List UInt8 → List (Option Char)
  | [] => acc.reverse
  | b :: bs =>
    let step := takeChar b bs
    readAfter (step.1 :: acc) step.2
termination_by bs => bs.length
decreasing_by
  have := length_takeChar_le b bs
  simp only [List.length_cons]
  omega

def read (bs : List UInt8) : List (Option Char) := readAfter [] bs

def replacement : Char := Char.ofNat 0xFFFD

/-- Bytes as a text; each ill-formed run becomes U+FFFD. -/
def text (bs : List UInt8) : String :=
  String.ofList ((read bs).map (·.getD replacement))

/-- Bytes as a text, refused when they are not UTF-8. -/
def text? (bs : List UInt8) : Option String :=
  ((read bs).mapM id).map String.ofList

/-- The longest initial part of a list of characters whose bytes number at most
`limit`. -/
def takeBytes : Nat → List Char → List Char
  | _, [] => []
  | limit, c :: cs =>
    if c.utf8Size ≤ limit then c :: takeBytes (limit - c.utf8Size) cs else []

/-- The longest initial part of a text that takes at most `limit` bytes. -/
def truncate (limit : Nat) (s : String) : String :=
  if s.utf8ByteSize ≤ limit then s else String.ofList (takeBytes limit s.toList)

end Utf8

end UniformBlock
