/-!
# Quoted strings of JSON

Between its quotes a JSON string stands in escaped form, its *lexeme*. `escape`
writes a text as a lexeme and `unescape?` reads one. Only quotes, backslashes
and control characters below U+0020 are escaped; everything else stands for
itself.

A lexeme may spell half of a surrogate pair. It is then well-formed but denotes
no text, and `unescape?` refuses it.
-/

namespace UniformBlock

namespace Json

def hexDigit (n : Nat) : Char := if n < 10 then Char.ofNat (0x30 + n) else Char.ofNat (0x57 + n)

def hexValue? (c : Char) : Option Nat :=
  if '0' ≤ c && c ≤ '9' then some (c.toNat - 0x30)
  else if 'a' ≤ c && c ≤ 'f' then some (c.toNat - 0x57)
  else if 'A' ≤ c && c ≤ 'F' then some (c.toNat - 0x37)
  else none

def escapeChar (c : Char) : List Char :=
  if c = '"' then ['\\', '"']
  else if c = '\\' then ['\\', '\\']
  else if c = '\x08' then ['\\', 'b']
  else if c = '\t' then ['\\', 't']
  else if c = '\n' then ['\\', 'n']
  else if c = '\x0c' then ['\\', 'f']
  else if c = '\r' then ['\\', 'r']
  else if c.toNat < 0x20 then
    ['\\', 'u', '0', '0', hexDigit (c.toNat / 16), hexDigit (c.toNat % 16)]
  else [c]

def escape (cs : List Char) : List Char := cs.flatMap escapeChar

def simpleEscape? (c : Char) : Option Char :=
  if c = '"' then some '"'
  else if c = '\\' then some '\\'
  else if c = '/' then some '/'
  else if c = 'b' then some '\x08'
  else if c = 'f' then some '\x0c'
  else if c = 'n' then some '\n'
  else if c = 'r' then some '\r'
  else if c = 't' then some '\t'
  else none

def unit? (a b c d : Char) : Option Nat := do
  let a ← hexValue? a
  let b ← hexValue? b
  let c ← hexValue? c
  let d ← hexValue? d
  pure (((a * 16 + b) * 16 + c) * 16 + d)

def isHighHalf (n : Nat) : Bool := 0xD800 ≤ n && n < 0xDC00

def isLowHalf (n : Nat) : Bool := 0xDC00 ≤ n && n < 0xE000

def pairChar (high low : Nat) : Char :=
  Char.ofNat (0x10000 + (high - 0xD800) * 0x400 + (low - 0xDC00))

def takeUnit? : List Char → Option (Nat × List Char)
  | a :: b :: c :: d :: cs => (unit? a b c d).map fun n => (n, cs)
  | _ => none

def takeLowHalf? : List Char → Option (Nat × List Char)
  | a :: b :: cs =>
    if a = '\\' ∧ b = 'u' then (takeUnit? cs).filter fun r => isLowHalf r.1 else none
  | _ => none

/-- Take the character of an escape off the front; the backslash has been taken
already. Half of a surrogate pair alone is refused. -/
def takeEscape? : List Char → Option (Char × List Char)
  | [] => none
  | c :: cs =>
    if c = 'u' then
      match takeUnit? cs with
      | none => none
      | some (first, rest) =>
        if isHighHalf first then
          (takeLowHalf? rest).map fun r => (pairChar first r.1, r.2)
        else if isLowHalf first then none
        else some (Char.ofNat first, rest)
    else
      (simpleEscape? c).map fun plain => (plain, cs)

theorem length_takeUnit?_lt {cs rest : List Char} {n : Nat} (h : takeUnit? cs = some (n, rest)) :
    rest.length < cs.length := by
  unfold takeUnit? at h
  split at h
  · obtain ⟨m, _, hm⟩ := Option.map_eq_some_iff.1 h
    cases hm
    simp only [List.length_cons]
    omega
  · simp at h

theorem length_takeLowHalf?_lt {cs rest : List Char} {n : Nat}
    (h : takeLowHalf? cs = some (n, rest)) : rest.length < cs.length := by
  unfold takeLowHalf? at h
  split at h
  · split at h
    · have hlt := length_takeUnit?_lt (Option.filter_eq_some_iff.1 h).1
      simp only [List.length_cons]
      omega
    · simp at h
  · simp at h

theorem length_takeEscape?_lt {cs rest : List Char} {c : Char}
    (h : takeEscape? cs = some (c, rest)) : rest.length < cs.length := by
  unfold takeEscape? at h
  split at h
  · simp at h
  · rename_i d ds
    split at h
    · split at h
      · simp at h
      · rename_i first more hunit
        have hlt := length_takeUnit?_lt hunit
        split at h
        · obtain ⟨⟨second, last⟩, hlast, he⟩ := Option.map_eq_some_iff.1 h
          have hlow := length_takeLowHalf?_lt hlast
          obtain rfl : last = rest := congrArg Prod.snd he
          simp only [List.length_cons]
          omega
        · split at h
          · simp at h
          · obtain rfl : more = rest := congrArg Prod.snd (Option.some.inj h)
            simp only [List.length_cons]
            omega
    · obtain ⟨plain, _, he⟩ := Option.map_eq_some_iff.1 h
      cases he
      simp

/-- Read a lexeme. It is refused where it is malformed or spells half of a
surrogate pair alone. -/
def unescape? : List Char → Option (List Char)
  | [] => some []
  | c :: cs =>
    if c = '\\' then
      match _he : takeEscape? cs with
      | none => none
      | some (plain, rest) => (unescape? rest).map (plain :: ·)
    else
      (unescape? cs).map (c :: ·)
termination_by cs => cs.length
decreasing_by
  · have hlt := length_takeEscape?_lt _he
    simp only [List.length_cons]
    omega
  · simp

/-- The number of characters of the escape at the front, after its backslash. -/
def escapeLength? : List Char → Option Nat
  | [] => none
  | c :: cs =>
    if c = 'u' then (takeUnit? cs).map fun _ => 5
    else (simpleEscape? c).map fun _ => 1

/-- Take the lexeme of a string off the front, up to the closing quote, which is
taken along. A raw control character or a malformed escape is refused. -/
def takeLexeme? : List Char → Option (List Char × List Char)
  | [] => none
  | c :: cs =>
    if c = '"' then some ([], cs)
    else if c.toNat < 0x20 then none
    else if c = '\\' then
      match escapeLength? cs with
      | none => none
      | some n =>
        (takeLexeme? (cs.drop n)).map fun r => (c :: (cs.take n ++ r.1), r.2)
    else
      (takeLexeme? cs).map fun r => (c :: r.1, r.2)
termination_by cs => cs.length
decreasing_by
  all_goals
    simp only [List.length_cons, List.length_drop]
    omega

end Json

end UniformBlock
