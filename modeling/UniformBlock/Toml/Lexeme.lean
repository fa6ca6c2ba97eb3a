import UniformBlock.Json.Quoted

/-!
# The characters of TOML

A TOML text is made of lines. Blanks are spaces and tabs; a line ends with a
line feed, which a carriage return may precede, and a carriage return may stand
nowhere else. A comment runs from `#` to the end of its line. Control characters
other than tabs may stand neither in comments nor in strings.

Every function that takes something off the front of a text returns the rest.
`skipFiller` passes over everything that may stand between the items of an
array. Strings stand between double quotes, where a backslash begins an escape,
or between single quotes, where every character stands for itself; three quotes
instead of one enclose a string of several lines.
-/

namespace UniformBlock

namespace Toml

def isBlank (c : Char) : Bool := c == ' ' || c == '\t'

def isPlain (c : Char) : Bool := c == '\t' || (0x20 ≤ c.toNat && c.toNat ≠ 0x7F)

def skipBlanks (cs : List Char) : List Char := cs.dropWhile isBlank

def newline? : List Char → Option (List Char)
  | '\n' :: cs => some cs
  | '\r' :: '\n' :: cs => some cs
  | _ => none

def skipComment : List Char → List Char
  | '#' :: cs => cs.dropWhile isPlain
  | cs => cs

/-- Take what may stand between a statement and the end of its line, and the end
of the line. The end of the text ends a line, too. -/
def lineEnd? (cs : List Char) : Option (List Char) :=
  match skipComment (skipBlanks cs) with
  | [] => some []
  | rest => newline? rest

theorem length_newline?_lt {cs rest : List Char} (h : newline? cs = some rest) :
    rest.length < cs.length := by
  unfold newline? at h
  split at h
  · obtain rfl := Option.some.inj h
    simp
  · obtain rfl := Option.some.inj h
    simp only [List.length_cons]
    omega
  · simp at h

theorem length_dropWhile_le {α : Type} (p : α → Bool) (xs : List α) :
    (xs.dropWhile p).length ≤ xs.length :=
  (List.dropWhile_suffix p).length_le

/-- Leave blanks, ends of lines and comments out. A comment has to end with its
line. -/
def skipFiller : List Char → List Char
  | [] => []
  | c :: cs =>
    if isBlank c then skipFiller cs
    else
      match _hn : newline? (if c = '#' then cs.dropWhile isPlain else c :: cs) with
      | some rest => skipFiller rest
      | none => c :: cs
termination_by cs => cs.length
decreasing_by
  · simp
  · have hlt := length_newline?_lt _hn
    split at hlt
    · have hle := length_dropWhile_le isPlain cs
      simp only [List.length_cons]
      omega
    · exact hlt

/-! ## Strings -/

def takeHex? : Nat → Nat → List Char → Option (Nat × List Char)
  | 0, acc, cs => some (acc, cs)
  | _ + 1, _, [] => none
  | n + 1, acc, c :: cs =>
    match Json.hexValue? c with
    | none => none
    | some digit => takeHex? n (acc * 16 + digit) cs

def takeNumbered? (digits : Nat) (cs : List Char) : Option (Char × List Char) :=
  match takeHex? digits 0 cs with
  | none => none
  | some (n, rest) => if n.isValidChar then some (Char.ofNat n, rest) else none

def simpleEscape? (c : Char) : Option Char :=
  if c = 'b' then some '\x08'
  else if c = 't' then some '\t'
  else if c = 'n' then some '\n'
  else if c = 'f' then some '\x0c'
  else if c = 'r' then some '\r'
  else if c = '"' then some '"'
  else if c = '\\' then some '\\'
  else none

def takeEscape? : List Char → Option (Char × List Char)
  | [] => none
  | c :: cs =>
    if c = 'u' then takeNumbered? 4 cs
    else if c = 'U' then takeNumbered? 8 cs
    else (simpleEscape? c).map fun plain => (plain, cs)

def skipBlankLines : List Char → List Char
  | '\r' :: '\n' :: cs => skipBlankLines cs
  | [] => []
  | c :: cs => if isBlank c || c == '\n' then skipBlankLines cs else c :: cs

/-- Take a line break that a backslash hides, with the blanks and lines after it;
the backslash has been taken already. -/
def takeHiddenBreak? (cs : List Char) : Option (List Char) :=
  (newline? (skipBlanks cs)).map skipBlankLines

theorem length_takeHex?_le {n acc m : Nat} {cs rest : List Char}
    (h : takeHex? n acc cs = some (m, rest)) : rest.length ≤ cs.length := by
  induction n generalizing acc cs with
  | zero =>
    rw [takeHex?] at h
    cases h
    exact Nat.le_refl _
  | succ n ih =>
    cases cs with
    | nil => simp [takeHex?] at h
    | cons c cs =>
      rw [takeHex?] at h
      split at h
      · simp at h
      · have hle := ih h
        simp only [List.length_cons]
        omega

theorem length_takeNumbered?_le {digits : Nat} {c : Char} {cs rest : List Char}
    (h : takeNumbered? digits cs = some (c, rest)) : rest.length ≤ cs.length := by
  unfold takeNumbered? at h
  split at h
  · simp at h
  · rename_i n more hhex
    split at h
    · cases h
      exact length_takeHex?_le hhex
    · simp at h

theorem length_takeEscape?_le {c : Char} {cs rest : List Char}
    (h : takeEscape? cs = some (c, rest)) : rest.length ≤ cs.length := by
  cases cs with
  | nil => simp [takeEscape?] at h
  | cons d ds =>
    have hcons : rest.length ≤ ds.length := by
      rw [takeEscape?] at h
      split at h
      · exact length_takeNumbered?_le h
      · split at h
        · exact length_takeNumbered?_le h
        · obtain ⟨plain, _, he⟩ := Option.map_eq_some_iff.1 h
          cases he
          exact Nat.le_refl _
    exact Nat.le_succ_of_le hcons

theorem length_skipBlankLines_le (cs : List Char) : (skipBlankLines cs).length ≤ cs.length := by
  fun_induction skipBlankLines cs with
  | case1 cs ih =>
    simp only [List.length_cons]
    omega
  | case2 => exact Nat.le_refl _
  | case3 c cs _ _ ih =>
    simp only [List.length_cons]
    omega
  | case4 => exact Nat.le_refl _

theorem length_takeHiddenBreak?_lt {cs rest : List Char} (h : takeHiddenBreak? cs = some rest) :
    rest.length < cs.length := by
  obtain ⟨more, hmore, rfl⟩ := Option.map_eq_some_iff.1 h
  have hlt := length_newline?_lt hmore
  have hblank := length_dropWhile_le isBlank cs
  have hle := length_skipBlankLines_le more
  unfold skipBlanks at hlt
  omega

/-- The most quotes that may end a string of several lines; the last three close
it and those before belong to it. -/
def maxClosing : Nat := 5

def takeBody? (quote : Char) (multiline : Bool) : List Char → Option (List Char × List Char)
  | [] => none
  | c :: cs =>
    if c = quote then
      if multiline then
        let run := (cs.takeWhile (· == quote)).length + 1
        if run < 3 then
          (takeBody? quote multiline (cs.drop (run - 1))).map fun r =>
            (List.replicate run quote ++ r.1, r.2)
        else
          let closing := min run maxClosing
          some (List.replicate (closing - 3) quote, cs.drop (closing - 1))
      else
        some ([], cs)
    else if c = '\\' ∧ quote = '"' then
      match _hb : if multiline then takeHiddenBreak? cs else none with
      | some rest => takeBody? quote multiline rest
      | none =>
        match _he : takeEscape? cs with
        | none => none
        | some (plain, rest) =>
          (takeBody? quote multiline rest).map fun r => (plain :: r.1, r.2)
    else
      match _hn : if multiline then newline? (c :: cs) else none with
      | some rest => (takeBody? quote multiline rest).map fun r => ('\n' :: r.1, r.2)
      | none =>
        if isPlain c then
          (takeBody? quote multiline cs).map fun r => (c :: r.1, r.2)
        else
          none
termination_by cs => cs.length
decreasing_by
  · simp only [List.length_drop, List.length_cons]
    omega
  · split at _hb
    · have hlt := length_takeHiddenBreak?_lt _hb
      simp only [List.length_cons]
      omega
    · simp at _hb
  · have hle := length_takeEscape?_le _he
    simp only [List.length_cons]
    omega
  · split at _hn
    · exact length_newline?_lt _hn
    · simp at _hn
  · simp

def skipNewline (cs : List Char) : List Char := (newline? cs).getD cs

def takeLine? (quote : Char) (cs : List Char) : Option (String × List Char) :=
  (takeBody? quote false cs).map fun r => (String.ofList r.1, r.2)

/-- Take a string on one or several lines; its first opening quote has been taken
already. A line break right after three opening quotes does not belong to the
string. -/
def takeString? (quote : Char) (cs : List Char) : Option (String × List Char) :=
  if [quote, quote].isPrefixOf cs then
    (takeBody? quote true (skipNewline (cs.drop 2))).map fun r => (String.ofList r.1, r.2)
  else
    takeLine? quote cs

/-! ## Keys -/

def isBare (c : Char) : Bool :=
  ('A' ≤ c && c ≤ 'Z') || ('a' ≤ c && c ≤ 'z') || ('0' ≤ c && c ≤ '9') || c == '_' || c == '-'

def takeKeyPart? : List Char → Option (String × List Char)
  | '"' :: cs => takeLine? '"' cs
  | '\'' :: cs => takeLine? '\'' cs
  | cs =>
    match cs.takeWhile isBare with
    | [] => none
    | part => some (String.ofList part, cs.dropWhile isBare)

/-- The depth that keys and values do not reach. -/
def maxDepth : Nat := 80

/-- Take the parts of a key, fewer than the given number, with points between
them and blanks around each. -/
def takeKeyParts? : Nat → List Char → Option (List String × List Char)
  | 0, _ => none
  | limit + 1, cs =>
    match takeKeyPart? (skipBlanks cs) with
    | none => none
    | some (part, rest) =>
      match skipBlanks rest with
      | '.' :: more =>
        (takeKeyParts? limit more).map fun r => (part :: r.1, r.2)
      | more => if limit = 0 then none else some ([part], more)

def takeKey? (cs : List Char) : Option ((List String × String) × List Char) :=
  match takeKeyParts? maxDepth cs with
  | none => none
  | some (parts, rest) =>
    match parts.getLast? with
    | none => none
    | some last => some ((parts.dropLast, last), rest)

end Toml

end UniformBlock
