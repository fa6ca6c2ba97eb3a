import UniformBlock.Argument
import UniformBlock.UniformType

/-!
# Declarations

A declaration follows the word `uniform`. It names a type and the uniform, may
give metadata in an argument list, and ends with a semicolon. Scalars and
vectors take the arguments `mean` and `scale`, each with as many numbers as the
type has components; samplers take `file`; matrices take none. An argument may
be repeated, and the last one counts.

A `Declaration` is what the source says. Where the uniform lies in the buffer is
not part of it.
-/

namespace UniformBlock

open Ascii

/-- Four numbers, one for each component a type can have. -/
abbrev Hint := Vector Single 4

namespace Hint

def all (x : Single) : Hint := #v[x, x, x, x]

/-- Replace the leading components by the given numbers. -/
def overwrite (hint : Hint) (values : List Single) : Hint :=
  Vector.ofFn fun i => (values[i]?).getD (hint.get i)

end Hint

/-- What the argument list of a declaration says. -/
structure Metadata where
  mean : Hint
  scale : Hint
  file : Option String
deriving DecidableEq, Repr

namespace Metadata

/-- The metadata of a declaration that says nothing about them. -/
def default : Metadata := ⟨Hint.all .zero, Hint.all .one, none⟩

/-- Read as many numbers as a type has components: one by itself, more as a
tuple. -/
def readHint (components : Nat) : Reading (List Single) :=
  if components = 1 then do
    let x ← Value.float
    pure [x]
  else
    Value.floats components

/-- Read one argument of a type with the given number of components. -/
def readHints (components : Nat) (metadata : Metadata) : Reading (Option Metadata) := fun h =>
  match Value.argument "mean" (readHint components) h with
  | (.error e, k) => (.error e, k)
  | (.ok (some values), k) =>
    (.ok (some { metadata with mean := metadata.mean.overwrite values }), k)
  | (.ok none, k) =>
    match Value.argument "scale" (readHint components) k with
    | (.error e, l) => (.error e, l)
    | (.ok (some values), l) =>
      (.ok (some { metadata with scale := metadata.scale.overwrite values }), l)
    | (.ok none, l) => (.ok none, l)

def readFile (metadata : Metadata) : Reading (Option Metadata) := fun h =>
  match Value.stringArgument "file" (some Limits.pathBytes) h with
  | (.error e, k) => (.error e, k)
  | (.ok (some path), k) => (.ok (some { metadata with file := some path }), k)
  | (.ok none, k) => (.ok none, k)

/-- Read one argument that the type takes; `none` when there is no such argument
here. -/
def readArgument (type : UniformType) (metadata : Metadata) : Reading (Option Metadata) :=
  match type.components? with
  | some components => readHints components metadata
  | none => if type.isSampler then readFile metadata else pure none

theorem forward_readHint (components : Nat) : (readHint components).Forward := by
  unfold readHint
  split
  · exact Value.forward_float.bind fun _ => Reading.forward_pure _
  · exact Value.forward_tuple _ Value.forward_float _

theorem forward_readHints (components : Nat) (metadata : Metadata) :
    (readHints components metadata).Forward := by
  intro h
  have hmean := Value.forward_argument "mean" (forward_readHint components) h
  unfold readHints
  split
  · rename_i hk
    rw [hk] at hmean
    exact hmean
  · rename_i hk
    rw [hk] at hmean
    exact hmean
  · rename_i k hk
    rw [hk] at hmean
    have hscale := Value.forward_argument "scale" (forward_readHint components) k
    split <;>
      (rename_i hl
       rw [hl] at hscale
       exact hmean.trans hscale)

theorem forward_readFile (metadata : Metadata) : (readFile metadata).Forward := by
  intro h
  have hfile := Value.forward_argument "file"
    (Value.forward_boundedString (some Limits.pathBytes)) h
  unfold readFile Value.stringArgument
  split <;>
    (rename_i hk
     rw [hk] at hfile
     exact hfile)

theorem forward_readArgument (type : UniformType) (metadata : Metadata) :
    (readArgument type metadata).Forward := by
  unfold readArgument
  split
  · exact forward_readHints _ metadata
  · split
    · exact forward_readFile metadata
    · exact Reading.forward_pure none

theorem eq_of_readHints_none {components : Nat} {metadata : Metadata} {h k : Head}
    (hr : readHints components metadata h = (.ok none, k)) : k = h := by
  unfold readHints at hr
  split at hr
  · simp at hr
  · simp at hr
  · rename_i l hl
    split at hr
    · simp at hr
    · simp at hr
    · rename_i m hm
      simp only [Prod.mk.injEq, true_and] at hr
      rw [← hr, Value.eq_of_argument_none hm, Value.eq_of_argument_none hl]

theorem eq_of_readFile_none {metadata : Metadata} {h k : Head}
    (hr : readFile metadata h = (.ok none, k)) : k = h := by
  unfold readFile at hr
  split at hr
  · simp at hr
  · simp at hr
  · rename_i l hl
    simp only [Prod.mk.injEq, true_and] at hr
    rw [← hr]
    exact Value.eq_of_argument_none hl

/-- Where the type takes no argument of this name, nothing is read. -/
theorem eq_of_readArgument_none {type : UniformType} {metadata : Metadata} {h k : Head}
    (hr : readArgument type metadata h = (.ok none, k)) : k = h := by
  cases hc : type.components? with
  | some components =>
    simp only [readArgument, hc] at hr
    exact eq_of_readHints_none hr
  | none =>
    by_cases hs : type.isSampler = true
    · simp only [readArgument, hc, hs, if_true] at hr
      exact eq_of_readFile_none hr
    · simp [readArgument, hc, hs] at hr
      exact hr.symm

theorem length_lt_of_readHints_some {components : Nat} {metadata later : Metadata}
    {h k : Head} (hr : readHints components metadata h = (.ok (some later), k)) :
    k.rest.length < h.rest.length := by
  have hforward := forward_readHint components
  unfold readHints at hr
  split at hr
  · simp at hr
  · rename_i l hl
    simp only [Prod.mk.injEq] at hr
    exact hr.2 ▸ Value.length_lt_of_argument_some (by decide) hforward hl
  · rename_i l hl
    split at hr
    · simp at hr
    · rename_i m hm
      simp only [Prod.mk.injEq] at hr
      have hlt := Value.length_lt_of_argument_some (by decide) hforward hm
      rw [Value.eq_of_argument_none hl] at hlt
      exact hr.2 ▸ hlt
    · simp at hr

theorem length_lt_of_readFile_some {metadata later : Metadata} {h k : Head}
    (hr : readFile metadata h = (.ok (some later), k)) : k.rest.length < h.rest.length := by
  unfold readFile at hr
  split at hr
  · simp at hr
  · rename_i l hl
    simp only [Prod.mk.injEq] at hr
    exact hr.2 ▸ Value.length_lt_of_argument_some (by decide)
      (Value.forward_boundedString _) hl
  · simp at hr

/-- An argument that was read leaves less to read. -/
theorem length_lt_of_readArgument_some {type : UniformType} {metadata later : Metadata}
    {h k : Head} (hr : readArgument type metadata h = (.ok (some later), k)) :
    k.rest.length < h.rest.length := by
  cases hc : type.components? with
  | some components =>
    simp only [readArgument, hc] at hr
    exact length_lt_of_readHints_some hr
  | none =>
    by_cases hs : type.isSampler = true
    · simp only [readArgument, hc, hs, if_true] at hr
      exact length_lt_of_readFile_some hr
    · simp [readArgument, hc, hs] at hr

/-- Read the remaining arguments of a list. An argument the type does not take
is flagged, and the next turn reports it. -/
def readArguments (type : UniformType) (list : ArgumentList) (metadata : Metadata)
    (h : Head) : Except Fault Metadata × Head :=
  match _hn : list.next h with
  | (.error e, k) => (.error e, k)
  | (.ok (false, later), k) =>
    match later.finish k with
    | (.error e, l) => (.error e, l)
    | (.ok _, l) => (.ok metadata, l)
  | (.ok (true, later), k) =>
    match _hr : readArgument type metadata k with
    | (.error e, l) => (.error e, l)
    | (.ok (some updated), l) => readArguments type later updated l
    | (.ok none, l) => readArguments type later.flag metadata l
termination_by 2 * h.rest.length + list.turns
decreasing_by
  · have hle := (ArgumentList.forward_next list h).length_le
    have hturns := ArgumentList.turns_of_next _hn
    have hlt := length_lt_of_readArgument_some _hr
    rw [_hn] at hle
    simp only at hle
    omega
  · have hle := (ArgumentList.forward_next list h).length_le
    have hturns := ArgumentList.turns_of_next _hn
    rw [_hn] at hle
    simp only at hle
    rw [eq_of_readArgument_none _hr, ArgumentList.turns_flag]
    omega

def read (type : UniformType) : Reading Metadata := fun h =>
  match ArgumentList.begin h with
  | (.error e, k) => (.error e, k)
  | (.ok list, k) => readArguments type list default k

end Metadata

structure Declaration where
  type : UniformType
  name : String
  metadata : Metadata
deriving DecidableEq, Repr

namespace Declaration

def readType : Reading UniformType := fun h =>
  match Value.firstKeyword? h (UniformType.all.map fun t => (t.keyword, t)) with
  | some (t, k) => (.ok t, k)
  | none => (.error ⟨h.pos, .typeUnknown⟩, h)

/-- Read a name. A name that ends the source is reported as such before its
length is looked at. -/
def readName : Reading String := fun h =>
  let length := h.word.length
  let (name, k) := h.takeWord
  if length = 0 then (.error ⟨h.pos, .nameMissing⟩, k)
  else if k.atEnd then (.error ⟨h.pos, .sourceEnds⟩, k)
  else if Limits.nameBytes < length then
    (.error ⟨h.pos, .nameTooLong length Limits.nameBytes⟩, k)
  else (.ok name, k)

def readMetadata (type : UniformType) : Reading Metadata := fun h =>
  if h.peek? = some openParen then Metadata.read type h else (.ok .default, h)

/-- Read the declaration that follows the word `uniform`, in a source that has
made `declared` declarations before it. -/
def read (declared : Nat) : Reading Declaration :=
  if Limits.uniforms ≤ declared then
    Reading.fail (.tooManyUniforms Limits.uniforms)
  else do
    Reading.skipBlanks
    let type ← readType
    Reading.skipBlanks
    let name ← readName
    Reading.skipBlanks
    let metadata ← readMetadata type
    Reading.skipBlanks
    Reading.expect semicolon .declarationUnterminated
    pure ⟨type, name, metadata⟩

theorem forward_readArguments (type : UniformType) (list : ArgumentList) (metadata : Metadata)
    (h : Head) : h.Reaches (Metadata.readArguments type list metadata h).2 := by
  fun_induction Metadata.readArguments type list metadata h with
  | case1 list metadata h e k hn =>
    have hnext := ArgumentList.forward_next list h
    rw [hn] at hnext
    exact hnext
  | case2 list metadata h later k hn e l hf =>
    have hnext := ArgumentList.forward_next list h
    rw [hn] at hnext
    cases later with
    | closed => simp [ArgumentList.finish] at hf
    | ongoing first flagged =>
      cases flagged with
      | false => simp [ArgumentList.finish] at hf
      | true =>
        simp only [ArgumentList.finish, Reading.fail, Prod.mk.injEq] at hf
        exact hf.2 ▸ hnext
  | case3 list metadata h later k hn u l hf =>
    have hnext := ArgumentList.forward_next list h
    rw [hn] at hnext
    cases later with
    | closed =>
      simp only [ArgumentList.finish, Reading.pure_apply, Prod.mk.injEq] at hf
      exact hf.2 ▸ hnext
    | ongoing first flagged =>
      cases flagged with
      | true => simp [ArgumentList.finish, Reading.fail] at hf
      | false =>
        simp only [ArgumentList.finish, Reading.pure_apply, Prod.mk.injEq] at hf
        exact hf.2 ▸ hnext
  | case4 list metadata h later k hn e l hr =>
    have hnext := ArgumentList.forward_next list h
    have hread := Metadata.forward_readArgument type metadata k
    rw [hn] at hnext
    rw [hr] at hread
    exact hnext.trans hread
  | case5 list metadata h later k hn updated l hr ih =>
    have hnext := ArgumentList.forward_next list h
    have hread := Metadata.forward_readArgument type metadata k
    rw [hn] at hnext
    rw [hr] at hread
    exact (hnext.trans hread).trans ih
  | case6 list metadata h later k hn l hr ih =>
    have hnext := ArgumentList.forward_next list h
    have hread := Metadata.forward_readArgument type metadata k
    rw [hn] at hnext
    rw [hr] at hread
    exact (hnext.trans hread).trans ih

theorem forward_readMetadata (type : UniformType) : (readMetadata type).Forward := by
  intro h
  unfold readMetadata Metadata.read
  split
  · have hbegin := ArgumentList.forward_begin h
    split
    · rename_i hk
      rw [hk] at hbegin
      exact hbegin
    · rename_i list k hk
      rw [hk] at hbegin
      exact hbegin.trans (forward_readArguments type list .default k)
  · exact Head.Reaches.refl h

theorem forward_readType : readType.Forward := by
  intro h
  unfold readType
  split
  · rename_i t k hk
    exact Value.reaches_of_firstKeyword? hk
  · exact Head.Reaches.refl h

theorem forward_readName : readName.Forward := by
  intro h
  have hword : h.Reaches h.takeWord.2 := Head.reaches_skip h _
  unfold readName
  simp only
  split
  · exact hword
  · split
    · exact hword
    · split <;> exact hword

theorem forward_read (declared : Nat) : (read declared).Forward := by
  unfold read
  split
  · exact Reading.forward_fail _
  · refine Reading.forward_skipBlanks.bind fun _ => ?_
    refine forward_readType.bind fun type => ?_
    refine Reading.forward_skipBlanks.bind fun _ => ?_
    refine forward_readName.bind fun name => ?_
    refine Reading.forward_skipBlanks.bind fun _ => ?_
    refine (forward_readMetadata type).bind fun metadata => ?_
    refine Reading.forward_skipBlanks.bind fun _ => ?_
    exact (Reading.forward_expect _ _).bind fun _ => Reading.forward_pure _

end Declaration

end UniformBlock
