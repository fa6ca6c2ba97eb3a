import UniformBlock.Fault
import UniformBlock.Source.Head

/-!
# Readers

A reader starts at a head and ends at another one, either with a value or with
a fault. The final head is part of the result in both cases, because how far a
failed reader came is observable. Readers compose by `do`; the first fault ends
the composition.

A reader is `Forward` when it only ever moves its head on. All readers of the
library are, and composition keeps this property; it is what makes the loops of
the grammar end.
-/

namespace UniformBlock

namespace Head

/-- `later` is the head after some number of bytes have been skipped. -/
def Reaches (h later : Head) : Prop := ∃ n, later = h.skip n

theorem ext {h k : Head} (hsource : h.source = k.source) (hpos : h.pos = k.pos) : h = k := by
  obtain ⟨source, pos, rest, hrest, hle⟩ := h
  obtain ⟨source', pos', rest', hrest', hle'⟩ := k
  obtain rfl : source = source' := hsource
  obtain rfl : pos = pos' := hpos
  obtain rfl : rest = rest' := hrest.trans hrest'.symm
  rfl

@[simp] theorem skip_zero (h : Head) : h.skip 0 = h :=
  ext rfl (Nat.min_eq_left h.pos_le)

theorem skip_skip (h : Head) (m n : Nat) : (h.skip m).skip n = h.skip (m + n) := by
  refine ext rfl ?_
  simp only [skip]
  omega

theorem Reaches.refl (h : Head) : h.Reaches h := ⟨0, (skip_zero h).symm⟩

theorem Reaches.trans {h k l : Head} (hk : h.Reaches k) (hl : k.Reaches l) : h.Reaches l := by
  obtain ⟨m, rfl⟩ := hk
  obtain ⟨n, rfl⟩ := hl
  exact ⟨m + n, skip_skip h m n⟩

theorem reaches_skip (h : Head) (n : Nat) : h.Reaches (h.skip n) := ⟨n, rfl⟩

theorem Reaches.length_le {h later : Head} (hr : h.Reaches later) :
    later.rest.length ≤ h.rest.length := by
  obtain ⟨n, rfl⟩ := hr
  rw [length_rest_skip]
  exact Nat.sub_le _ _

theorem reaches_skipWhile (h : Head) (p : UInt8 → Bool) : h.Reaches (h.skipWhile p) :=
  reaches_skip h _

theorem reaches_skipBlanks (h : Head) : h.Reaches h.skipBlanks := reaches_skipWhile h _

theorem reaches_of_eat? {h later : Head} {b : UInt8} (he : h.eat? b = some later) :
    h.Reaches later := by
  unfold eat? at he
  split at he
  · exact Option.some.inj he ▸ reaches_skip h 1
  · exact absurd he (by simp)

theorem reaches_of_keyword? {h later : Head} {k : String} (hk : h.keyword? k = some later) :
    h.Reaches later := by
  unfold keyword? at hk
  simp only at hk
  split at hk
  · exact Option.some.inj hk ▸ reaches_skip h _
  · exact absurd hk (by simp)

/-- Skipping a keyword that is not empty leaves less to read. -/
theorem length_lt_of_keyword? {h later : Head} {k : String} (hpos : 0 < (Utf8.bytes k).length)
    (hk : h.keyword? k = some later) : later.rest.length < h.rest.length := by
  unfold keyword? at hk
  simp only at hk
  split at hk
  · rename_i hcond
    have hpre : (Utf8.bytes k) <+: h.rest := by
      simp only [Bool.and_eq_true] at hcond
      exact List.isPrefixOf_iff_prefix.1 hcond.1
    have hlen : (Utf8.bytes k).length ≤ h.rest.length := hpre.length_le
    rw [← Option.some.inj hk, length_rest_skip]
    omega
  · exact absurd hk (by simp)

end Head

/-- A reader of values of type `α`. -/
def Reading (α : Type) : Type := Head → Except Fault α × Head

namespace Reading

variable {α β : Type}

instance : Monad Reading where
  pure a h := (.ok a, h)
  bind r f h :=
    match r h with
    | (.ok a, k) => f a k
    | (.error e, k) => (.error e, k)

def fail (cause : Cause) : Reading α := fun h => (.error ⟨h.pos, cause⟩, h)

def skipBlanks : Reading Unit := fun h => (.ok (), h.skipBlanks)

/-- Skip a given byte, or report a cause where it should have been. -/
def expect (b : UInt8) (cause : Cause) : Reading Unit := fun h =>
  match h.eat? b with
  | some k => (.ok (), k)
  | none => (.error ⟨h.pos, cause⟩, h)

def mapFault (f : Fault → Fault) (r : Reading α) : Reading α := fun h =>
  match r h with
  | (.ok a, k) => (.ok a, k)
  | (.error e, k) => (.error (f e), k)

@[simp] theorem pure_apply (a : α) (h : Head) : (pure a : Reading α) h = (.ok a, h) := rfl

theorem bind_apply (r : Reading α) (f : α → Reading β) (h : Head) :
    (r >>= f) h =
      match r h with
      | (.ok a, k) => f a k
      | (.error e, k) => (.error e, k) := rfl

/-- The reader only moves its head on. -/
def Forward (r : Reading α) : Prop := ∀ h : Head, h.Reaches (r h).2

theorem forward_pure (a : α) : Forward (pure a : Reading α) := Head.Reaches.refl

theorem Forward.bind {r : Reading α} {f : α → Reading β} (hr : Forward r)
    (hf : ∀ a, Forward (f a)) : Forward (r >>= f) := by
  intro h
  have hfirst := hr h
  rw [bind_apply]
  split
  · rename_i a k hk
    rw [hk] at hfirst
    exact hfirst.trans (hf a k)
  · rename_i e k hk
    rw [hk] at hfirst
    exact hfirst

theorem forward_fail (cause : Cause) : Forward (fail cause : Reading α) := Head.Reaches.refl

theorem forward_skipBlanks : Forward skipBlanks := Head.reaches_skipBlanks

theorem forward_expect (b : UInt8) (cause : Cause) : Forward (expect b cause) := by
  intro h
  unfold expect
  split
  · rename_i k hk
    exact Head.reaches_of_eat? hk
  · exact Head.Reaches.refl h

theorem Forward.mapFault {r : Reading α} (hr : Forward r) (f : Fault → Fault) :
    Forward (r.mapFault f) := by
  intro h
  have hfirst := hr h
  unfold Reading.mapFault
  split <;> (rename_i hk; rw [hk] at hfirst; exact hfirst)

end Reading

end UniformBlock
