/-!
# Checked arithmetic on 32-bit words

Slot offsets and sizes are 32-bit words. An operation whose exact result does
not fit a word has no result; it reports an `ArithmeticFault` instead.
-/

namespace UniformBlock

/-- Why an operation on words has no result. -/
inductive ArithmeticFault where
  | addOverflow
  | mulOverflow
  /-- A remainder modulo zero. -/
  | remainderByZero
deriving DecidableEq, Repr

namespace ArithmeticFault

def message : ArithmeticFault → String
  | addOverflow => "attempt to add with overflow"
  | mulOverflow => "attempt to multiply with overflow"
  | remainderByZero => "attempt to calculate the remainder with a divisor of zero"

end ArithmeticFault

namespace Word

def add (a b : UInt32) : Except ArithmeticFault UInt32 :=
  if a.toNat + b.toNat < UInt32.size then .ok (a + b) else .error .addOverflow

def mul (a b : UInt32) : Except ArithmeticFault UInt32 :=
  if a.toNat * b.toNat < UInt32.size then .ok (a * b) else .error .mulOverflow

def rem (a b : UInt32) : Except ArithmeticFault UInt32 :=
  if b = 0 then .error .remainderByZero else .ok (a % b)

/-- A sum exists exactly when it fits, and is then exact. -/
theorem add_eq_ok_iff {a b c : UInt32} :
    add a b = .ok c ↔ c.toNat = a.toNat + b.toNat := by
  have hc : c.toNat < UInt32.size := c.toNat_lt_size
  unfold add
  by_cases hlt : a.toNat + b.toNat < UInt32.size
  · rw [if_pos hlt]
    have hsum : (a + b).toNat = a.toNat + b.toNat := by
      rw [UInt32.toNat_add, Nat.mod_eq_of_lt hlt]
    constructor
    · intro h
      rw [← Except.ok.inj h, hsum]
    · intro h
      rw [show a + b = c from UInt32.toNat_inj.1 (by rw [hsum, h])]
  · rw [if_neg hlt]
    constructor
    · intro h
      exact absurd h (by simp)
    · intro h
      omega

/-- A product exists exactly when it fits, and is then exact. -/
theorem mul_eq_ok_iff {a b c : UInt32} :
    mul a b = .ok c ↔ c.toNat = a.toNat * b.toNat := by
  have hc : c.toNat < UInt32.size := c.toNat_lt_size
  unfold mul
  by_cases hlt : a.toNat * b.toNat < UInt32.size
  · rw [if_pos hlt]
    have hprod : (a * b).toNat = a.toNat * b.toNat := by
      rw [UInt32.toNat_mul, Nat.mod_eq_of_lt hlt]
    constructor
    · intro h
      rw [← Except.ok.inj h, hprod]
    · intro h
      rw [show a * b = c from UInt32.toNat_inj.1 (by rw [hprod, h])]
  · rw [if_neg hlt]
    constructor
    · intro h
      exact absurd h (by simp)
    · intro h
      omega

end Word

end UniformBlock
