import UniformBlock.Proofs.Layout

/-!
# Aligning any word

The offsets of a block are small, and aligning them never fails. Here `alignUp` is
described on all words, for alignments of any value. What it is to find is the
least of the places that the alignment leaves from the offset on. There is none to
be found for the alignment zero, and one that is found need not be a word. These
are the only faults, and everywhere else the least place is the result
(`alignUp_of_isLeast`). That aligning again changes nothing, keeps the order of
offsets and skips less than one alignment are facts about least elements alone.
-/

namespace UniformBlock

/-- The multiples of an alignment that are not below an offset. -/
def placesFrom (offset alignment : UInt32) : Set Nat :=
  {n | alignment.toNat ∣ n ∧ offset.toNat ≤ n}

variable {offset alignment : UInt32}

theorem toNat_pos_of_ne_zero (h : alignment ≠ 0) : 0 < alignment.toNat :=
  UInt32.lt_iff_toNat_lt.1 (UInt32.pos_iff_ne_zero.2 h)

theorem exists_isLeast_placesFrom (offset : UInt32) (h : alignment ≠ 0) :
    ∃ least, IsLeast (placesFrom offset alignment) least :=
  ⟨_, isLeast_roundUp offset.toNat (toNat_pos_of_ne_zero h)⟩

/-- Which fault aligning has is decided by the alignment. -/
theorem eq_of_alignUp_eq_error {fault : ArithmeticFault}
    (h : alignUp offset alignment = .error fault) :
    fault = if alignment = 0 then .remainderByZero else .addOverflow := by
  by_cases hzero : alignment = 0
  · subst hzero
    rw [if_pos rfl]
    exact (Except.error.inj h).symm
  · simp only [alignUp, Word.rem, if_neg hzero, bind, Except.bind] at h
    rw [if_neg hzero]
    split at h
    · cases h
    · unfold Word.add at h
      split at h
      · cases h
      · exact (Except.error.inj h).symm

/-- Aligning to an alignment other than zero gives the least place, if it is a word. -/
theorem alignUp_of_isLeast {least : Nat} (h : alignment ≠ 0)
    (hleast : IsLeast (placesFrom offset alignment) least) :
    alignUp offset alignment =
      if least < UInt32.size then .ok (UInt32.ofNat least) else .error .addOverflow := by
  split
  · rename_i hlt
    refine alignUp_eq_ok_iff.2 ⟨toNat_pos_of_ne_zero h, ?_⟩
    rw [UInt32.toNat_ofNat_of_lt' hlt]
    exact hleast
  · rename_i hlarge
    cases halign : alignUp offset alignment with
    | error fault => rw [eq_of_alignUp_eq_error halign, if_neg h]
    | ok result =>
        have hresult := (alignUp_eq_ok_iff.1 halign).2
        rw [← hresult.unique hleast] at hlarge
        exact absurd result.toNat_lt_size hlarge

/-- Less than one alignment is skipped: the place before is too low. -/
theorem lt_add_of_isLeast {least : Nat} (h : alignment ≠ 0)
    (hleast : IsLeast (placesFrom offset alignment) least) :
    least < offset.toNat + alignment.toNat := by
  have hpos := toNat_pos_of_ne_zero h
  by_contra hge
  have hbefore : least - alignment.toNat ∈ placesFrom offset alignment :=
    ⟨Nat.dvd_sub hleast.1.1 (Nat.dvd_refl _), by omega⟩
  have := hleast.2 hbefore
  omega

/-- What aligning says about an offset and an alignment. -/
structure Aligns (offset alignment : UInt32) : Prop where
  remainderByZero_iff : alignUp offset alignment = .error .remainderByZero ↔ alignment = 0
  addOverflow_iff : alignUp offset alignment = .error .addOverflow ↔
    0 < alignment ∧ ∃ least, IsLeast (placesFrom offset alignment) least ∧ UInt32.size ≤ least
  returns : alignUp offset alignment ≠ .error .remainderByZero →
    alignUp offset alignment ≠ .error .addOverflow →
      ∃ result, alignUp offset alignment = .ok result ∧
        IsLeast (placesFrom offset alignment) result.toNat
  idempotent : ∀ result, alignUp offset alignment = .ok result →
    alignUp result alignment = .ok result
  monotone : ∀ later result, offset ≤ later → alignUp later alignment = .ok result →
    ∃ first, alignUp offset alignment = .ok first ∧ first ≤ result
  skips : ∀ result, alignUp offset alignment = .ok result →
    offset ≤ result ∧ result.toNat < offset.toNat + alignment.toNat

theorem ne_zero_of_alignUp_eq_ok {result : UInt32} (h : alignUp offset alignment = .ok result) :
    alignment ≠ 0 := by
  rintro rfl
  cases h

theorem isLeast_of_alignUp_eq_ok {result : UInt32} (h : alignUp offset alignment = .ok result) :
    IsLeast (placesFrom offset alignment) result.toNat :=
  (alignUp_eq_ok_iff.1 h).2

/-- A place for a later offset is a place for an earlier one, so there is one for
the earlier one and it is not above. -/
theorem exists_alignUp_le {later result : UInt32} (hle : offset ≤ later)
    (h : alignUp later alignment = .ok result) :
    ∃ first, alignUp offset alignment = .ok first ∧ first ≤ result := by
  have hzero := ne_zero_of_alignUp_eq_ok h
  obtain ⟨least, hleast⟩ := exists_isLeast_placesFrom offset hzero
  obtain ⟨hdvd, hlater⟩ := (isLeast_of_alignUp_eq_ok h).1
  have hbound : least ≤ result.toNat :=
    hleast.2 ⟨hdvd, (UInt32.le_iff_toNat_le.1 hle).trans hlater⟩
  have hlt : least < UInt32.size := lt_of_le_of_lt hbound result.toNat_lt_size
  refine ⟨UInt32.ofNat least, ?_, ?_⟩
  · rw [alignUp_of_isLeast hzero hleast, if_pos hlt]
  · rw [UInt32.le_iff_toNat_le, UInt32.toNat_ofNat_of_lt' hlt]
    exact hbound

/-- Aligning is exact on all words. -/
theorem aligns_word (offset alignment : UInt32) : Aligns offset alignment where
  remainderByZero_iff := by
    constructor
    · intro h
      by_contra hzero
      have hfault := eq_of_alignUp_eq_error h
      rw [if_neg hzero] at hfault
      cases hfault
    · rintro rfl
      rfl
  addOverflow_iff := by
    constructor
    · intro h
      have hzero : alignment ≠ 0 := by
        rintro rfl
        cases h
      obtain ⟨least, hleast⟩ := exists_isLeast_placesFrom offset hzero
      refine ⟨UInt32.pos_iff_ne_zero.2 hzero, least, hleast, ?_⟩
      by_contra hlt
      rw [alignUp_of_isLeast hzero hleast, if_pos (Nat.lt_of_not_le hlt)] at h
      cases h
    · rintro ⟨hpos, least, hleast, hlarge⟩
      rw [alignUp_of_isLeast (UInt32.pos_iff_ne_zero.1 hpos) hleast, if_neg (Nat.not_lt.2 hlarge)]
  returns hremainder hoverflow := by
    cases halign : alignUp offset alignment with
    | ok result => exact ⟨result, rfl, isLeast_of_alignUp_eq_ok halign⟩
    | error fault =>
        have hfault := eq_of_alignUp_eq_error halign
        split at hfault
        · exact absurd (hfault ▸ halign) hremainder
        · exact absurd (hfault ▸ halign) hoverflow
  idempotent result h := by
    have hleast := isLeast_of_alignUp_eq_ok h
    have hpos := toNat_pos_of_ne_zero (ne_zero_of_alignUp_eq_ok h)
    exact alignUp_eq_ok_iff.2 ⟨hpos, ⟨hleast.1.1, le_rfl⟩, fun n hn => hn.2⟩
  monotone _ _ hle h := exists_alignUp_le hle h
  skips result h := by
    have hleast := isLeast_of_alignUp_eq_ok h
    exact ⟨UInt32.le_iff_toNat_le.2 hleast.1.2,
      lt_add_of_isLeast (ne_zero_of_alignUp_eq_ok h) hleast⟩

/-- The last word is a multiple of three, and nothing above it is a word. -/
example : alignUp 0xFFFFFFFE 3 = .ok 0xFFFFFFFF ∧ alignUp 0xFFFFFFFE 4 = .error .addOverflow := by
  decide

end UniformBlock
