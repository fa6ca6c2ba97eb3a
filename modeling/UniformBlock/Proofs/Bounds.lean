import UniformBlock.Proofs.Placement

/-!
# Arithmetic on the blocks of a scan

Scanning a source builds one block after the other, each with one uniform more
than the one before. None of them has more uniforms than a block may hold, and a
buffer never has more than sixteen slots for each uniform: sixteen is a multiple
of every alignment, so the padding in front of a uniform is paid for by what the
uniforms before it have left over. All words that are computed on such a block
are therefore small, and no operation on it has an arithmetic fault
(`Block.Faultless`).
-/

namespace UniformBlock

namespace Block

/-- No operation on the block has an arithmetic fault, whatever is placed or
added next, and its sizes are bounded. -/
structure Faultless (b : Block) : Prop where
  size_le : b.size ≤ Limits.uniforms
  slotEnd : ∀ u ∈ b.uniforms, ∃ slotEnd, u.slotEnd = .ok slotEnd
  slots : ∃ slots, b.slots = .ok slots ∧ slots.toNat ≤ 16 * b.size ∧ slots.toNat ≤ 2048
  bytes : ∃ bytes, b.bytes = .ok bytes ∧ bytes.toNat ≤ 8192
  place : ∀ type, ∃ place, b.place type = .ok place
  push : ∀ u, ∃ c, b.push u = .ok c

/-- Samplers end at or before the end of the buffer as well, because they repeat
an offset and take no slots. -/
theorem LaidOut.stop_le_bufferEnd {us : List Uniform} (h : LaidOut us) {u : Uniform}
    (hu : u ∈ us) : u.stop ≤ bufferEnd us := by
  cases hs : u.isSampler with
  | false => exact h.stop_le hu hs
  | true =>
      obtain ⟨i, hi⟩ := List.mem_iff_getElem?.1 hu
      cases h.placed hi with
      | buffered layout hlayout hsize hoffset hunit =>
          rw [isSampler_eq_false_of_layout? hlayout] at hs
          cases hs
      | sampler hsampler hsize hoffset hunit =>
          have hlast := UInt32.le_iff_toNat_le.1 (h.pairwise_offset_le.2 u hu)
          rw [Uniform.stop, hsize]
          exact hlast.trans h.lastOffset_le

/-- What has a place for every declaration has a place for every type. -/
theorem exists_place_of_uniformOf {b : Block} (type : UniformType)
    (h : ∀ d : Declaration, ∃ u, b.uniformOf d = .ok u) : ∃ place, b.place type = .ok place := by
  obtain ⟨u, hu⟩ := h ⟨type, "", .default⟩
  cases hplace : b.place type with
  | ok place => exact ⟨place, rfl⟩
  | error fault => simp [uniformOf, hplace, bind, Except.bind] at hu

theorem WellLaid.samplerCount_le {b : Block} (hb : b.WellLaid) :
    b.samplerCount.toNat ≤ b.size := by
  rw [hb.samplerCount_eq]
  exact List.countP_le_length

/-- Adding a uniform only counts it, so it need not stand at its place. -/
theorem WellLaid.exists_push {b : Block} (hb : b.WellLaid) (hsize : b.size ≤ Limits.uniforms)
    (u : Uniform) : ∃ c, b.push u = .ok c := by
  have hcount := hb.samplerCount_le.trans hsize
  simp only [Limits.uniforms] at hcount
  have hadd : Word.add b.samplerCount 1 = .ok (b.samplerCount + 1) :=
    if_pos (by simp only [UInt32.size, UInt32.reduceToNat]; omega)
  unfold Block.push
  split
  · exact ⟨⟨b.uniforms ++ [u], b.samplerCount + 1⟩, by simp only [hadd, bind, Except.bind]; rfl⟩
  · exact ⟨⟨b.uniforms ++ [u], b.samplerCount⟩, rfl⟩

/-- A slot has four bytes, and the bytes of a buffer of bounded size fit a word. -/
theorem exists_bytes {b : Block} {slots : UInt32} (hslots : b.slots = .ok slots)
    (hle : slots.toNat ≤ 2048) : ∃ bytes, b.bytes = .ok bytes ∧ bytes.toNat ≤ 8192 := by
  have hfour : slotBytes.toNat = 4 := rfl
  have hword : (UInt32.ofNat (slots.toNat * 4)).toNat = slots.toNat * 4 :=
    UInt32.toNat_ofNat_of_lt' (by simp only [UInt32.size]; omega)
  have hmul : Word.mul slots slotBytes = .ok (UInt32.ofNat (slots.toNat * 4)) := by
    rw [Word.mul_eq_ok_iff, hword, hfour]
  refine ⟨UInt32.ofNat (slots.toNat * 4), ?_, by omega⟩
  simp only [bytes, hslots, bind, Except.bind, hmul]

/-- A block that is laid out within its capacity is far from every overflow. -/
theorem WellLaid.faultless {b : Block} (hb : b.WellLaid) (hsize : b.size ≤ Limits.uniforms) :
    b.Faultless := by
  have hbound : bufferEnd b.uniforms ≤ 16 * b.size := hb.laidOut.bufferEnd_le
  have hsmall : 16 * b.size ≤ 2048 := Nat.mul_le_mul_left 16 hsize
  have hfew : 16 * (b.size + 1) < UInt32.size := by
    simp only [UInt32.size]
    omega
  obtain ⟨slots, hslots, hend⟩ := hb.slots_eq hsize
  exact
    { size_le := hsize
      slotEnd := fun u hu => by
        have hstop := hb.laidOut.stop_le_bufferEnd hu
        refine ⟨UInt32.ofNat u.stop, ?_⟩
        rw [Uniform.slotEnd_eq_ok_iff, UInt32.toNat_ofNat_of_lt' (by omega)]
      slots := ⟨slots, hslots, by omega, by omega⟩
      bytes := exists_bytes hslots (by omega)
      place := fun type => exists_place_of_uniformOf type fun d =>
        (hb.uniformOf d hfew).imp fun _ hu => hu.1
      push := hb.exists_push hsize }

end Block

namespace Document

/-- Scanning a source has no arithmetic fault. The block after any number of its
declarations can be built, no operation on it has a fault either, and this holds
of the last one whether the source ends or a declaration is refused. -/
theorem faultless_scan (source : Source) :
    (∀ n, ∃ b, Block.ofDeclarations ((read source).declarations.take n) = .ok b ∧
        b.size = min n (read source).declarations.length ∧ b.Faultless) ∧
      ∃ b, scan source = .ok ⟨b, (read source).fault⟩ ∧ b.Faultless := by
  have hall := length_declarations_le source
  constructor
  · intro n
    have hle : ((read source).declarations.take n).length ≤ Limits.uniforms :=
      (List.length_take_le' n _).trans hall
    have hfew : 16 * ((read source).declarations.take n).length < UInt32.size := by
      simp only [Limits.uniforms] at hle
      simp only [UInt32.size]
      omega
    obtain ⟨b, hb, hlaid, hmap⟩ := Block.exists_ofDeclarations _ hfew
    have hsize : b.size = ((read source).declarations.take n).length := by
      rw [← hmap, List.length_map, Block.size]
    exact ⟨b, hb, hsize.trans List.length_take, hlaid.faultless (hsize.trans_le hle)⟩
  · obtain ⟨b, hb, hlaid, -, hsize⟩ := scan_spec source
    exact ⟨b, hb, hlaid.faultless hsize⟩

end Document

end UniformBlock
