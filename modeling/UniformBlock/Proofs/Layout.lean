import Mathlib.Data.List.Induction
import Mathlib.Order.Bounds.Basic
import UniformBlock.Block

/-!
# Blocks that are laid out

A list of uniforms is laid out when each of them stands where the ones before it
leave off. For a buffered uniform this is the least multiple of its alignment
that does not lie before the end of the last buffered uniform, whatever samplers
lie between; a sampler repeats the offset before it and takes the next texture
unit.

`Block.place` computes the end of the buffer as a maximum over the whole block.
On a block that is laid out the maximum is attained at the last buffered uniform
(`slots_eq_bufferEnd`), and this is what carries the induction: `declare` keeps
a block laid out, and no word overflows, because a uniform adds at most sixteen
slots to a buffer whose bound is already a multiple of every alignment.
-/

namespace UniformBlock

/-- Rounding up finds the least multiple that is not below the given number. -/
theorem isLeast_roundUp (offset : Nat) {alignment : Nat} (hpos : 0 < alignment) :
    IsLeast {n | alignment ∣ n ∧ offset ≤ n}
      (if offset % alignment = 0 then offset
        else offset + (alignment - offset % alignment)) := by
  have hlt : offset % alignment < alignment := Nat.mod_lt _ hpos
  have hdiv : alignment * (offset / alignment) + offset % alignment = offset :=
    Nat.div_add_mod offset alignment
  by_cases hzero : offset % alignment = 0
  · rw [if_pos hzero]
    exact ⟨⟨Nat.dvd_of_mod_eq_zero hzero, le_rfl⟩, fun n hn => hn.2⟩
  · rw [if_neg hzero]
    have hnext : offset + (alignment - offset % alignment) =
        alignment * (offset / alignment + 1) := by
      rw [Nat.mul_add, Nat.mul_one]
      omega
    refine ⟨⟨?_, Nat.le_add_right _ _⟩, ?_⟩
    · rw [hnext]
      exact Nat.dvd_mul_right _ _
    · rintro n ⟨⟨q, rfl⟩, hle⟩
      rw [hnext]
      refine Nat.mul_le_mul_left _ ?_
      -- a quotient that is not larger would put the multiple below `offset`
      by_contra hq
      have hmul : alignment * q ≤ alignment * (offset / alignment) :=
        Nat.mul_le_mul_left _ (by omega)
      omega

/-- Aligning succeeds with a word exactly when it is the least multiple, as a
natural number, of an alignment other than zero. -/
theorem alignUp_eq_ok_iff {offset alignment result : UInt32} :
    alignUp offset alignment = .ok result ↔
      0 < alignment.toNat ∧
        IsLeast {n | alignment.toNat ∣ n ∧ offset.toNat ≤ n} result.toNat := by
  by_cases hzero : alignment = 0
  · subst hzero
    constructor
    · intro h
      exact absurd h (by simp [alignUp, Word.rem, bind, Except.bind])
    · rintro ⟨hpos, -⟩
      exact absurd hpos (by simp)
  · have hpos : 0 < alignment.toNat :=
      Nat.pos_of_ne_zero fun h => hzero (UInt32.toNat_inj.1 h)
    have hleast := isLeast_roundUp offset.toNat hpos
    have hopen : alignUp offset alignment =
        if offset % alignment = 0 then pure offset
        else Word.add offset (alignment - offset % alignment) := by
      simp only [alignUp, Word.rem, if_neg hzero, bind, Except.bind]
    have hmod : (offset % alignment).toNat = offset.toNat % alignment.toNat :=
      UInt32.toNat_mod _ _
    have hiff : offset % alignment = 0 ↔ offset.toNat % alignment.toNat = 0 := by
      rw [← hmod, ← UInt32.toNat_inj]
      rfl
    rw [hopen]
    by_cases hexcess : offset.toNat % alignment.toNat = 0
    · rw [if_pos hexcess] at hleast
      rw [if_pos (hiff.2 hexcess)]
      constructor
      · intro h
        obtain rfl : offset = result := Except.ok.inj h
        exact ⟨hpos, hleast⟩
      · rintro ⟨-, hresult⟩
        rw [UInt32.toNat_inj.1 (hleast.unique hresult)]
        rfl
    · rw [if_neg hexcess] at hleast
      have hlt : offset.toNat % alignment.toNat < alignment.toNat := Nat.mod_lt _ hpos
      have hgap : (alignment - offset % alignment).toNat =
          alignment.toNat - offset.toNat % alignment.toNat := by
        rw [UInt32.toNat_sub_of_le _ _ (by rw [UInt32.le_iff_toNat_le, hmod]; omega), hmod]
      rw [if_neg (fun h => hexcess (hiff.1 h)), Word.add_eq_ok_iff, hgap]
      constructor
      · intro h
        rw [h]
        exact ⟨hpos, hleast⟩
      · rintro ⟨-, hresult⟩
        exact hresult.unique hleast

/-- Aligning succeeds below a multiple of the alignment that fits a word. -/
theorem exists_alignUp {offset alignment : UInt32} (bound : Nat)
    (hpos : 0 < alignment.toNat) (hle : offset.toNat ≤ bound) (hdvd : alignment.toNat ∣ bound)
    (hfits : bound < UInt32.size) :
    ∃ result, alignUp offset alignment = .ok result ∧
      IsLeast {n | alignment.toNat ∣ n ∧ offset.toNat ≤ n} result.toNat := by
  obtain ⟨least, hleast⟩ : ∃ n, IsLeast {n | alignment.toNat ∣ n ∧ offset.toNat ≤ n} n :=
    ⟨_, isLeast_roundUp offset.toNat hpos⟩
  have hword : (UInt32.ofNat least).toNat = least :=
    UInt32.toNat_ofNat_of_lt' (lt_of_le_of_lt (hleast.2 ⟨hdvd, hle⟩) hfits)
  have hresult : IsLeast {n | alignment.toNat ∣ n ∧ offset.toNat ≤ n}
      (UInt32.ofNat least).toNat := by
    rw [hword]
    exact hleast
  exact ⟨UInt32.ofNat least, alignUp_eq_ok_iff.2 ⟨hpos, hresult⟩, hresult⟩

namespace UniformType

/-- The layouts of the types: every size is positive and at most sixteen, and
every alignment divides sixteen. -/
theorem layout?_bounds {t : UniformType} {layout : Layout} (ht : t.layout? = some layout) :
    0 < layout.size.toNat ∧ layout.size.toNat ≤ 16 ∧
      0 < layout.alignment.toNat ∧ layout.alignment.toNat ∣ 16 := by
  cases t <;> simp only [layout?, Option.some.injEq, reduceCtorEq] at ht <;>
    (subst ht; decide)

/-- A scalar or a vector begins at a place from which it does not reach into the
next row. -/
theorem row_of_components? {t : UniformType} {layout : Layout} {n : Nat}
    (ht : t.layout? = some layout) (hc : t.components?.isSome = true)
    (hn : layout.alignment.toNat ∣ n) : n / 4 = (n + layout.size.toNat - 1) / 4 := by
  cases t <;> simp only [layout?, Option.some.injEq, reduceCtorEq] at ht <;>
    simp only [components?, Option.isSome_none, Bool.false_eq_true] at hc <;>
    (subst ht
     simp only [UInt32.reduceToNat] at hn ⊢
     omega)

theorem alignment_of_isMatrix {t : UniformType} {layout : Layout}
    (ht : t.layout? = some layout) (hm : t.isMatrix = true) : layout.alignment = 4 := by
  cases t <;> simp only [layout?, Option.some.injEq, reduceCtorEq] at ht <;>
    simp only [isMatrix, Bool.false_eq_true] at hm <;>
    (subst ht; rfl)

end UniformType

namespace Uniform

/-- The first slot after a uniform, as a natural number. -/
def stop (u : Uniform) : Nat := u.offset.toNat + u.size.toNat

/-- What a uniform was declared as, without its place. -/
def declaration (u : Uniform) : Declaration := ⟨u.type, u.name, ⟨u.mean, u.scale, u.file⟩⟩

theorem slotEnd_eq_ok_iff {u : Uniform} {slotEnd : UInt32} :
    u.slotEnd = .ok slotEnd ↔ slotEnd.toNat = u.stop :=
  Word.add_eq_ok_iff

end Uniform

namespace Block

/-- The first slot after the last buffered uniform of a list, zero if there is
none. -/
def bufferEnd (us : List Uniform) : Nat :=
  ((us.filter (!·.isSampler)).getLast?.map Uniform.stop).getD 0

/-- The offset of the last uniform of a list, zero if there is none. -/
def lastOffset (us : List Uniform) : UInt32 := (us.getLast?.map (·.offset)).getD 0

@[simp] theorem bufferEnd_nil : bufferEnd [] = 0 := rfl

@[simp] theorem lastOffset_nil : lastOffset [] = 0 := rfl

@[simp] theorem lastOffset_append (us : List Uniform) (u : Uniform) :
    lastOffset (us ++ [u]) = u.offset := by
  simp [lastOffset]

theorem bufferEnd_append_of_isSampler (us : List Uniform) {u : Uniform}
    (hu : u.isSampler = true) : bufferEnd (us ++ [u]) = bufferEnd us := by
  simp [bufferEnd, hu]

theorem bufferEnd_append_of_not_isSampler (us : List Uniform) {u : Uniform}
    (hu : u.isSampler = false) : bufferEnd (us ++ [u]) = u.stop := by
  simp [bufferEnd, hu]

/-- The uniform stands where the next one after a list of uniforms belongs. -/
inductive Placed (us : List Uniform) (u : Uniform) : Prop
  | buffered (layout : Layout) (hlayout : u.type.layout? = some layout)
      (hsize : u.size = layout.size)
      (hoffset : IsLeast {n | layout.alignment.toNat ∣ n ∧ bufferEnd us ≤ n} u.offset.toNat)
      (hunit : u.unit = none)
  | sampler (hsampler : u.isSampler = true) (hsize : u.size = 0)
      (hoffset : u.offset = lastOffset us)
      (hunit : u.unit.map UInt32.toNat = some (us.countP (·.isSampler)))

/-- Each uniform of the list stands where the ones before it leave off. -/
inductive LaidOut : List Uniform → Prop
  | nil : LaidOut []
  | snoc {us : List Uniform} {u : Uniform} (hus : LaidOut us) (hu : Placed us u) :
      LaidOut (us ++ [u])

theorem isSampler_eq_false_of_layout? {u : Uniform} {layout : Layout}
    (h : u.type.layout? = some layout) : u.isSampler = false := by
  rw [Uniform.isSampler, Bool.eq_false_iff]
  intro hs
  rw [UniformType.layout?_eq_none_iff.2 hs] at h
  cases h

/-- Placement, read at any index. -/
theorem LaidOut.placed {us : List Uniform} (h : LaidOut us) {i : Nat} {u : Uniform}
    (hi : us[i]? = some u) : Placed (us.take i) u := by
  induction h with
  | nil => simp at hi
  | @snoc us v hus hv ih =>
      rcases Nat.lt_trichotomy i us.length with hlt | heq | hgt
      · rw [List.getElem?_append_left hlt] at hi
        rw [List.take_append_of_le_length (le_of_lt hlt)]
        exact ih hi
      · subst heq
        obtain rfl : v = u := by simpa using hi
        simpa using hv
      · rw [List.getElem?_eq_none (by simp; omega)] at hi
        cases hi

/-- A uniform adds at most sixteen slots. The bound for the uniforms before it
is a multiple of every alignment, so rounding up does not leave it. -/
theorem LaidOut.bufferEnd_le {us : List Uniform} (h : LaidOut us) :
    bufferEnd us ≤ 16 * us.length := by
  induction h with
  | nil => simp
  | @snoc us u hus hu ih =>
      rw [List.length_append, List.length_singleton]
      cases hu with
      | buffered layout hlayout hsize hoffset hunit =>
          obtain ⟨-, hsixteen, -, halign⟩ := UniformType.layout?_bounds hlayout
          have hle : u.offset.toNat ≤ 16 * us.length :=
            hoffset.2 ⟨Nat.dvd_mul_right_of_dvd halign _, ih⟩
          rw [bufferEnd_append_of_not_isSampler us (isSampler_eq_false_of_layout? hlayout),
            Uniform.stop, hsize]
          omega
      | sampler hsampler hsize hoffset hunit =>
          rw [bufferEnd_append_of_isSampler us hsampler]
          omega

/-- No uniform begins after the end of the buffer so far. -/
theorem LaidOut.lastOffset_le {us : List Uniform} (h : LaidOut us) :
    (lastOffset us).toNat ≤ bufferEnd us := by
  induction h with
  | nil => simp
  | @snoc us u hus hu ih =>
      rw [lastOffset_append]
      cases hu with
      | buffered layout hlayout hsize hoffset hunit =>
          rw [bufferEnd_append_of_not_isSampler us (isSampler_eq_false_of_layout? hlayout)]
          exact Nat.le_add_right _ _
      | sampler hsampler hsize hoffset hunit =>
          rw [bufferEnd_append_of_isSampler us hsampler, hoffset]
          exact ih

/-- The maximum over all buffered uniforms is attained at the last one. The
bound on the number of uniforms keeps the last word from overflowing. -/
theorem LaidOut.slots_eq {us : List Uniform} (h : LaidOut us) (count : UInt32)
    (hfew : 16 * us.length < UInt32.size) :
    ∃ slots, Block.slots ⟨us, count⟩ = .ok slots ∧ slots.toNat = bufferEnd us := by
  induction h with
  | nil => exact ⟨0, rfl, rfl⟩
  | @snoc us u hus hu ih =>
      have hbound := (LaidOut.snoc hus hu).bufferEnd_le
      rw [List.length_append, List.length_singleton] at hfew hbound
      obtain ⟨most, hmost, hend⟩ := ih (by omega)
      have hfold : (us.filter (!·.isSampler)).foldlM (fun most u => do
          let slotEnd ← u.slotEnd
          pure (max most slotEnd)) 0 = (.ok most : Except ArithmeticFault UInt32) := hmost
      cases hu with
      | buffered layout hlayout hsize hoffset hunit =>
          have hu := isSampler_eq_false_of_layout? hlayout
          rw [bufferEnd_append_of_not_isSampler us hu] at hbound ⊢
          have hstop : u.slotEnd = .ok (UInt32.ofNat u.stop) := by
            rw [Uniform.slotEnd_eq_ok_iff, UInt32.toNat_ofNat_of_lt' (by omega)]
          -- the new uniform begins behind the end of all others
          have hle : most ≤ UInt32.ofNat u.stop := by
            rw [UInt32.le_iff_toNat_le, UInt32.toNat_ofNat_of_lt' (by omega), hend]
            exact le_trans hoffset.1.2 (Nat.le_add_right _ _)
          refine ⟨UInt32.ofNat u.stop, ?_, UInt32.toNat_ofNat_of_lt' (by omega)⟩
          have hmax : max most (UInt32.ofNat u.stop) = UInt32.ofNat u.stop := if_pos hle
          simp only [slots, buffered, List.filter_append, List.filter_cons, hu, Bool.not_false,
            if_true, List.filter_nil, List.foldlM_append, hfold]
          change (u.slotEnd >>= fun slotEnd => pure (max most slotEnd)) >>= _ = _
          rw [hstop]
          change Except.ok (max most (UInt32.ofNat u.stop)) = _
          rw [hmax]
      | sampler hsampler hsize hoffset hunit =>
          refine ⟨most, ?_, by rw [bufferEnd_append_of_isSampler us hsampler, hend]⟩
          simp only [slots, buffered, List.filter_append, List.filter_cons, hsampler,
            Bool.not_true, Bool.false_eq_true, if_false, List.filter_nil, List.append_nil]
          exact hfold

/-- A block whose uniforms are laid out and whose samplers are counted. -/
structure WellLaid (b : Block) : Prop where
  laidOut : LaidOut b.uniforms
  samplerCount_eq : b.samplerCount.toNat = b.uniforms.countP (·.isSampler)

theorem wellLaid_empty : WellLaid empty := ⟨.nil, rfl⟩

/-- The place of the next uniform is the one where it belongs. -/
theorem WellLaid.uniformOf {b : Block} (hb : WellLaid b) (d : Declaration)
    (hfew : 16 * (b.size + 1) < UInt32.size) :
    ∃ u, b.uniformOf d = .ok u ∧ Placed b.uniforms u ∧ u.declaration = d := by
  have hfew : 16 * (b.uniforms.length + 1) < UInt32.size := hfew
  cases hlayout : d.type.layout? with
  | some layout =>
      obtain ⟨slots, hslots, hend⟩ := hb.laidOut.slots_eq b.samplerCount (by omega)
      obtain ⟨-, -, hpos, halign⟩ := UniformType.layout?_bounds hlayout
      have hbound := hb.laidOut.bufferEnd_le
      obtain ⟨offset, hup, hleast⟩ := exists_alignUp (16 * b.uniforms.length) hpos
        (hend.trans_le hbound) (Nat.dvd_mul_right_of_dvd halign _) (by omega)
      refine ⟨⟨d.name, d.type, d.metadata.mean, d.metadata.scale, offset,
        layout.size, none, d.metadata.file⟩, ?_, ?_, rfl⟩
      · have hslots : b.slots = .ok slots := hslots
        simp only [Block.uniformOf, place, hlayout, hslots, bind, Except.bind, hup]
        rfl
      · refine .buffered layout hlayout rfl ?_ rfl
        rw [← hend]
        exact hleast
  | none =>
      have hsampler : d.type.isSampler = true := UniformType.layout?_eq_none_iff.1 hlayout
      refine ⟨⟨d.name, d.type, d.metadata.mean, d.metadata.scale, lastOffset b.uniforms, 0,
        some b.samplerCount, d.metadata.file⟩, ?_, ?_, rfl⟩
      · simp only [Block.uniformOf, place, hlayout]
        rfl
      · exact .sampler hsampler rfl rfl (by rw [Option.map_some, hb.samplerCount_eq])

/-- Adding a uniform at its place keeps a block laid out. -/
theorem WellLaid.push {b : Block} (hb : WellLaid b) {u : Uniform} (hu : Placed b.uniforms u)
    (hfew : 16 * (b.size + 1) < UInt32.size) :
    ∃ c, b.push u = .ok c ∧ WellLaid c ∧ c.uniforms = b.uniforms ++ [u] := by
  have hfew : 16 * (b.uniforms.length + 1) < UInt32.size := hfew
  have hlaid : LaidOut (b.uniforms ++ [u]) := .snoc hb.laidOut hu
  by_cases hs : u.isSampler = true
  · have hle := List.countP_le_length (p := (·.isSampler)) (l := b.uniforms)
    have hcount := hb.samplerCount_eq
    have hword : (UInt32.ofNat (b.samplerCount.toNat + 1)).toNat = b.samplerCount.toNat + 1 :=
      UInt32.toNat_ofNat_of_lt' (by omega)
    have hadd : Word.add b.samplerCount 1 = .ok (UInt32.ofNat (b.samplerCount.toNat + 1)) := by
      rw [Word.add_eq_ok_iff, hword]
      rfl
    refine ⟨⟨b.uniforms ++ [u], UInt32.ofNat (b.samplerCount.toNat + 1)⟩, ?_, ⟨hlaid, ?_⟩, rfl⟩
    · simp only [Block.push, if_pos hs, hadd, bind, Except.bind]
      rfl
    · rw [hword, List.countP_append, hcount]
      simp [hs]
  · refine ⟨⟨b.uniforms ++ [u], b.samplerCount⟩, ?_, ⟨hlaid, ?_⟩, rfl⟩
    · simp only [Block.push, if_neg hs]
      rfl
    · rw [List.countP_append, ← hb.samplerCount_eq]
      simp [hs]

/-- What one declaration does to a block that is laid out. -/
theorem WellLaid.declare {b : Block} (hb : WellLaid b) (d : Declaration)
    (hfew : 16 * (b.size + 1) < UInt32.size) :
    ∃ c, b.declare d = .ok c ∧ WellLaid c ∧
      c.uniforms.map Uniform.declaration = b.uniforms.map Uniform.declaration ++ [d] := by
  obtain ⟨u, hu, hplaced, hdecl⟩ := hb.uniformOf d hfew
  obtain ⟨c, hc, hlaid, hcons⟩ := hb.push hplaced hfew
  refine ⟨c, ?_, hlaid, by rw [hcons, List.map_append, List.map_singleton, hdecl]⟩
  simp only [Block.declare, hu, bind, Except.bind]
  exact hc

/-- Declarations whose places fit a word make up a block that is laid out, with
one uniform for each of them. -/
theorem exists_ofDeclarations (ds : List Declaration) (hfew : 16 * ds.length < UInt32.size) :
    ∃ b, ofDeclarations ds = .ok b ∧ WellLaid b ∧ b.uniforms.map Uniform.declaration = ds := by
  induction ds using List.reverseRecOn with
  | nil => exact ⟨empty, rfl, wellLaid_empty, rfl⟩
  | append_singleton ds d ih =>
      rw [List.length_append, List.length_singleton] at hfew
      obtain ⟨b, hb, hlaid, hmap⟩ := ih (by omega)
      have hsize : b.size = ds.length := by rw [← hmap, List.length_map, size]
      obtain ⟨c, hc, hlaid, hcons⟩ := hlaid.declare d (by omega)
      refine ⟨c, ?_, hlaid, by rw [hcons, hmap]⟩
      have hfold : ds.foldlM Block.declare empty = .ok b := hb
      simp only [ofDeclarations, List.foldlM_append, hfold, List.foldlM_cons, List.foldlM_nil]
      change (b.declare d >>= pure) = _
      rw [hc]
      rfl

end Block

end UniformBlock
