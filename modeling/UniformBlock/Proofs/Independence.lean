import Mathlib.Data.List.Basic
import UniformBlock.Proofs.Placement

/-!
# Samplers and buffered uniforms are placed independently

Where the buffered uniforms of a source lie depends on the sequence of their own
types only, and the texture units of its samplers only on how many samplers there
are. Two sources may therefore differ in everything else and still share the
buffer, or the texture units.

Two sources that agree on their buffered types declare them at different times.
Deleting the samplers from a list that is laid out leaves a list that is laid out
(`LaidOut.buffered`), although every sampler repeats an offset, and this brings
the two lists into step. Lists of buffered uniforms that are laid out and have
the same types are then compared uniform by uniform (`LaidOut.extents_eq`).
-/

namespace UniformBlock

namespace Uniform

/-- The place of a uniform in the buffer: its first slot and the number of its
slots. -/
def extent (u : Uniform) : UInt32 × UInt32 := (u.offset, u.size)

end Uniform

namespace Block

variable {us vs : List Uniform}

/-- The end of the buffer is read off the extents of the buffered uniforms. -/
theorem bufferEnd_congr (h : (us.filter (!·.isSampler)).map Uniform.extent =
    (vs.filter (!·.isSampler)).map Uniform.extent) : bufferEnd us = bufferEnd vs := by
  have hstop (ws : List Uniform) : bufferEnd ws =
      (((ws.filter (!·.isSampler)).map Uniform.extent).getLast?.map
        fun e => e.1.toNat + e.2.toNat).getD 0 := by
    rw [List.getLast?_map, Option.map_map]
    rfl
  rw [hstop us, hstop vs, h]

/-- Deleting the samplers moves no buffered uniform. -/
theorem LaidOut.buffered (h : LaidOut us) : LaidOut (us.filter (!·.isSampler)) := by
  induction h with
  | nil => exact .nil
  | @snoc us u hus hu ih =>
      rw [List.filter_append]
      cases hu with
      | buffered layout hlayout hsize hoffset hunit =>
          have hend : bufferEnd (us.filter (!·.isSampler)) = bufferEnd us :=
            bufferEnd_congr (by rw [List.filter_filter]; simp only [Bool.and_self])
          rw [List.filter_cons_of_pos (by simp [isSampler_eq_false_of_layout? hlayout]),
            List.filter_nil]
          exact .snoc ih (.buffered layout hlayout hsize (by rw [hend]; exact hoffset) hunit)
      | sampler hsampler hsize hoffset hunit =>
          rw [List.filter_cons_of_neg (by simp [hsampler]), List.filter_nil, List.append_nil]
          exact ih

/-- Behind the same extents, uniforms of one buffered type have one extent. -/
theorem Placed.extent_eq {u v : Uniform} (hu : Placed us u) (hv : Placed vs v)
    (hend : bufferEnd us = bufferEnd vs) (htype : u.type = v.type)
    (hs : u.isSampler = false) : u.extent = v.extent := by
  have hs' : v.isSampler = false := by
    rw [Uniform.isSampler, ← htype]
    exact hs
  cases hu with
  | sampler hsampler hsize hoffset hunit => rw [hs] at hsampler; cases hsampler
  | buffered layout hlayout hsize hoffset hunit =>
      cases hv with
      | sampler hsampler hsize hoffset hunit => rw [hs'] at hsampler; cases hsampler
      | buffered layout' hlayout' hsize' hoffset' hunit' =>
          obtain rfl : layout = layout' := by
            rw [htype, hlayout'] at hlayout
            exact (Option.some.inj hlayout).symm
          rw [hend] at hoffset
          have heq : u.offset = v.offset := UInt32.toNat_inj.1 (hoffset.unique hoffset')
          rw [Uniform.extent, Uniform.extent, heq, hsize, hsize']

/-- Lists of buffered uniforms that are laid out and have the same types lie in
the same places. -/
theorem LaidOut.extents_eq (hus : LaidOut us) (hvs : LaidOut vs)
    (hs : ∀ u ∈ us, u.isSampler = false) (htypes : us.map (·.type) = vs.map (·.type)) :
    us.map Uniform.extent = vs.map Uniform.extent := by
  -- on the first list; the second one has grown by as many uniforms
  induction hus generalizing vs with
  | nil =>
      obtain rfl : vs = [] := List.map_eq_nil_iff.1 htypes.symm
      rfl
  | @snoc us u hus hu ih =>
      cases hvs with
      | nil => simp at htypes
      | @snoc vs v hvs hv =>
          simp only [List.map_append, List.map_cons, List.map_nil] at htypes ⊢
          obtain ⟨hbefore, htype⟩ := List.append_inj' htypes rfl
          have hextents := ih hvs (fun w hw => hs w (List.mem_append_left _ hw)) hbefore
          have hend : bufferEnd us = bufferEnd vs := by
            have hall : ∀ w ∈ us, (!w.isSampler) = true := fun w hw => by
              rw [hs w (List.mem_append_left _ hw)]
              rfl
            have hall' : ∀ w ∈ vs, (!w.isSampler) = true := by
              intro w hw
              have hmem : w.type ∈ us.map (·.type) := hbefore ▸ List.mem_map_of_mem hw
              obtain ⟨x, hx, hxw⟩ := List.mem_map.1 hmem
              rw [Uniform.isSampler, ← hxw]
              exact hall x hx
            refine bufferEnd_congr ?_
            rw [List.filter_eq_self.2 hall, List.filter_eq_self.2 hall', hextents]
          rw [hextents, hu.extent_eq hv hend (List.cons.inj htype).1
            (hs u (List.mem_append_right _ List.mem_cons_self))]

/-- The texture units of the samplers are counted from zero. -/
theorem LaidOut.units_eq (h : LaidOut us) :
    (us.filter (·.isSampler)).map (·.unit.map UInt32.toNat) =
      (List.range (us.countP (·.isSampler))).map some := by
  induction h with
  | nil => rfl
  | @snoc us u hus hu ih =>
      rw [List.filter_append, List.map_append, ih, List.countP_append]
      cases hu with
      | buffered layout hlayout hsize hoffset hunit =>
          have hs := isSampler_eq_false_of_layout? hlayout
          simp [hs]
      | sampler hsampler hsize hoffset hunit =>
          simp [hsampler, hunit, List.range_succ]

theorem WellLaid.extents_eq {b c : Block} (hb : b.WellLaid) (hc : c.WellLaid)
    (htypes : b.buffered.map (·.type) = c.buffered.map (·.type)) :
    b.buffered.map Uniform.extent = c.buffered.map Uniform.extent := by
  refine hb.laidOut.buffered.extents_eq hc.laidOut.buffered (fun u hu => ?_) htypes
  simpa using (List.mem_filter.1 hu).2

theorem WellLaid.units_eq {b c : Block} (hb : b.WellLaid) (hc : c.WellLaid)
    (hcount : b.samplers.length = c.samplers.length) :
    b.samplers.map (·.unit) = c.samplers.map (·.unit) ∧ b.samplerCount = c.samplerCount := by
  have hcountP : b.uniforms.countP (·.isSampler) = c.uniforms.countP (·.isSampler) := by
    rw [List.countP_eq_length_filter, List.countP_eq_length_filter]
    exact hcount
  constructor
  · have hinj : Function.Injective (Option.map UInt32.toNat) :=
      Option.map_injective fun _ _ => UInt32.toNat_inj.1
    have hunits := hb.laidOut.units_eq
    rw [hcountP, ← hc.laidOut.units_eq] at hunits
    refine List.map_injective_iff.2 hinj ?_
    rw [List.map_map, List.map_map]
    exact hunits
  · rw [← UInt32.toNat_inj, hb.samplerCount_eq, hc.samplerCount_eq, hcountP]

end Block

namespace Document

def types (source : Source) : List UniformType := (read source).declarations.map (·.type)

/-- The uniforms of a block have the types that its source declares. -/
theorem map_type_of_scan {source : Source} {b : Block} {fault : Option Fault}
    (h : scan source = .ok ⟨b, fault⟩) : b.uniforms.map (·.type) = types source := by
  rw [types, ← (spec_of_scan h).2.1, List.map_map]
  rfl

theorem map_type_filter_of_scan {source : Source} {b : Block} {fault : Option Fault}
    (h : scan source = .ok ⟨b, fault⟩) (p : UniformType → Bool) :
    (b.uniforms.filter (p ·.type)).map (·.type) = (types source).filter p := by
  rw [← map_type_of_scan h, List.filter_map]
  rfl

/-- Accepted sources that declare the same buffered types in the same order have
the same buffer, and those that declare the same samplers in the same order have
the same texture units. -/
theorem independent_of_scan {source other : Source} {b c : Block}
    (hb : scan source = .ok ⟨b, none⟩) (hc : scan other = .ok ⟨c, none⟩) :
    ((types source).filter (!·.isSampler) = (types other).filter (!·.isSampler) →
      b.buffered.map Uniform.extent = c.buffered.map Uniform.extent ∧
        ∃ slots, b.slots = .ok slots ∧ c.slots = .ok slots) ∧
    ((types source).filter (·.isSampler) = (types other).filter (·.isSampler) →
      b.samplers.map (·.unit) = c.samplers.map (·.unit) ∧ b.samplerCount = c.samplerCount) := by
  obtain ⟨hblaid, -, hbsize⟩ := spec_of_scan hb
  obtain ⟨hclaid, -, hcsize⟩ := spec_of_scan hc
  constructor
  · intro htypes
    rw [← map_type_filter_of_scan hb, ← map_type_filter_of_scan hc] at htypes
    have hextents := hblaid.extents_eq hclaid htypes
    obtain ⟨slots, hslots, hend⟩ := hblaid.slots_eq hbsize
    obtain ⟨slots', hslots', hend'⟩ := hclaid.slots_eq hcsize
    obtain rfl : slots = slots' := by
      rw [← UInt32.toNat_inj, hend, hend']
      exact Block.bufferEnd_congr hextents
    exact ⟨hextents, slots, hslots, hslots'⟩
  · intro htypes
    rw [← map_type_filter_of_scan hb, ← map_type_filter_of_scan hc] at htypes
    refine hblaid.units_eq hclaid ?_
    have hlength := congrArg List.length htypes
    rw [List.length_map, List.length_map] at hlength
    exact hlength

/-- The second source has the samplers of the first one, interleaved in another
way, and other metadata; it has the same buffered types as well. -/
theorem independent_interleaved :
    ∃ b c : Block, scan (.ofString
        "uniform float x; uniform sampler2D s; uniform vec3 v; uniform sampler1D t;") =
          .ok ⟨b, none⟩ ∧
      scan (.ofString
        "uniform sampler2D a (file='f'); uniform sampler1D b; uniform float c; uniform vec3 d;") =
          .ok ⟨c, none⟩ ∧
      b.buffered.map Uniform.extent = c.buffered.map Uniform.extent ∧
      b.samplers.map (·.unit) = c.samplers.map (·.unit) ∧ b.uniforms ≠ c.uniforms := by
  have hb : scan (.ofString
      "uniform float x; uniform sampler2D s; uniform vec3 v; uniform sampler1D t;") =
        .ok ⟨⟨[⟨"x", .float, Hint.all .zero, Hint.all .one, 0, 1, none, none⟩,
          ⟨"s", .sampler2D, Hint.all .zero, Hint.all .one, 0, 0, some 0, none⟩,
          ⟨"v", .vec3, Hint.all .zero, Hint.all .one, 4, 3, none, none⟩,
          ⟨"t", .sampler1D, Hint.all .zero, Hint.all .one, 4, 0, some 1, none⟩], 2⟩, none⟩ := by
    decide +kernel
  have hc : scan (.ofString
      "uniform sampler2D a (file='f'); uniform sampler1D b; uniform float c; uniform vec3 d;") =
        .ok ⟨⟨[⟨"a", .sampler2D, Hint.all .zero, Hint.all .one, 0, 0, some 0, some "f"⟩,
          ⟨"b", .sampler1D, Hint.all .zero, Hint.all .one, 0, 0, some 1, none⟩,
          ⟨"c", .float, Hint.all .zero, Hint.all .one, 0, 1, none, none⟩,
          ⟨"d", .vec3, Hint.all .zero, Hint.all .one, 4, 3, none, none⟩], 2⟩, none⟩ := by
    decide +kernel
  have hall := independent_of_scan hb hc
  rw [← map_type_of_scan hb, ← map_type_of_scan hc] at hall
  exact ⟨_, _, hb, hc, (hall.1 (by decide)).1, (hall.2 (by decide)).1, by decide⟩

end Document

end UniformBlock
