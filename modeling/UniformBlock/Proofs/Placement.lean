import Mathlib.Order.CompletePartialOrder
import Mathlib.Order.Interval.Set.Disjoint
import UniformBlock.Document
import UniformBlock.Proofs.Layout

/-!
# Placement in scanned sources

A source never has more declarations than a block may hold, so scanning it
always ends without an arithmetic fault, in a block that is laid out with one
uniform for each declaration (`scan_spec`). What is true of every block that is
laid out is therefore true of every source.

The slots of buffered uniforms come one after the other: a later uniform begins
at or behind the end of every earlier one. Disjointness of all pairs, the order
of the offsets and the bound by the size of the buffer all follow from that.
-/

namespace UniformBlock

namespace Declaration

/-- A declaration is only read while there is room for one more uniform. -/
theorem declared_lt_of_read {declared : Nat} {h k : Head} {d : Declaration}
    (hr : read declared h = (.ok d, k)) : declared < Limits.uniforms := by
  by_contra hfull
  rw [read, if_pos (not_lt.1 hfull)] at hr
  simp [Reading.fail] at hr

end Declaration

namespace Document

theorem length_readFrom_le (h : Head) (declared : Nat) (acc : List Declaration)
    (hacc : declared = acc.length) (hle : declared ≤ Limits.uniforms) :
    (readFrom h declared acc).declarations.length ≤ Limits.uniforms := by
  fun_induction readFrom h declared acc with
  | case1 h declared acc hend =>
      rw [List.length_reverse, ← hacc]
      exact hle
  | case2 h declared acc hend hk ih => exact ih hacc hle
  | case3 h declared acc hend k hk fault l hd =>
      rw [List.length_reverse, ← hacc]
      exact hle
  | case4 h declared acc hend k hk d l hd ih =>
      exact ih (by rw [hacc, List.length_cons]) (Declaration.declared_lt_of_read hd)

theorem length_declarations_le (source : Source) :
    (read source).declarations.length ≤ Limits.uniforms :=
  length_readFrom_le _ _ _ rfl (Nat.zero_le _)

/-- Scanning ends without an arithmetic fault. -/
theorem scan_spec (source : Source) :
    ∃ b : Block, scan source = .ok ⟨b, (read source).fault⟩ ∧ b.WellLaid ∧
      b.uniforms.map Uniform.declaration = (read source).declarations ∧
      b.size ≤ Limits.uniforms := by
  have hle := length_declarations_le source
  have hfew : 16 * (read source).declarations.length < UInt32.size := by
    simp only [Limits.uniforms] at hle
    simp only [UInt32.size]
    omega
  obtain ⟨b, hb, hlaid, hmap⟩ := Block.exists_ofDeclarations _ hfew
  refine ⟨b, ?_, hlaid, hmap, ?_⟩
  · simp only [scan, hb, bind, Except.bind]
    rfl
  · rw [Block.size, ← List.length_map (f := Uniform.declaration), hmap]
    exact hle

/-- What a scan answers: the block of the declarations that were read. -/
theorem scan_eq_ok_iff {source : Source} {b : Block} {fault : Option Fault} :
    scan source = .ok ⟨b, fault⟩ ↔
      Block.ofDeclarations (read source).declarations = .ok b ∧ (read source).fault = fault := by
  cases hb : Block.ofDeclarations (read source).declarations with
  | error e => simp [scan, hb, bind, Except.bind]
  | ok c => simp [scan, hb, bind, Except.bind, pure, Except.pure]

theorem spec_of_scan {source : Source} {b : Block} {fault : Option Fault}
    (h : scan source = .ok ⟨b, fault⟩) :
    b.WellLaid ∧ b.uniforms.map Uniform.declaration = (read source).declarations ∧
      b.size ≤ Limits.uniforms := by
  obtain ⟨c, hc, hspec⟩ := scan_spec source
  obtain rfl : c = b := congrArg Scan.block (Except.ok.inj (hc.symm.trans h))
  exact hspec

end Document

namespace Block

/-- The size of the buffer is the end of its last uniform. -/
theorem WellLaid.slots_eq {b : Block} (hb : b.WellLaid) (hsize : b.size ≤ Limits.uniforms) :
    ∃ slots, b.slots = .ok slots ∧ slots.toNat = bufferEnd b.uniforms := by
  have hfew : 16 * b.uniforms.length < UInt32.size := by
    simp only [size, Limits.uniforms] at hsize
    simp only [UInt32.size]
    omega
  exact hb.laidOut.slots_eq b.samplerCount hfew

/-- Buffered uniforms end at or before the end of the buffer. -/
theorem LaidOut.stop_le {us : List Uniform} (h : LaidOut us) {u : Uniform} (hu : u ∈ us)
    (hs : u.isSampler = false) : u.stop ≤ bufferEnd us := by
  induction h with
  | nil => cases hu
  | @snoc us v hus hv ih =>
      rcases List.mem_append.1 hu with hmem | hmem
      · cases hv with
        | buffered layout hlayout hsize hoffset hunit =>
            rw [bufferEnd_append_of_not_isSampler us (isSampler_eq_false_of_layout? hlayout)]
            exact (ih hmem).trans (hoffset.1.2.trans (Nat.le_add_right _ _))
        | sampler hsampler hsize hoffset hunit =>
            rw [bufferEnd_append_of_isSampler us hsampler]
            exact ih hmem
      · obtain rfl := List.mem_singleton.1 hmem
        rw [bufferEnd_append_of_not_isSampler us hs]

/-- A later buffered uniform begins at or behind the end of every earlier one. -/
theorem LaidOut.pairwise_stop_le {us : List Uniform} (h : LaidOut us) :
    us.Pairwise fun u v =>
      u.isSampler = false → v.isSampler = false → u.stop ≤ v.offset.toNat := by
  induction h with
  | nil => exact .nil
  | @snoc us v hus hv ih =>
      refine List.pairwise_append.2 ⟨ih, List.pairwise_singleton _ _, ?_⟩
      intro u hu w hw hsu hsw
      obtain rfl := List.mem_singleton.1 hw
      cases hv with
      | buffered layout hlayout hsize hoffset hunit =>
          exact (hus.stop_le hu hsu).trans hoffset.1.2
      | sampler hsampler hsize hoffset hunit =>
          rw [hsampler] at hsw
          cases hsw

/-- The offsets of all uniforms, samplers included, come in order. A sampler
repeats the offset before it, which is the largest so far. -/
theorem LaidOut.pairwise_offset_le {us : List Uniform} (h : LaidOut us) :
    us.Pairwise (fun u v => u.offset ≤ v.offset) ∧ ∀ u ∈ us, u.offset ≤ lastOffset us := by
  induction h with
  | nil => exact ⟨.nil, fun u hu => by cases hu⟩
  | @snoc us v hus hv ih =>
      have hlast : lastOffset us ≤ v.offset := by
        cases hv with
        | buffered layout hlayout hsize hoffset hunit =>
            exact UInt32.le_iff_toNat_le.2 (hus.lastOffset_le.trans hoffset.1.2)
        | sampler hsampler hsize hoffset hunit =>
            rw [hoffset]
            exact UInt32.le_refl _
      have hbefore : ∀ u ∈ us, u.offset ≤ v.offset := fun u hu =>
        UInt32.le_trans (ih.2 u hu) hlast
      constructor
      · refine List.pairwise_append.2 ⟨ih.1, List.pairwise_singleton _ _, ?_⟩
        intro u hu w hw
        obtain rfl := List.mem_singleton.1 hw
        exact hbefore u hu
      · intro u hu
        rw [lastOffset_append]
        rcases List.mem_append.1 hu with hmem | hmem
        · exact hbefore u hmem
        · rw [List.mem_singleton.1 hmem]
          exact UInt32.le_refl _

/-- The layout a buffered uniform was placed by. -/
theorem LaidOut.exists_layout {us : List Uniform} (h : LaidOut us) {u : Uniform} (hu : u ∈ us)
    (hs : u.isSampler = false) :
    ∃ layout, u.type.layout? = some layout ∧ u.size = layout.size ∧
      layout.alignment.toNat ∣ u.offset.toNat := by
  obtain ⟨i, hi⟩ := List.mem_iff_getElem?.1 hu
  cases h.placed hi with
  | buffered layout hlayout hsize hoffset hunit => exact ⟨layout, hlayout, hsize, hoffset.1.1⟩
  | sampler hsampler hsize hoffset hunit =>
      rw [hsampler] at hs
      cases hs

/-- Every uniform of the block stands at its exact place, and the two totals of
the block are the exact ones. -/
structure ExactlyPlaced (b : Block) : Prop where
  buffered : ∀ (i : Nat) (u : Uniform) (layout : Layout), b.uniforms[i]? = some u →
    u.type.layout? = some layout →
      u.size = layout.size ∧ u.unit = none ∧
        IsLeast {n | layout.alignment.toNat ∣ n ∧ bufferEnd (b.uniforms.take i) ≤ n}
          u.offset.toNat
  sampler : ∀ (i : Nat) (u : Uniform), b.uniforms[i]? = some u → u.isSampler = true →
    u.size = 0 ∧ u.offset = lastOffset (b.uniforms.take i) ∧
      u.unit.map UInt32.toNat = some ((b.uniforms.take i).countP (·.isSampler))
  samplerCount : b.samplerCount.toNat = b.samplers.length
  slots : ∃ slots, b.slots = .ok slots ∧ slots.toNat = bufferEnd b.uniforms

def slotRange (u : Uniform) : Set Nat := Set.Ico u.offset.toNat u.stop

theorem disjoint_slotRange {u v : Uniform} (h : u.stop ≤ v.offset.toNat) :
    Disjoint (slotRange u) (slotRange v) :=
  Set.Ico_disjoint_Ico.2 (((min_le_left _ _).trans h).trans (le_max_right _ _))

/-- Writing each buffered uniform into its slots touches no other uniform and
stays inside the buffer. A row has four slots. -/
structure SafelyPlaced (b : Block) : Prop where
  disjoint : ∀ (i j : Nat) (u v : Uniform), i ≠ j → b.uniforms[i]? = some u →
    b.uniforms[j]? = some v → u.isSampler = false → v.isSampler = false →
      Disjoint (slotRange u) (slotRange v)
  nonempty : ∀ u ∈ b.uniforms, u.isSampler = false → (slotRange u).Nonempty
  inside : ∃ slots, b.slots = .ok slots ∧
    ∀ u ∈ b.uniforms, u.isSampler = false → slotRange u ⊆ Set.Ico 0 slots.toNat
  row : ∀ u ∈ b.uniforms, u.type.components?.isSome = true →
    u.offset.toNat / 4 = (u.stop - 1) / 4
  matrix : ∀ u ∈ b.uniforms, u.type.isMatrix = true → 4 ∣ u.offset.toNat
  ordered : ∀ (i j : Nat) (u v : Uniform), i ≤ j → b.uniforms[i]? = some u →
    b.uniforms[j]? = some v → u.offset ≤ v.offset

theorem LaidOut.stop_le_of_lt {us : List Uniform} (h : LaidOut us) {i j : Nat} {u v : Uniform}
    (hij : i < j) (hi : us[i]? = some u) (hj : us[j]? = some v) (hu : u.isSampler = false)
    (hv : v.isSampler = false) : u.stop ≤ v.offset.toNat := by
  obtain ⟨hilt, rfl⟩ := List.getElem?_eq_some_iff.1 hi
  obtain ⟨hjlt, rfl⟩ := List.getElem?_eq_some_iff.1 hj
  exact List.pairwise_iff_getElem.1 h.pairwise_stop_le i j hilt hjlt hij hu hv

theorem WellLaid.exactlyPlaced {b : Block} (hb : b.WellLaid)
    (hsize : b.size ≤ Limits.uniforms) : b.ExactlyPlaced where
  buffered i u layout hi hlayout := by
    cases hb.laidOut.placed hi with
    | buffered layout' hlayout' hsize hoffset hunit =>
        obtain rfl : layout' = layout := Option.some.inj (hlayout'.symm.trans hlayout)
        exact ⟨hsize, hunit, hoffset⟩
    | sampler hsampler hsize hoffset hunit =>
        rw [isSampler_eq_false_of_layout? hlayout] at hsampler
        cases hsampler
  sampler i u hi hs := by
    cases hb.laidOut.placed hi with
    | buffered layout hlayout hsize hoffset hunit =>
        rw [isSampler_eq_false_of_layout? hlayout] at hs
        cases hs
    | sampler hsampler hsize hoffset hunit => exact ⟨hsize, hoffset, hunit⟩
  samplerCount := by
    rw [hb.samplerCount_eq, samplers, List.countP_eq_length_filter]
  slots := hb.slots_eq hsize

theorem WellLaid.safelyPlaced {b : Block} (hb : b.WellLaid)
    (hsize : b.size ≤ Limits.uniforms) : b.SafelyPlaced where
  disjoint i j u v hne hi hj hu hv := by
    rcases Nat.lt_or_gt_of_ne hne with hlt | hgt
    · exact disjoint_slotRange (hb.laidOut.stop_le_of_lt hlt hi hj hu hv)
    · exact (disjoint_slotRange (hb.laidOut.stop_le_of_lt hgt hj hi hv hu)).symm
  nonempty u hu hs := by
    obtain ⟨layout, hlayout, hsize, -⟩ := hb.laidOut.exists_layout hu hs
    have hpos := (UniformType.layout?_bounds hlayout).1
    refine Set.nonempty_Ico.2 ?_
    rw [Uniform.stop, hsize]
    omega
  inside := by
    obtain ⟨slots, hslots, hend⟩ := hb.slots_eq hsize
    refine ⟨slots, hslots, fun u hu hs => ?_⟩
    rw [hend]
    exact Set.Ico_subset_Ico (Nat.zero_le _) (hb.laidOut.stop_le hu hs)
  row u hu hc := by
    have hs : u.isSampler = false := by
      rw [Uniform.isSampler]
      cases htype : u.type <;> simp_all [UniformType.components?, UniformType.isSampler]
    obtain ⟨layout, hlayout, hsize, hdvd⟩ := hb.laidOut.exists_layout hu hs
    rw [Uniform.stop, hsize]
    exact UniformType.row_of_components? hlayout hc hdvd
  matrix u hu hm := by
    have hs : u.isSampler = false := by
      rw [Uniform.isSampler]
      cases htype : u.type <;> simp_all [UniformType.isMatrix, UniformType.isSampler]
    obtain ⟨layout, hlayout, -, hdvd⟩ := hb.laidOut.exists_layout hu hs
    rw [UniformType.alignment_of_isMatrix hlayout hm] at hdvd
    exact hdvd
  ordered i j u v hij hi hj := by
    rcases Nat.lt_or_eq_of_le hij with hlt | rfl
    · obtain ⟨hilt, rfl⟩ := List.getElem?_eq_some_iff.1 hi
      obtain ⟨hjlt, rfl⟩ := List.getElem?_eq_some_iff.1 hj
      exact List.pairwise_iff_getElem.1 hb.laidOut.pairwise_offset_le.1 i j hilt hjlt hlt
    · obtain rfl : u = v := Option.some.inj (hi.symm.trans hj)
      exact UInt32.le_refl _

end Block

namespace Document

/-- The uniforms of an accepted source stand at their exact places. -/
theorem exactlyPlaced_of_scan {source : Source} {b : Block}
    (h : scan source = .ok ⟨b, none⟩) : b.ExactlyPlaced := by
  obtain ⟨hlaid, -, hsize⟩ := spec_of_scan h
  exact hlaid.exactlyPlaced hsize

/-- A vector of three begins a new row behind a sampler that repeats the offset
of the number before it, and a further number fills the row. -/
theorem exactlyPlaced_row :
    ∃ b : Block, scan (Source.ofString
        "uniform float x; uniform sampler2D t; uniform vec3 v; uniform int y;") =
          .ok ⟨b, none⟩ ∧
      b.uniforms.map (·.offset) = [0, 0, 4, 7] ∧ b.ExactlyPlaced := by
  have hscan : scan (Source.ofString
      "uniform float x; uniform sampler2D t; uniform vec3 v; uniform int y;") =
        .ok ⟨⟨[⟨"x", .float, Hint.all .zero, Hint.all .one, 0, 1, none, none⟩,
          ⟨"t", .sampler2D, Hint.all .zero, Hint.all .one, 0, 0, some 0, none⟩,
          ⟨"v", .vec3, Hint.all .zero, Hint.all .one, 4, 3, none, none⟩,
          ⟨"y", .int, Hint.all .zero, Hint.all .one, 7, 1, none, none⟩], 1⟩, none⟩ := by
    decide +kernel
  exact ⟨_, hscan, rfl, exactlyPlaced_of_scan hscan⟩

/-- The uniforms of an accepted source can be written without touching one
another. -/
theorem safelyPlaced_of_scan {source : Source} {b : Block}
    (h : scan source = .ok ⟨b, none⟩) : b.SafelyPlaced := by
  obtain ⟨hlaid, -, hsize⟩ := spec_of_scan h
  exact hlaid.safelyPlaced hsize

/-- A matrix begins on a row of its own although the row before it is not full. -/
theorem safelyPlaced_matrix :
    ∃ b : Block, scan (Source.ofString
        "uniform vec2 v; uniform mat2 m; uniform sampler1D t;") = .ok ⟨b, none⟩ ∧
      b.uniforms.map (·.offset) = [0, 4, 4] ∧ b.SafelyPlaced := by
  have hscan : scan (Source.ofString
      "uniform vec2 v; uniform mat2 m; uniform sampler1D t;") =
        .ok ⟨⟨[⟨"v", .vec2, Hint.all .zero, Hint.all .one, 0, 2, none, none⟩,
          ⟨"m", .mat2, Hint.all .zero, Hint.all .one, 4, 8, none, none⟩,
          ⟨"t", .sampler1D, Hint.all .zero, Hint.all .one, 4, 0, some 0, none⟩], 1⟩,
          none⟩ := by
    decide +kernel
  exact ⟨_, hscan, rfl, safelyPlaced_of_scan hscan⟩

end Document

end UniformBlock
