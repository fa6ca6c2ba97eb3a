import UniformBlock.Proofs.Placement

/-!
# Uniforms by name

A block is addressed by name, and a name leads to the first uniform that has it.
Nothing keeps a source from declaring a name twice, so not every buffered uniform
is reached under its name (`Document.offsetOf?_ne_of_repeated`).

The first uniform of a name is reached, and at a slot that belongs to no other
uniform. Where a buffered uniform comes first, the later ones of its name are
not: their name leads to a slot in front of all of theirs
(`Document.addressed_of_scan`).
-/

namespace UniformBlock

namespace Block

variable {b : Block}

/-- The uniform at an index is the first one of the block with a name. -/
structure IsFirst (b : Block) (name : String) (i : Nat) (u : Uniform) : Prop where
  get?_eq : b.get? i = some u
  name_eq : u.name = name
  name_ne : ∀ j v, j < i → b.get? j = some v → v.name ≠ name

/-- A name is found where it stands first. -/
theorem IsFirst.find?_eq {name : String} {i : Nat} {u : Uniform} (h : b.IsFirst name i u) :
    b.find? name = some u := by
  obtain ⟨hi, hu⟩ := List.getElem?_eq_some_iff.1 h.get?_eq
  refine List.find?_eq_some_iff_getElem.2 ⟨beq_iff_eq.2 h.name_eq, i, hi, hu, fun j hj => ?_⟩
  have hne := h.name_ne j _ hj (List.getElem?_eq_getElem (hj.trans hi))
  rw [beq_eq_false_iff_ne.2 hne]
  rfl

theorem IsFirst.offsetOf?_eq {name : String} {i : Nat} {u : Uniform} (h : b.IsFirst name i u)
    (hs : u.isSampler = false) : b.offsetOf? name = some u.offset := by
  rw [offsetOf?, h.find?_eq, Option.filter_some, hs]
  rfl

/-- A first uniform stands in front of every other one with its name. -/
theorem IsFirst.lt_of_ne {name : String} {i j : Nat} {u v : Uniform} (h : b.IsFirst name i u)
    (hj : b.get? j = some v) (hname : v.name = name) (hne : i ≠ j) : i < j := by
  rcases Nat.lt_or_gt_of_ne hne with hlt | hgt
  · exact hlt
  · exact absurd hname (h.name_ne j v hgt hj)

/-- Which uniforms are reached under their names. -/
structure Addressed (b : Block) : Prop where
  /-- The first uniform of a name is, at a slot that no other uniform has. -/
  first : ∀ i u, b.IsFirst u.name i u → u.isSampler = false →
    b.offsetOf? u.name = some u.offset ∧ u.offset.toNat ∈ slotRange u ∧
      ∀ j v, b.get? j = some v → v.isSampler = false → u.offset.toNat ∈ slotRange v → j = i
  /-- Another one behind it is not: its name leads in front of its slots. -/
  repeated : ∀ i u j v, b.IsFirst v.name i u → b.get? j = some v → i ≠ j →
    u.isSampler = false → v.isSampler = false →
      b.offsetOf? v.name = some u.offset ∧ u.offset < v.offset ∧
        Disjoint (slotRange u) (slotRange v)

theorem WellLaid.addressed (hb : b.WellLaid) (hsize : b.size ≤ Limits.uniforms) :
    b.Addressed where
  first i u hu hs := by
    have hsafe := hb.safelyPlaced hsize
    have hmem : u ∈ b.uniforms := List.mem_of_getElem? hu.get?_eq
    have hown : u.offset.toNat ∈ slotRange u :=
      Set.left_mem_Ico.2 (Set.nonempty_Ico.1 (hsafe.nonempty u hmem hs))
    refine ⟨hu.offsetOf?_eq hs, hown, fun j v hj hv hshared => ?_⟩
    by_contra hne
    have hdisjoint := hsafe.disjoint j i v u hne hj hu.get?_eq hv hs
    exact Set.disjoint_left.1 hdisjoint hshared hown
  repeated i u j v hu hj hne hsu hsv := by
    have hlt := hu.lt_of_ne hj rfl hne
    have hstop := hb.laidOut.stop_le_of_lt hlt hu.get?_eq hj hsu hsv
    have hmem : u ∈ b.uniforms := List.mem_of_getElem? hu.get?_eq
    have hpos := Set.nonempty_Ico.1 ((hb.safelyPlaced hsize).nonempty u hmem hsu)
    exact ⟨hu.offsetOf?_eq hsu, UInt32.lt_iff_toNat_lt.2 (hpos.trans_le hstop),
      disjoint_slotRange hstop⟩

end Block

namespace Document

/-- Under its name, a buffered uniform of an accepted source is reached if it is
the first one of that name. -/
theorem addressed_of_scan {source : Source} {b : Block} (h : scan source = .ok ⟨b, none⟩) :
    b.Addressed := by
  obtain ⟨hlaid, -, hsize⟩ := spec_of_scan h
  exact hlaid.addressed hsize

/-- A name is declared for a number, a sampler and a vector. -/
theorem addressed_number :
    ∃ b : Block, scan (.ofString
        "uniform float a; uniform sampler2D a; uniform vec2 a; uniform vec2 b;") =
          .ok ⟨b, none⟩ ∧
      b.Addressed ∧ b.offsetOf? "a" = some 0 ∧ b.offsetOf? "b" = some 4 := by
  have hscan : scan (.ofString
      "uniform float a; uniform sampler2D a; uniform vec2 a; uniform vec2 b;") =
        .ok ⟨⟨[⟨"a", .float, Hint.all .zero, Hint.all .one, 0, 1, none, none⟩,
          ⟨"a", .sampler2D, Hint.all .zero, Hint.all .one, 0, 0, some 0, none⟩,
          ⟨"a", .vec2, Hint.all .zero, Hint.all .one, 2, 2, none, none⟩,
          ⟨"b", .vec2, Hint.all .zero, Hint.all .one, 4, 2, none, none⟩], 1⟩, none⟩ := by
    decide +kernel
  exact ⟨_, hscan, addressed_of_scan hscan, by decide, by decide⟩

/-- A source is accepted although it declares a name twice, and the second number
is not reached under its name. -/
theorem offsetOf?_ne_of_repeated :
    ∃ (b : Block) (u : Uniform), scan (.ofString "uniform float a; uniform float a;") =
        .ok ⟨b, none⟩ ∧
      u ∈ b.uniforms ∧ u.isSampler = false ∧ b.offsetOf? u.name ≠ some u.offset := by
  have hscan : scan (.ofString "uniform float a; uniform float a;") =
      .ok ⟨⟨[⟨"a", .float, Hint.all .zero, Hint.all .one, 0, 1, none, none⟩,
        ⟨"a", .float, Hint.all .zero, Hint.all .one, 1, 1, none, none⟩], 0⟩, none⟩ := by
    decide +kernel
  exact ⟨_, _, hscan, List.mem_cons_of_mem _ List.mem_cons_self, rfl, by decide⟩

end Document

end UniformBlock
