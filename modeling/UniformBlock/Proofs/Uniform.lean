import UniformBlock.Proofs.Decomposition

/-!
# The uniforms of an accepted source

Every uniform of an accepted source is well-formed: its name is a short word, the
components that its type does not have keep their defaults, only a sampler has a
file, and the file stands in the source between two quotes.

The metadata of a declaration start out as the defaults and are changed by one
argument after the other. `Metadata.Fits` is what every argument of the right
type keeps (`Metadata.Fits.apply`), so it holds behind the whole list, however
often and in whichever order the arguments occur.
-/

namespace UniformBlock

open Ascii Grammar

/-! ## Numbers -/

namespace Format

theorem round_le_infinity (f : Format) (num den : Nat) : f.round num den ≤ f.infinity :=
  Nat.min_le_right _ _

end Format

namespace Single

theorem isNaN_ofCode (negative : Bool) {code : Nat} (hcode : code ≤ Format.binary32.infinity) :
    (ofCode negative code).isNaN = false := by
  have hle : code ≤ 0x7F800000 := hcode
  have hbits : (ofCode negative code).code = code := by
    rw [Single.code, ofCode, UInt32.toNat_ofNat']
    cases negative
    · simp only [signBit, Bool.false_eq_true, if_false]
      omega
    · simp only [signBit, if_true]
      omega
  rw [isNaN, hbits, decide_eq_false_iff_not]
  exact Nat.not_lt.2 hcode

theorem isNaN_ofDigits (negative : Bool) (digits : List Nat) (magnitude : Int) :
    (ofDigits negative digits magnitude).isNaN = false := by
  unfold ofDigits
  split
  · exact isNaN_ofCode negative (Nat.zero_le _)
  · split
    · exact isNaN_ofCode negative le_rfl
    · exact isNaN_ofCode negative (Format.round_le_infinity _ _ _)

end Single

namespace Grammar

/-- A literal is a number, though possibly an infinite one. -/
theorem NumberText.isNaN {x : Single} {w : List UInt8} (h : NumberText x w) :
    x.isNaN = false := by
  obtain ⟨l, -, rfl, -⟩ := h
  exact Single.isNaN_ofDigits _ _ _

/-! ## Where the items of a list stand -/

variable {α : Type} {ItemText : α → List UInt8 → Prop}

theorem MoreText.exists_part {as : List α} {t : List UInt8} (h : MoreText ItemText as t) :
    ∀ a ∈ as, ∃ w, ItemText a w ∧ w <:+: t := by
  induction h with
  | close hb => simp
  | @item b c w t a as hb hc ha has ih =>
      have htail : t <:+: b ++ (comma :: (c ++ (w ++ t))) := ⟨b ++ comma :: (c ++ w), [], by simp⟩
      intro x hx
      rcases List.mem_cons.1 hx with rfl | hx
      · exact ⟨w, ha, b ++ comma :: c, t, by simp⟩
      · obtain ⟨v, hv, hpart⟩ := ih x hx
        exact ⟨v, hv, hpart.trans htail⟩

theorem ListText.exists_part {as : List α} {t : List UInt8} (h : ListText ItemText as t) :
    ∀ a ∈ as, ∃ w, ItemText a w ∧ w <:+: t := by
  cases h with
  | empty hb => simp
  | @items b w t a as hb ha has =>
      have htail : t <:+: openParen :: (b ++ (w ++ t)) := ⟨openParen :: (b ++ w), [], by simp⟩
      intro x hx
      rcases List.mem_cons.1 hx with rfl | hx
      · exact ⟨w, ha, openParen :: b, t, by simp⟩
      · obtain ⟨v, hv, hpart⟩ := has.exists_part x hx
        exact ⟨v, hv, hpart.trans htail⟩

/-- The values of a hint: as many as the type has components, and all of them
numbers. -/
theorem HintText.values {n : Nat} {xs : List Single} {w : List UInt8} (h : HintText n xs w) :
    xs.length = n ∧ ∀ x ∈ xs, x.isNaN = false := by
  cases h with
  | scalar hx => exact ⟨rfl, List.forall_mem_singleton.2 hx.isNaN⟩
  | tuple hn hlength hxs =>
      refine ⟨hlength, fun x hx => ?_⟩
      obtain ⟨v, hv, -⟩ := hxs.exists_part x hx
      exact hv.isNaN

end Grammar

/-! ## Hints and metadata -/

namespace Hint

@[simp] theorem get_all (x : Single) (i : Fin 4) : (all x).get i = x := by
  match i with
  | 0 => rfl
  | 1 => rfl
  | 2 => rfl
  | 3 => rfl

theorem get_overwrite (hint : Hint) (values : List Single) (i : Fin 4) :
    (hint.overwrite values).get i = (values[i]?).getD (hint.get i) :=
  Vector.getElem_ofFn i.isLt

/-- Two hints with the same components are the same. -/
theorem ext {hint other : Hint} (h : ∀ i, hint.get i = other.get i) : hint = other :=
  Vector.ext fun i hi => h ⟨i, hi⟩

/-- A hint as a type can have it: the components that the type does not have are
the given default, and all components are numbers. -/
structure Fits (type : UniformType) (default : Single) (hint : Hint) : Prop where
  padded : ∀ i : Fin 4, type.components?.getD 0 ≤ i → hint.get i = default
  numbers : ∀ i : Fin 4, (hint.get i).isNaN = false

variable {type : UniformType} {default : Single} {hint : Hint}

theorem fits_all (hdefault : default.isNaN = false) : Fits type default (all default) where
  padded i _ := get_all default i
  numbers i := by rw [get_all, hdefault]

theorem Fits.overwrite (hfits : Fits type default hint) {values : List Single}
    (hlength : type.components? = some values.length) (hvalues : ∀ x ∈ values, x.isNaN = false) :
    Fits type default (hint.overwrite values) where
  padded i hi := by
    -- the values end where the components do
    have hnone : values[i.val]? = none := by
      rw [hlength, Option.getD_some] at hi
      exact List.getElem?_eq_none hi
    rw [get_overwrite]
    exact hnone ▸ hfits.padded i hi
  numbers i := by
    rw [get_overwrite]
    cases hx : values[i]? with
    | none => exact hfits.numbers i
    | some x => exact hvalues x (List.mem_of_getElem? hx)

/-- A type without components takes no hints. -/
theorem Fits.eq_all (hfits : Fits type default hint) (htype : type.components? = none) :
    hint = all default := by
  refine ext fun i => ?_
  rw [get_all]
  exact hfits.padded i (by rw [htype]; exact Nat.zero_le _)

end Hint

namespace Metadata

/-- The metadata that a declaration of the given type can have if it stands in the
given text. -/
structure Fits (type : UniformType) (text : List UInt8) (m : Metadata) : Prop where
  mean : Hint.Fits type .zero m.mean
  scale : Hint.Fits type .one m.scale
  file : ∀ path, m.file = some path → type.isSampler = true ∧
    path.utf8ByteSize ≤ Limits.pathBytes ∧ ∃ w, QuotedText path w ∧ w <:+: text

variable {type : UniformType} {text t : List UInt8} {m : Metadata}

theorem fits_default : Fits type text default where
  mean := Hint.fits_all (by decide)
  scale := Hint.fits_all (by decide)
  file path hpath := by cases hpath

/-- What one argument does to metadata. -/
theorem Fits.apply (hm : m.Fits type text) {arg : Argument} (harg : ArgumentText type arg t)
    (ht : t <:+: text) : (arg.apply m).Fits type text := by
  cases harg with
  | mean hn hw _ =>
      obtain ⟨hlength, hnumbers⟩ := hw.values
      exact ⟨hm.mean.overwrite (hlength ▸ hn) hnumbers, hm.scale, hm.file⟩
  | scale hn hw _ =>
      obtain ⟨hlength, hnumbers⟩ := hw.values
      exact ⟨hm.mean, hm.scale.overwrite (hlength ▸ hn) hnumbers, hm.file⟩
  | @file path w _ htype hpath hw hassigned =>
      refine ⟨hm.mean, hm.scale, fun other hother => ?_⟩
      obtain rfl : path = other := Option.some.inj hother
      obtain ⟨b, c, -, -, rfl⟩ := hassigned
      have hpart : w <:+: Utf8.bytes "file" ++ (b ++ (equals :: (c ++ w))) :=
        ⟨Utf8.bytes "file" ++ (b ++ (equals :: c)), [], by simp⟩
      exact ⟨htype, hpath, w, hw, hpart.trans ht⟩

/-- What the arguments of a list make of the defaults. -/
theorem fits_foldl {args : List Argument} (hargs : ListText (ArgumentText type) args t)
    (ht : t <:+: text) : (args.foldl Argument.apply default).Fits type text := by
  refine List.foldlRecOn args Argument.apply fits_default fun m hm arg harg => ?_
  obtain ⟨w, hw, hpart⟩ := hargs.exists_part arg harg
  exact hm.apply hw (hpart.trans ht)

end Metadata

namespace Grammar

theorem MetadataText.fits {type : UniformType} {m : Metadata} {t text : List UInt8}
    (h : MetadataText type m t) (ht : t <:+: text) : m.Fits type text := by
  cases h with
  | none => exact Metadata.fits_default
  | @list args w b hw hb => exact Metadata.fits_foldl hw ((List.prefix_append w b).isInfix.trans ht)

theorem DeclarationText.fits {d : Declaration} {w text : List UInt8} (h : DeclarationText d w)
    (hw : w <:+: text) : NameText d.name ∧ d.metadata.Fits d.type text := by
  obtain @⟨type, name, m, b, c, e, t, -, -, -, -, hname, -, hm⟩ := h
  refine ⟨hname, hm.fits (List.IsInfix.trans ?_ hw)⟩
  exact ⟨b ++ (Utf8.bytes type.keyword ++ (c ++ (Utf8.bytes name ++ e))), [semicolon], by simp⟩

/-- Every declaration of a decomposition stands in the text that it passes. -/
theorem Decomposes.exists_part {before rest : List UInt8} {ds : List Declaration}
    (h : Decomposes before ds rest) : ∀ d ∈ ds, ∃ w, DeclarationText d w ∧ w <:+: before := by
  induction h with
  | start => simp
  | @piece before w rest ds hbefore hw ih =>
      intro d hd
      obtain ⟨v, hv, hpart⟩ := ih d hd
      exact ⟨v, hv, hpart.trans (List.prefix_append before w).isInfix⟩
  | @declaration before w rest ds d hbefore hw ih =>
      intro x hx
      rcases List.mem_append.1 hx with hx | hx
      · obtain ⟨v, hv, hpart⟩ := ih x hx
        exact ⟨v, hv, hpart.trans (List.prefix_append before _).isInfix⟩
      · obtain rfl := List.mem_singleton.1 hx
        exact ⟨w, hw, before ++ Utf8.bytes Document.declarationKeyword, [], by simp⟩

end Grammar

/-! ## Uniforms -/

namespace Uniform

/-- A uniform as an accepted source can declare it. -/
structure WellFormed (s : String) (u : Uniform) : Prop where
  name : NameText u.name
  padded : ∀ n, u.type.components? = some n → ∀ i : Fin 4, n ≤ i →
    u.mean.get i = .zero ∧ u.scale.get i = .one
  plain : u.type.isMatrix = true ∨ u.type.isSampler = true →
    u.mean = Hint.all .zero ∧ u.scale = Hint.all .one
  file : ∀ path, u.file = some path → u.type.isSampler = true ∧
    path.utf8ByteSize ≤ Limits.pathBytes ∧ ∃ w, QuotedText path w ∧ w <:+: Utf8.bytes s
  unit : u.unit.isSome = true ↔ u.type.isSampler = true
  numbers : ∀ i : Fin 4, (u.mean.get i).isNaN = false ∧ (u.scale.get i).isNaN = false

end Uniform

namespace Block

/-- Exactly the samplers have a texture unit. -/
theorem Placed.isSome_unit {us : List Uniform} {u : Uniform} (h : Placed us u) :
    u.unit.isSome = true ↔ u.type.isSampler = true := by
  cases h with
  | buffered layout hlayout hsize hoffset hunit =>
      have hsampler : u.type.isSampler = false := isSampler_eq_false_of_layout? hlayout
      rw [hunit, hsampler]
      simp
  | sampler hsampler hsize hoffset hunit =>
      have htype : u.type.isSampler = true := hsampler
      rw [htype, ← Option.isSome_map (f := UInt32.toNat), hunit]
      simp

end Block

namespace UniformType

theorem components?_eq_none {t : UniformType} (h : t.isMatrix = true ∨ t.isSampler = true) :
    t.components? = none := by
  cases t <;> simp_all [isMatrix, isSampler, components?]

end UniformType

namespace Document

/-- The decomposition of an accepted source declares its uniforms. -/
theorem decomposes_of_scan {s : String} {b : Block} (h : scan (.ofString s) = .ok ⟨b, none⟩) :
    Decomposes (Utf8.bytes s) (b.uniforms.map Uniform.declaration) [] := by
  have hnone := (scan_eq_ok_iff.1 h).2
  have hending : Ending (.ofString s) (read (.ofString s)) := ending_read (Utf8.isText_bytes s)
  rw [(spec_of_scan h).2.1]
  generalize read (.ofString s) = contents at hending hnone
  cases hending with
  | complete hd => exact hd
  | fault hd hh hk hstop hr => cases hnone

/-- Every uniform of an accepted source is well-formed. -/
theorem wellFormed_of_scan {s : String} {b : Block} (h : scan (.ofString s) = .ok ⟨b, none⟩) :
    ∀ u ∈ b.uniforms, u.WellFormed s := by
  intro u hu
  obtain ⟨w, hw, hpart⟩ := (decomposes_of_scan h).exists_part _ (List.mem_map_of_mem hu)
  obtain ⟨hname, hmean, hscale, hfile⟩ := hw.fits hpart
  obtain ⟨i, hi⟩ := List.mem_iff_getElem?.1 hu
  have hplaced := (spec_of_scan h).1.laidOut.placed hi
  refine ⟨hname, fun n hn i hni => ?_, fun htype => ?_, hfile, hplaced.isSome_unit,
    fun i => ⟨hmean.numbers i, hscale.numbers i⟩⟩
  · have hle : u.type.components?.getD 0 ≤ i := by
      rw [hn]
      exact hni
    exact ⟨hmean.padded i hle, hscale.padded i hle⟩
  · have hnone := UniformType.components?_eq_none htype
    exact ⟨hmean.eq_all hnone, hscale.eq_all hnone⟩

/-- The last of two files counts, and a later vector of two keeps two defaults of
each hint, although one of its numbers is infinite. -/
theorem wellFormed_repeated :
    ∃ (b : Block) (t v : Uniform), scan (.ofString
        "uniform sampler2D t (file='a', file=\"é'\"); uniform vec2 v (scale=(1e39, -0));") =
          .ok ⟨b, none⟩ ∧ b.uniforms = [t, v] ∧ t.file = some "é'" ∧
      v.scale = #v[⟨0x7F800000⟩, ⟨0x80000000⟩, .one, .one] ∧
      ∀ u ∈ [t, v], u.WellFormed
        "uniform sampler2D t (file='a', file=\"é'\"); uniform vec2 v (scale=(1e39, -0));" := by
  have hscan : scan (.ofString
      "uniform sampler2D t (file='a', file=\"é'\"); uniform vec2 v (scale=(1e39, -0));") =
        .ok ⟨⟨[⟨"t", .sampler2D, Hint.all .zero, Hint.all .one, 0, 0, some 0, some "é'"⟩,
          ⟨"v", .vec2, Hint.all .zero, #v[⟨0x7F800000⟩, ⟨0x80000000⟩, .one, .one], 0, 2, none,
            none⟩], 1⟩, none⟩ := by
    decide +kernel
  exact ⟨_, _, _, hscan, rfl, rfl, rfl, wellFormed_of_scan hscan⟩

end Document

end UniformBlock
