import UniformBlock.Block.Json
import UniformBlock.Document
import UniformBlock.Proofs.Declaration
import UniformBlock.Proofs.Library

/-!
# Blocks are read back from their texts

A block is written as a document that was built, so every lawful library for JSON can
write it and reads the same document back (`read?_of_write?_eq`); what is left is to
decode it. Names, types, words and paths are always decoded to what they were. A number
that is finite is decoded to itself as far as the library does so; one that is not finite
was written as `null`, which no number is decoded from. Hence a block with an infinite
number is refused as a whole, and every other one is restored.

Decoders of lists work item by item: a list is restored if each item is
(`mapM_map_eq_some`), and refused if one of them is (`mapM_map_eq_none`).
-/

namespace UniformBlock

section Lists

variable {α β : Type} {encode : α → β} {decode : β → Option α} {as : List α}

theorem mapM_map_eq_none {a : α} (ha : a ∈ as) (h : decode (encode a) = none) :
    (as.map encode).mapM decode = none := by
  induction as with
  | nil => cases ha
  | cons b as ih =>
      rw [List.map_cons, List.mapM_cons]
      rcases List.mem_cons.1 ha with rfl | ha
      · rw [h]
        rfl
      · rw [ih ha]
        cases decode (encode b) <;> rfl

theorem all_zip_self {p : α → α → Bool} (h : ∀ a ∈ as, p a a = true) :
    (as.zip as).all (fun q => p q.1 q.2) = true := by
  induction as with
  | nil => rfl
  | cons a as ih =>
      rw [List.zip_cons_cons, List.all_cons, Bool.and_eq_true]
      exact ⟨h a List.mem_cons_self, ih fun b hb => h b (List.mem_cons_of_mem a hb)⟩

end Lists

variable {L : Json.Library}

namespace Json.Library

/-- The value of the member with a given name. -/
def member? (L : Library) (name : String) (d : L.Doc) : Option L.Doc :=
  (L.toMembers? d).bind fun fields => fields.lookup name

/-- The item with a given index. -/
def item? (L : Library) (i : Nat) (d : L.Doc) : Option L.Doc :=
  (L.toItems? d).bind fun items => items[i]?

theorem Lawful.member?_record (hL : L.Lawful) {fields : List (String × L.Doc)} {name : String}
    {value : L.Doc} (hnames : (fields.map (·.1)).Nodup) (hmem : (name, value) ∈ fields) :
    L.member? name (L.record fields) = some value := by
  rw [member?, hL.toMembers?_record hnames, Option.bind_some, lookup_eq_some_of_mem hnames hmem]

theorem Lawful.item?_array (hL : L.Lawful) (items : List L.Doc) (i : Nat) :
    L.item? i (L.array items) = items[i]? := by
  rw [item?, hL.toItems?_array, Option.bind_some]

/-- A number stands as `null` exactly if it is not finite. -/
theorem Lawful.single_eq_null_iff (hL : L.Lawful) {x : Single}
    (hx : x.isFinite = true → L.Restores x) : L.single x = L.null ↔ x.isFinite = false := by
  constructor
  · intro hnull
    by_contra hfinite
    have hrestores := hx (Bool.not_eq_false _ ▸ hfinite)
    rw [Restores, hnull, hL.toSingle?_null] at hrestores
    cases hrestores
  · exact hL.single_eq_null x

end Json.Library

open Json.Library

theorem UniformType.ofDoc?_text_keyword (hL : L.Lawful) (t : UniformType) :
    ofDoc? L (L.text t.keyword) = some t := by
  rw [ofDoc?, hL.toVariant?_text, Option.bind_some, ofKeyword?_keyword]

theorem Single.agrees_self {x : Single} (hx : x.isFinite = true) : x.agrees x = true := by
  have hnumber : x.isNaN = false := by
    simp only [isFinite, isNaN, decide_eq_true_eq, decide_eq_false_iff_not] at hx ⊢
    omega
  simp [agrees, hnumber]

namespace Hint

variable {hint : Hint}

theorem built_toDoc (hint : Hint) : L.Built (hint.toDoc L) := by
  refine .array fun d hd => ?_
  obtain ⟨x, -, rfl⟩ := List.mem_map.1 hd
  exact .single x

theorem ofDoc?_toDoc (hL : L.Lawful) (hrestores : ∀ x ∈ hint.toList, L.Restores x) :
    ofDoc? L (hint.toDoc L) = some hint := by
  have hvalues : (hint.toList.map L.single).mapM L.toSingle? = some hint.toList :=
    mapM_map_eq_some hrestores
  rw [toDoc, ofDoc?, hL.toItems?_array, Option.bind_some, hvalues]
  match hint with
  | ⟨⟨[a, b, c, d]⟩, _⟩ => rfl

theorem ofDoc?_toDoc_eq_none (hL : L.Lawful) {x : Single} (hx : x ∈ hint.toList)
    (hinf : x.isFinite = false) : ofDoc? L (hint.toDoc L) = none := by
  have hvalues : (hint.toList.map L.single).mapM L.toSingle? = none := by
    refine mapM_map_eq_none hx ?_
    rw [hL.single_eq_null x hinf, hL.toSingle?_null]
  rw [toDoc, ofDoc?, hL.toItems?_array, Option.bind_some, hvalues]

end Hint

namespace Uniform

variable {u : Uniform}

/-- The numbers of a uniform. -/
def numbers (u : Uniform) : List Single := u.mean.toList ++ u.scale.toList

theorem sublist_memberNames (u : Uniform) :
    ((u.fields L).map (·.1)).Sublist memberNames := by
  unfold fields memberNames
  cases u.unit <;> cases u.file <;> simp

theorem nodup_fields (u : Uniform) : ((u.fields L).map (·.1)).Nodup :=
  u.sublist_memberNames.nodup (by decide)

theorem lookup_fields {name : String} {value : L.Doc} (h : (name, value) ∈ u.fields L) :
    (u.fields L).lookup name = some value :=
  lookup_eq_some_of_mem u.nodup_fields h

theorem lookup_fields_unit (u : Uniform) :
    (u.fields L).lookup "assigned_tex_unit" = u.unit.map L.word := by
  cases hunit : u.unit with
  | none => exact lookup_eq_none_of_notMem (by simp [fields, hunit])
  | some n => exact lookup_fields (by simp [fields, hunit])

theorem lookup_fields_file (u : Uniform) :
    (u.fields L).lookup "file" = u.file.map L.text := by
  cases hfile : u.file with
  | none => exact lookup_eq_none_of_notMem (by simp [fields, hfile])
  | some path => exact lookup_fields (by simp [fields, hfile])

/-- Only the numbers of a uniform can fail to be decoded. -/
theorem ofDoc?_toDoc_eq (hL : L.Lawful) (u : Uniform) :
    ofDoc? L (u.toDoc L) = (do
      let mean ← Hint.ofDoc? L (u.mean.toDoc L)
      let scale ← Hint.ofDoc? L (u.scale.toDoc L)
      pure { u with mean, scale }) := by
  have hknown : ∀ f ∈ u.fields L, f.1 ∈ memberNames := fun f hf =>
    u.sublist_memberNames.subset (List.mem_map_of_mem hf)
  obtain ⟨member, hstructure, hmember⟩ := hL.toStructure?_record u.nodup_fields hknown
  have hfield {name : String} {value : L.Doc} (hname : name ∈ memberNames)
      (hmem : (name, value) ∈ u.fields L) : member name = some value :=
    (hmember name hname).trans (lookup_fields hmem)
  have hname : member "name" = some (L.text u.name) := hfield (by decide) (by simp [fields])
  have htype : member "type" = some (L.text u.type.keyword) :=
    hfield (by decide) (by simp [fields])
  have hmean : member "mean" = some (u.mean.toDoc L) := hfield (by decide) (by simp [fields])
  have hscale : member "scale" = some (u.scale.toDoc L) := hfield (by decide) (by simp [fields])
  have hoffset : member "std140_offset" = some (L.word u.offset) :=
    hfield (by decide) (by simp [fields])
  have hsize : member "std140_size" = some (L.word u.size) :=
    hfield (by decide) (by simp [fields])
  have hunit : L.optional? L.toWord? (member "assigned_tex_unit") = some u.unit := by
    rw [hmember _ (by decide), u.lookup_fields_unit]
    exact optional?_map hL.toWord?_word (fun n => hL.isNull_nat n.toNat) u.unit
  have hfile : L.optional? L.toText? (member "file") = some u.file := by
    rw [hmember _ (by decide), u.lookup_fields_file]
    exact optional?_map hL.toText?_text hL.isNull_text u.file
  rw [toDoc, ofDoc?, hstructure]
  simp only [Option.bind_eq_bind, Option.bind_some, hname, htype, hmean, hscale, hoffset, hsize,
    hunit, hfile, hL.toText?_text, hL.toWord?_word, UniformType.ofDoc?_text_keyword hL]

theorem ofDoc?_toDoc (hL : L.Lawful) (hrestores : ∀ x ∈ u.numbers, L.Restores x) :
    ofDoc? L (u.toDoc L) = some u := by
  have hmean : Hint.ofDoc? L (u.mean.toDoc L) = some u.mean :=
    Hint.ofDoc?_toDoc hL fun x hx => hrestores x (List.mem_append_left _ hx)
  have hscale : Hint.ofDoc? L (u.scale.toDoc L) = some u.scale :=
    Hint.ofDoc?_toDoc hL fun x hx => hrestores x (List.mem_append_right _ hx)
  rw [ofDoc?_toDoc_eq hL, hmean, hscale]
  rfl

theorem ofDoc?_toDoc_eq_none (hL : L.Lawful) {x : Single} (hx : x ∈ u.numbers)
    (hinf : x.isFinite = false) : ofDoc? L (u.toDoc L) = none := by
  rw [ofDoc?_toDoc_eq hL]
  rcases List.mem_append.1 hx with hx | hx
  · rw [Hint.ofDoc?_toDoc_eq_none hL hx hinf]
    rfl
  · rw [Hint.ofDoc?_toDoc_eq_none hL hx hinf]
    cases Hint.ofDoc? L (u.mean.toDoc L) <;> rfl

theorem built_toDoc (u : Uniform) : L.Built (u.toDoc L) := by
  refine .record u.nodup_fields ?_
  simp only [fields, List.forall_mem_append, List.forall_mem_cons, List.not_mem_nil,
    false_implies, implies_true, and_true, Option.mem_toList, Option.map_eq_some_iff]
  refine ⟨⟨⟨.text _, .text _, Hint.built_toDoc _, Hint.built_toDoc _, .word _, .word _⟩, ?_⟩, ?_⟩
  · rintro _ ⟨n, -, rfl⟩
    exact .word n
  · rintro _ ⟨path, -, rfl⟩
    exact .text path

theorem agrees_self (u : Uniform) (hfinite : ∀ x ∈ u.numbers, x.isFinite = true) :
    u.agrees u = true := by
  have hmean := all_zip_self fun x hx =>
    Single.agrees_self (hfinite x (List.mem_append_left u.scale.toList hx))
  have hscale := all_zip_self fun x hx =>
    Single.agrees_self (hfinite x (List.mem_append_right u.mean.toList hx))
  simp [agrees, hmean, hscale]

end Uniform

namespace Block

variable {b : Block} {s : String}

/-- The numbers of a block: the means and scales of its uniforms. -/
def numbers (b : Block) : List Single := b.uniforms.flatMap Uniform.numbers

theorem nodup_fields (b : Block) : ((b.fields L).map (·.1)).Nodup := by
  simp [fields]

theorem built_toDoc (b : Block) : L.Built (b.toDoc L) := by
  refine .record b.nodup_fields ?_
  simp only [fields, List.forall_mem_cons, List.not_mem_nil, false_implies, implies_true, and_true]
  refine ⟨.array fun d hd => ?_, .word _⟩
  obtain ⟨u, -, rfl⟩ := List.mem_map.1 hd
  exact u.built_toDoc

/-- Only the uniforms of a block can fail to be decoded. -/
theorem ofDoc?_toDoc_eq (hL : L.Lawful) (b : Block) :
    ofDoc? L (b.toDoc L) = ((b.uniforms.map (Uniform.toDoc L)).mapM (Uniform.ofDoc? L)).map
      (Block.mk · b.samplerCount) := by
  have hknown : ∀ f ∈ b.fields L, f.1 ∈ memberNames := by
    simp [fields, memberNames]
  obtain ⟨member, hstructure, hmember⟩ := hL.toStructure?_record b.nodup_fields hknown
  have huniforms : member "params" = some (L.array (b.uniforms.map (Uniform.toDoc L))) :=
    (hmember _ (by decide)).trans (lookup_eq_some_of_mem b.nodup_fields (by simp [fields]))
  have hcount : member "sampler_count" = some (L.word b.samplerCount) :=
    (hmember _ (by decide)).trans (lookup_eq_some_of_mem b.nodup_fields (by simp [fields]))
  rw [toDoc, ofDoc?, hstructure]
  simp only [Option.bind_eq_bind, Option.bind_some, huniforms, hcount, hL.toItems?_array,
    hL.toWord?_word]
  cases (b.uniforms.map (Uniform.toDoc L)).mapM (Uniform.ofDoc? L) <;> rfl

/-- What was written is read as the same document. -/
theorem read?_of_write?_eq (hL : L.Lawful) (hs : b.write? L = some s) :
    read? L s = ofDoc? L (b.toDoc L) := by
  rw [read?, hL.read?_of_write? b.built_toDoc hs, Option.bind_some]

theorem read?_eq_some (hL : L.Lawful) (hs : b.write? L = some s)
    (hrestores : ∀ x ∈ b.numbers, L.Restores x) : read? L s = some b := by
  have huniforms :
      (b.uniforms.map (Uniform.toDoc L)).mapM (Uniform.ofDoc? L) = some b.uniforms :=
    mapM_map_eq_some fun u hu =>
      Uniform.ofDoc?_toDoc hL fun x hx => hrestores x (List.mem_flatMap.2 ⟨u, hu, hx⟩)
  rw [read?_of_write?_eq hL hs, ofDoc?_toDoc_eq hL, huniforms]
  rfl

theorem read?_eq_none (hL : L.Lawful) (hs : b.write? L = some s) {x : Single}
    (hx : x ∈ b.numbers) (hinf : x.isFinite = false) : read? L s = none := by
  obtain ⟨u, hu, hx⟩ := List.mem_flatMap.1 hx
  rw [read?_of_write?_eq hL hs, ofDoc?_toDoc_eq hL,
    mapM_map_eq_none hu (Uniform.ofDoc?_toDoc_eq_none hL hx hinf)]
  rfl

/-- The value that stands in the document of a block for a number: the one with the
given index in the given hint of the given uniform. -/
def component? (L : Json.Library) (d : L.Doc) (i : Nat) (hint : String) (k : Nat) :
    Option L.Doc :=
  (L.member? "params" d).bind fun uniforms =>
    (L.item? i uniforms).bind fun u => (L.member? hint u).bind (L.item? k)

theorem component?_toDoc (hL : L.Lawful) {i : Nat} {u : Uniform} (hu : b.uniforms[i]? = some u)
    {name : String} {hint : Hint} (hhint : (name, hint.toDoc L) ∈ u.fields L) (k : Fin 4) :
    component? L (b.toDoc L) i name k = some (L.single hint[k]) := by
  have huniforms : L.member? "params" (b.toDoc L) =
      some (L.array (b.uniforms.map (Uniform.toDoc L))) :=
    hL.member?_record b.nodup_fields (by simp [fields])
  have hvalue : L.member? name (u.toDoc L) = some (hint.toDoc L) :=
    hL.member?_record u.nodup_fields hhint
  rw [component?, huniforms, Option.bind_some, hL.item?_array, List.getElem?_map, hu,
    Option.map_some, Option.bind_some, hvalue, Option.bind_some, Hint.toDoc, hL.item?_array,
    List.getElem?_map]
  simp

/-- Exactly the numbers that are not finite stand as `null` in the document. -/
def NullsIn (b : Block) (L : Json.Library) (d : L.Doc) : Prop :=
  ∀ (i : Nat) (u : Uniform), b.uniforms[i]? = some u → ∀ k : Fin 4,
    (component? L d i "mean" k = some L.null ↔ u.mean[k].isFinite = false) ∧
      (component? L d i "scale" k = some L.null ↔ u.scale[k].isFinite = false)

theorem nullsIn_toDoc (hL : L.Lawful)
    (hrestores : ∀ x ∈ b.numbers, x.isFinite = true → L.Restores x) :
    b.NullsIn L (b.toDoc L) := by
  intro i u hu k
  have hnumbers : ∀ x ∈ u.numbers, x.isFinite = true → L.Restores x := fun x hx =>
    hrestores x (List.mem_flatMap.2 ⟨u, List.mem_of_getElem? hu, hx⟩)
  have hmean : component? L (b.toDoc L) i "mean" k = some (L.single u.mean[k]) :=
    component?_toDoc hL hu (by simp [Uniform.fields]) k
  have hscale : component? L (b.toDoc L) i "scale" k = some (L.single u.scale[k]) :=
    component?_toDoc hL hu (by simp [Uniform.fields]) k
  rw [hmean, hscale, Option.some_inj, Option.some_inj]
  exact ⟨hL.single_eq_null_iff (hnumbers _ (List.mem_append_left _ (by simp))),
    hL.single_eq_null_iff (hnumbers _ (List.mem_append_right _ (by simp)))⟩

theorem agrees_self (hfinite : ∀ x ∈ b.numbers, x.isFinite = true) : b.agrees b = true := by
  rw [agrees, Bool.and_eq_true, Bool.and_eq_true]
  refine ⟨⟨beq_self_eq_true _, all_zip_self fun u hu => u.agrees_self fun x hx => ?_⟩,
    beq_self_eq_true _⟩
  exact hfinite x (List.mem_flatMap.2 ⟨u, hu, hx⟩)

/-- Let a library for JSON obey the laws, and let it decode the finite numbers of a block
to what they were. Then the block can be written. Reading the text gives an equal block
exactly if all its numbers are finite, and then it gives the block itself. Numbers that
are not finite are written as `null`, and the text is refused. -/
theorem restored_iff_isFinite (L : Json.Library) (hL : L.Lawful) (b : Block)
    (hrestores : ∀ x ∈ b.numbers, x.isFinite = true → L.Restores x) :
    ∃ s, b.write? L = some s ∧
      ((∃ c, read? L s = some c ∧ b.agrees c = true) ↔ ∀ x ∈ b.numbers, x.isFinite = true) ∧
      ((∀ x ∈ b.numbers, x.isFinite = true) → read? L s = some b) ∧
      (∀ x ∈ b.numbers, x.isFinite = false → read? L s = none) ∧
      ∃ d, L.read? s = some d ∧ b.NullsIn L d := by
  obtain ⟨s, hs, -⟩ := b.built_toDoc.writes hL
  have hback : (∀ x ∈ b.numbers, x.isFinite = true) → read? L s = some b :=
    fun hfinite => read?_eq_some hL hs fun x hx => hrestores x hx (hfinite x hx)
  refine ⟨s, hs, ⟨?_, ?_⟩, hback, fun x hx hinf => read?_eq_none hL hs hx hinf,
    b.toDoc L, hL.read?_of_write? b.built_toDoc hs, nullsIn_toDoc hL hrestores⟩
  · rintro ⟨c, hc, -⟩ x hx
    by_contra hinf
    rw [read?_eq_none hL hs hx (Bool.eq_false_iff.2 hinf)] at hc
    cases hc
  · intro hfinite
    exact ⟨b, hback hfinite, agrees_self hfinite⟩

/-- In the library of texts a path with characters that are escaped and a negative zero
come back; an infinite scale does not. -/
theorem restored_path :
    Json.standard.Lawful ∧ ∃ b c : Block,
      Document.scan (.ofString
        "uniform sampler2D t (file='\"\\\té'); uniform vec2 v (mean=(-0, 0.1));") = .ok ⟨b, none⟩ ∧
      (∃ s, b.write? Json.standard = some s ∧ read? Json.standard s = some b) ∧
      Document.scan (.ofString "uniform float x (scale=1e39);") = .ok ⟨c, none⟩ ∧
      ∃ s, c.write? Json.standard = some s ∧ read? Json.standard s = none := by
  have hb : Document.scan (.ofString
      "uniform sampler2D t (file='\"\\\té'); uniform vec2 v (mean=(-0, 0.1));") =
        .ok ⟨⟨[⟨"t", .sampler2D, Hint.all .zero, Hint.all .one, 0, 0, some 0, some "\"\\\té"⟩,
          ⟨"v", .vec2, #v[⟨0x80000000⟩, ⟨0x3DCCCCCD⟩, .zero, .zero], Hint.all .one, 0, 2, none,
            none⟩], 1⟩, none⟩ := by
    decide +kernel
  have hc : Document.scan (.ofString "uniform float x (scale=1e39);") =
      .ok ⟨⟨[⟨"x", .float, Hint.all .zero, #v[⟨0x7F800000⟩, .one, .one, .one], 0, 1, none, none⟩],
        0⟩, none⟩ := by
    decide +kernel
  obtain ⟨s, hs, -, hback, -⟩ := restored_iff_isFinite Json.standard Json.lawful_standard
    ⟨[⟨"t", .sampler2D, Hint.all .zero, Hint.all .one, 0, 0, some 0, some "\"\\\té"⟩,
      ⟨"v", .vec2, #v[⟨0x80000000⟩, ⟨0x3DCCCCCD⟩, .zero, .zero], Hint.all .one, 0, 2, none, none⟩],
      1⟩ (by decide +kernel)
  obtain ⟨t, ht, -, -, hrefused, -⟩ := restored_iff_isFinite Json.standard Json.lawful_standard
    ⟨[⟨"x", .float, Hint.all .zero, #v[⟨0x7F800000⟩, .one, .one, .one], 0, 1, none, none⟩], 0⟩
    (by decide +kernel)
  exact ⟨Json.lawful_standard, _, _, hb, ⟨s, hs, hback (by decide +kernel)⟩, hc,
    t, ht, hrefused ⟨0x7F800000⟩ (by decide +kernel) (by decide +kernel)⟩

end Block

end UniformBlock
