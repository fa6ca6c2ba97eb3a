import UniformBlock.Proofs.Decomposition

/-!
# The place of a fault

A document that is not accepted has one declaration to blame. The text before it
is accepted by itself, with the same block: the decomposition before the
declaration does not change when the text is cut off in front of it
(`Decomposes.of_prefix`), and reading follows the decomposition. The fault is the
one that reading the declaration alone reports, and it lies behind the word
`uniform`, on a character boundary.
-/

namespace UniformBlock

open Ascii Grammar

namespace Head

variable {h k : Head} {s : String}

theorem Reaches.source_eq (hk : h.Reaches k) : k.source = h.source := by
  obtain ⟨n, rfl⟩ := hk
  rfl

theorem Takes.pos_eq {w : List UInt8} (hw : h.Takes w k) : k.pos = h.pos + w.length := by
  have hlength := congrArg List.length hw.rest_eq
  rw [List.length_append, length_rest, length_rest, hw.reaches.source_eq] at hlength
  have hh := h.pos_le
  have hk := k.pos_le
  rw [hw.reaches.source_eq] at hk
  rw [hw.eq_skip]
  simp only [skip]
  omega

/-- A head in front of a text stands between two characters. -/
theorem isValid_pos (hsource : h.source = .ofString s) (htext : Utf8.IsText h.rest) :
    (⟨h.pos⟩ : String.Pos.Raw).IsValid s := by
  have hbytes : Utf8.bytes s = h.source.bytes.take h.pos ++ h.rest := by
    rw [h.rest_eq, List.take_append_drop, hsource]
    rfl
  have hall : Utf8.IsText (h.source.bytes.take h.pos ++ h.rest) := hbytes ▸ Utf8.isText_bytes s
  have hfront := (hall.split htext.startsChar).1
  have hlength : (h.source.bytes.take h.pos).length = h.pos := by
    rw [List.length_take, ← h.source.size_eq, Nat.min_eq_left h.pos_le]
  rw [String.Pos.Raw.isValid_iff_exists_append]
  refine ⟨Utf8.text (h.source.bytes.take h.pos), Utf8.text h.rest, ?_, ?_⟩
  · apply Utf8.bytes_injective
    rw [Utf8.bytes_append, Utf8.bytes_text hfront, Utf8.bytes_text htext, hbytes]
  · rw [String.Pos.Raw.ext_iff, String.byteIdx_rawEndPos, ← Utf8.length_bytes,
      Utf8.bytes_text hfront, hlength]

end Head

namespace Document

/-- The declaration behind `before` and the word `uniform` is to blame for a
fault, and everything in `before` has been read into the block. -/
structure Blames (s : String) (b : Block) (e : Fault) (before after : String) : Prop where
  text_eq : s = before ++ declarationKeyword ++ after
  word : Stops isWord (Utf8.bytes after)
  decomposes : ∃ ds, Decomposes (Utf8.bytes before) ds (Utf8.bytes (declarationKeyword ++ after))
  accepted : scan (.ofString before) = .ok ⟨b, none⟩
  refused : (Declaration.read b.size
    ((Head.start (.ofString s)).skip (before.utf8ByteSize + 7))).1 = .error e
  le_offset : before.utf8ByteSize + 7 ≤ e.offset
  offset_le : e.offset ≤ s.utf8ByteSize
  boundary : (⟨e.offset⟩ : String.Pos.Raw).IsValid s

/-- A text that is cut off where the decomposition has come to is accepted. -/
theorem scan_eq_ok_of_decomposes {s : String} {b : Block} {before rest : List UInt8}
    {ds : List Declaration} (hd : Decomposes before ds rest) (hs : Utf8.bytes s = before)
    (hfew : ds.length ≤ Limits.uniforms) (hb : Block.ofDeclarations ds = .ok b) :
    scan (.ofString s) = .ok ⟨b, none⟩ := by
  have hd' : Decomposes (Source.ofString s).bytes ds [] := by
    have hcut := hd.of_prefix List.nil_prefix
    rw [← hs] at hcut
    exact hcut
  rw [scan_eq_ok_iff, read_eq_of_decomposes hd' hfew]
  exact ⟨hb, rfl⟩

theorem blames_of_read {s : String} {b : Block} {e : Fault} {before : List UInt8}
    {ds : List Declaration} {h k l : Head} (hd : Decomposes before ds h.rest)
    (hh : (Head.start (.ofString s)).Takes before h)
    (hk : h.Takes (Utf8.bytes declarationKeyword) k) (hstop : Stops isWord k.rest)
    (hr : Declaration.read ds.length k = (.error e, l))
    (hb : scan (.ofString (Utf8.text before)) = .ok ⟨b, none⟩) (hsize : b.size = ds.length) :
    Blames s b e (Utf8.text before) (Utf8.text k.rest) := by
  have hbytes : Utf8.bytes s = before ++ h.rest := hh.rest_eq
  have htext : Utf8.IsText (before ++ h.rest) := hbytes ▸ Utf8.isText_bytes s
  have hrest : Utf8.IsText h.rest := hd.isText htext
  have hktext : Utf8.IsText k.rest := hk.isText_rest (Utf8.isText_bytes _) hrest
  have hbefore : Utf8.bytes (Utf8.text before) = before :=
    Utf8.bytes_text (htext.split hrest.startsChar).1
  have hafter : Utf8.bytes (Utf8.text k.rest) = k.rest := Utf8.bytes_text hktext
  have hfront := hh.append hk
  have hlength : (before ++ Utf8.bytes declarationKeyword).length =
      (Utf8.text before).utf8ByteSize + 7 := by
    rw [List.length_append, ← Utf8.length_bytes (Utf8.text before), hbefore]
    rfl
  have hpos : k.pos = (Utf8.text before).utf8ByteSize + 7 := by
    rw [hfront.pos_eq, hlength]
    exact Nat.zero_add _
  obtain ⟨m, hm, hoffset⟩ := ((Declaration.keepsText_read ds.length).lands hktext hr).2 e rfl
  have hsource : m.source = .ofString s := by
    rw [hm.reaches.source_eq, hfront.reaches.source_eq]
    rfl
  refine ⟨?_, ?_, ⟨ds, ?_⟩, hb, ?_, ?_, ?_, ?_⟩
  · apply Utf8.bytes_injective
    rw [Utf8.bytes_append, Utf8.bytes_append, hbefore, hafter]
    exact hfront.rest_eq
  · rw [hafter]
    exact hstop
  · rw [Utf8.bytes_append, hbefore, hafter, ← hk.rest_eq]
    exact hd
  · rw [← hlength, ← hfront.eq_skip, hsize, hr]
  · rw [hoffset, ← hpos]
    exact hm.reaches.pos_le
  · have hle := m.pos_le
    rw [hsource] at hle
    rw [hoffset, ← Utf8.length_bytes]
    exact hle
  · rw [hoffset]
    exact Head.isValid_pos hsource hm.2

/-- Every fault of a document is the fault of one declaration, at a place inside
it, and the text before the declaration has none. -/
theorem blames_of_scan {s : String} {b : Block} {e : Fault}
    (h : scan (.ofString s) = .ok ⟨b, some e⟩) : ∃ before after, Blames s b e before after := by
  have htext : Utf8.IsText (Source.ofString s).bytes := Utf8.isText_bytes s
  have hfew := length_declarations_le (.ofString s)
  have hsize : b.size = (read (.ofString s)).declarations.length := by
    rw [← (spec_of_scan h).2.1, List.length_map, Block.size]
  obtain ⟨hb, hfault⟩ := scan_eq_ok_iff.1 h
  have hending := ending_read htext
  generalize read (.ofString s) = contents at hb hfault hending hsize hfew
  cases hending with
  | complete hd => cases hfault
  | @fault before ds l k m e' hd hh hk hstop hr =>
      obtain rfl := Option.some.inj hfault
      have hall : Utf8.IsText (before ++ l.rest) := hh.rest_eq ▸ htext
      have hbefore := Utf8.bytes_text (hall.split (hd.isText hall).startsChar).1
      have haccepted := scan_eq_ok_of_decomposes hd hbefore hfew hb
      exact ⟨_, _, blames_of_read hd hh hk hstop hr haccepted hsize⟩

/-- The second declaration has no name, and the fault lies where the name should
have been, behind a character of two bytes. -/
theorem blames_nameMissing :
    ∃ before after, Blames "uniform int n; /*é*/ uniform float ;"
      ⟨[⟨"n", .int, Hint.all .zero, Hint.all .one, 0, 1, none, none⟩], 0⟩
      ⟨36, .nameMissing⟩ before after := by
  refine blames_of_scan ?_
  decide +kernel

end Document

end UniformBlock
