import Mathlib.Data.List.Nodup
import UniformBlock.Proofs.Json

/-!
# Libraries for JSON

Consequences of the laws. Documents that are put together are written, and their texts
have no control characters (`Writes`): strings escape them, and what stands between the
parts of an array or an object has none. Members are found under their names, and a
member that may be missing is decoded to what it was.

`Json.standard` obeys the laws (`lawful_standard`): its documents are texts, and what
it builds is well-formed.
-/

namespace UniformBlock

section Lists

variable {α β : Type}

theorem exists_mapM_eq_some {f : α → Option β} {as : List α} (h : ∀ a ∈ as, ∃ b, f a = some b) :
    ∃ bs, as.mapM f = some bs := by
  induction as with
  | nil => exact ⟨[], rfl⟩
  | cons a as ih =>
      obtain ⟨b, hb⟩ := h a List.mem_cons_self
      obtain ⟨bs, hbs⟩ := ih fun c hc => h c (List.mem_cons_of_mem a hc)
      exact ⟨b :: bs, by rw [List.mapM_cons, hb, hbs]; rfl⟩

theorem mapM_map_eq_some {encode : α → β} {decode : β → Option α} {as : List α}
    (h : ∀ a ∈ as, decode (encode a) = some a) : (as.map encode).mapM decode = some as := by
  induction as with
  | nil => rfl
  | cons a as ih =>
      rw [List.map_cons, List.mapM_cons, h a List.mem_cons_self,
        ih fun b hb => h b (List.mem_cons_of_mem a hb)]
      rfl

theorem exists_of_mem_mapM {f : α → Option β} {as : List α} {bs : List β}
    (h : as.mapM f = some bs) {b : β} (hb : b ∈ bs) : ∃ a ∈ as, f a = some b := by
  induction as generalizing bs with
  | nil =>
      obtain rfl := Option.some.inj h
      cases hb
  | cons a as ih =>
      rw [List.mapM_cons] at h
      obtain ⟨c, hc, hrest⟩ := Option.bind_eq_some_iff.1 h
      obtain ⟨cs, hcs, hcons⟩ := Option.bind_eq_some_iff.1 hrest
      obtain rfl := Option.some.inj hcons
      rcases List.mem_cons.1 hb with rfl | hb
      · exact ⟨a, List.mem_cons_self, hc⟩
      · obtain ⟨d, hd, hdb⟩ := ih hcs hb
        exact ⟨d, List.mem_cons_of_mem a hd, hdb⟩

theorem lookup_eq_some_of_mem {fields : List (String × α)} {name : String} {value : α}
    (hnames : (fields.map (·.1)).Nodup) (hmem : (name, value) ∈ fields) :
    fields.lookup name = some value := by
  obtain ⟨front, back, rfl⟩ := List.append_of_mem hmem
  refine List.lookup_eq_some_iff.2 ⟨front, back, rfl, fun f hf => bne_iff_ne.2 fun hname => ?_⟩
  rw [List.map_append, List.nodup_append] at hnames
  exact hnames.2.2 f.1 (List.mem_map_of_mem hf) name (by simp) hname.symm

theorem lookup_eq_none_of_notMem {fields : List (String × α)} {name : String}
    (h : name ∉ fields.map (·.1)) : fields.lookup name = none := by
  refine List.lookup_eq_none_iff.2 fun f hf => bne_iff_ne.2 fun hname => h ?_
  exact List.mem_map.2 ⟨f, hf, hname.symm⟩

end Lists

namespace Json

/-! ## Texts without control characters -/

/-- There is no control character below U+0020 among the characters. -/
def Printable (cs : List Char) : Prop := ∀ c ∈ cs, 0x20 ≤ c.toNat

instance (cs : List Char) : Decidable (Printable cs) :=
  List.decidableBAll (fun c : Char => 0x20 ≤ c.toNat) cs

@[simp] theorem printable_nil : Printable [] := by
  simp [Printable]

@[simp] theorem printable_cons {c : Char} {cs : List Char} :
    Printable (c :: cs) ↔ 0x20 ≤ c.toNat ∧ Printable cs := List.forall_mem_cons

@[simp] theorem printable_append {cs ds : List Char} :
    Printable (cs ++ ds) ↔ Printable cs ∧ Printable ds := List.forall_mem_append

theorem printable_intercalate {texts : List (List Char)} (h : ∀ t ∈ texts, Printable t) :
    Printable ([','].intercalate texts) := by
  induction texts with
  | nil => exact printable_nil
  | cons t texts ih =>
      rw [List.forall_mem_cons] at h
      by_cases hne : texts = []
      · simpa [hne] using h.1
      · rw [List.intercalate_cons_of_ne_nil hne]
        simp [h.1, ih h.2]

/-- Texts that are written one by one are joined by commas. -/
theorem exists_mapM_printable {α : Type} {write : α → Option String} {as : List α}
    (h : ∀ a ∈ as, ∃ s, write a = some s ∧ Printable s.toList) :
    ∃ texts, as.mapM write = some texts ∧
      Printable ([','].intercalate (texts.map String.toList)) := by
  obtain ⟨texts, htexts⟩ := exists_mapM_eq_some fun a ha => (h a ha).imp fun _ => And.left
  refine ⟨texts, htexts, printable_intercalate fun t ht => ?_⟩
  obtain ⟨s, hs, rfl⟩ := List.mem_map.1 ht
  obtain ⟨a, ha, hwrite⟩ := exists_of_mem_mapM htexts hs
  obtain ⟨u, hu, hprintable⟩ := h a ha
  obtain rfl : u = s := Option.some.inj (hu.symm.trans hwrite)
  exact hprintable

theorem printable_digits {ds : List Char} (h : ∀ c ∈ ds, c.isDigit = true) : Printable ds := by
  intro c hc
  have hdigit := h c hc
  simp only [Char.isDigit, Bool.and_eq_true, decide_eq_true_eq] at hdigit
  exact Nat.le_trans (by decide) hdigit.1

namespace Library

variable {L : Library}

theorem IsEscape.printable {c : Char} {cs : List Char} (h : IsEscape c cs) : Printable cs := by
  unfold IsEscape at h
  split at h
  · obtain ⟨ds, rfl, hds⟩ := h
    exact printable_cons.2 ⟨by decide, hds⟩
  · rename_i hplain
    rw [h, printable_cons]
    exact ⟨by omega, printable_nil⟩

/-- The document can be written, by a text without control characters. -/
def Writes (L : Library) (d : L.Doc) : Prop :=
  ∃ s, L.write? d = some s ∧ Printable s.toList

variable (hL : L.Lawful)

include hL

theorem writes_null : L.Writes L.null := ⟨_, hL.write?_null, by decide⟩

theorem writes_bool (b : Bool) : L.Writes (L.bool b) :=
  ⟨_, hL.write?_bool b, by cases b <;> decide⟩

theorem writes_nat (n : Nat) : L.Writes (L.nat n) := by
  refine ⟨_, hL.write?_nat n, printable_digits fun c hc => ?_⟩
  exact Nat.isDigit_of_mem_toDigits (by decide) (by decide) (Nat.toList_repr ▸ hc)

theorem writes_text (s : String) : L.Writes (L.text s) := by
  obtain ⟨escape, hescape, hwrite⟩ := hL.write?_text
  have hbody : Printable (s.toList.flatMap escape) := by
    intro d hd
    obtain ⟨c, -, hd⟩ := List.mem_flatMap.1 hd
    exact (hescape c).printable d hd
  refine ⟨_, hwrite s, ?_⟩
  simp [hbody]

theorem writes_array {items : List L.Doc} (h : ∀ d ∈ items, L.Writes d) :
    L.Writes (L.array items) := by
  obtain ⟨texts, htexts, hprintable⟩ := exists_mapM_printable h
  refine ⟨_, by rw [hL.write?_array, htexts, Option.map_some], ?_⟩
  simpa [String.toList_intercalate] using hprintable

theorem writes_record {fields : List (String × L.Doc)} (h : ∀ f ∈ fields, L.Writes f.2) :
    L.Writes (L.record fields) := by
  have hmember : ∀ f ∈ fields, ∃ s, L.writeMember? f = some s ∧ Printable s.toList := by
    intro f hf
    obtain ⟨name, hname, hprintable⟩ := writes_text hL f.1
    obtain ⟨value, hvalue, hprintable'⟩ := h f hf
    refine ⟨name ++ ":" ++ value, by simp [writeMember?, hname, hvalue], ?_⟩
    simp [hprintable, hprintable']
  obtain ⟨texts, htexts, hprintable⟩ := exists_mapM_printable hmember
  refine ⟨_, by rw [hL.write?_record, htexts, Option.map_some], ?_⟩
  simpa [String.toList_intercalate] using hprintable

/-- What was built can be written. -/
theorem Built.writes {d : L.Doc} (hd : L.Built d) : L.Writes d := by
  induction hd with
  | null => exact writes_null hL
  | bool b => exact writes_bool hL b
  | nat hn => exact writes_nat hL _
  | single x => exact hL.write?_single x
  | text s => exact writes_text hL s
  | array hitems ih => exact writes_array hL ih
  | record hnames hvalues ih => exact writes_record hL ih

omit hL

theorem Built.word (n : UInt32) : L.Built (L.word n) :=
  .nat (Nat.lt_trans n.toNat_lt (by decide))

/-- A member that may be missing is decoded to what it was. -/
theorem optional?_map {α : Type} {encode : α → L.Doc} {decode : L.Doc → Option α}
    (hdecode : ∀ a, decode (encode a) = some a) (hnull : ∀ a, L.isNull (encode a) = false)
    (o : Option α) : L.optional? decode (o.map encode) = some o := by
  cases o with
  | none => rfl
  | some a => simp [optional?, hdecode, hnull]

/-- The number is decoded to what it was. -/
def Restores (L : Library) (x : Single) : Prop := L.toSingle? (L.single x) = some x

instance (L : Library) (x : Single) : Decidable (L.Restores x) :=
  inferInstanceAs (Decidable (L.toSingle? (L.single x) = some x))

end Library

/-! ## The texts as a library -/

section Built

theorem wellFormed_text (s : String) : (text s).WellFormed := .string ⟨s.toList, rfl⟩

theorem wellFormed_nat (n : Nat) : (nat n).WellFormed := .number (Numeral.wellFormed_ofNat n)

theorem wellFormed_single (x : Single) : (single x).WellFormed := by
  unfold single
  split
  · exact .number (Numeral.wellFormed_ofSingle x)
  · exact .null

theorem wellFormed_record {fields : List (String × Json)} (h : ∀ f ∈ fields, f.2.WellFormed) :
    (record fields).WellFormed := by
  refine .object ?_ ?_
  · intro m hm
    obtain ⟨f, -, rfl⟩ := List.mem_map.1 hm
    exact ⟨f.1.toList, rfl⟩
  · intro m hm
    obtain ⟨f, hf, rfl⟩ := List.mem_map.1 hm
    exact h f hf

/-- What is built is well-formed. -/
theorem wellFormed_of_built {j : standard.Doc} (hj : standard.Built j) : WellFormed j := by
  induction hj with
  | null => exact .null
  | bool b => exact .bool b
  | nat hn => exact wellFormed_nat _
  | single x => exact wellFormed_single x
  | text s => exact wellFormed_text s
  | array hitems ih => exact .array ih
  | record hnames hvalues ih => exact wellFormed_record ih

end Built

section Written

theorem Numeral.WellFormed.printable {n : Numeral} (hn : n.WellFormed) : Printable n.render := by
  have hsign : Printable (signText n.negative) := by
    cases n.negative <;> decide
  have hfraction : Printable (fractionText n.fraction) := by
    cases hf : n.fraction with
    | none => exact printable_nil
    | some ds => exact printable_cons.2 ⟨by decide, printable_digits (hn.fraction ds hf).digit⟩
  have hexponent : Printable (exponentText n.exponent) := by
    cases he : n.exponent with
    | none => exact printable_nil
    | some e =>
        obtain ⟨negative, ds⟩ := e
        have hds := printable_digits (hn.exponent (negative, ds) he).digit
        cases negative <;> exact printable_cons.2 ⟨by decide, printable_cons.2 ⟨by decide, hds⟩⟩
  have hrender := n.render_append []
  rw [List.append_nil, List.append_nil] at hrender
  rw [hrender]
  simp [hsign, printable_digits hn.whole.digit, hfraction, hexponent]

theorem printable_single (x : Single) : Printable (single x).render := by
  unfold single
  split
  · exact (Numeral.wellFormed_ofSingle x).printable
  · decide

theorem printable_unit {n : Nat} (hn : n < 0x20) :
    Printable ['u', '0', '0', hexDigit (n / 16), hexDigit (n % 16)] := by
  decide +revert

theorem isEscape_escapeChar (c : Char) : Library.IsEscape c (escapeChar c) := by
  unfold Library.IsEscape
  split
  · rename_i hspecial
    unfold escapeChar
    -- the characters with an escape of their own
    iterate 7
      split
      · exact ⟨_, rfl, printable_cons.2 ⟨by decide, printable_nil⟩⟩
    split
    · exact ⟨_, rfl, printable_unit ‹_›⟩
    · rcases hspecial with h | h | h <;> contradiction
  · rename_i hplain
    rw [not_or, not_or] at hplain
    have hne : ∀ d : Char, d.toNat < 0x20 → c ≠ d := by
      rintro d hd rfl
      exact hplain.2.2 hd
    rw [escapeChar, if_neg hplain.1, if_neg hplain.2.1]
    iterate 5
      rw [if_neg (hne _ (by decide))]
    rw [if_neg hplain.2.2]

theorem compact_nat (n : Nat) : (nat n).compact = toString n := by
  rw [← String.toList_inj, compact, String.toList_ofList, nat, render, Numeral.render]
  simp [Numeral.ofNat, decimalDigits]

theorem renderItems_eq (items : List Json) :
    renderItems items = [','].intercalate (items.map render) := by
  induction items with
  | nil => rfl
  | cons item items ih =>
      by_cases hne : items = []
      · simp [hne, renderItems, renderMoreItems]
      · rw [List.map_cons, List.intercalate_cons_of_ne_nil (by simpa using hne), ← ih, renderItems,
          renderMoreItems_eq hne]
        simp

theorem renderMembers_eq (members : List (List Char × Json)) :
    renderMembers members =
      [','].intercalate (members.map fun m => quote m.1 ++ ':' :: m.2.render) := by
  induction members with
  | nil => rfl
  | cons m members ih =>
      by_cases hne : members = []
      · simp [hne, renderMembers, renderMoreMembers]
      · rw [List.map_cons, List.intercalate_cons_of_ne_nil (by simpa using hne), ← ih,
          renderMembers, renderMoreMembers_eq hne]
        simp

theorem mapM_some {α β : Type} (f : α → β) (as : List α) :
    (as.mapM fun a => some (f a)) = some (as.map f) := by
  induction as with
  | nil => rfl
  | cons a as ih => rw [List.mapM_cons, ih]; rfl

theorem some_compact_array (items : List Json) :
    some (array items).compact =
      (items.mapM fun j => some j.compact).map
        fun texts => "[" ++ ",".intercalate texts ++ "]" := by
  rw [mapM_some, Option.map_some, Option.some_inj, ← String.toList_inj]
  simp [compact, render, renderItems_eq, String.toList_intercalate, Function.comp_def]

theorem some_compact_record (fields : List (String × Json)) :
    some (record fields).compact =
      (fields.mapM fun f => some ((text f.1).compact ++ ":" ++ f.2.compact)).map
        fun texts => "\x7b" ++ ",".intercalate texts ++ "\x7d" := by
  rw [mapM_some, Option.map_some, Option.some_inj, ← String.toList_inj]
  simp [compact, record, render, renderMembers_eq, String.toList_intercalate, Function.comp_def,
    text, quote]

end Written

section Decoded

variable {fields : List (String × Json)}

theorem toText?_text (s : String) : (text s).toText? = some s := by
  rw [text, toText?, unescape?_escape, Option.map_some, String.ofList_toList]

theorem toNat?_nat {n : Nat} (hn : n < UInt64.size) : (nat n).toNat? = some n := by
  simp [nat, toNat?, Numeral.toNat?, Numeral.ofNat, Numeral.isInteger, decimalValue_decimalDigits,
    hn]

theorem toFields?_record (fields : List (String × Json)) :
    (record fields).toFields? = some fields := by
  refine mapM_map_eq_some fun f _ => ?_
  rw [unescape?_escape, Option.map_some, String.ofList_toList]

theorem length_filter_name_le_one (hnames : (fields.map (·.1)).Nodup) (name : String) :
    (fields.filter (·.1 == name)).length ≤ 1 := by
  have hcount := List.nodup_iff_count_le_one.1 hnames name
  rwa [List.count_eq_countP, List.countP_map, List.countP_eq_length_filter] at hcount

theorem toStructure?_record {names : List String} (hnames : (fields.map (·.1)).Nodup) :
    (record fields).toStructure? names = some fun name => fields.lookup name := by
  have hall : (names.all fun name => (fields.filter (·.1 == name)).length ≤ 1) = true :=
    List.all_eq_true.2 fun name _ => decide_eq_true (length_filter_name_le_one hnames name)
  rw [toStructure?, toFields?_record, Option.bind_eq_bind, Option.bind_some, if_pos hall]
  intro items h
  cases h

end Decoded

/-- The texts obey the laws. -/
theorem lawful_standard : standard.Lawful where
  write?_null := rfl
  write?_bool b := by cases b <;> rfl
  write?_nat n := congrArg some (compact_nat n)
  write?_single x := ⟨(single x).compact, rfl, by
    rw [compact, String.toList_ofList]
    exact printable_single x⟩
  write?_text := ⟨escapeChar, isEscape_escapeChar, fun _ => rfl⟩
  write?_array items := some_compact_array items
  write?_record fields := some_compact_record fields
  read?_of_write? hd hs := by
    obtain rfl := Option.some.inj hs
    exact read?_compact (wellFormed_of_built hd)
  single_eq_null x hx := if_neg (Bool.not_eq_true _ ▸ hx)
  toSingle?_null := rfl
  isNull_nat _ := rfl
  isNull_text _ := rfl
  toNat?_nat _ hn := toNat?_nat hn
  toWord?_word n := Numeral.toWord?_ofNat n
  toText?_text s := toText?_text s
  toVariant?_text s := toText?_text s
  toItems?_array _ := rfl
  toMembers?_record _ := toFields?_record _
  toStructure?_record hnames _ := ⟨_, toStructure?_record hnames, fun _ _ => rfl⟩

end Json

end UniformBlock
