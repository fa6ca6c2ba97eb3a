import Mathlib.Data.FinEnum
import Mathlib.Data.List.Basic
import UniformBlock.Text.Utf8

/-!
# Reading what was encoded

Reading the bytes of a text gives the text back (`text_bytes`), and writing what
was read gives the bytes back, if they are the bytes of a text at all
(`bytes_text`). Both come from one step: `takeChar` takes an encoded character
off the front, whatever follows it.

The other subject is where characters begin. `IsText bs` says that `bs` encodes
some characters. Cutting such a list in front of a byte that does not continue a
character leaves two lists of the same kind (`IsText.split`); in particular the
bytes of the ASCII range, which are all the bytes that the grammar is written
with, can be cut at on either side.
-/

namespace UniformBlock

namespace Utf8

theorem toNat_ofNat_byte {n : Nat} (h : n < 0x100) : (UInt8.ofNat n).toNat = n :=
  UInt8.toNat_ofNat_of_lt' h

theorem isContinuation_iff {b : UInt8} :
    isContinuation b = true ↔ 0x80 ≤ b.toNat ∧ b.toNat < 0xC0 := by
  revert b
  decide +kernel

/-! ## One character -/

theorem takeChar_of_lead {b c : UInt8} {lead : Lead} (cs : List UInt8) (hb : 0x80 ≤ b.toNat)
    (hlead : lead? b = some lead) (hlow : lead.low ≤ c) (hhigh : c ≤ lead.high) :
    takeChar b (c :: cs) =
      ((takeContinuation (addBits lead.bits c) lead.more cs).1.map Char.ofNat,
        (takeContinuation (addBits lead.bits c) lead.more cs).2) := by
  have hascii : ¬ b < 0x80 := by
    rw [UInt8.lt_iff_toNat_lt]
    exact not_lt.2 hb
  simp [takeChar, hascii, hlead, hlow, hhigh]

theorem takeContinuation_succ {b : UInt8} (acc n : Nat) (bs : List UInt8)
    (hb : 0x80 ≤ b.toNat ∧ b.toNat < 0xC0) :
    takeContinuation acc (n + 1) (b :: bs) = takeContinuation (addBits acc b) n bs := by
  rw [takeContinuation, if_pos (isContinuation_iff.2 hb)]

/-- The announcement of the first byte of two. -/
theorem lead?_two {b : UInt8} (hlow : 0xC2 ≤ b.toNat) (hhigh : b.toNat ≤ 0xDF) :
    lead? b = some ⟨b.toNat - 0xC0, 0x80, 0xBF, 0⟩ := by
  simp only [lead?, UInt8.lt_iff_toNat_lt, UInt8.le_iff_toNat_le, UInt8.reduceToNat]
  have hbits : b.toNat % 0x40 % 0x20 = b.toNat - 0xC0 := by omega
  rw [if_neg (by omega), if_pos (by omega), hbits]

/-- The announcement of the first byte of three. The two ranges that differ from
all continuation bytes exclude overlong forms and surrogates. -/
theorem lead?_three {b : UInt8} (hlow : 0xE0 ≤ b.toNat) (hhigh : b.toNat ≤ 0xEF) :
    ∃ low high, lead? b = some ⟨b.toNat - 0xE0, low, high, 1⟩ ∧
      low.toNat = (if b.toNat = 0xE0 then 0xA0 else 0x80) ∧
      high.toNat = (if b.toNat = 0xED then 0x9F else 0xBF) := by
  simp only [lead?, UInt8.lt_iff_toNat_lt, UInt8.le_iff_toNat_le, ← UInt8.toNat_inj,
    UInt8.reduceToNat]
  have hbits : b.toNat % 0x40 % 0x10 = b.toNat - 0xE0 := by omega
  rw [if_neg (by omega), if_neg (by omega), hbits]
  by_cases hfirst : b.toNat = 0xE0
  · exact ⟨0xA0, 0xBF, by rw [if_pos hfirst], by rw [if_pos hfirst]; rfl,
      by rw [if_neg (by omega)]; rfl⟩
  · by_cases hsurrogate : b.toNat = 0xED
    · exact ⟨0x80, 0x9F, by rw [if_neg hfirst, if_pos hsurrogate],
        by rw [if_neg hfirst]; rfl, by rw [if_pos hsurrogate]; rfl⟩
    · exact ⟨0x80, 0xBF, by rw [if_neg hfirst, if_neg hsurrogate, if_pos hhigh],
        by rw [if_neg hfirst]; rfl, by rw [if_neg hsurrogate]; rfl⟩

/-- The announcement of the first byte of four. The two ranges that differ from
all continuation bytes exclude overlong forms and code points above the last. -/
theorem lead?_four {b : UInt8} (hlow : 0xF0 ≤ b.toNat) (hhigh : b.toNat ≤ 0xF4) :
    ∃ low high, lead? b = some ⟨b.toNat - 0xF0, low, high, 2⟩ ∧
      low.toNat = (if b.toNat = 0xF0 then 0x90 else 0x80) ∧
      high.toNat = (if b.toNat = 0xF4 then 0x8F else 0xBF) := by
  simp only [lead?, UInt8.lt_iff_toNat_lt, UInt8.le_iff_toNat_le, ← UInt8.toNat_inj,
    UInt8.reduceToNat]
  have hbits : b.toNat % 0x40 % 0x08 = b.toNat - 0xF0 := by omega
  rw [if_neg (by omega), if_neg (by omega), if_neg (by omega), if_neg (by omega),
    if_neg (by omega), hbits]
  by_cases hfirst : b.toNat = 0xF0
  · exact ⟨0x90, 0xBF, by rw [if_pos hfirst], by rw [if_pos hfirst]; rfl,
      by rw [if_neg (by omega)]; rfl⟩
  · by_cases hlast : b.toNat = 0xF4
    · exact ⟨0x80, 0x8F, by rw [if_neg hfirst, if_neg (by omega), if_pos hlast],
        by rw [if_neg hfirst]; rfl, by rw [if_pos hlast]; rfl⟩
    · exact ⟨0x80, 0xBF, by rw [if_neg hfirst, if_pos (by omega)],
        by rw [if_neg hfirst]; rfl, by rw [if_neg hlast]; rfl⟩

/-- The bytes that continue a character carry six bits each. -/
theorem toNat_continuation {n : Nat} (hn : n < 0x40) :
    (UInt8.ofNat (n + 0x80)).toNat = n + 0x80 :=
  toNat_ofNat_byte (by omega)

theorem addBits_continuation (acc : Nat) {n : Nat} (hn : n < 0x40) :
    addBits acc (UInt8.ofNat (n + 0x80)) = acc * 0x40 + n := by
  rw [addBits, toNat_continuation hn]
  omega

theorem takeContinuation_encoded (acc m : Nat) {n : Nat} (hn : n < 0x40) (bs : List UInt8) :
    takeContinuation acc (m + 1) (UInt8.ofNat (n + 0x80) :: bs) =
      takeContinuation (acc * 0x40 + n) m bs := by
  rw [takeContinuation_succ acc m bs (by rw [toNat_continuation hn]; omega),
    addBits_continuation acc hn]

theorem takeChar_one {v : Nat} (rest : List UInt8) (hhigh : v ≤ 0x7F) :
    takeChar (UInt8.ofNat v) rest = (some (Char.ofNat v), rest) := by
  have hb : (UInt8.ofNat v).toNat = v := toNat_ofNat_byte (by omega)
  have hascii : UInt8.ofNat v < 0x80 := by
    rw [UInt8.lt_iff_toNat_lt, hb]
    exact Nat.lt_succ_of_le hhigh
  simp only [takeChar, if_pos hascii, hb]

theorem takeChar_two {v : Nat} (rest : List UInt8) (hlow : 0x7F < v) (hhigh : v ≤ 0x7FF) :
    takeChar (UInt8.ofNat (v / 64 % 0x20 + 0xC0)) (UInt8.ofNat (v % 0x40 + 0x80) :: rest) =
      (some (Char.ofNat v), rest) := by
  have hb : (UInt8.ofNat (v / 64 % 0x20 + 0xC0)).toNat = v / 64 + 0xC0 := by
    rw [toNat_ofNat_byte (by omega)]
    omega
  have hc : (UInt8.ofNat (v % 0x40 + 0x80)).toNat = v % 0x40 + 0x80 :=
    toNat_continuation (by omega)
  have hvalue : (v / 64 + 0xC0 - 0xC0) * 0x40 + v % 0x40 = v := by omega
  rw [takeChar_of_lead _ (by omega) (lead?_two (by omega) (by omega))
    (UInt8.le_iff_toNat_le.2 (by rw [hc]; exact Nat.le_add_left _ _))
    (UInt8.le_iff_toNat_le.2 (by rw [hc]; simp only [UInt8.reduceToNat]; omega)),
    addBits_continuation _ (by omega), hb, hvalue]
  rfl

theorem takeChar_three {v : Nat} (rest : List UInt8) (hlow : 0x7FF < v) (hhigh : v ≤ 0xFFFF)
    (hvalid : v < 0xD800 ∨ 0xDFFF < v) :
    takeChar (UInt8.ofNat (v / 4096 % 0x10 + 0xE0))
        (UInt8.ofNat (v / 64 % 0x40 + 0x80) :: UInt8.ofNat (v % 0x40 + 0x80) :: rest) =
      (some (Char.ofNat v), rest) := by
  have hb : (UInt8.ofNat (v / 4096 % 0x10 + 0xE0)).toNat = v / 4096 + 0xE0 := by
    rw [toNat_ofNat_byte (by omega)]
    omega
  have hc : (UInt8.ofNat (v / 64 % 0x40 + 0x80)).toNat = v / 64 % 0x40 + 0x80 :=
    toNat_continuation (by omega)
  obtain ⟨low, high, hlead, hlow, hhigh⟩ :=
    lead?_three (b := UInt8.ofNat (v / 4096 % 0x10 + 0xE0)) (by omega) (by omega)
  rw [hb] at hlow hhigh
  have hvalue : ((v / 4096 + 0xE0 - 0xE0) * 0x40 + v / 64 % 0x40) * 0x40 + v % 0x40 = v := by
    omega
  rw [takeChar_of_lead _ (by omega) hlead
    (UInt8.le_iff_toNat_le.2 (by rw [hlow, hc]; split <;> omega))
    (UInt8.le_iff_toNat_le.2 (by rw [hhigh, hc]; split <;> omega)),
    addBits_continuation _ (by omega), takeContinuation_encoded _ _ (by omega), hb, hvalue]
  rfl

theorem takeChar_four {v : Nat} (rest : List UInt8) (hlow : 0xFFFF < v)
    (hhigh : v < 0x110000) :
    takeChar (UInt8.ofNat (v / 262144 % 0x08 + 0xF0))
        (UInt8.ofNat (v / 4096 % 0x40 + 0x80) :: UInt8.ofNat (v / 64 % 0x40 + 0x80) ::
          UInt8.ofNat (v % 0x40 + 0x80) :: rest) =
      (some (Char.ofNat v), rest) := by
  have hb : (UInt8.ofNat (v / 262144 % 0x08 + 0xF0)).toNat = v / 262144 + 0xF0 := by
    rw [toNat_ofNat_byte (by omega)]
    omega
  have hc : (UInt8.ofNat (v / 4096 % 0x40 + 0x80)).toNat = v / 4096 % 0x40 + 0x80 :=
    toNat_continuation (by omega)
  obtain ⟨low, high, hlead, hlow, hhigh⟩ :=
    lead?_four (b := UInt8.ofNat (v / 262144 % 0x08 + 0xF0)) (by omega) (by omega)
  rw [hb] at hlow hhigh
  have hvalue : (((v / 262144 + 0xF0 - 0xF0) * 0x40 + v / 4096 % 0x40) * 0x40 +
      v / 64 % 0x40) * 0x40 + v % 0x40 = v := by
    omega
  rw [takeChar_of_lead _ (by omega) hlead
    (UInt8.le_iff_toNat_le.2 (by rw [hlow, hc]; split <;> omega))
    (UInt8.le_iff_toNat_le.2 (by rw [hhigh, hc]; split <;> omega)),
    addBits_continuation _ (by omega), takeContinuation_encoded _ _ (by omega),
    takeContinuation_encoded _ _ (by omega), hb, hvalue]
  rfl

/-- An encoded character is taken off the front as the character it is. -/
theorem takeChar_utf8EncodeChar (c : Char) {b : UInt8} {bs : List UInt8} (rest : List UInt8)
    (hc : String.utf8EncodeChar c = b :: bs) : takeChar b (bs ++ rest) = (some c, rest) := by
  have hchar : Char.ofNat c.val.toNat = c := Char.ofNat_toNat c
  have hvalid : c.val.toNat < 0xD800 ∨ 0xDFFF < c.val.toNat ∧ c.val.toNat < 0x110000 := c.valid
  simp only [String.utf8EncodeChar] at hc
  split at hc
  · obtain ⟨rfl, rfl⟩ := List.cons.inj hc
    rw [List.nil_append, takeChar_one rest ‹_›, hchar]
  · split at hc
    · obtain ⟨rfl, rfl⟩ := List.cons.inj hc
      rw [List.singleton_append, takeChar_two rest (by omega) ‹_›, hchar]
    · split at hc
      · obtain ⟨rfl, rfl⟩ := List.cons.inj hc
        rw [List.cons_append, List.singleton_append,
          takeChar_three rest (by omega) ‹_› (by omega), hchar]
      · obtain ⟨rfl, rfl⟩ := List.cons.inj hc
        rw [List.cons_append, List.cons_append, List.singleton_append,
          takeChar_four rest (by omega) (by omega), hchar]

/-! ## Whole texts -/

theorem readAfter_encode (acc : List (Option Char)) (cs : List Char) :
    readAfter acc (encode cs) = acc.reverse ++ cs.map some := by
  induction cs generalizing acc with
  | nil => rw [encode_nil, readAfter, List.map_nil, List.append_nil]
  | cons c cs ih =>
      rw [encode_cons]
      cases hc : String.utf8EncodeChar c with
      | nil => exact absurd hc String.utf8EncodeChar_ne_nil
      | cons b bs =>
          rw [List.cons_append, readAfter, takeChar_utf8EncodeChar c _ hc]
          simp only
          rw [ih, List.reverse_cons, List.append_assoc, List.singleton_append, List.map_cons]

theorem text_encode (cs : List Char) : text (encode cs) = String.ofList cs := by
  rw [text, read, readAfter_encode, List.reverse_nil, List.nil_append, List.map_map]
  congr 1
  exact List.map_id cs

/-- Reading the bytes of a text gives the text. -/
@[simp] theorem text_bytes (s : String) : text (bytes s) = s := by
  rw [bytes, text_encode, String.ofList_toList]

theorem bytes_injective {s t : String} (h : bytes s = bytes t) : s = t := by
  rw [← text_bytes s, h, text_bytes]

theorem bytes_append (s t : String) : bytes (s ++ t) = bytes s ++ bytes t := by
  rw [bytes, String.toList_append, encode_append]
  rfl

theorem length_bytes (s : String) : (bytes s).length = s.utf8ByteSize := by
  rw [← String.size_toByteArray, ← String.utf8Encode_toList, List.utf8Encode,
    List.size_toByteArray]
  rfl

/-- The bytes encode some characters. -/
def IsText (bs : List UInt8) : Prop := ∃ cs, bs = encode cs

theorem isText_nil : IsText [] := ⟨[], rfl⟩

theorem isText_bytes (s : String) : IsText (bytes s) := ⟨s.toList, rfl⟩

theorem IsText.append {u v : List UInt8} (hu : IsText u) (hv : IsText v) : IsText (u ++ v) := by
  obtain ⟨cs, rfl⟩ := hu
  obtain ⟨ds, rfl⟩ := hv
  exact ⟨cs ++ ds, (encode_append cs ds).symm⟩

/-- Writing what was read gives the bytes, if they are those of a text. -/
theorem bytes_text {bs : List UInt8} (h : IsText bs) : bytes (text bs) = bs := by
  obtain ⟨cs, rfl⟩ := h
  rw [text_encode, bytes, String.toList_ofList]

/-! ## Where characters begin -/

/-- The first byte of a character tells whether more bytes follow it, and all
bytes that follow continue the character. -/
theorem utf8EncodeChar_spec {c : Char} {b : UInt8} {bs : List UInt8}
    (hc : String.utf8EncodeChar c = b :: bs) :
    isContinuation b = false ∧ (∀ x ∈ bs, isContinuation x = true) ∧
      (b.toNat < 0x80 ↔ bs = []) := by
  have hvalid : c.val.toNat < 0xD800 ∨ 0xDFFF < c.val.toNat ∧ c.val.toNat < 0x110000 := c.valid
  have hcont (n : Nat) : isContinuation (UInt8.ofNat (n % 0x40 + 0x80)) = true := by
    rw [isContinuation_iff, toNat_continuation (Nat.mod_lt _ (by decide))]
    omega
  have hfirst {n : Nat} (hlow : 0xC0 ≤ n) (hhigh : n < 0x100) :
      isContinuation (UInt8.ofNat n) = false ∧ ¬ (UInt8.ofNat n).toNat < 0x80 := by
    rw [Bool.eq_false_iff, ne_eq, isContinuation_iff, toNat_ofNat_byte hhigh]
    omega
  simp only [String.utf8EncodeChar] at hc
  split at hc
  · obtain ⟨rfl, rfl⟩ := List.cons.inj hc
    have hb : (UInt8.ofNat c.val.toNat).toNat = c.val.toNat := toNat_ofNat_byte (by omega)
    refine ⟨?_, by simp, iff_of_true (by omega) rfl⟩
    rw [Bool.eq_false_iff, ne_eq, isContinuation_iff, hb]
    omega
  · split at hc
    · obtain ⟨rfl, rfl⟩ := List.cons.inj hc
      obtain ⟨hb, hlarge⟩ := @hfirst (c.val.toNat / 64 % 0x20 + 0xC0) (by omega) (by omega)
      exact ⟨hb, by simp only [List.forall_mem_cons, hcont, List.not_mem_nil]; simp,
        iff_of_false hlarge (by simp)⟩
    · split at hc
      · obtain ⟨rfl, rfl⟩ := List.cons.inj hc
        obtain ⟨hb, hlarge⟩ := @hfirst (c.val.toNat / 4096 % 0x10 + 0xE0) (by omega) (by omega)
        exact ⟨hb, by simp only [List.forall_mem_cons, hcont, List.not_mem_nil]; simp,
          iff_of_false hlarge (by simp)⟩
      · obtain ⟨rfl, rfl⟩ := List.cons.inj hc
        obtain ⟨hb, hlarge⟩ := @hfirst (c.val.toNat / 262144 % 0x08 + 0xF0) (by omega) (by omega)
        exact ⟨hb, by simp only [List.forall_mem_cons, hcont, List.not_mem_nil]; simp,
          iff_of_false hlarge (by simp)⟩

theorem startsChar_encode (cs : List Char) : StartsChar (encode cs) := by
  cases cs with
  | nil => simp [StartsChar]
  | cons c cs =>
      rw [encode_cons]
      cases hc : String.utf8EncodeChar c with
      | nil => exact absurd hc String.utf8EncodeChar_ne_nil
      | cons b bs => simpa [StartsChar] using (utf8EncodeChar_spec hc).1

theorem IsText.startsChar {bs : List UInt8} (h : IsText bs) : StartsChar bs := by
  obtain ⟨cs, rfl⟩ := h
  exact startsChar_encode cs

/-- A text can be cut wherever no character is continued. -/
theorem IsText.split {u v : List UInt8} (h : IsText (u ++ v)) (hv : StartsChar v) :
    IsText u ∧ IsText v := by
  obtain ⟨cs, hcs⟩ := h
  induction cs generalizing u with
  | nil =>
      obtain ⟨rfl, rfl⟩ := List.append_eq_nil_iff.1 hcs
      exact ⟨isText_nil, isText_nil⟩
  | cons c cs ih =>
      rw [encode_cons] at hcs
      rcases List.append_eq_append_iff.1 hcs with ⟨w, hw, hvw⟩ | ⟨w, rfl, hw⟩
      · -- the cut lies inside the first character or at one of its ends
        cases w with
        | nil =>
            rw [List.append_nil] at hw
            exact ⟨⟨[c], by rw [encode_cons, encode_nil, List.append_nil, hw]⟩, ⟨cs, hvw⟩⟩
        | cons b w =>
            cases u with
            | nil => exact ⟨isText_nil, ⟨c :: cs, by rw [encode_cons, hw, hvw]; rfl⟩⟩
            | cons a u =>
                have hcont := (utf8EncodeChar_spec hw).2.1 b (by simp)
                have hstart : isContinuation b = false := hv b (by simp [hvw])
                rw [hcont] at hstart
                cases hstart
      · obtain ⟨hu, htext⟩ := ih hw.symm
        exact ⟨IsText.append ⟨[c], by simp⟩ hu, htext⟩

/-- Behind a byte of the ASCII range a new character begins. -/
theorem IsText.of_cons {a : UInt8} {bs : List UInt8} (h : IsText (a :: bs))
    (ha : a.toNat < 0x80) : IsText bs := by
  obtain ⟨cs, hcs⟩ := h
  cases cs with
  | nil => cases hcs
  | cons c cs =>
      rw [encode_cons] at hcs
      cases hc : String.utf8EncodeChar c with
      | nil => exact absurd hc String.utf8EncodeChar_ne_nil
      | cons b ds =>
          rw [hc, List.cons_append] at hcs
          obtain ⟨rfl, rfl⟩ := List.cons.inj hcs
          rw [((utf8EncodeChar_spec hc).2.2).1 ha]
          exact ⟨cs, rfl⟩

/-- What follows a text in a text is a text. -/
theorem IsText.of_append {u v : List UInt8} (h : IsText (u ++ v)) (hu : IsText u) :
    IsText v := by
  obtain ⟨cs, rfl⟩ := hu
  induction cs with
  | nil => exact h
  | cons c cs ih =>
      obtain ⟨ds, hds⟩ := h
      cases ds with
      | nil => simp at hds
      | cons d ds =>
          rw [encode_cons, encode_cons, List.append_assoc] at hds
          cases hc : String.utf8EncodeChar c with
          | nil => exact absurd hc String.utf8EncodeChar_ne_nil
          | cons a as =>
              cases hd : String.utf8EncodeChar d with
              | nil => exact absurd hd String.utf8EncodeChar_ne_nil
              | cons b bs =>
                  rw [hc, hd, List.cons_append, List.cons_append] at hds
                  obtain ⟨rfl, htail⟩ := List.cons.inj hds
                  have hleft := takeChar_utf8EncodeChar c (encode cs ++ v) hc
                  rw [htail, takeChar_utf8EncodeChar d (encode ds) hd] at hleft
                  exact ih ⟨ds, (Prod.mk.inj hleft).2.symm⟩

theorem encode_singleton_of_ascii {b : UInt8} (h : b.toNat < 0x80) :
    encode [Char.ofNat b.toNat] = [b] := by
  revert b
  decide +kernel

theorem isText_of_ascii {bs : List UInt8} (h : ∀ b ∈ bs, b.toNat < 0x80) : IsText bs := by
  induction bs with
  | nil => exact isText_nil
  | cons b bs ih =>
      rw [List.forall_mem_cons] at h
      have hb : IsText [b] := ⟨_, (encode_singleton_of_ascii h.1).symm⟩
      exact hb.append (ih h.2)

end Utf8

end UniformBlock
