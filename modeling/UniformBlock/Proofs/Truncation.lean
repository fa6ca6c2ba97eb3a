import UniformBlock.Limits
import UniformBlock.Proofs.Lines
import UniformBlock.Proofs.Slices

/-!
# Cutting texts to a number of bytes

`Utf8.truncate` takes whole characters off the front as long as they fit. What it
takes is the longest text in front that fits (`prefix_takeBytes`), and where it
stops early, the next character did not fit, so at most three bytes are left
unused: a character has at most four.

The end of the cut can also be searched for from behind. `boundaryBack?` tries one
offset after the other, from the limit downwards, until one lies between two
characters, and `cutBack?` cuts there. The offsets between two characters are the
sizes of the texts in front (`isBoundary_iff`), so the search ends at the size of
the longest one that fits: it never comes to try an offset below zero, and the cut
is never refused.
-/

namespace UniformBlock

namespace Utf8

/-! ## Taking characters -/

theorem takeBytes_isPrefix (limit : Nat) (cs : List Char) : takeBytes limit cs <+: cs := by
  induction cs generalizing limit with
  | nil => exact List.prefix_rfl
  | cons c cs ih =>
      rw [takeBytes]
      split
      · exact List.cons_prefix_cons.2 ⟨rfl, ih _⟩
      · exact List.nil_prefix

theorem length_encode_takeBytes_le (limit : Nat) (cs : List Char) :
    (encode (takeBytes limit cs)).length ≤ limit := by
  induction cs generalizing limit with
  | nil => exact Nat.zero_le limit
  | cons c cs ih =>
      rw [takeBytes]
      split
      · have := ih (limit - c.utf8Size)
        rw [length_encode_cons]
        omega
      · exact Nat.zero_le limit

/-- Characters in front that fit are taken. -/
theorem prefix_takeBytes {limit : Nat} {cs ds : List Char} (hds : ds <+: cs)
    (hle : (encode ds).length ≤ limit) : ds <+: takeBytes limit cs := by
  induction cs generalizing limit ds with
  | nil => rwa [takeBytes]
  | cons c cs ih =>
      cases ds with
      | nil => exact List.nil_prefix
      | cons d ds =>
          obtain ⟨rfl, hmore⟩ := List.cons_prefix_cons.1 hds
          rw [length_encode_cons] at hle
          rw [takeBytes, if_pos (by omega)]
          exact List.cons_prefix_cons.2 ⟨rfl, ih hmore (by omega)⟩

/-- Where characters are left over, the first of them did not fit. -/
theorem lt_of_takeBytes_append {limit : Nat} {cs rest : List Char} {c : Char}
    (h : takeBytes limit cs ++ c :: rest = cs) :
    limit < (encode (takeBytes limit cs)).length + c.utf8Size := by
  by_contra hfits
  have hnext : takeBytes limit cs ++ [c] <+: takeBytes limit cs := by
    refine prefix_takeBytes ⟨rest, by rw [List.append_assoc, List.singleton_append, h]⟩ ?_
    rw [encode_append, List.length_append, length_encode_cons, encode_nil, List.length_nil]
    omega
  have := hnext.length_le
  rw [List.length_append, List.length_singleton] at this
  omega

theorem lt_length_encode_takeBytes_add {limit : Nat} {cs : List Char}
    (hlt : limit < (encode cs).length) :
    limit < (encode (takeBytes limit cs)).length + 4 := by
  obtain ⟨rest, hrest⟩ := takeBytes_isPrefix limit cs
  cases rest with
  | nil =>
      have hle := length_encode_takeBytes_le limit cs
      rw [List.append_nil] at hrest
      rw [hrest] at hle
      omega
  | cons c rest =>
      have hfour := c.utf8Size_le_four
      have hnext := lt_of_takeBytes_append hrest
      omega

/-! ## Cutting texts -/

variable {limit : Nat} {s : String}

theorem truncate_of_le (h : s.utf8ByteSize ≤ limit) : truncate limit s = s := if_pos h

theorem toList_truncate_of_lt (h : limit < s.utf8ByteSize) :
    (truncate limit s).toList = takeBytes limit s.toList := by
  rw [truncate, if_neg (Nat.not_le.2 h), String.toList_ofList]

theorem utf8ByteSize_truncate_le (limit : Nat) (s : String) :
    (truncate limit s).utf8ByteSize ≤ limit := by
  by_cases h : s.utf8ByteSize ≤ limit
  · rwa [truncate_of_le h]
  · rw [← length_bytes, bytes, toList_truncate_of_lt (Nat.lt_of_not_le h)]
    exact length_encode_takeBytes_le limit s.toList

theorem exists_eq_truncate_append (limit : Nat) (s : String) :
    ∃ rest, s = truncate limit s ++ rest := by
  by_cases h : s.utf8ByteSize ≤ limit
  · exact ⟨"", by rw [truncate_of_le h, String.append_empty]⟩
  · obtain ⟨rest, hrest⟩ := takeBytes_isPrefix limit s.toList
    refine ⟨String.ofList rest, ?_⟩
    rw [← String.toList_inj, String.toList_append, toList_truncate_of_lt (Nat.lt_of_not_le h),
      String.toList_ofList, hrest]

/-- No longer text in front fits. -/
theorem utf8ByteSize_le_truncate {t rest : String} (hs : s = t ++ rest)
    (hle : t.utf8ByteSize ≤ limit) : t.utf8ByteSize ≤ (truncate limit s).utf8ByteSize := by
  by_cases h : s.utf8ByteSize ≤ limit
  · rw [truncate_of_le h, hs, String.utf8ByteSize_append]
    exact Nat.le_add_right _ _
  · have hprefix : t.toList <+: s.toList := ⟨rest.toList, by rw [hs, String.toList_append]⟩
    rw [← length_bytes] at hle
    obtain ⟨more, hmore⟩ := prefix_takeBytes hprefix hle
    rw [← length_bytes, ← length_bytes, bytes, bytes, toList_truncate_of_lt (Nat.lt_of_not_le h),
      ← hmore, encode_append, List.length_append]
    exact Nat.le_add_right _ _

theorem lt_utf8ByteSize_truncate_add (h : limit < s.utf8ByteSize) :
    limit < (truncate limit s).utf8ByteSize + 4 := by
  rw [← length_bytes, bytes, toList_truncate_of_lt h]
  rw [← length_bytes] at h
  exact lt_length_encode_takeBytes_add h

theorem truncate_eq_iff : truncate limit s = s ↔ s.utf8ByteSize ≤ limit := by
  constructor
  · intro h
    rw [← h]
    exact utf8ByteSize_truncate_le limit s
  · exact truncate_of_le

/-! ## The search from behind -/

/-- The offsets between two characters are the sizes of the texts in front. -/
theorem isBoundary_iff {n : Nat} :
    (Source.ofString s).isBoundary n = true ↔ ∃ t rest, s = t ++ rest ∧ t.utf8ByteSize = n := by
  constructor
  · intro h
    rw [Source.isBoundary, Bool.and_eq_true, decide_eq_true_eq] at h
    obtain ⟨hle, hcont⟩ := h
    have hstart : StartsChar ((bytes s).drop n) := by
      intro b hb
      rw [List.head?_drop] at hb
      have hget : (Source.ofString s).bytes[n]? = some b := hb
      simpa [hget] using hcont
    have htext : IsText ((bytes s).take n ++ (bytes s).drop n) := by
      rw [List.take_append_drop]
      exact isText_bytes s
    obtain ⟨hfront, hback⟩ := htext.split hstart
    refine ⟨text ((bytes s).take n), text ((bytes s).drop n), ?_, ?_⟩
    · apply bytes_injective
      rw [bytes_append, bytes_text hfront, bytes_text hback, List.take_append_drop]
    · rw [← length_bytes, bytes_text hfront, List.length_take]
      exact Nat.min_eq_left hle
  · rintro ⟨t, rest, rfl, rfl⟩
    refine Source.isBoundary_of_startsChar ?_ ?_
    · change _ ≤ (bytes (t ++ rest)).length
      rw [length_bytes, String.utf8ByteSize_append]
      exact Nat.le_add_right _ _
    · change StartsChar ((bytes (t ++ rest)).drop t.utf8ByteSize)
      rw [bytes_append, ← length_bytes, List.drop_left]
      exact (isText_bytes rest).startsChar

/-- Go back from an offset until one lies between two characters. There is no
result where none does down to zero. -/
def boundaryBack? (source : Source) : Nat → Option Nat
  | 0 => if source.isBoundary 0 then some 0 else none
  | n + 1 => if source.isBoundary (n + 1) then some (n + 1) else boundaryBack? source n

/-- The search ends at the last boundary. -/
theorem boundaryBack?_eq_some {source : Source} {n last : Nat}
    (hlast : source.isBoundary last = true) (hle : last ≤ n)
    (hmax : ∀ m ≤ n, source.isBoundary m = true → m ≤ last) :
    boundaryBack? source n = some last := by
  induction n with
  | zero =>
      obtain rfl := Nat.le_zero.1 hle
      rw [boundaryBack?, if_pos hlast]
  | succ n ih =>
      rw [boundaryBack?]
      by_cases hn : source.isBoundary (n + 1) = true
      · rw [if_pos hn, Nat.le_antisymm hle (hmax (n + 1) le_rfl hn)]
      · have hne : last ≠ n + 1 := by
          rintro rfl
          exact hn hlast
        rw [if_neg hn]
        exact ih (by omega) fun m hm => hmax m (by omega)

/-- Cut a text that is too long at the last boundary within the limit. -/
def cutBack? (limit : Nat) (s : String) : Option String :=
  if s.utf8ByteSize ≤ limit then some s
  else (boundaryBack? (.ofString s) limit).bind (Sliced.initial? s)

/-- The search from behind finds the same cut. -/
theorem cutBack?_eq_truncate (limit : Nat) (s : String) :
    cutBack? limit s = some (truncate limit s) := by
  rw [cutBack?]
  split
  · rename_i h
    rw [truncate_of_le h]
  · obtain ⟨rest, hrest⟩ := exists_eq_truncate_append limit s
    have hsearch : boundaryBack? (.ofString s) limit = some (truncate limit s).utf8ByteSize := by
      refine boundaryBack?_eq_some (isBoundary_iff.2 ⟨_, rest, hrest, rfl⟩)
        (utf8ByteSize_truncate_le limit s) fun m hm hboundary => ?_
      obtain ⟨t, more, hs, rfl⟩ := isBoundary_iff.1 hboundary
      exact utf8ByteSize_le_truncate hs hm
    have hbytes : bytes s = bytes (truncate limit s) ++ bytes rest := by
      rw [← bytes_append, ← hrest]
    have hcut := Sliced.initial?_append hbytes (isText_bytes (truncate limit s))
    rw [length_bytes, text_bytes] at hcut
    rw [hsearch, Option.bind_some, hcut]

/-! ## Messages -/

/-- What cutting a text to a number of bytes leaves of it. -/
structure Cuts (limit : Nat) (s : String) : Prop where
  isPrefix : ∃ rest, s = truncate limit s ++ rest
  fits : (truncate limit s).utf8ByteSize ≤ limit
  eq_iff : truncate limit s = s ↔ s.utf8ByteSize ≤ limit
  full : limit < s.utf8ByteSize → limit - 3 ≤ (truncate limit s).utf8ByteSize
  longest : ∀ t rest, s = t ++ rest → t.utf8ByteSize ≤ limit →
    t.utf8ByteSize ≤ (truncate limit s).utf8ByteSize
  search : cutBack? limit s = some (truncate limit s)
  idempotent : truncate limit (truncate limit s) = truncate limit s

/-- A message of the journal is cut to the longest text in front of it that fits. -/
theorem cuts_message (message : String) : Cuts Limits.messageBytes message where
  isPrefix := exists_eq_truncate_append _ _
  fits := utf8ByteSize_truncate_le _ _
  eq_iff := truncate_eq_iff
  full h := by
    have := lt_utf8ByteSize_truncate_add h
    omega
  longest _ _ hs hle := utf8ByteSize_le_truncate hs hle
  search := cutBack?_eq_truncate _ _
  idempotent := truncate_eq_iff.2 (utf8ByteSize_truncate_le _ _)

/-- The limit lies before the last byte of a character, which is left out whole. -/
example : truncate 4 "a😀b" = "a" ∧ cutBack? 4 "a😀b" = some "a" := by decide +kernel

end Utf8

end UniformBlock
