import Mathlib.Data.List.Infix
import UniformBlock.Proofs.Utf8
import UniformBlock.Source.Lines

/-!
# Lines of a text

`Text.lines` cuts characters at the line feeds. The bytes of a text are read one
after the other, and so the lines are followed here as the text grows by one
character: `Breaks cs pre run` says that `cs` consists of the lines `pre`, which
are complete, and of the beginning `run` of one more. What follows `cs` can only
add to `run` or begin new lines (`Breaks.lines_append`), and every count that a
report needs can be read off `pre` and `run`.
-/

namespace UniformBlock

namespace Utf8

open Ascii

theorem length_encode_cons (c : Char) (cs : List Char) :
    (encode (c :: cs)).length = c.utf8Size + (encode cs).length := by
  rw [encode_cons, List.length_append, String.length_utf8EncodeChar]

theorem length_le_length_encode (cs : List Char) : cs.length ≤ (encode cs).length := by
  induction cs with
  | nil => exact Nat.le_refl 0
  | cons c cs ih =>
      have hc := c.utf8Size_pos
      rw [length_encode_cons, List.length_cons]
      omega

/-- Characters that take no more bytes than there are characters take one each. -/
theorem utf8Size_eq_one_of_length_encode_le {cs : List Char}
    (h : (encode cs).length ≤ cs.length) : ∀ c ∈ cs, c.utf8Size = 1 := by
  induction cs with
  | nil => exact fun c hc => absurd hc List.not_mem_nil
  | cons c cs ih =>
      have hc := c.utf8Size_pos
      have hcs := length_le_length_encode cs
      rw [length_encode_cons, List.length_cons] at h
      rw [List.forall_mem_cons]
      exact ⟨by omega, ih (by omega)⟩

/-- A byte of the ASCII range stands for the character of its own code only. -/
theorem ofNat_mem_of_mem_encode {b : UInt8} {cs : List Char} (hb : b.toNat < 0x80)
    (h : b ∈ encode cs) : Char.ofNat b.toNat ∈ cs := by
  obtain ⟨c, hc, hmem⟩ := List.mem_flatMap.1 h
  cases hbytes : String.utf8EncodeChar c with
  | nil => exact absurd hbytes String.utf8EncodeChar_ne_nil
  | cons a as =>
      obtain ⟨-, hcont, hascii⟩ := utf8EncodeChar_spec hbytes
      rw [hbytes, List.mem_cons] at hmem
      rcases hmem with rfl | hmem
      · obtain rfl := hascii.1 hb
        have htake := takeChar_utf8EncodeChar c [] hbytes
        have hself : takeChar b ([] ++ []) = (some (Char.ofNat b.toNat), []) :=
          if_pos (UInt8.lt_iff_toNat_lt.2 hb)
        rw [hself] at htake
        rwa [Option.some.inj (Prod.mk.inj htake).1]
      · have := (isContinuation_iff.1 (hcont b hmem)).1
        omega

theorem lineFeed_notMem_encode {c : Char} (hc : c ≠ '\n') : lineFeed ∉ encode [c] :=
  fun h => hc (List.mem_singleton.1 (ofNat_mem_of_mem_encode (by decide) h)).symm

end Utf8

theorem Source.size_ofString (s : String) : (Source.ofString s).size = s.utf8ByteSize :=
  Utf8.length_bytes s

namespace Text

open Ascii Utf8

/-- The lines of a text: what stands between the line feeds. -/
def lines (s : String) : List (List Char) := s.toList.splitOn '\n'

/-- Lines with a line feed behind each of them are the lines of their text, with
nothing behind the last line feed. -/
theorem splitOn_flatMap_lineFeed {ls : List (List Char)} (h : ∀ l ∈ ls, '\n' ∉ l) :
    (ls.flatMap (· ++ ['\n'])).splitOn '\n' = ls ++ [[]] := by
  have hjoin : ls.flatMap (· ++ ['\n']) = ['\n'].intercalate (ls ++ [[]]) := by
    clear h
    induction ls with
    | nil => rfl
    | cons l ls ih =>
        rw [List.flatMap_cons, ih, List.cons_append, List.intercalate_cons_of_ne_nil (by simp)]
  rw [hjoin]
  refine List.splitOn_intercalate '\n' (fun l hl => ?_) (by simp)
  rcases List.mem_append.1 hl with hl | hl
  · exact h l hl
  · rw [List.mem_singleton.1 hl]
    exact List.not_mem_nil

/-- The number of bytes of some lines, each with its line feed. -/
def bytesOfLines : List (List Char) → Nat
  | [] => 0
  | l :: ls => (encode l).length + 1 + bytesOfLines ls

theorem bytesOfLines_concat (ls : List (List Char)) (l : List Char) :
    bytesOfLines (ls ++ [l]) = bytesOfLines ls + ((encode l).length + 1) := by
  induction ls with
  | nil => exact Nat.add_comm _ 0
  | cons k ls ih =>
      rw [List.cons_append, bytesOfLines, ih, bytesOfLines]
      omega

theorem length_le_bytesOfLines (ls : List (List Char)) : ls.length ≤ bytesOfLines ls := by
  induction ls with
  | nil => exact Nat.le_refl 0
  | cons l ls ih =>
      rw [bytesOfLines, List.length_cons]
      omega

/-- The characters are the given complete lines and the beginning of one more. -/
inductive Breaks : List Char → List (List Char) → List Char → Prop where
  | nil : Breaks [] [] []
  | feed {cs pre run} : Breaks cs pre run → Breaks (cs ++ ['\n']) (pre ++ [run]) []
  | char {cs pre run c} : Breaks cs pre run → c ≠ '\n' → Breaks (cs ++ [c]) pre (run ++ [c])

theorem exists_breaks (cs : List Char) : ∃ pre run, Breaks cs pre run := by
  induction cs using List.reverseRecOn with
  | nil => exact ⟨[], [], .nil⟩
  | append_singleton cs c ih =>
      obtain ⟨pre, run, h⟩ := ih
      by_cases hc : c = '\n'
      · subst hc
        exact ⟨_, _, h.feed⟩
      · exact ⟨_, _, h.char hc⟩

namespace Breaks

variable {cs : List Char} {pre : List (List Char)} {run : List Char}

/-- What follows does not change the complete lines, and begins with the rest of
the open one. -/
theorem lines_append (h : Breaks cs pre run) (ds : List Char) :
    (cs ++ ds).splitOn '\n' = pre ++ (ds.splitOn '\n').modifyHead (run ++ ·) := by
  have hid (ls : List (List Char)) : ls.modifyHead ([] ++ ·) = ls := by cases ls <;> rfl
  induction h generalizing ds with
  | nil => rw [List.nil_append, List.nil_append, hid]
  | feed _ ih =>
      rw [List.append_assoc, ih, List.singleton_append, List.splitOn_cons_eq_if_modifyHead,
        if_pos BEq.rfl, hid]
      simp
  | char _ hc ih =>
      rw [List.append_assoc, ih, List.singleton_append, List.splitOn_cons_eq_if_modifyHead,
        if_neg (by simpa using hc), List.modifyHead_modifyHead]
      simp [Function.comp_def]

theorem splitOn_eq (h : Breaks cs pre run) : cs.splitOn '\n' = pre ++ [run] := by
  simpa using h.lines_append []

/-- More characters without a line feed belong to the open line. -/
theorem append (h : Breaks cs pre run) {ds : List Char} (hds : '\n' ∉ ds) :
    Breaks (cs ++ ds) pre (run ++ ds) := by
  induction ds using List.reverseRecOn with
  | nil => simpa using h
  | append_singleton ds d ih =>
      rw [List.mem_append, List.mem_singleton, not_or] at hds
      rw [← List.append_assoc, ← List.append_assoc]
      exact (ih hds.1).char (Ne.symm hds.2)

theorem length_encode (h : Breaks cs pre run) :
    (encode cs).length = bytesOfLines pre + (encode run).length := by
  induction h with
  | nil => rfl
  | feed _ ih =>
      rw [encode_append, List.length_append, ih, bytesOfLines_concat]
      rfl
  | char _ _ ih =>
      rw [encode_append, List.length_append, ih, encode_append, List.length_append, Nat.add_assoc]

theorem count_eq (h : Breaks cs pre run) : cs.count '\n' = pre.length := by
  induction h with
  | nil => rfl
  | feed _ ih =>
      rw [List.count_append, ih, List.count_singleton_self, List.length_append]
      rfl
  | char _ hc ih =>
      rw [List.count_append, ih, List.count_singleton, if_neg (by simpa using hc)]
      rfl

theorem notMem (h : Breaks cs pre run) : (∀ l ∈ pre, '\n' ∉ l) ∧ '\n' ∉ run := by
  induction h with
  | nil => exact ⟨fun l hl => absurd hl List.not_mem_nil, List.not_mem_nil⟩
  | feed _ ih =>
      refine ⟨fun l hl => ?_, List.not_mem_nil⟩
      rcases List.mem_append.1 hl with hl | hl
      · exact ih.1 l hl
      · exact List.mem_singleton.1 hl ▸ ih.2
  | char _ hc ih =>
      refine ⟨ih.1, ?_⟩
      rw [List.mem_append, List.mem_singleton, not_or]
      exact ⟨ih.2, Ne.symm hc⟩

end Breaks

theorem lineFeed_notMem_of_mem_lines {s : String} {l : List Char} (h : l ∈ lines s) :
    '\n' ∉ l := by
  obtain ⟨pre, run, hbreaks⟩ := exists_breaks s.toList
  rw [lines, hbreaks.splitOn_eq, List.mem_append, List.mem_singleton] at h
  rcases h with h | rfl
  · exact hbreaks.notMem.1 l h
  · exact hbreaks.notMem.2

end Text

namespace Lines

open Ascii Utf8 Text

theorem startsFrom_append (offset : Nat) (acc : Array Nat) (bs ds : List UInt8) :
    startsFrom offset acc (bs ++ ds) =
      startsFrom (offset + bs.length) (startsFrom offset acc bs) ds := by
  induction bs generalizing offset acc with
  | nil => rfl
  | cons b bs ih =>
      rw [List.cons_append, startsFrom, ih, startsFrom, List.length_cons, Nat.add_assoc,
        Nat.add_comm 1]

theorem startsFrom_of_notMem (offset : Nat) (acc : Array Nat) {bs : List UInt8}
    (h : lineFeed ∉ bs) : startsFrom offset acc bs = acc := by
  induction bs generalizing offset with
  | nil => rfl
  | cons b bs ih =>
      rw [List.mem_cons, not_or] at h
      rw [startsFrom, if_neg (by simpa using Ne.symm h.1), ih _ h.2]

/-- A line begins behind the lines before it. -/
theorem startsFrom_encode {cs run : List Char} {pre : List (List Char)} (h : Breaks cs pre run) :
    (startsFrom 0 #[0] (encode cs)).toList = pre.inits.map bytesOfLines := by
  induction h with
  | nil => rfl
  | @feed cs pre run hcs ih =>
      have hend : bytesOfLines (pre ++ [run]) = (encode cs).length + 1 := by
        rw [bytesOfLines_concat, hcs.length_encode, Nat.add_assoc]
      rw [encode_append, startsFrom_append, Nat.zero_add, List.inits_append, List.map_append, ← ih]
      change (Array.push _ ((encode cs).length + 1)).toList = _
      rw [Array.toList_push, ← hend]
      rfl
  | @char cs pre run c _ hc ih =>
      rw [encode_append, startsFrom_append,
        startsFrom_of_notMem _ _ (lineFeed_notMem_encode hc), ih]

theorem starts_ofString (s : String) :
    (ofSource (.ofString s)).starts.toList =
      (lines s).dropLast.inits.map bytesOfLines := by
  obtain ⟨pre, run, h⟩ := exists_breaks s.toList
  rw [lines, h.splitOn_eq, List.dropLast_concat]
  exact startsFrom_encode h

/-- The index has as many lines as the text. -/
theorem count_ofString (s : String) : (ofSource (.ofString s)).count = (lines s).length := by
  have hpos : 0 < (lines s).length := List.length_pos_of_ne_nil (List.splitOn_ne_nil _ _)
  rw [count, ← Array.length_toList, starts_ofString, List.length_map, List.length_inits,
    List.length_dropLast]
  omega

/-- The index knows for every line the number of bytes before it. -/
theorem getElem?_starts_ofString (s : String) {n : Nat} (hn : n < (lines s).length) :
    (ofSource (.ofString s)).starts[n]? = some (bytesOfLines ((lines s).take n)) := by
  have hinits : n < (lines s).dropLast.inits.length := by
    rw [List.length_inits, List.length_dropLast]
    omega
  have htake : (lines s).dropLast.take n = (lines s).take n := by
    rw [List.dropLast_eq_take, List.take_take, Nat.min_eq_left (by omega)]
  rw [← Array.getElem?_toList, starts_ofString, List.getElem?_map,
    List.getElem?_eq_getElem hinits, List.getElem_inits, htake]
  rfl

end Lines

end UniformBlock
