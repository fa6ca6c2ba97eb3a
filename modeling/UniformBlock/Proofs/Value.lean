import UniformBlock.Proofs.Boundary

/-!
# Values and their grammar

Strings, tuples and hints are read exactly where the grammar has them. A tuple is
a list of the grammar with a known number of items. Its components are read by
recursion on that number, and the grammar of what follows an item
(`MoreText`) has the same recursion, so both directions go by one induction: for
soundness on the number of components, for completeness on the derivation.

An item has to be found behind blanks and must not swallow what separates it
from the next one. `IsItem` collects what is needed of its grammar for that.
-/

namespace UniformBlock

open Ascii Grammar Reading

namespace Head

variable {h k : Head} {b w : List UInt8} {a : UInt8}

theorem Takes.skipBlanks (hw : h.Takes (b ++ w) k) (hb : Blanks b)
    (hstop : Stops isBlank (w ++ k.rest)) : h.skipBlanks.Takes w k := by
  obtain ⟨l, hl, hk⟩ := hw.split
  rw [Head.skipBlanks, skipWhile_eq hl hb (by rw [hk.rest_eq]; exact hstop)]
  exact hk

theorem Takes.eat? (hw : h.Takes (a :: w) k) : ∃ l, h.eat? a = some l ∧ l.Takes w k := by
  obtain ⟨l, hl, hk⟩ := hw.uncons
  exact ⟨l, eat?_eq_some_iff.2 hl, hk⟩

end Head

namespace Reading

variable {h k : Head} {b w : List UInt8} {a : UInt8}

theorem skipBlanks_complete (hw : h.Takes (b ++ w) k) (hb : Blanks b)
    (hstop : Stops isBlank (w ++ k.rest)) : ∃ l, skipBlanks h = (.ok (), l) ∧ l.Takes w k :=
  ⟨h.skipBlanks, rfl, hw.skipBlanks hb hstop⟩

theorem expect_complete (cause : Cause) (hw : h.Takes (a :: w) k) :
    ∃ l, expect a cause h = (.ok (), l) ∧ l.Takes w k := by
  obtain ⟨l, hl, hk⟩ := hw.uncons
  exact ⟨l, expect_eq_ok_iff.2 hl, hk⟩

end Reading

namespace Grammar

variable {α : Type} {ItemText : α → List UInt8 → Prop}

/-- What follows an item of a list cannot extend a number. -/
theorem MoreText.stops {as : List α} {t : List UInt8} (h : MoreText ItemText as t)
    (rest : List UInt8) : Stops isLiteral (t ++ rest) := by
  have hblank (b : UInt8) (hb : isBlank b = true) : isLiteral b = false := by
    simp only [isBlank, Bool.or_eq_true, beq_iff_eq] at hb
    rcases hb with ((rfl | rfl) | rfl) | rfl <;> decide
  cases h with
  | close hb =>
      rw [List.append_assoc]
      exact hb.stops hblank (stops_cons.2 (by decide))
  | item hb hc ha has =>
      rw [List.append_assoc]
      exact hb.stops hblank (stops_cons.2 (by decide))

theorem ListText.opens {as : List α} {w : List UInt8} (h : ListText ItemText as w) :
    ∃ t, w = openParen :: t := by
  cases h with
  | empty hb => exact ⟨_, rfl⟩
  | items hb ha has => exact ⟨_, rfl⟩

/-- Every item begins with a byte that is neither a blank nor a closing
parenthesis. -/
def IsItem (ItemText : α → List UInt8 → Prop) : Prop :=
  ∀ a w, ItemText a w → ∃ b, w.head? = some b ∧ isBlank b = false ∧ b ≠ closeParen

theorem IsItem.stops (hitem : IsItem ItemText) {a : α} {w : List UInt8} (ha : ItemText a w)
    (rest : List UInt8) : Stops isBlank (w ++ rest) := by
  obtain ⟨b, hhead, hb, -⟩ := hitem a w ha
  obtain ⟨bs, rfl⟩ := List.head?_eq_some_iff.1 hhead
  exact stops_cons.2 hb

theorem begins_of_isDigit {b : UInt8} (hb : isDigit b = true) :
    isBlank b = false ∧ b ≠ closeParen := by
  rw [isDigit_iff] at hb
  constructor
  · rw [Bool.eq_false_iff]
    intro hblank
    simp only [isBlank, Bool.or_eq_true, beq_iff_eq] at hblank
    rcases hblank with ((rfl | rfl) | rfl) | rfl <;> exact absurd hb (by decide)
  · rintro rfl
    exact absurd hb (by decide)

theorem begins_of_isSign {b : UInt8} (hb : isSign b = true) :
    isBlank b = false ∧ b ≠ closeParen := by
  simp only [isSign, Bool.or_eq_true, beq_iff_eq] at hb
  rcases hb with rfl | rfl <;> decide

theorem isItem_numberText : IsItem NumberText := by
  rintro x w ⟨l, hl, -, rfl⟩
  cases hs : l.sign with
  | some b => exact ⟨b, by simp [FloatLiteral.bytes, hs], begins_of_isSign (hl.sign b hs)⟩
  | none =>
      cases hw : l.whole with
      | cons d ds =>
          exact ⟨d, by simp [FloatLiteral.bytes, hs, hw],
            begins_of_isDigit (hl.whole d (by rw [hw]; exact List.mem_cons_self))⟩
      | nil =>
          obtain ⟨ds, hf, -⟩ := hl.mantissa.resolve_left (fun h => h hw)
          exact ⟨point, by simp [FloatLiteral.bytes, hs, hw, hf], by decide⟩

end Grammar

namespace Value

variable {α : Type} {ItemText : α → List UInt8 → Prop} {kind : TupleKind}
  {component : Reading α}

theorem mapFault_eq_ok_iff {r : Reading α} {f : Fault → Fault} {h k : Head} {a : α} :
    r.mapFault f h = (.ok a, k) ↔ r h = (.ok a, k) := by
  unfold Reading.mapFault
  cases hr : r h with
  | mk x l => cases x <;> simp

/-! ## Tuples -/

theorem components_sound
    (hc : ∀ {h k : Head} {a : α}, component h = (.ok a, k) → ∃ w, ItemText a w ∧ h.Takes w k)
    {index n : Nat} (hindex : 1 < index) {h k l : Head} {as : List α} {b : List UInt8}
    (hr : components kind component index n h = (.ok as, k)) (hb : Blanks b)
    (hclose : k.Takes (b ++ [closeParen]) l) :
    ∃ t, MoreText ItemText as t ∧ as.length = n ∧ h.Takes t l := by
  induction n generalizing index h as with
  | zero =>
      obtain ⟨rfl, rfl⟩ := pure_eq_ok_iff.1 hr
      exact ⟨_, .close hb, rfl, hclose⟩
  | succ n ih =>
      obtain ⟨_, h₁, hsep, hr⟩ := bind_eq_ok_iff.1 hr
      obtain ⟨_, h₃, hblanks, hr⟩ := bind_eq_ok_iff.1 hr
      obtain ⟨a, h₄, ha, hr⟩ := bind_eq_ok_iff.1 hr
      obtain ⟨as, h₅, has, hr⟩ := bind_eq_ok_iff.1 hr
      obtain ⟨rfl, rfl⟩ := pure_eq_ok_iff.1 hr
      rw [separator, if_neg (Nat.ne_of_gt hindex)] at hsep
      obtain ⟨_, h₀, hbefore, hcomma⟩ := bind_eq_ok_iff.1 hsep
      obtain ⟨c, hc', htakes₀, -⟩ := skipBlanks_eq_ok_iff.1 hbefore
      have htakes₁ := expect_eq_ok_iff.1 hcomma
      obtain ⟨d, hd, htakes₃, -⟩ := skipBlanks_eq_ok_iff.1 hblanks
      obtain ⟨w, hw, htakes₄⟩ := hc (mapFault_eq_ok_iff.1 ha)
      obtain ⟨t, ht, hlength, htakes₅⟩ := ih (Nat.lt_succ_of_lt hindex) has
      refine ⟨_, .item hc' hd hw ht, by rw [List.length_cons, hlength], ?_⟩
      exact htakes₀.append (htakes₁.append (htakes₃.append (htakes₄.append htakes₅)))

theorem components_complete (hitem : IsItem ItemText)
    (hc : ∀ {h k : Head} {a : α} {w : List UInt8}, ItemText a w → h.Takes w k →
      Stops isLiteral k.rest → component h = (.ok a, k))
    {index : Nat} (hindex : 1 < index) {h l : Head} {as : List α} {t : List UInt8}
    (has : MoreText ItemText as t) (ht : h.Takes t l) :
    ∃ k b, components kind component index as.length h = (.ok as, k) ∧ Blanks b ∧
      k.Takes (b ++ [closeParen]) l := by
  induction has generalizing index h with
  | @close b hb => exact ⟨h, b, rfl, hb, ht⟩
  | @item b c w t a as hb hc' ha has ih =>
      obtain ⟨h₀, hbefore, ht⟩ := skipBlanks_complete ht hb (stops_cons.2 (by decide))
      obtain ⟨h₁, hcomma, ht⟩ := expect_complete .tupleUnseparated ht
      obtain ⟨h₃, hblanks, ht⟩ := skipBlanks_complete ht hc'
        (by rw [List.append_assoc]; exact hitem.stops ha _)
      obtain ⟨h₄, hw, ht⟩ := ht.split
      obtain ⟨k, b', hrest, hb', hclose⟩ := ih (Nat.lt_succ_of_lt hindex) ht
      have hstop : Stops isLiteral h₄.rest := by
        rw [ht.rest_eq]
        exact has.stops _
      refine ⟨k, b', bind_eq_ok_iff.2 ⟨(), h₁, ?_, ?_⟩, hb', hclose⟩
      · rw [separator, if_neg (Nat.ne_of_gt hindex)]
        exact bind_eq_ok_iff.2 ⟨(), h₀, hbefore, hcomma⟩
      · refine bind_eq_ok_iff.2 ⟨(), h₃, hblanks, bind_eq_ok_iff.2 ⟨a, h₄, ?_, ?_⟩⟩
        · exact mapFault_eq_ok_iff.2 (hc ha hw hstop)
        · exact bind_eq_ok_iff.2 ⟨as, k, hrest, rfl⟩

theorem tuple_sound
    (hc : ∀ {h k : Head} {a : α}, component h = (.ok a, k) → ∃ w, ItemText a w ∧ h.Takes w k)
    {n : Nat} (hn : 1 ≤ n) {h k : Head} {as : List α}
    (hr : tuple kind component n h = (.ok as, k)) :
    ∃ w, ListText ItemText as w ∧ as.length = n ∧ h.Takes w k := by
  obtain ⟨n, rfl⟩ : ∃ m, n = m + 1 := ⟨n - 1, by omega⟩
  obtain ⟨_, h₁, hopen, hr⟩ := bind_eq_ok_iff.1 hr
  obtain ⟨as', h₂, hcomponents, hr⟩ := bind_eq_ok_iff.1 hr
  obtain ⟨_, h₃, hblanks, hr⟩ := bind_eq_ok_iff.1 hr
  obtain ⟨_, h₄, hclose, hr⟩ := bind_eq_ok_iff.1 hr
  obtain ⟨rfl, rfl⟩ := pure_eq_ok_iff.1 hr
  obtain ⟨b, hb, htakes₃, -⟩ := skipBlanks_eq_ok_iff.1 hblanks
  have htakes₄ := htakes₃.append (expect_eq_ok_iff.1 hclose)
  -- the first component stands behind blanks only, without a separator
  obtain ⟨_, h₅, hsep, hr⟩ := bind_eq_ok_iff.1 hcomponents
  obtain ⟨_, h₆, hblanks, hr⟩ := bind_eq_ok_iff.1 hr
  obtain ⟨a, h₇, ha, hr⟩ := bind_eq_ok_iff.1 hr
  obtain ⟨as, h₈, has, hr⟩ := bind_eq_ok_iff.1 hr
  obtain ⟨rfl, rfl⟩ := pure_eq_ok_iff.1 hr
  rw [separator, if_pos rfl] at hsep
  obtain ⟨-, rfl⟩ := pure_eq_ok_iff.1 hsep
  obtain ⟨c, hc', htakes₆, -⟩ := skipBlanks_eq_ok_iff.1 hblanks
  obtain ⟨w, hw, htakes₇⟩ := hc (mapFault_eq_ok_iff.1 ha)
  obtain ⟨t, ht, hlength, htakes₈⟩ := components_sound hc (Nat.lt_succ_self 1) has hb htakes₄
  refine ⟨_, .items hc' hw ht, by rw [List.length_cons, hlength], ?_⟩
  exact (expect_eq_ok_iff.1 hopen).append (htakes₆.append (htakes₇.append htakes₈))

theorem tuple_complete (hitem : IsItem ItemText)
    (hc : ∀ {h k : Head} {a : α} {w : List UInt8}, ItemText a w → h.Takes w k →
      Stops isLiteral k.rest → component h = (.ok a, k))
    {h k : Head} {as : List α} {w : List UInt8} (has : ListText ItemText as w)
    (hne : as ≠ []) (hw : h.Takes w k) : tuple kind component as.length h = (.ok as, k) := by
  cases has with
  | empty hb => exact absurd rfl hne
  | @items b w t a as hb ha has =>
      obtain ⟨h₁, hopen, hw⟩ := expect_complete (.tupleUnopened kind) hw
      obtain ⟨h₂, hblanks, hw⟩ := skipBlanks_complete hw hb
        (by rw [List.append_assoc]; exact hitem.stops ha _)
      obtain ⟨h₃, ha', ht⟩ := hw.split
      have hstop : Stops isLiteral h₃.rest := by
        rw [ht.rest_eq]
        exact has.stops _
      obtain ⟨h₄, c, hrest, hc', hclose⟩ :=
        components_complete hitem hc (Nat.lt_succ_self 1) has ht
      obtain ⟨h₅, hblanks', hclose⟩ :=
        skipBlanks_complete hclose hc' (stops_cons.2 (by decide))
      obtain ⟨h₆, hclose, hend⟩ := expect_complete (.tupleUnclosed kind) hclose
      obtain rfl := hend.eq_of_nil
      have hcomponents : components kind component 1 (as.length + 1) h₁ = (.ok (a :: as), h₄) := by
        refine bind_eq_ok_iff.2 ⟨(), h₁, rfl, bind_eq_ok_iff.2 ⟨(), h₂, hblanks, ?_⟩⟩
        refine bind_eq_ok_iff.2 ⟨a, h₃, mapFault_eq_ok_iff.2 (hc ha ha' hstop), ?_⟩
        exact bind_eq_ok_iff.2 ⟨as, h₄, hrest, rfl⟩
      refine bind_eq_ok_iff.2 ⟨(), h₁, hopen, bind_eq_ok_iff.2 ⟨a :: as, h₄, hcomponents, ?_⟩⟩
      refine bind_eq_ok_iff.2 ⟨(), h₅, hblanks', ?_⟩
      exact bind_eq_ok_iff.2 ⟨(), k, hclose, rfl⟩

/-! ## Strings -/

theorem stringBody_sound {quote : UInt8} (hquote : quote.toNat < 0x80) {h k : Head} {s : String}
    (hh : Utf8.IsText h.rest) (hr : stringBody quote h = (.ok s, k)) :
    quote ∉ Utf8.bytes s ∧ h.Takes (Utf8.bytes s ++ [quote]) k := by
  obtain ⟨hbody, -⟩ := stringBody_spec hquote hh
  have htakes := Head.takes_skipWhile h (· != quote)
  unfold stringBody at hr
  simp only at hr
  split at hr
  · rename_i l hl
    obtain ⟨hs, rfl⟩ := Prod.mk.inj hr
    obtain rfl := Except.ok.inj hs
    rw [Utf8.bytes_text hbody]
    refine ⟨fun hmem => ?_, htakes.append (Head.eat?_eq_some_iff.1 hl)⟩
    have hne := run_takeWhile (· != quote) h.rest quote hmem
    simp at hne
  · simp at hr

theorem stringBody_complete {quote : UInt8} {h k : Head} {s : String}
    (hquote : quote ∉ Utf8.bytes s) (hw : h.Takes (Utf8.bytes s ++ [quote]) k) :
    stringBody quote h = (.ok s, k) := by
  obtain ⟨l, hl, hk⟩ := hw.split
  have hrun : Run (· != quote) (Utf8.bytes s) := by
    intro b hb
    rw [bne_iff_ne]
    rintro rfl
    exact hquote hb
  have hstop : Stops (· != quote) l.rest := by
    rw [hk.rest_eq]
    exact stops_cons.2 (by simp)
  have hbody : h.rest.takeWhile (· != quote) = Utf8.bytes s := by
    rw [hl.rest_eq, takeWhile_append hrun hstop]
  have hskip : h.skip (Utf8.bytes s).length = l := hl.eq_skip.symm
  simp only [stringBody, hbody, hskip, Head.eat?_eq_some_iff.2 hk, Utf8.text_bytes]

theorem string_sound {h k : Head} {s : String} (hh : Utf8.IsText h.rest)
    (hr : string h = (.ok s, k)) : ∃ w, QuotedText s w ∧ h.Takes w k := by
  unfold string at hr
  split at hr
  · rename_i b hb
    split at hr
    · rename_i hquote
      have hascii := toNat_lt_of_isQuote hquote
      have heat : h.eat? b = some (h.skip 1) := if_pos hb
      have hmeets := Head.meets_of_eat? hascii heat hh
      obtain ⟨hmem, htakes⟩ := stringBody_sound hascii hmeets.2 hr
      exact ⟨_, ⟨b, hquote, hmem, rfl⟩, (Head.eat?_eq_some_iff.1 heat).append htakes⟩
    · simp at hr
  · simp at hr

theorem string_complete {h k : Head} {s : String} {w : List UInt8} (hs : QuotedText s w)
    (hw : h.Takes w k) : string h = (.ok s, k) := by
  obtain ⟨quote, hquote, hmem, rfl⟩ := hs
  obtain ⟨l, hl, hbody⟩ := hw.eat?
  have hpeek : h.peek? = some quote := by
    rw [Head.peek?, hw.rest_eq]
    rfl
  have hskip : l = h.skip 1 := (Head.eat?_eq_some_iff.1 hl).eq_skip
  rw [string, hpeek]
  simp only [if_pos hquote]
  rw [← hskip]
  exact stringBody_complete hmem hbody

theorem boundedString_eq_ok_iff {bound : Nat} {h k : Head} {s : String} :
    boundedString (some bound) h = (.ok s, k) ↔
      string h = (.ok s, k) ∧ s.utf8ByteSize ≤ bound := by
  unfold boundedString
  cases hr : string h with
  | mk x l =>
      cases x with
      | error e => simp
      | ok t =>
          simp only
          by_cases ht : t.utf8ByteSize ≤ bound
          · rw [if_pos ht]
            constructor
            · intro heq
              obtain ⟨hs, rfl⟩ := Prod.mk.inj heq
              obtain rfl := Except.ok.inj hs
              exact ⟨rfl, ht⟩
            · exact fun heq => heq.1
          · rw [if_neg ht]
            constructor
            · intro heq
              simp at heq
            · rintro ⟨heq, hle⟩
              obtain rfl := Except.ok.inj (Prod.mk.inj heq).1
              exact absurd hle ht

end Value

namespace Metadata

/-! ## Hints -/

theorem readHint_sound {n : Nat} (hn : 1 ≤ n) {h k : Head} {xs : List Single}
    (hr : readHint n h = (.ok xs, k)) : ∃ w, HintText n xs w ∧ h.Takes w k := by
  unfold readHint at hr
  split at hr
  · rename_i hone
    subst hone
    obtain ⟨x, l, hx, hr⟩ := bind_eq_ok_iff.1 hr
    obtain ⟨rfl, rfl⟩ := pure_eq_ok_iff.1 hr
    obtain ⟨w, hw, htakes⟩ := Value.float_sound hx
    exact ⟨w, .scalar hw, htakes⟩
  · obtain ⟨w, hw, hlength, htakes⟩ := Value.tuple_sound Value.float_sound hn hr
    exact ⟨w, .tuple (by omega) hlength hw, htakes⟩

theorem readHint_complete {n : Nat} {h k : Head} {xs : List Single} {w : List UInt8}
    (hx : HintText n xs w) (hw : h.Takes w k) (hstop : Stops isLiteral k.rest) :
    readHint n h = (.ok xs, k) := by
  cases hx with
  | @scalar x _ hx =>
      rw [readHint, if_pos rfl]
      exact bind_eq_ok_iff.2 ⟨x, k, Value.float_complete hx hw hstop, rfl⟩
  | tuple hn hlength hxs =>
      rw [readHint, if_neg (by omega), Value.floats, ← hlength]
      refine Value.tuple_complete isItem_numberText Value.float_complete hxs ?_ hw
      rintro rfl
      rw [List.length_nil] at hlength
      omega

end Metadata

end UniformBlock
