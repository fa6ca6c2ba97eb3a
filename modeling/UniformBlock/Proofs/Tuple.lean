import UniformBlock.Proofs.Integer
import UniformBlock.Proofs.Refusal

/-!
# Tuples and their faults

A tuple of `n` components is

    tuple := "(" B* v B* ("," B* v B*){n-1} ")"

where each `v` takes what the reader of the component takes. The grammar is stated
along the heads that are passed (`Components`, `IsTuple`), with blanks that need not be
all the blanks there are: no component begins with one.

A tuple that is not there is refused at one byte for one reason (`TupleRefused`): a
number of components have been read, and what should follow them does not. The reader
succeeds and fails in exactly these ways. Its loop is taken apart once for success and
once for failure, one component at a time, and both descriptions follow by induction on
the number of components.
-/

namespace UniformBlock

open Ascii Grammar Reading

/-! ## Items of lists -/

namespace Grammar

variable {α β : Type} {P : α → List UInt8 → Prop} {Q : β → List UInt8 → Prop} {f : α → β}

theorem MoreText.map (hPQ : ∀ a w, P a w → Q (f a) w) {as : List α} {t : List UInt8}
    (h : MoreText P as t) : MoreText Q (as.map f) t := by
  induction h with
  | close hb => exact .close hb
  | item hb hc ha has ih => exact .item hb hc (hPQ _ _ ha) ih

theorem ListText.map (hPQ : ∀ a w, P a w → Q (f a) w) {as : List α} {w : List UInt8}
    (h : ListText P as w) : ListText Q (as.map f) w := by
  cases h with
  | empty hb => exact .empty hb
  | items hb ha has => exact .items hb (hPQ _ _ ha) (has.map hPQ)

theorem isItem_denotes : IsItem fun m w => Denotes w m := by
  intro m w hm
  obtain ⟨l, hl, rfl, -⟩ := denotes_iff.1 hm
  cases hs : l.sign with
  | some b => exact ⟨b, by simp [IntegerLiteral.bytes, hs], begins_of_isSign (hl.sign b hs)⟩
  | none =>
      obtain ⟨d, ds, hd⟩ := List.exists_cons_of_ne_nil hl.digits_ne_nil
      exact ⟨d, by simp [IntegerLiteral.bytes, hs, hd],
        begins_of_isDigit (hl.digits d (by rw [hd]; exact List.mem_cons_self))⟩

theorem isItem_decimalText : IsItem DecimalText :=
  fun m w hw => isItem_denotes m w hw.denotes.1

end Grammar

/-! ## The grammar of tuples -/

/-- The scalars that tuples are made of. -/
inductive Scalar where
  | integer
  | float
  | angle

namespace Scalar

def Carrier : Scalar → Type
  | integer => Int
  | float => Single
  | angle => Single

def kind : Scalar → TupleKind
  | integer => .integer
  | float => .float
  | angle => .angle

def read : (s : Scalar) → Reading s.Carrier
  | integer => Value.integer
  | float => Value.float
  | angle => Value.angle

def readTuple : (s : Scalar) → Nat → Reading (List s.Carrier)
  | integer => Value.integers
  | float => Value.floats
  | angle => Value.angles

theorem readTuple_eq (s : Scalar) (n : Nat) :
    s.readTuple n = Value.tuple s.kind s.read n := by
  cases s <;> rfl

end Scalar

namespace Value

variable {α : Type}

/-- What stands in front of the component with the given index: blanks, and behind
another component a comma among them. -/
inductive Gap : Nat → List UInt8 → Prop
  | first {b : List UInt8} (hb : Blanks b) : Gap 1 b
  | next {index : Nat} {b c : List UInt8} (hindex : 1 < index) (hb : Blanks b) (hc : Blanks c) :
      Gap index (b ++ comma :: c)

/-- Components from an index on, between two heads. -/
inductive Components (v : Reading α) : Nat → Head → List α → Head → Prop
  | nil {index : Nat} {h : Head} : Components v index h [] h
  | cons {index : Nat} {g : List UInt8} {h l m k : Head} {a : α} {as : List α}
      (hg : Gap index g) (hl : h.Takes g l) (ha : v l = (.ok a, m))
      (has : Components v (index + 1) m as k) : Components v index h (a :: as) k

/-- A tuple of `n` components, between two heads. -/
inductive IsTuple (v : Reading α) (n : Nat) (h : Head) (as : List α) (k : Head) : Prop
  | mk {l m : Head} {b : List UInt8} (hopen : h.Takes [openParen] l)
      (has : Components v 1 l as m) (hlength : as.length = n) (hb : Blanks b)
      (hclose : m.Takes (b ++ [closeParen]) k)

/-- How the component with the given index is refused. -/
inductive ComponentRefused (kind : TupleKind) (v : Reading α) (index : Nat) (h : Head) :
    Fault → Prop
  /-- The first byte behind the blanks is not a comma. -/
  | unseparated {b : List UInt8} {l : Head} (hindex : 1 < index) (hb : Blanks b)
      (hl : h.Takes b l) (hblank : Stops isBlank l.rest) (hcomma : Stops (· == comma) l.rest) :
      ComponentRefused kind v index h ⟨l.pos, .tupleUnseparated⟩
  /-- There is no scalar where the component should begin. -/
  | scalar {g : List UInt8} {l m : Head} {f : Fault} (hg : Gap index g) (hl : h.Takes g l)
      (hblank : Stops isBlank l.rest) (hf : v l = (.error f, m))
      (hcause : f.cause = .notANumber ∨ f.cause = .notAnInteger) :
      ComponentRefused kind v index h ⟨l.pos, .tupleComponent index kind⟩
  /-- The scalar is an angle without a unit. -/
  | unit {g : List UInt8} {l m : Head} {f : Fault} (hg : Gap index g) (hl : h.Takes g l)
      (hblank : Stops isBlank l.rest) (hf : v l = (.error f, m))
      (hcause : f.cause = .angleWithoutUnit) : ComponentRefused kind v index h f

/-- How a tuple of `n` components is refused. -/
inductive TupleRefused (kind : TupleKind) (v : Reading α) (n : Nat) (h : Head) : Fault → Prop
  | unopened (hopen : Stops (· == openParen) h.rest) :
      TupleRefused kind v n h ⟨h.pos, .tupleUnopened kind⟩
  /-- The components `as` are there, and the next one is refused. -/
  | component {l m : Head} {as : List α} {e : Fault} (hopen : h.Takes [openParen] l)
      (has : Components v 1 l as m) (hlength : as.length < n)
      (he : ComponentRefused kind v (as.length + 1) m e) : TupleRefused kind v n h e
  /-- The first byte behind all components and blanks is not a closing parenthesis. -/
  | unclosed {l m k : Head} {as : List α} {b : List UInt8} (hopen : h.Takes [openParen] l)
      (has : Components v 1 l as m) (hlength : as.length = n) (hb : Blanks b)
      (hk : m.Takes b k) (hblank : Stops isBlank k.rest) (hclose : Stops (· == closeParen) k.rest) :
      TupleRefused kind v n h ⟨k.pos, .tupleUnclosed kind⟩

/-! ## Scalars -/

/-- What the readers of scalars have in common: no scalar begins with a blank, and one
that is not there is reported where it should begin. -/
structure IsScalar (v : Reading α) : Prop where
  stops : ∀ {h k : Head} {a : α}, v h = (.ok a, k) → Stops isBlank h.rest
  fault : ∀ {h k : Head} {e : Fault}, v h = (.error e, k) →
    e = ⟨h.pos, .notANumber⟩ ∨ e = ⟨h.pos, .notAnInteger⟩ ∨ e.cause = .angleWithoutUnit

theorem isScalar_integer : IsScalar integer where
  stops {h k m} hr := by
    obtain ⟨w, hw, htakes⟩ := integer_sound hr
    rw [htakes.rest_eq]
    exact isItem_denotes.stops hw _
  fault {h k e} hr := by
    unfold integer at hr
    split at hr
    · split at hr
      · simp at hr
      · exact .inr (.inl (Except.error.inj (Prod.mk.inj hr).1).symm)
    · exact .inr (.inl (Except.error.inj (Prod.mk.inj hr).1).symm)

theorem isScalar_float : IsScalar float where
  stops {h k x} hr := by
    obtain ⟨w, hw, htakes⟩ := float_sound hr
    rw [htakes.rest_eq]
    exact isItem_numberText.stops hw _
  fault {h k e} hr := by
    unfold float at hr
    split at hr
    · simp at hr
    · exact .inl (Except.error.inj (Prod.mk.inj hr).1).symm

theorem isScalar_angle : IsScalar angle where
  stops hr := by
    obtain ⟨x, l, hx, -⟩ := bind_eq_ok_iff.1 hr
    exact isScalar_float.stops hx
  fault {h k e} hr := by
    rcases bind_eq_error_iff.1 hr with hr | ⟨x, l, -, hr⟩
    · exact isScalar_float.fault hr
    · obtain hr | ⟨_, m, -, hr⟩ := bind_eq_error_iff.1 hr
      · simp [skipBlanks] at hr
      · unfold angleUnit at hr
        split at hr
        · simp at hr
        · split at hr
          · simp at hr
          · exact .inr (.inr (by rw [← Except.error.inj (Prod.mk.inj hr).1]))

theorem isScalar_read (s : Scalar) : IsScalar s.read := by
  cases s with
  | integer => exact isScalar_integer
  | float => exact isScalar_float
  | angle => exact isScalar_angle

/-! ## One component -/

variable {kind : TupleKind} {v : Reading α} {index n : Nat} {h k : Head} {e : Fault}

theorem mapFault_eq_error_iff {r : Reading α} {f : Fault → Fault} :
    r.mapFault f h = (.error e, k) ↔ ∃ e', r h = (.error e', k) ∧ f e' = e := by
  unfold Reading.mapFault
  cases hr : r h with
  | mk x l => cases x <;> simp [and_comm]

/-- What stands in front of a component is skipped as far as there are blanks. -/
theorem gap_eq_ok_iff (hindex : 1 ≤ index) {u : Unit} :
    (separator index >>= fun _ => skipBlanks) h = (.ok u, k) ↔
      ∃ g, Gap index g ∧ h.Takes g k ∧ Stops isBlank k.rest := by
  rw [bind_eq_ok_iff]
  by_cases hone : index = 1
  · subst hone
    constructor
    · rintro ⟨_, l, hsep, hblanks⟩
      rw [separator, if_pos rfl] at hsep
      obtain ⟨-, rfl⟩ := pure_eq_ok_iff.1 hsep
      obtain ⟨b, hb, hk, hstop⟩ := skipBlanks_eq_ok_iff.1 hblanks
      exact ⟨b, .first hb, hk, hstop⟩
    · rintro ⟨g, hg, hk, hstop⟩
      cases hg with
      | first hb => exact ⟨(), h, rfl, skipBlanks_eq_ok_iff.2 ⟨g, hb, hk, hstop⟩⟩
      | next hindex hb hc => omega
  · constructor
    · rintro ⟨_, l, hsep, hblanks⟩
      rw [separator, if_neg hone] at hsep
      obtain ⟨_, l', hbefore, hcomma⟩ := bind_eq_ok_iff.1 hsep
      obtain ⟨b, hb, hl', -⟩ := skipBlanks_eq_ok_iff.1 hbefore
      obtain ⟨c, hc, hk, hstop⟩ := skipBlanks_eq_ok_iff.1 hblanks
      exact ⟨b ++ comma :: c, .next (by omega) hb hc,
        hl'.append ((expect_eq_ok_iff.1 hcomma).append hk), hstop⟩
    · rintro ⟨g, hg, hk, hstop⟩
      cases hg with
      | first hb => exact absurd rfl hone
      | @next _ b c hindex hb hc =>
          obtain ⟨l', hbefore, hk⟩ := skipBlanks_complete hk hb (stops_cons.2 (by decide))
          obtain ⟨l, hcomma, hk⟩ := expect_complete .tupleUnseparated hk
          refine ⟨(), l, ?_, skipBlanks_eq_ok_iff.2 ⟨c, hc, hk, hstop⟩⟩
          rw [separator, if_neg hone]
          exact bind_eq_ok_iff.2 ⟨(), l', hbefore, hcomma⟩

/-- In front of a component, only the comma can be missing. -/
theorem gap_eq_error_iff :
    (separator index >>= fun _ => skipBlanks) h = (.error e, k) ↔
      index ≠ 1 ∧ ∃ b, Blanks b ∧ h.Takes b k ∧ Stops isBlank k.rest ∧
        Stops (· == comma) k.rest ∧ e = ⟨k.pos, .tupleUnseparated⟩ := by
  have hskip (l : Head) : skipBlanks l ≠ (.error e, k) := by simp [skipBlanks]
  rw [bind_eq_error_iff, or_iff_left (by rintro ⟨_, l, -, hr⟩; exact hskip l hr)]
  by_cases hone : index = 1
  · rw [separator, if_pos hone]
    simp [hone]
  rw [separator, if_neg hone, bind_eq_error_iff, or_iff_right (hskip h)]
  constructor
  · rintro ⟨_, l, hbefore, hcomma⟩
    obtain ⟨b, hb, hl, hstop⟩ := skipBlanks_eq_ok_iff.1 hbefore
    obtain ⟨heat, rfl, rfl⟩ := expect_eq_error_iff.1 hcomma
    exact ⟨hone, b, hb, hl, hstop, Head.stops_of_eat?_eq_none heat, rfl⟩
  · rintro ⟨-, b, hb, hk, hstop, hcomma, rfl⟩
    exact ⟨(), k, skipBlanks_eq_ok_iff.2 ⟨b, hb, hk, hstop⟩,
      expect_eq_error_iff.2 ⟨Head.eat?_eq_none hcomma, rfl, rfl⟩⟩

/-- The loop reads one component and goes on behind it. -/
theorem components_succ (kind : TupleKind) (v : Reading α) (index n : Nat) :
    components kind v index (n + 1) = (do
      separator index >>= fun _ => skipBlanks
      let a ← v.mapFault (asComponent index kind)
      let as ← components kind v (index + 1) n
      pure (a :: as)) := by
  funext h
  simp only [components, bind_apply]
  split <;> rfl

theorem asComponent_eq (hv : IsScalar v) (hf : v h = (.error e, k)) (index : Nat)
    (kind : TupleKind) :
    (e.cause = .notANumber ∨ e.cause = .notAnInteger) ∧
        asComponent index kind e = ⟨h.pos, .tupleComponent index kind⟩ ∨
      e.cause = .angleWithoutUnit ∧ asComponent index kind e = e := by
  rcases hv.fault hf with rfl | rfl | hcause
  · exact .inl ⟨.inl rfl, rfl⟩
  · exact .inl ⟨.inr rfl, rfl⟩
  · exact .inr ⟨hcause, by rw [asComponent, hcause]⟩

theorem components_succ_eq_ok_iff (hv : IsScalar v) (hindex : 1 ≤ index) {bs : List α} :
    components kind v index (n + 1) h = (.ok bs, k) ↔
      ∃ g l a m as, Gap index g ∧ h.Takes g l ∧ v l = (.ok a, m) ∧
        components kind v (index + 1) n m = (.ok as, k) ∧ bs = a :: as := by
  rw [components_succ]
  constructor
  · intro hr
    obtain ⟨_, l, hgap, hr⟩ := bind_eq_ok_iff.1 hr
    obtain ⟨a, m, ha, hr⟩ := bind_eq_ok_iff.1 hr
    obtain ⟨as, k', has, hr⟩ := bind_eq_ok_iff.1 hr
    obtain ⟨rfl, rfl⟩ := pure_eq_ok_iff.1 hr
    obtain ⟨g, hg, hl, -⟩ := (gap_eq_ok_iff hindex).1 hgap
    exact ⟨g, l, a, m, as, hg, hl, mapFault_eq_ok_iff.1 ha, has, rfl⟩
  · rintro ⟨g, l, a, m, as, hg, hl, ha, has, rfl⟩
    have hgap := (gap_eq_ok_iff (u := ()) hindex).2 ⟨g, hg, hl, hv.stops ha⟩
    exact bind_eq_ok_iff.2 ⟨(), l, hgap, bind_eq_ok_iff.2 ⟨a, m, mapFault_eq_ok_iff.2 ha,
      bind_eq_ok_iff.2 ⟨as, k, has, rfl⟩⟩⟩

theorem ComponentRefused.components_eq_error (hv : IsScalar v) (hindex : 1 ≤ index)
    (he : ComponentRefused kind v index h e) (n : Nat) :
    ∃ k, components kind v index (n + 1) h = (.error e, k) := by
  have hfault {g : List UInt8} {l m : Head} {f : Fault} (hg : Gap index g) (hl : h.Takes g l)
      (hblank : Stops isBlank l.rest) (hf : v l = (.error f, m)) :
      components kind v index (n + 1) h = (.error (asComponent index kind f), m) := by
    have hgap := (gap_eq_ok_iff (u := ()) hindex).2 ⟨g, hg, hl, hblank⟩
    rw [components_succ]
    exact bind_eq_error_iff.2 (.inr ⟨(), l, hgap,
      bind_eq_error_iff.2 (.inl (mapFault_eq_error_iff.2 ⟨f, hf, rfl⟩))⟩)
  cases he with
  | @unseparated b l hnext hb hl hblank hcomma =>
      have hgap := gap_eq_error_iff.2
        ⟨Nat.ne_of_gt hnext, b, hb, hl, hblank, hcomma, rfl⟩
      rw [components_succ]
      exact ⟨l, bind_eq_error_iff.2 (.inl hgap)⟩
  | scalar hg hl hblank hf hcause =>
      obtain ⟨-, heq⟩ | ⟨hunit, -⟩ := asComponent_eq hv hf index kind
      · exact ⟨_, heq ▸ hfault hg hl hblank hf⟩
      · simp [hunit] at hcause
  | unit hg hl hblank hf hcause =>
      obtain ⟨hscalar, -⟩ | ⟨-, heq⟩ := asComponent_eq hv hf index kind
      · simp [hcause] at hscalar
      · exact ⟨_, heq ▸ hfault hg hl hblank hf⟩

theorem components_succ_eq_error_iff (hv : IsScalar v) (hindex : 1 ≤ index) :
    (∃ k, components kind v index (n + 1) h = (.error e, k)) ↔
      ComponentRefused kind v index h e ∨
        ∃ g l a m, Gap index g ∧ h.Takes g l ∧ v l = (.ok a, m) ∧
          ∃ k, components kind v (index + 1) n m = (.error e, k) := by
  constructor
  · -- the fault arises in front of the component, at it, or at a later one
    rintro ⟨k, hr⟩
    rw [components_succ] at hr
    obtain hr | ⟨_, l, hgap, hr⟩ := bind_eq_error_iff.1 hr
    · obtain ⟨hone, b, hb, hk, hstop, hcomma, rfl⟩ := gap_eq_error_iff.1 hr
      exact .inl (.unseparated (by omega) hb hk hstop hcomma)
    obtain ⟨g, hg, hl, hstop⟩ := (gap_eq_ok_iff hindex).1 hgap
    obtain hr | ⟨a, m, ha, hr⟩ := bind_eq_error_iff.1 hr
    · obtain ⟨f, hf, rfl⟩ := mapFault_eq_error_iff.1 hr
      obtain ⟨hcause, heq⟩ | ⟨hcause, heq⟩ := asComponent_eq hv hf index kind
      · rw [heq]
        exact .inl (.scalar hg hl hstop hf hcause)
      · rw [heq]
        exact .inl (.unit hg hl hstop hf hcause)
    obtain hr | ⟨as, m', -, hr⟩ := bind_eq_error_iff.1 hr
    · exact .inr ⟨g, l, a, m, hg, hl, mapFault_eq_ok_iff.1 ha, k, hr⟩
    · simp at hr
  · rintro (he | ⟨g, l, a, m, hg, hl, ha, k, hr⟩)
    · exact he.components_eq_error hv hindex n
    · have hgap := (gap_eq_ok_iff (u := ()) hindex).2 ⟨g, hg, hl, hv.stops ha⟩
      rw [components_succ]
      exact ⟨k, bind_eq_error_iff.2 (.inr ⟨(), l, hgap, bind_eq_error_iff.2 (.inr
        ⟨a, m, mapFault_eq_ok_iff.2 ha, bind_eq_error_iff.2 (.inl hr)⟩)⟩)⟩

/-! ## All components -/

theorem components_eq_ok_iff (hv : IsScalar v) (hindex : 1 ≤ index) {as : List α} :
    components kind v index n h = (.ok as, k) ↔ Components v index h as k ∧ as.length = n := by
  induction n generalizing index h as with
  | zero =>
      constructor
      · intro hr
        obtain ⟨rfl, rfl⟩ := pure_eq_ok_iff.1 hr
        exact ⟨.nil, rfl⟩
      · rintro ⟨has, hlength⟩
        cases has with
        | nil => rfl
        | cons => simp at hlength
  | succ n ih =>
      rw [components_succ_eq_ok_iff hv hindex]
      constructor
      · rintro ⟨g, l, a, m, as, hg, hl, ha, hr, rfl⟩
        obtain ⟨has, rfl⟩ := (ih (by omega)).1 hr
        exact ⟨.cons hg hl ha has, rfl⟩
      · rintro ⟨has, hlength⟩
        cases has with
        | nil => simp at hlength
        | cons hg hl ha has =>
            exact ⟨_, _, _, _, _, hg, hl, ha, (ih (by omega)).2 ⟨has, Nat.succ.inj hlength⟩, rfl⟩

/-- The components fail at the first that is refused. -/
theorem components_eq_error_iff (hv : IsScalar v) (hindex : 1 ≤ index) :
    (∃ k, components kind v index n h = (.error e, k)) ↔
      ∃ as m, Components v index h as m ∧ as.length < n ∧
        ComponentRefused kind v (as.length + index) m e := by
  induction n generalizing index h with
  | zero => simp [components]
  | succ n ih =>
      rw [components_succ_eq_error_iff hv hindex]
      constructor
      · rintro (he | ⟨g, l, a, m, hg, hl, ha, hr⟩)
        · exact ⟨[], h, .nil, by simp, by simpa using he⟩
        · obtain ⟨as, m', has, hlength, he⟩ := (ih (by omega)).1 hr
          refine ⟨a :: as, m', .cons hg hl ha has, Nat.succ_lt_succ hlength, ?_⟩
          rwa [List.length_cons, Nat.add_right_comm, Nat.add_assoc]
      · rintro ⟨as, m', has, hlength, he⟩
        cases has with
        | nil => exact .inl (by simpa using he)
        | @cons _ g _ l m _ a as hg hl ha has =>
            rw [List.length_cons, Nat.add_right_comm, Nat.add_assoc] at he
            exact .inr ⟨g, l, a, m, hg, hl, ha,
              (ih (by omega)).2 ⟨as, m', has, Nat.lt_of_succ_lt_succ hlength, he⟩⟩

/-! ## Tuples -/

theorem tuple_eq_ok_iff (hv : IsScalar v) {as : List α} :
    tuple kind v n h = (.ok as, k) ↔ IsTuple v n h as k := by
  constructor
  · intro hr
    obtain ⟨_, l, hopen, hr⟩ := bind_eq_ok_iff.1 hr
    obtain ⟨as', m, hcomponents, hr⟩ := bind_eq_ok_iff.1 hr
    obtain ⟨_, m', hblanks, hr⟩ := bind_eq_ok_iff.1 hr
    obtain ⟨_, k', hclose, hr⟩ := bind_eq_ok_iff.1 hr
    obtain ⟨rfl, rfl⟩ := pure_eq_ok_iff.1 hr
    obtain ⟨has, hlength⟩ := (components_eq_ok_iff hv le_rfl).1 hcomponents
    obtain ⟨b, hb, hm', -⟩ := skipBlanks_eq_ok_iff.1 hblanks
    exact ⟨expect_eq_ok_iff.1 hopen, has, hlength, hb, hm'.append (expect_eq_ok_iff.1 hclose)⟩
  · rintro ⟨hopen, has, hlength, hb, hclose⟩
    obtain ⟨m', hblanks, hclose⟩ := skipBlanks_complete hclose hb (stops_cons.2 (by decide))
    exact bind_eq_ok_iff.2 ⟨(), _, expect_eq_ok_iff.2 hopen,
      bind_eq_ok_iff.2 ⟨as, _, (components_eq_ok_iff hv le_rfl).2 ⟨has, hlength⟩,
      bind_eq_ok_iff.2 ⟨(), m', hblanks,
      bind_eq_ok_iff.2 ⟨(), k, expect_eq_ok_iff.2 hclose, rfl⟩⟩⟩⟩

theorem tuple_eq_error_iff (hv : IsScalar v) :
    (∃ k, tuple kind v n h = (.error e, k)) ↔ TupleRefused kind v n h e := by
  constructor
  · rintro ⟨k, hr⟩
    obtain hr | ⟨_, l, hopen, hr⟩ := bind_eq_error_iff.1 hr
    · obtain ⟨heat, rfl, -⟩ := expect_eq_error_iff.1 hr
      exact .unopened (Head.stops_of_eat?_eq_none heat)
    have hopen := expect_eq_ok_iff.1 hopen
    obtain hr | ⟨as, m, hcomponents, hr⟩ := bind_eq_error_iff.1 hr
    · obtain ⟨as, m, has, hlength, he⟩ := (components_eq_error_iff hv le_rfl).1 ⟨k, hr⟩
      exact .component hopen has hlength he
    obtain ⟨has, hlength⟩ := (components_eq_ok_iff hv le_rfl).1 hcomponents
    obtain hr | ⟨_, m', hblanks, hr⟩ := bind_eq_error_iff.1 hr
    · simp [skipBlanks] at hr
    obtain ⟨b, hb, hm', hstop⟩ := skipBlanks_eq_ok_iff.1 hblanks
    obtain hr | ⟨_, k', -, hr⟩ := bind_eq_error_iff.1 hr
    · obtain ⟨heat, rfl, -⟩ := expect_eq_error_iff.1 hr
      exact .unclosed hopen has hlength hb hm' hstop (Head.stops_of_eat?_eq_none heat)
    · simp at hr
  · intro he
    cases he with
    | unopened hopen =>
        exact ⟨h, bind_eq_error_iff.2 (.inl
          (expect_eq_error_iff.2 ⟨Head.eat?_eq_none hopen, rfl, rfl⟩))⟩
    | component hopen has hlength he =>
        obtain ⟨k, hr⟩ := (components_eq_error_iff hv le_rfl).2 ⟨_, _, has, hlength, he⟩
        exact ⟨k, bind_eq_error_iff.2 (.inr ⟨(), _, expect_eq_ok_iff.2 hopen,
          bind_eq_error_iff.2 (.inl hr)⟩)⟩
    | @unclosed l m k as b hopen has hlength hb hk hblank hclose =>
        exact ⟨k, bind_eq_error_iff.2 (.inr ⟨(), l, expect_eq_ok_iff.2 hopen,
          bind_eq_error_iff.2 (.inr ⟨as, m, (components_eq_ok_iff hv le_rfl).2 ⟨has, hlength⟩,
          bind_eq_error_iff.2 (.inr ⟨(), k, skipBlanks_eq_ok_iff.2 ⟨b, hb, hk, hblank⟩,
          bind_eq_error_iff.2 (.inl
            (expect_eq_error_iff.2 ⟨Head.eat?_eq_none hclose, rfl, rfl⟩))⟩)⟩)⟩)⟩

/-- The decimal texts of integers in a list are read back. -/
theorem integers_complete {values : List Int32} {w : List UInt8} (hne : values ≠ [])
    (hw : ListText (fun m u => Utf8.bytes (toString m) = u) values w) (hk : h.Takes w k) :
    integers values.length h = (.ok (values.map Int32.toInt), k) := by
  have htexts : ListText DecimalText (values.map Int32.toInt) w :=
    hw.map fun m u hu => ⟨m, rfl, hu⟩
  have hread : integers (values.map Int32.toInt).length h = (.ok (values.map Int32.toInt), k) :=
    tuple_complete isItem_decimalText
      (fun hm hw hstop => integer_complete hm hw (stops_isDigit hstop)) htexts
      (by rwa [ne_eq, List.map_eq_nil_iff]) hk
  rwa [List.length_map] at hread

end Value

namespace Scalar

open Value

/-- A tuple is read where the grammar has one, and refused as the grammar says
elsewhere; the decimal texts of 32-bit integers are read back. -/
theorem readTuple_iff (s : Scalar) (n : Nat) (h : Head) :
    (∀ as k, s.readTuple n h = (.ok as, k) ↔ IsTuple s.read n h as k) ∧
      (∀ e, (∃ k, s.readTuple n h = (.error e, k)) ↔ TupleRefused s.kind s.read n h e) ∧
      ∀ (values : List Int32) (w : List UInt8) (k : Head), values.length = n → 1 ≤ n →
        ListText (fun m u => Utf8.bytes (toString m) = u) values w → h.Takes w k →
          integers n h = (.ok (values.map Int32.toInt), k) := by
  rw [readTuple_eq]
  refine ⟨fun as k => tuple_eq_ok_iff (isScalar_read s),
    fun e => tuple_eq_error_iff (isScalar_read s), ?_⟩
  rintro values w k rfl hpos hw hk
  exact integers_complete (List.length_pos_iff.1 hpos) hw hk

/-- The least integer is read back from a tuple with blanks in it. -/
theorem readTuple_minValue :
    integers 2 (.start (.ofString "( -2147483648\t,7)x")) =
      (.ok [-2147483648, 7], (Head.start (.ofString "( -2147483648\t,7)x")).skip 17) := by
  have hw : ListText (fun m u => Utf8.bytes (toString m) = u) [Int32.minValue, 7]
      (openParen :: ([space] ++ (Utf8.bytes "-2147483648" ++
        ([tab] ++ comma :: ([] ++ (Utf8.bytes "7" ++ ([] ++ [closeParen]))))))) :=
    .items (by decide) (by decide +kernel)
      (.item (by decide) (by decide) (by decide +kernel) (.close (by decide)))
  exact (readTuple_iff .integer 2 _).2.2 _ _ _ rfl (by decide) hw
    (Head.takes_skip (by decide +kernel : _ = _ ++ Utf8.bytes "x"))

/-- A missing comma is reported where it should be, a missing unit behind its number. -/
example :
    (integers 3 (.start (.ofString "(1,\t-2 3)"))).1 = .error ⟨7, .tupleUnseparated⟩ ∧
      (angles 2 (.start (.ofString "( 9deg , 1 )"))).1 = .error ⟨11, .angleWithoutUnit⟩ := by
  decide +kernel

end Scalar

end UniformBlock
