import UniformBlock.Proofs.Uniform

/-!
# The last argument of a name counts

An argument list may give `mean`, `scale` and `file` any number of times and in any
order. Read from the left, each argument writes over what the ones before it have
left of its own name, and touches nothing else. As all hints of a type have the same
number of components, nothing shows through: what is left in the end is the last
argument of each name, or the default (`Metadata.foldl_apply_default`).

So two lists with the same last arguments say the same, however their arguments are
interleaved, repeated and spaced (`Metadata.lastWins_of_read`).
-/

namespace UniformBlock

open Ascii Grammar

namespace Hint

variable {hint : Hint}

theorem overwrite_nil : hint.overwrite [] = hint := by
  refine ext fun i => ?_
  rw [get_overwrite]
  rfl

/-- Nothing shows through numbers that are not fewer. -/
theorem overwrite_overwrite {u v : List Single} (hle : u.length ≤ v.length) :
    (hint.overwrite u).overwrite v = hint.overwrite v := by
  refine ext fun i => ?_
  rw [get_overwrite, get_overwrite, get_overwrite]
  cases hv : v[i]? with
  | some x => rfl
  | none =>
      have hlength : v.length ≤ i := List.getElem?_eq_none_iff.1 hv
      have hu : u[i]? = none := List.getElem?_eq_none (hle.trans hlength)
      rw [hu]
      rfl

/-- Of hints of one length, the last one counts. -/
theorem foldl_overwrite {n : Nat} {given : List (List Single)}
    (hgiven : ∀ values ∈ given, values.length = n) :
    given.foldl overwrite hint = hint.overwrite (given.getLast?.getD []) := by
  induction given using List.reverseRecOn with
  | nil => exact overwrite_nil.symm
  | append_singleton given values ih =>
      have hvalues : values.length = n := hgiven values (by simp)
      have hbefore : ∀ earlier ∈ given, earlier.length = n :=
        fun earlier hearlier => hgiven earlier (List.mem_append_left _ hearlier)
      have hle : (given.getLast?.getD []).length ≤ values.length := by
        cases hlast : given.getLast? with
        | none => exact Nat.zero_le _
        | some earlier =>
            rw [hvalues]
            exact (hbefore earlier (List.mem_of_getLast? hlast)).le
      rw [List.foldl_append, ih hbefore, List.foldl_cons, List.foldl_nil,
        overwrite_overwrite hle, List.getLast?_concat, Option.getD_some]

theorem take_toList_overwrite {values : List Single} (hle : values.length ≤ 4) :
    (hint.overwrite values).toList.take values.length = values := by
  refine List.ext_getElem (by simpa using hle) fun i hi hi' => ?_
  rw [List.getElem_take, Vector.getElem_toList]
  have hget := get_overwrite hint values ⟨i, hi'.trans_le hle⟩
  rw [show values[(⟨i, hi'.trans_le hle⟩ : Fin 4)]? = some values[i] from
    List.getElem?_eq_getElem hi', Option.getD_some] at hget
  exact hget

theorem take_toList_all (x : Single) {n : Nat} (hle : n ≤ 4) :
    (all x).toList.take n = List.replicate n x := by
  rw [show (all x).toList = List.replicate 4 x from rfl, List.take_replicate, Nat.min_eq_left hle]

/-- The leading components are the given numbers, or the default where none are
given. -/
theorem take_toList_overwrite_getD {given : Option (List Single)} {n : Nat} (hle : n ≤ 4)
    (hgiven : ∀ values ∈ given, values.length = n) (x : Single) :
    ((all x).overwrite (given.getD [])).toList.take n = given.getD (List.replicate n x) := by
  cases given with
  | none => rw [Option.getD_none, overwrite_nil, take_toList_all x hle, Option.getD_none]
  | some values =>
      obtain rfl := hgiven values rfl
      exact take_toList_overwrite hle

end Hint

namespace Grammar.Argument

variable {α : Type}

def mean? : Argument → Option (List Single)
  | mean values => some values
  | _ => none

def scale? : Argument → Option (List Single)
  | scale values => some values
  | _ => none

def file? : Argument → Option String
  | file path => some path
  | _ => none

/-- What the last argument of one name says. -/
def last? (said? : Argument → Option α) (args : List Argument) : Option α :=
  (args.filterMap said?).getLast?

variable {m : Metadata} {args : List Argument}

theorem last?_concat (said? : Argument → Option α) (args : List Argument) (arg : Argument) :
    last? said? (args ++ [arg]) = (said? arg).or (last? said? args) := by
  rw [last?, List.filterMap_append]
  cases hsaid : said? arg with
  | none => rw [List.filterMap_cons_none hsaid, List.filterMap_nil, List.append_nil, Option.none_or,
      last?]
  | some a => rw [List.filterMap_cons_some hsaid, List.filterMap_nil, List.getLast?_concat,
      Option.some_or]

/-! Each field of the metadata is written by the arguments of its own name. -/

theorem mean_foldl_apply (args : List Argument) (m : Metadata) :
    (args.foldl apply m).mean = (args.filterMap mean?).foldl Hint.overwrite m.mean := by
  induction args generalizing m with
  | nil => rfl
  | cons arg args ih => cases arg <;> exact ih _

theorem scale_foldl_apply (args : List Argument) (m : Metadata) :
    (args.foldl apply m).scale = (args.filterMap scale?).foldl Hint.overwrite m.scale := by
  induction args generalizing m with
  | nil => rfl
  | cons arg args ih => cases arg <;> exact ih _

theorem file_foldl_apply (args : List Argument) (m : Metadata) :
    (args.foldl apply m).file = (last? file? args).or m.file := by
  induction args using List.reverseRecOn with
  | nil => rfl
  | append_singleton args arg ih =>
      rw [List.foldl_append, last?_concat]
      cases arg with
      | mean values => exact ih
      | scale values => exact ih
      | file path => rfl

end Grammar.Argument

/-- What is left of a text where a character begins is a text. -/
theorem Head.isText_rest_of_startsChar {h : Head} {s : String} (hsource : h.source = .ofString s)
    (hstart : Utf8.StartsChar h.rest) : Utf8.IsText h.rest := by
  have htext : Utf8.IsText (h.source.bytes.take h.pos ++ h.rest) := by
    rw [h.rest_eq, List.take_append_drop, hsource]
    exact Utf8.isText_bytes s
  exact (htext.split hstart).2

namespace Metadata

open Grammar.Argument

variable {type : UniformType} {args args' : List Argument} {w w' : List UInt8}

/-- Every hint of a type has as many numbers as the type has components. -/
theorem components?_of_hint {said? : Argument → Option (List Single)}
    (hsaid : said? = mean? ∨ said? = scale?) (hargs : ListText (ArgumentText type) args w)
    {values : List Single} (hvalues : values ∈ args.filterMap said?) :
    type.components? = some values.length := by
  obtain ⟨arg, harg, hvalues⟩ := List.mem_filterMap.1 hvalues
  obtain ⟨t, ht, -⟩ := hargs.exists_part arg harg
  obtain rfl | rfl := hsaid
  · cases ht with
    | mean hn hw _ =>
        cases hvalues
        rw [hn, hw.values.1]
    | scale => cases hvalues
    | file => cases hvalues
  · cases ht with
    | scale hn hw _ =>
        cases hvalues
        rw [hn, hw.values.1]
    | mean => cases hvalues
    | file => cases hvalues

theorem isSampler_of_file (hargs : ListText (ArgumentText type) args w) {path : String}
    (hpath : path ∈ args.filterMap file?) : type.isSampler = true := by
  obtain ⟨arg, harg, hpath⟩ := List.mem_filterMap.1 hpath
  obtain ⟨t, ht, -⟩ := hargs.exists_part arg harg
  cases ht with
  | file htype _ _ _ => exact htype
  | mean => cases hpath
  | scale => cases hpath

theorem foldl_overwrite_hint {said? : Argument → Option (List Single)}
    (hsaid : said? = mean? ∨ said? = scale?) (hargs : ListText (ArgumentText type) args w)
    (hint : Hint) :
    (args.filterMap said?).foldl Hint.overwrite hint =
      hint.overwrite ((last? said? args).getD []) :=
  Hint.foldl_overwrite (n := type.components?.getD 0) fun values hvalues => by
    rw [components?_of_hint hsaid hargs hvalues, Option.getD_some]

/-- What the arguments of a list make of the defaults: the last one of each name
counts. -/
theorem foldl_apply_default (hargs : ListText (ArgumentText type) args w) :
    args.foldl apply default =
      ⟨(Hint.all .zero).overwrite ((last? mean? args).getD []),
        (Hint.all .one).overwrite ((last? scale? args).getD []), last? file? args⟩ := by
  calc args.foldl apply default
      = ⟨(args.foldl apply default).mean, (args.foldl apply default).scale,
          (args.foldl apply default).file⟩ := rfl
    _ = _ := by
      rw [mean_foldl_apply, scale_foldl_apply, file_foldl_apply,
        foldl_overwrite_hint (.inl rfl) hargs, foldl_overwrite_hint (.inr rfl) hargs,
        show default.file = none from rfl, Option.or_none]
      rfl

/-- A list of arguments of the type stands in front of the head, and `k` is the head
behind it. -/
def Stands (type : UniformType) (args : List Argument) (h k : Head) : Prop :=
  ∃ w, ListText (ArgumentText type) args w ∧ h.Takes w k

/-- The metadata say what the last argument of each name says, and the default where
there is none. -/
structure LastWins (type : UniformType) (args : List Argument) (m : Metadata) : Prop where
  mean : ∀ n, type.components? = some n →
    m.mean.toList.take n = (last? mean? args).getD (List.replicate n .zero)
  scale : ∀ n, type.components? = some n →
    m.scale.toList.take n = (last? scale? args).getD (List.replicate n .one)
  file : type.isSampler = true → m.file = last? file? args

/-- The last arguments of two lists say the same, for each name that the type takes.
Lists that say the same under each name from beginning to end are such lists. -/
structure SameLast (type : UniformType) (args args' : List Argument) : Prop where
  mean : type.components?.isSome = true → last? mean? args = last? mean? args'
  scale : type.components?.isSome = true → last? scale? args = last? scale? args'
  file : type.isSampler = true → last? file? args = last? file? args'

theorem lastWins_foldl (hargs : ListText (ArgumentText type) args w) :
    LastWins type args (args.foldl apply default) := by
  have hlength {said? : Argument → Option (List Single)} (hsaid : said? = mean? ∨ said? = scale?)
      {n : Nat} (hn : type.components? = some n) :
      ∀ values ∈ last? said? args, values.length = n := by
    intro values hvalues
    have hvalues := components?_of_hint hsaid hargs (List.mem_of_getLast? hvalues)
    exact Option.some.inj (hvalues.symm.trans hn)
  rw [foldl_apply_default hargs]
  refine ⟨fun n hn => ?_, fun n hn => ?_, fun _ => rfl⟩
  · exact Hint.take_toList_overwrite_getD (le_four_of_components? hn) (hlength (.inl rfl) hn) _
  · exact Hint.take_toList_overwrite_getD (le_four_of_components? hn) (hlength (.inr rfl) hn) _

/-- A name that the type does not take has no last argument. -/
theorem last?_hint_congr {said? : Argument → Option (List Single)}
    (hsaid : said? = mean? ∨ said? = scale?) (hargs : ListText (ArgumentText type) args w)
    (hargs' : ListText (ArgumentText type) args' w')
    (hsame : type.components?.isSome = true → last? said? args = last? said? args') :
    last? said? args = last? said? args' := by
  cases hn : type.components? with
  | some n => exact hsame (by rw [hn, Option.isSome_some])
  | none =>
      have hnone {args : List Argument} {w : List UInt8}
          (hargs : ListText (ArgumentText type) args w) : last? said? args = none := by
        cases hlast : last? said? args with
        | none => rfl
        | some values =>
            have hvalues := components?_of_hint hsaid hargs (List.mem_of_getLast? hlast)
            rw [hn] at hvalues
            cases hvalues
      rw [hnone hargs, hnone hargs']

theorem last?_file_congr (hargs : ListText (ArgumentText type) args w)
    (hargs' : ListText (ArgumentText type) args' w')
    (hsame : type.isSampler = true → last? file? args = last? file? args') :
    last? file? args = last? file? args' := by
  by_cases htype : type.isSampler = true
  · exact hsame htype
  · have hnone {args : List Argument} {w : List UInt8}
        (hargs : ListText (ArgumentText type) args w) : last? file? args = none := by
      cases hlast : last? file? args with
      | none => rfl
      | some path => exact absurd (isSampler_of_file hargs (List.mem_of_getLast? hlast)) htype
    rw [hnone hargs, hnone hargs']

theorem SameLast.foldl_eq (hsame : SameLast type args args')
    (hargs : ListText (ArgumentText type) args w) (hargs' : ListText (ArgumentText type) args' w') :
    args.foldl apply default = args'.foldl apply default := by
  rw [foldl_apply_default hargs, foldl_apply_default hargs',
    last?_hint_congr (.inl rfl) hargs hargs' hsame.mean,
    last?_hint_congr (.inr rfl) hargs hargs' hsame.scale, last?_file_congr hargs hargs' hsame.file]

/-- A list that was read stands in front of its head. -/
theorem exists_stands_of_read {s : String} {h k : Head} {m : Metadata}
    (hsource : h.source = .ofString s) (hread : read type h = (.ok m, k)) :
    ∃ args, Stands type args h k := by
  have hopen : ∃ l, h.Takes [openParen] l := by
    unfold read at hread
    split at hread
    · simp at hread
    · rename_i list l hl
      obtain ⟨_, l', hl', -⟩ := Reading.bind_eq_ok_iff.1 hl
      exact ⟨l', Reading.expect_eq_ok_iff.1 hl'⟩
  obtain ⟨l, hl⟩ := hopen
  have hstart : Utf8.StartsChar h.rest := by
    rw [hl.rest_eq]
    exact Utf8.startsChar_cons (by decide)
  obtain ⟨args, w, hw, -, hk⟩ := read_sound (Head.isText_rest_of_startsChar hsource hstart) hread
  exact ⟨args, w, hw, hk⟩

/-- The last argument of each name counts in every list that is read, and lists with
the same last arguments are read as the same. -/
theorem lastWins_of_read {s : String} {h k : Head} {m : Metadata}
    (hsource : h.source = .ofString s) (hread : read type h = (.ok m, k)) :
    (∃ args, Stands type args h k) ∧
      (∀ args l, Stands type args h l → l = k ∧ LastWins type args m) ∧
      ∀ args args' h' k' m', Stands type args h k → Stands type args' h' k' →
        read type h' = (.ok m', k') → SameLast type args args' → m = m' := by
  have heq {args : List Argument} {w : List UInt8} {h k l : Head} {m : Metadata}
      (hread : read type h = (.ok m, k)) (hw : ListText (ArgumentText type) args w)
      (hl : h.Takes w l) : m = args.foldl apply default ∧ l = k := by
    rw [read_complete hw hl, Prod.mk.injEq, Except.ok.injEq] at hread
    exact ⟨hread.1.symm, hread.2⟩
  refine ⟨exists_stands_of_read hsource hread, ?_, ?_⟩
  · rintro args l ⟨w, hw, hl⟩
    obtain ⟨rfl, rfl⟩ := heq hread hw hl
    exact ⟨rfl, lastWins_foldl hw⟩
  · rintro args args' h' k' m' ⟨w, hw, hk⟩ ⟨w', hw', hk'⟩ hread' hsame
    rw [(heq hread hw hk).1, (heq hread' hw' hk').1]
    exact hsame.foldl_eq hw hw'

/-- The second of two means counts, although a scale stands between them. -/
theorem lastWins_repeated :
    let start := Head.start (.ofString "(mean=(1,2) , scale=(3,4),mean = (5,-6) )")
    (read .vec2 start).1 = .ok ⟨#v[⟨0x40A00000⟩, ⟨0xC0C00000⟩, .zero, .zero],
        #v[⟨0x40400000⟩, ⟨0x40800000⟩, .one, .one], none⟩ ∧
      ∃ args k, Stands .vec2 args start k ∧
        (last? mean? args).getD [.zero, .zero] = [⟨0x40A00000⟩, ⟨0xC0C00000⟩] ∧
        (last? scale? args).getD [.one, .one] = [⟨0x40400000⟩, ⟨0x40800000⟩] := by
  intro start
  have hread : (read .vec2 start).1 = .ok ⟨#v[⟨0x40A00000⟩, ⟨0xC0C00000⟩, .zero, .zero],
      #v[⟨0x40400000⟩, ⟨0x40800000⟩, .one, .one], none⟩ := by
    decide +kernel
  obtain ⟨⟨args, hargs⟩, hlast, -⟩ := lastWins_of_read (k := (read .vec2 start).2) rfl
    (Prod.ext hread rfl)
  have hwins := (hlast args _ hargs).2
  exact ⟨hread, args, _, hargs, (hwins.mean 2 rfl).symm, (hwins.scale 2 rfl).symm⟩

end Metadata

end UniformBlock
