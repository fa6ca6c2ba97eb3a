import UniformBlock.Document.Report

/-!
# Scanning in stages

A session scans a document in one loop that reads a declaration, logs it and adds it to
the block (`Session.scanFrom`). The same comes of three stages, one behind the other:
the declarations of the whole document are read, they are laid out, and one event after
the other is logged. Neither reading nor layout looks at the journal, and the time of
all events is that of the session.

The loop agrees with the stages from any point on, when the block so far is that of the
declarations so far (`Session.scanFrom_logAll`); for a whole document this is
`Session.scanFrom_start`, and with the report on its end it is `Session.read_eq`.
-/

namespace UniformBlock

namespace Block

theorem ofDeclarations_append (ds es : List Declaration) :
    ofDeclarations (ds ++ es) = ofDeclarations ds >>= fun b => es.foldlM declare b :=
  List.foldlM_append

theorem ofDeclarations_append_of_error {ds : List Declaration} {e : ArithmeticFault}
    (hds : ofDeclarations ds = .error e) (es : List Declaration) :
    ofDeclarations (ds ++ es) = .error e := by
  rw [ofDeclarations_append, hds]
  rfl

theorem ofDeclarations_concat (ds : List Declaration) (d : Declaration) :
    ofDeclarations (ds ++ [d]) = ofDeclarations ds >>= fun b => b.declare d := by
  rw [ofDeclarations_append]
  cases ofDeclarations ds with
  | error e => rfl
  | ok b =>
      change (b.declare d >>= pure) = b.declare d
      cases b.declare d <;> rfl

theorem uniforms_of_push {b c : Block} {u : Uniform} (hc : b.push u = .ok c) :
    c.uniforms = b.uniforms ++ [u] := by
  unfold push at hc
  split at hc
  · cases hcount : Word.add b.samplerCount 1 with
    | error e => simp [hcount, bind, Except.bind] at hc
    | ok count =>
        rw [hcount] at hc
        exact Except.ok.inj hc ▸ rfl
  · exact Except.ok.inj hc ▸ rfl

end Block

namespace Document

/-- Reading on adds to the declarations so far. -/
theorem exists_declarations_eq (h : Head) (declared : Nat) (acc : List Declaration) :
    ∃ more, (readFrom h declared acc).declarations = acc.reverse ++ more := by
  fun_induction readFrom h declared acc with
  | case1 h declared acc hend => exact ⟨[], by simp⟩
  | case2 h declared acc hend hk ih => exact ih
  | case3 h declared acc hend k hk fault l hd => exact ⟨[], by simp⟩
  | case4 h declared acc hend k hk d l hd ih =>
      obtain ⟨more, hmore⟩ := ih
      exact ⟨d :: more, by rw [hmore, List.reverse_cons, List.append_assoc]; rfl⟩

namespace Scan

/-- The events for the accepted declarations, if they are wanted. -/
def declarationEvents (p : ScanPreferences) (time : Instant) (b : Block) : List Event :=
  if p.reportDeclarations then b.uniforms.map (declared time) else []

/-- The events for the end of a document. -/
def finalEvents (p : ScanPreferences) (time : Instant) (source : Source) (document : String)
    (scan : Scan) : Except ArithmeticFault (List Event) :=
  match scan.fault with
  | some fault => pure [failed time (.ofFault source document fault)]
  | none =>
    if p.reportBlock then do
      let slots ← scan.block.slots
      pure [completed time scan.block slots]
    else
      pure []

/-- The events that reading a document leaves, in order. -/
def events (p : ScanPreferences) (time : Instant) (source : Source) (document : String)
    (scan : Scan) : Except ArithmeticFault (List Event) := do
  let final ← scan.finalEvents p time source document
  pure (declarationEvents p time scan.block ++ final)

/-- The block of a document, or the diagnostic of the fault that ended it. -/
def diagnosed (source : Source) (document : String) (scan : Scan) : Except Diagnostic Block :=
  match scan.fault with
  | none => .ok scan.block
  | some fault => .error (.ofFault source document fault)

end Scan

end Document

namespace Session

open Document

variable {s : Session} {p : ScanPreferences} {b c : Block}

theorem logAll_append (s : Session) (es fs : List Event) :
    s.logAll (es ++ fs) = (s.logAll es).logAll fs := List.foldl_append

@[simp] theorem clock_send (s : Session) (e : Event) : (s.send e).clock = s.clock := by
  unfold send
  split <;> rfl

@[simp] theorem clock_log (s : Session) (e : Event) : (s.log e).clock = s.clock := by
  unfold log
  split
  · rfl
  · split
    · split
      · rfl
      · exact clock_send _ _
    · rfl

@[simp] theorem clock_logAll (s : Session) (events : List Event) :
    (s.logAll events).clock = s.clock := by
  induction events generalizing s with
  | nil => rfl
  | cons e events ih => rw [logAll_cons, ih, clock_log]

/-- The event for one more uniform comes behind those for the others. -/
theorem logDeclared_logAll {u : Uniform} (hc : b.push u = .ok c) :
    (s.logAll (Scan.declarationEvents p s.clock.now b)).logDeclared p u =
      s.logAll (Scan.declarationEvents p s.clock.now c) := by
  unfold logDeclared Scan.declarationEvents
  split
  · rw [Block.uniforms_of_push hc, List.map_append, logAll_append, clock_logAll]
    rfl
  · rfl

/-! ## The loop -/

variable {h k : Head}

theorem scanFrom_of_word (hend : ¬h.toWord.atEnd = true)
    (hk : h.toWord.keyword? declarationKeyword = none) :
    s.scanFrom p h b = s.scanFrom p h.toWord.takeWord.2 b := by
  rw [scanFrom, dif_neg hend]
  split
  · rfl
  · rename_i k hk'
    rw [hk] at hk'
    cases hk'

theorem scanFrom_of_keyword? (hend : ¬h.toWord.atEnd = true)
    (hk : h.toWord.keyword? declarationKeyword = some k) :
    s.scanFrom p h b =
      match Declaration.read b.size k with
      | (.error fault, _) => .ok (.error fault, s)
      | (.ok d, l) =>
        b.uniformOf d >>= fun u => b.push u >>= fun c => (s.logDeclared p u).scanFrom p l c := by
  rw [scanFrom, dif_neg hend]
  split
  · rename_i hnone
    rw [hk] at hnone
    cases hnone
  · rename_i k' hk'
    obtain rfl := Option.some.inj (hk'.symm.trans hk)
    split
    · rename_i fault l hd
      rw [hd]
      rfl
    · rename_i d l hd
      rw [hd]

/-- From any point on, the loop does what the stages do. -/
theorem scanFrom_logAll (h : Head) (declared : Nat) (acc : List Declaration)
    (hb : Block.ofDeclarations acc.reverse = .ok b) (hsize : b.size = declared) :
    (s.logAll (Scan.declarationEvents p s.clock.now b)).scanFrom p h b =
      (Block.ofDeclarations (readFrom h declared acc).declarations).map fun c =>
        (Scan.result ⟨c, (readFrom h declared acc).fault⟩,
          s.logAll (Scan.declarationEvents p s.clock.now c)) := by
  fun_induction readFrom h declared acc generalizing b with
  | case1 h declared acc hend =>
      rw [scanFrom, dif_pos hend, hb]
      rfl
  | case2 h declared acc hend hk ih =>
      rw [scanFrom_of_word hend hk]
      exact ih hb hsize
  | case3 h declared acc hend k hk fault l hd =>
      rw [scanFrom_of_keyword? hend hk, hsize, hd, hb]
      rfl
  | case4 h declared acc hend k hk d l hd ih =>
      have hconcat : Block.ofDeclarations (d :: acc).reverse =
          b.uniformOf d >>= fun u => b.push u := by
        rw [List.reverse_cons, Block.ofDeclarations_concat, hb]
        rfl
      obtain ⟨more, hmore⟩ := exists_declarations_eq l (declared + 1) (d :: acc)
      rw [scanFrom_of_keyword? hend hk, hsize, hd]
      simp only
      cases hu : b.uniformOf d with
      | error e =>
          rw [hu] at hconcat
          rw [hmore, Block.ofDeclarations_append_of_error hconcat]
          rfl
      | ok u =>
          rw [hu] at hconcat
          simp only [bind, Except.bind]
          cases hc : b.push u with
          | error e =>
              rw [hmore, Block.ofDeclarations_append_of_error (hconcat.trans hc)]
              rfl
          | ok c =>
              have hcsize : c.size = declared + 1 := by
                rw [Block.size, Block.uniforms_of_push hc, List.length_append, ← hsize]
                rfl
              simp only [logDeclared_logAll hc]
              exact ih (hconcat.trans hc) hcsize

/-- A whole document is scanned by reading it, laying it out and logging the events of its
uniforms. -/
theorem scanFrom_start (s : Session) (p : ScanPreferences) (source : Source) :
    s.scanFrom p (Head.start source) .empty =
      (Document.scan source).map fun scan =>
        (scan.result, s.logAll (Scan.declarationEvents p s.clock.now scan.block)) := by
  have hnone : s.logAll (Scan.declarationEvents p s.clock.now .empty) = s := by
    unfold Scan.declarationEvents
    split <;> rfl
  have hstart := scanFrom_logAll (s := s) (p := p) (Head.start source) 0 [] (b := .empty) rfl rfl
  rw [hnone] at hstart
  rw [hstart, Document.scan, Document.read]
  cases Block.ofDeclarations (readFrom (Head.start source) 0 []).declarations <;> rfl

/-- Reading a document is scanning it, and then logging all its events. -/
theorem read_eq (s : Session) (p : ScanPreferences) (source : Source) (document : String) :
    s.read p source document =
      Document.scan source >>= fun scan =>
        (scan.events p s.clock.now source document).map fun events =>
          s.within document fun t => (scan.diagnosed source document, t.logAll events) := by
  rw [read, attemptWithin]
  simp only [scanFrom_start]
  cases Document.scan source with
  | error e => rfl
  | ok scan =>
      obtain ⟨b, fault⟩ := scan
      have hclock : ∀ events, ((s.enter document).logAll events).clock = s.clock :=
        fun events => clock_logAll _ events
      simp only [Except.map, bind, Except.bind, Scan.events, Scan.finalEvents, Scan.result,
        Scan.diagnosed]
      cases fault with
      | some fault =>
          simp only [pure, Except.pure, logAll_append, hclock]
          rfl
      | none =>
          by_cases hblock : p.reportBlock = true
          · simp only [if_pos hblock]
            cases b.slots with
            | error e => rfl
            | ok slots =>
                simp only [pure, Except.pure, logAll_append, hclock]
                rfl
          · simp only [if_neg hblock, pure, Except.pure, List.append_nil]
            rfl

end Session

end UniformBlock
