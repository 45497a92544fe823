/-
  A reader of arithmetic: one state and one step for each token. The state holds what stands
  to the left of the place reached, once for every parenthesis that is open.

  The reader finds the arithmetic of every token sequence of the grammar (`Reads.read_eq`);
  as it is a function, the grammar has one reading of each sequence (`Reads.unique`).
-/
import GaussianIntegrals.Proofs.Code.Arith

namespace GaussianIntegrals.Code

/-- What stands to the left inside one pair of parentheses. -/
structure Frame where
  /-- Makes the sum of a finished term. -/
  sum : Arith → Arith
  /-- Makes the term of a finished factor. -/
  term : Arith → Arith
  /-- The base that waits for its exponent. -/
  base : Option Arith

namespace Frame

/-- Nothing stands to the left. -/
def empty : Frame := ⟨id, id, none⟩

/-- The factor with the primary that ends it. -/
def factor (f : Frame) (a : Arith) : Arith :=
  match f.base with
  | some b => .power b a
  | none => a

/-- The sum with the primary that ends it. -/
def total (f : Frame) (a : Arith) : Arith := f.sum (f.term (f.factor a))

end Frame

/-- What may come next. -/
inductive Mode where
  /-- A primary; signs in front of it only if it is no exponent. -/
  | operand (signed : Bool)
  /-- Indices or an operator, after a name. -/
  | name (w : List Char)
  /-- An index, after those before it and perhaps its sign. -/
  | index (w : List Char) (done : List Index) (negative : Bool)
  /-- A comma or the end of the indices. -/
  | indexed (w : List Char) (done : List Index)
  /-- An operator or a closing parenthesis, after a primary. -/
  | operator (a : Arith)

/-- The innermost frame, the frames around it and what may come next. -/
structure State where
  frame : Frame
  outer : List Frame
  mode : Mode

/-- A step at the end of a primary. -/
def afterPrimary (f : Frame) (outer : List Frame) (a : Arith) : Token → Option State
  | .times => some ⟨⟨f.sum, .mul (f.term (f.factor a)), none⟩, outer, .operand true⟩
  | .power =>
    match f.base with
    | none => some ⟨{ f with base := some a }, outer, .operand false⟩
    | some _ => none
  | .plus => some ⟨⟨.add (f.total a), id, none⟩, outer, .operand true⟩
  | .minus => some ⟨⟨.sub (f.total a), id, none⟩, outer, .operand true⟩
  | .closing =>
    match outer with
    | g :: outer => some ⟨g, outer, .operator (f.total a)⟩
    | [] => none
  | _ => none

/-- One step. -/
def State.step (s : State) (t : Token) : Option State :=
  match s.mode, t with
  | .operand true, .minus =>
    some { s with frame := { s.frame with term := fun a => s.frame.term (.neg a) } }
  | .operand true, .plus => some s
  | .operand _, .word w =>
    if isName w then some { s with mode := .name w }
    else (numeral? w).map fun v => { s with mode := .operator (.number v) }
  | .operand _, .opening => some ⟨.empty, s.frame :: s.outer, .operand true⟩
  | .name w, .opening => some { s with mode := .index w [] false }
  | .name w, t => afterPrimary s.frame s.outer (.reference ⟨w, []⟩) t
  | .index w done false, .minus => some { s with mode := .index w done true }
  | .index w done b, .word u => some { s with mode := .indexed w (done ++ [⟨b, u⟩]) }
  | .indexed w done, .comma => some { s with mode := .index w done false }
  | .indexed w done, .closing => some { s with mode := .operator (.reference ⟨w, done⟩) }
  | .operator a, t => afterPrimary s.frame s.outer a t
  | _, _ => none

/-- The states reached over tokens. -/
def State.run (s : State) (ts : List Token) : Option State := ts.foldlM State.step s

/-- The arithmetic of a state at the end of the tokens. -/
def State.result (s : State) : Option Arith :=
  match s.outer, s.mode with
  | [], .operator a => some (s.frame.total a)
  | [], .name w => some (s.frame.total (.reference ⟨w, []⟩))
  | _, _ => none

/-- Reads tokens. -/
def read (ts : List Token) : Option Arith :=
  (State.run ⟨.empty, [], .operand true⟩ ts).bind State.result

theorem State.run_cons {s s' : State} {t : Token} (h : s.step t = some s') (ts : List Token) :
    s.run (t :: ts) = s'.run ts := by
  simp [State.run, h]

theorem State.run_append {s s' : State} {ts : List Token} (h : s.run ts = some s')
    (us : List Token) : s.run (ts ++ us) = s'.run us := by
  unfold State.run at h ⊢
  rw [List.foldlM_append, h]
  rfl

/-! ## The end of a primary -/

/-- The mode at the end of a primary. -/
def Mode.Ends (m : Mode) (a : Arith) : Prop :=
  m = .operator a ∨ ∃ w, m = .name w ∧ a = .reference ⟨w, []⟩

theorem Mode.Ends.step {m : Mode} {a : Arith} (h : m.Ends a) (f : Frame) (outer : List Frame)
    {t : Token} (ht : t ≠ .opening) : State.step ⟨f, outer, m⟩ t = afterPrimary f outer a t := by
  rcases h with rfl | ⟨w, rfl, rfl⟩
  · cases t <;> rfl
  · cases t <;> first | rfl | exact absurd rfl ht

theorem Mode.Ends.result {m : Mode} {a : Arith} (h : m.Ends a) (f : Frame) :
    State.result ⟨f, [], m⟩ = some (f.total a) := by
  rcases h with rfl | ⟨w, rfl, rfl⟩ <;> rfl

/-- The state after a term's arithmetic `a` inside the frames `outer` and a sum. -/
def State.Completes (s : State) (sum : Arith → Arith) (outer : List Frame) (a : Arith) : Prop :=
  ∃ b, s.mode.Ends b ∧ s.outer = outer ∧ s.frame.sum = sum ∧ s.frame.term (s.frame.factor b) = a

theorem State.Completes.step {s : State} {sum : Arith → Arith} {outer : List Frame} {a : Arith}
    (h : s.Completes sum outer a) :
    s.step .times = some ⟨⟨sum, .mul a, none⟩, outer, .operand true⟩ ∧
      s.step .plus = some ⟨⟨.add (sum a), id, none⟩, outer, .operand true⟩ ∧
      s.step .minus = some ⟨⟨.sub (sum a), id, none⟩, outer, .operand true⟩ ∧
      ∀ g gs, outer = g :: gs → s.step .closing = some ⟨g, gs, .operator (sum a)⟩ := by
  obtain ⟨b, hm, rfl, rfl, rfl⟩ := h
  refine ⟨?_, ?_, ?_, ?_⟩
  · exact hm.step s.frame s.outer (by simp)
  · exact hm.step s.frame s.outer (by simp)
  · exact hm.step s.frame s.outer (by simp)
  · intro g gs hg
    have hs := hm.step s.frame s.outer (t := .closing) (by simp)
    rw [hg] at hs
    have he : s = ⟨s.frame, g :: gs, s.mode⟩ := by rw [← hg]
    rw [he]
    exact hs

/-! ## Indices -/

theorem run_index {w : List Char} {done : List Index} (f : Frame) (outer : List Frame) (i : Index) :
    State.run ⟨f, outer, .index w done false⟩ i.tokens =
      some ⟨f, outer, .indexed w (done ++ [i])⟩ := by
  obtain ⟨negative, u⟩ := i
  cases negative <;> rfl

theorem run_indices {w : List Char} (f : Frame) (outer : List Frame) {is : List Index}
    (hne : is ≠ []) (done : List Index) :
    State.run ⟨f, outer, .index w done false⟩ (indexTokens is ++ [.closing]) =
      some ⟨f, outer, .operator (.reference ⟨w, done ++ is⟩)⟩ := by
  induction is generalizing done with
  | nil => exact absurd rfl hne
  | cons i is ih =>
    cases is with
    | nil =>
      rw [indexTokens, State.run_append (run_index f outer i)]
      rfl
    | cons j js =>
      have htokens : indexTokens (i :: j :: js) = i.tokens ++ .comma :: indexTokens (j :: js) :=
        rfl
      have hstep : State.step ⟨f, outer, .indexed w (done ++ [i])⟩ .comma =
          some ⟨f, outer, .index w (done ++ [i]) false⟩ := rfl
      rw [htokens, List.append_assoc, State.run_append (run_index f outer i), List.cons_append,
        State.run_cons hstep, ih (by simp), List.append_assoc, List.singleton_append]

theorem run_reference {r : Reference} (h : isName r.name = true) (f : Frame) (outer : List Frame)
    (signed : Bool) :
    ∃ m, State.run ⟨f, outer, .operand signed⟩ r.tokens = some ⟨f, outer, m⟩ ∧
      m.Ends (.reference r) := by
  obtain ⟨w, is⟩ := r
  have hname : State.step ⟨f, outer, .operand signed⟩ (.word w) = some ⟨f, outer, .name w⟩ := by
    cases signed <;> exact if_pos h
  cases is with
  | nil =>
    refine ⟨.name w, ?_, .inr ⟨w, rfl, rfl⟩⟩
    exact State.run_cons hname []
  | cons i is =>
    refine ⟨.operator (.reference ⟨w, i :: is⟩), ?_, .inl rfl⟩
    have hopen : State.step ⟨f, outer, .name w⟩ .opening = some ⟨f, outer, .index w [] false⟩ :=
      rfl
    have his := run_indices (w := w) f outer (List.cons_ne_nil i is) []
    have htokens : Reference.tokens ⟨w, i :: is⟩ =
        .word w :: .opening :: (indexTokens (i :: is) ++ [.closing]) := rfl
    rw [htokens, State.run_cons hname, State.run_cons hopen, his, List.nil_append]

/-! ## The reader follows the grammar -/

/-- What the reader does over tokens of each level of the grammar. -/
def Followed (ts : List Token) (a : Arith) : Level → Prop
  | .primary => ∀ f outer signed, ∃ m,
      State.run ⟨f, outer, .operand signed⟩ ts = some ⟨f, outer, m⟩ ∧ m.Ends a
  | .factor => ∀ sum term outer, ∃ s,
      State.run ⟨⟨sum, term, none⟩, outer, .operand true⟩ ts = some s ∧
        s.Completes sum outer (term a)
  | .term => ∀ sum outer, ∃ s,
      State.run ⟨⟨sum, id, none⟩, outer, .operand true⟩ ts = some s ∧ s.Completes sum outer a
  | .sum => ∀ outer, ∃ s sum b,
      State.run ⟨.empty, outer, .operand true⟩ ts = some s ∧ s.Completes sum outer b ∧ sum b = a

/-- One case for each rule of the grammar. -/
theorem Reads.followed {l : Level} {ts : List Token} {a : Arith} (h : Reads l ts a) :
    Followed ts a l := by
  induction h with
  | @number w v hw hv =>
    intro f outer signed
    refine ⟨.operator (.number v), ?_, .inl rfl⟩
    have hstep : State.step ⟨f, outer, .operand signed⟩ (.word w) =
        some ⟨f, outer, .operator (.number v)⟩ := by
      cases signed <;> simp [State.step, hw, hv]
    exact State.run_cons hstep []
  | reference hr =>
    intro f outer signed
    exact run_reference hr f outer signed
  | @parentheses ts a _ ih =>
    intro f outer signed
    obtain ⟨s, sum, b, hrun, hs, rfl⟩ := ih (f :: outer)
    refine ⟨.operator (sum b), ?_, .inl rfl⟩
    have hopen : State.step ⟨f, outer, .operand signed⟩ .opening =
        some ⟨.empty, f :: outer, .operand true⟩ := by
      cases signed <;> rfl
    have hclose := hs.step.2.2.2 f outer rfl
    rw [State.run_cons hopen, State.run_append hrun, State.run_cons hclose]
    rfl
  | primary _ ih =>
    intro sum term outer
    obtain ⟨m, hrun, hm⟩ := ih ⟨sum, term, none⟩ outer true
    exact ⟨_, hrun, _, hm, rfl, rfl, rfl⟩
  | @power ts us a b _ _ iha ihb =>
    intro sum term outer
    obtain ⟨m, hrun, hm⟩ := iha ⟨sum, term, none⟩ outer true
    obtain ⟨m', hrun', hm'⟩ := ihb ⟨sum, term, some a⟩ outer false
    have hstep : State.step ⟨⟨sum, term, none⟩, outer, m⟩ .power =
        some ⟨⟨sum, term, some a⟩, outer, .operand false⟩ :=
      hm.step _ _ (by simp)
    refine ⟨⟨⟨sum, term, some a⟩, outer, m'⟩, ?_, b, hm', rfl, rfl, rfl⟩
    rw [State.run_append hrun, State.run_cons hstep, hrun']
  | @negative ts a _ ih =>
    intro sum term outer
    have hstep : State.step ⟨⟨sum, term, none⟩, outer, .operand true⟩ .minus =
        some ⟨⟨sum, fun a => term (.neg a), none⟩, outer, .operand true⟩ := rfl
    obtain ⟨s, hrun, hs⟩ := ih sum (fun a => term (.neg a)) outer
    exact ⟨s, by rw [State.run_cons hstep, hrun], hs⟩
  | @positive ts a _ ih =>
    intro sum term outer
    have hstep : State.step ⟨⟨sum, term, none⟩, outer, .operand true⟩ .plus =
        some ⟨⟨sum, term, none⟩, outer, .operand true⟩ := rfl
    obtain ⟨s, hrun, hs⟩ := ih sum term outer
    exact ⟨s, by rw [State.run_cons hstep, hrun], hs⟩
  | factor _ ih =>
    intro sum outer
    exact ih sum id outer
  | @times ts us a b _ _ iha ihb =>
    intro sum outer
    obtain ⟨s, hrun, hs⟩ := iha sum outer
    obtain ⟨s', hrun', hs'⟩ := ihb sum (.mul a) outer
    exact ⟨s', by rw [State.run_append hrun, State.run_cons hs.step.1, hrun'], hs'⟩
  | term _ ih =>
    intro outer
    obtain ⟨s, hrun, hs⟩ := ih id outer
    exact ⟨s, id, _, hrun, hs, rfl⟩
  | @plus ts us a b _ _ iha ihb =>
    intro outer
    obtain ⟨s, sum, c, hrun, hs, rfl⟩ := iha outer
    obtain ⟨s', hrun', hs'⟩ := ihb (.add (sum c)) outer
    exact ⟨s', _, b, by rw [State.run_append hrun, State.run_cons hs.step.2.1, hrun'], hs', rfl⟩
  | @minus ts us a b _ _ iha ihb =>
    intro outer
    obtain ⟨s, sum, c, hrun, hs, rfl⟩ := iha outer
    obtain ⟨s', hrun', hs'⟩ := ihb (.sub (sum c)) outer
    exact ⟨s', _, b, by rw [State.run_append hrun, State.run_cons hs.step.2.2.1, hrun'], hs', rfl⟩

/-- A sequence of the grammar is read as what it stands for. -/
theorem Reads.read_eq {ts : List Token} {a : Arith} (h : Reads .sum ts a) : read ts = some a := by
  obtain ⟨s, sum, b, hrun, ⟨c, hm, houter, rfl, rfl⟩, rfl⟩ := h.followed []
  obtain ⟨f, outer, m⟩ := s
  subst houter
  rw [read, hrun, Option.bind_some, hm.result]
  rfl

/-- The grammar has one reading of a sequence. -/
theorem Reads.unique {ts : List Token} {a b : Arith} (ha : Reads .sum ts a)
    (hb : Reads .sum ts b) : a = b := by
  have h : some a = some b := by rw [← ha.read_eq, hb.read_eq]
  injection h

theorem reads_reference {r : Reference} (h : isName r.name = true) :
    Reads .sum r.tokens (.reference r) :=
  .term (.factor (.primary (.reference h)))

/-- Different references have different texts. -/
theorem Reference.WellFormed.text_injective {r s : Reference} (hr : r.WellFormed)
    (hs : s.WellFormed) (h : r.text = s.text) : r = s := by
  have hchars : r.chars = s.chars := String.ofList_injective h
  have htokens : r.tokens = s.tokens := by
    have hr' := hr.scans.scan_append [] stops_nil
    have hs' := hs.scans.scan_append [] stops_nil
    rw [hchars, hs'] at hr'
    simpa [scan, lexeme] using hr'.symm
  have hread := reads_reference hr.name_isName
  rw [htokens] at hread
  injection hread.unique (reads_reference hs.name_isName)

end GaussianIntegrals.Code
