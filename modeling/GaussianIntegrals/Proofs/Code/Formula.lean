/-
  Formulas of the generated code: definitions of a name by arithmetic with quotients, powers
  with any exponent and numerals in double precision, where the mark of the exponent is `d`.
  The values are complex numbers, so that a fractional power has one for every base but 0.

  The grammar is that of `Arith`, with the slash beside the star and without indices. A reader
  with one state and one step for each token finds the formula of every token sequence of the
  grammar (`Parses.read_eq`). `Means lookup l s x` says of a text that it has the value `x` at a
  level of the grammar; there is one lemma for each way in which texts are put together.
-/
import GaussianIntegrals.Proofs.Code.Arith
import Mathlib.Analysis.SpecialFunctions.Pow.Complex

namespace GaussianIntegrals.Code

open GaussianIntegrals.Number

/-! ## Formulas -/

/-- An operation between two operands. -/
inductive Operation where
  | add
  | sub
  | mul
  | div
  deriving DecidableEq, Repr

namespace Operation

/-- The character that stands for the operation. -/
def char : Operation → Char
  | .add => '+'
  | .sub => '-'
  | .mul => '*'
  | .div => '/'

/-- The token that stands for the operation. -/
def token : Operation → Token
  | .add => .plus
  | .sub => .minus
  | .mul => .times
  | .div => .stray '/'

/-- The operation of a token. -/
def ofToken? : Token → Option Operation
  | .plus => some .add
  | .minus => some .sub
  | .times => some .mul
  | .stray '/' => some .div
  | _ => none

/-- The operation makes a term of a term and a factor, not a sum of a sum and a term. -/
def isProduct : Operation → Bool
  | .mul | .div => true
  | .add | .sub => false

open Classical in
/-- The result, if there is one. -/
noncomputable def apply (x y : ℂ) : Operation → Option ℂ
  | .add => some (x + y)
  | .sub => some (x - y)
  | .mul => some (x * y)
  | .div => if y = 0 then none else some (x / y)

theorem scan_char (op : Operation) {c : Char} (hc : c ≠ '*') (cs : List Char) :
    scan [] ([op.char] ++ c :: cs) = [op.token] ++ scan [] (c :: cs) := by
  cases op with
  | mul => exact scan_times hc cs
  | _ =>
    rw [List.singleton_append, scan_nil_cons, scan_symbol (by decide) (by decide)]
    rfl

end Operation

/-- Arithmetic on numbers and variables. -/
inductive Formula where
  | number (value : ℚ)
  | name (chars : List Char)
  | neg (a : Formula)
  | power (base exponent : Formula)
  | binary (op : Operation) (a b : Formula)

open Classical in
/-- The value, where every variable has one. Zero has powers with a positive real part of the
exponent, and the power 0. -/
noncomputable def Formula.value (lookup : List Char → Option ℂ) : Formula → Option ℂ
  | .number v => some v
  | .name w => lookup w
  | .neg a => do some (-(← a.value lookup))
  | .power a b => do
    let x ← a.value lookup
    let y ← b.value lookup
    if x = 0 ∧ y ≠ 0 ∧ y.re ≤ 0 then none else some (x ^ y)
  | .binary op a b => do op.apply (← a.value lookup) (← b.value lookup)

/-- The number that a numeral denotes, the mark `d` in it or the mark `e`. -/
def doubleNumeral? (w : List Char) : Option ℚ :=
  (numeral? w).or (numeral? (w.map fun c => if c = 'd' then 'e' else c))

/-- The variable or the number that a word stands for. -/
def atom? (w : List Char) : Option Formula :=
  if isName w then some (.name w) else (doubleNumeral? w).map .number

/-! ## The grammar -/

/-- The tokens stand for the formula, read at the level. -/
inductive Parses : Level → List Token → Formula → Prop where
  | atom {w a} : atom? w = some a → Parses .primary [.word w] a
  | parentheses {ts a} : Parses .sum ts a → Parses .primary (.opening :: (ts ++ [.closing])) a
  | primary {ts a} : Parses .primary ts a → Parses .factor ts a
  | power {ts us a b} : Parses .primary ts a → Parses .primary us b →
      Parses .factor (ts ++ .power :: us) (.power a b)
  | negative {ts a} : Parses .factor ts a → Parses .factor (.minus :: ts) (.neg a)
  | factor {ts a} : Parses .factor ts a → Parses .term ts a
  | product {ts us a b} {op : Operation} : op.isProduct = true → Parses .term ts a →
      Parses .factor us b → Parses .term (ts ++ op.token :: us) (.binary op a b)
  | term {ts a} : Parses .term ts a → Parses .sum ts a
  | sum {ts us a b} {op : Operation} : op.isProduct = false → Parses .sum ts a →
      Parses .term us b → Parses .sum (ts ++ op.token :: us) (.binary op a b)

/-! ## The reader -/

namespace Formula

/-- What stands to the left inside one pair of parentheses. -/
structure Frame where
  /-- Makes the sum of a finished term. -/
  sum : Formula → Formula
  /-- Makes the term of a finished factor. -/
  term : Formula → Formula
  /-- The base that waits for its exponent. -/
  base : Option Formula

namespace Frame

/-- Nothing stands to the left. -/
def empty : Frame := ⟨id, id, none⟩

/-- The factor with the primary that ends it. -/
def factor (f : Frame) (a : Formula) : Formula :=
  match f.base with
  | some b => .power b a
  | none => a

/-- The sum with the primary that ends it. -/
def total (f : Frame) (a : Formula) : Formula := f.sum (f.term (f.factor a))

/-- The frame after an operation behind a primary. -/
def after (f : Frame) (a : Formula) (op : Operation) : Frame :=
  if op.isProduct then ⟨f.sum, .binary op (f.term (f.factor a)), none⟩
  else ⟨.binary op (f.total a), id, none⟩

end Frame

/-- What may come next. -/
inductive Mode where
  /-- A primary; signs in front of it only if it is no exponent. -/
  | operand (signed : Bool)
  /-- An operator or a closing parenthesis, after a primary. -/
  | operator (a : Formula)

/-- The innermost frame, the frames around it and what may come next. -/
structure State where
  frame : Frame
  outer : List Frame
  mode : Mode

/-- One step. -/
def State.step (s : State) (t : Token) : Option State :=
  match s.mode, t with
  | .operand true, .minus =>
    some { s with frame := { s.frame with term := fun a => s.frame.term (.neg a) } }
  | .operand _, .word w => (atom? w).map fun a => { s with mode := .operator a }
  | .operand _, .opening => some ⟨.empty, s.frame :: s.outer, .operand true⟩
  | .operator a, .power =>
    if s.frame.base.isNone then some ⟨{ s.frame with base := some a }, s.outer, .operand false⟩
    else none
  | .operator a, .closing =>
    match s.outer with
    | f :: outer => some ⟨f, outer, .operator (s.frame.total a)⟩
    | [] => none
  | .operator a, t =>
    (Operation.ofToken? t).map fun op => ⟨s.frame.after a op, s.outer, .operand true⟩
  | _, _ => none

/-- The states reached over tokens. -/
def State.run (s : State) (ts : List Token) : Option State := ts.foldlM State.step s

/-- The formula of a state at the end of the tokens. -/
def State.result (s : State) : Option Formula :=
  match s.outer, s.mode with
  | [], .operator a => some (s.frame.total a)
  | _, _ => none

/-- Reads tokens. -/
def read (ts : List Token) : Option Formula :=
  (State.run ⟨.empty, [], .operand true⟩ ts).bind State.result

theorem State.run_cons {s s' : State} {t : Token} (h : s.step t = some s') (ts : List Token) :
    s.run (t :: ts) = s'.run ts := by
  simp [State.run, h]

theorem State.run_append {s s' : State} {ts : List Token} (h : s.run ts = some s')
    (us : List Token) : s.run (ts ++ us) = s'.run us := by
  unfold State.run at h ⊢
  rw [List.foldlM_append, h]
  rfl

theorem State.step_operation (f : Frame) (outer : List Frame) (a : Formula) (op : Operation) :
    State.step ⟨f, outer, .operator a⟩ op.token = some ⟨f.after a op, outer, .operand true⟩ := by
  cases op <;> rfl

/-! ## The reader follows the grammar -/

/-- The state after the formula `a` of a term inside the frames `outer` and a sum. -/
def State.Completes (s : State) (sum : Formula → Formula) (outer : List Frame) (a : Formula) :
    Prop :=
  ∃ b, s.mode = .operator b ∧ s.outer = outer ∧ s.frame.sum = sum ∧
    s.frame.term (s.frame.factor b) = a

theorem State.Completes.step {s : State} {sum : Formula → Formula} {outer : List Frame}
    {a : Formula} (h : s.Completes sum outer a) (op : Operation) :
    s.step op.token = some ⟨if op.isProduct then ⟨sum, .binary op a, none⟩
      else ⟨.binary op (sum a), id, none⟩, outer, .operand true⟩ := by
  obtain ⟨⟨f, gs, m⟩, b, hm, rfl, rfl, rfl⟩ := s, h
  obtain rfl : m = .operator b := hm
  exact step_operation f gs b op

theorem State.Completes.step_closing {s : State} {sum : Formula → Formula} {g : Frame}
    {gs : List Frame} {a : Formula} (h : s.Completes sum (g :: gs) a) :
    s.step .closing = some ⟨g, gs, .operator (sum a)⟩ := by
  obtain ⟨⟨f, outer, m⟩, b, hm, houter, rfl, rfl⟩ := s, h
  obtain rfl : m = .operator b := hm
  obtain rfl : outer = g :: gs := houter
  rfl

/-- What the reader does over tokens of each level of the grammar. -/
def Followed (ts : List Token) (a : Formula) : Level → Prop
  | .primary => ∀ f outer signed,
      State.run ⟨f, outer, .operand signed⟩ ts = some ⟨f, outer, .operator a⟩
  | .factor => ∀ sum term outer, ∃ s,
      State.run ⟨⟨sum, term, none⟩, outer, .operand true⟩ ts = some s ∧
        s.Completes sum outer (term a)
  | .term => ∀ sum outer, ∃ s,
      State.run ⟨⟨sum, id, none⟩, outer, .operand true⟩ ts = some s ∧ s.Completes sum outer a
  | .sum => ∀ outer, ∃ s sum b,
      State.run ⟨.empty, outer, .operand true⟩ ts = some s ∧ s.Completes sum outer b ∧ sum b = a

end Formula

open Formula in
/-- One case for each rule of the grammar. -/
theorem Parses.followed {l : Level} {ts : List Token} {a : Formula} (h : Parses l ts a) :
    Followed ts a l := by
  induction h with
  | @atom w a ha =>
    intro f outer signed
    have hstep : State.step ⟨f, outer, .operand signed⟩ (.word w) =
        some ⟨f, outer, .operator a⟩ := by
      cases signed <;> simp [State.step, ha]
    exact State.run_cons hstep []
  | @parentheses ts a _ ih =>
    intro f outer signed
    obtain ⟨s, sum, b, hrun, hs, rfl⟩ := ih (f :: outer)
    have hopen : State.step ⟨f, outer, .operand signed⟩ .opening =
        some ⟨.empty, f :: outer, .operand true⟩ := by
      cases signed <;> rfl
    rw [State.run_cons hopen, State.run_append hrun, State.run_cons hs.step_closing]
    rfl
  | primary _ ih =>
    intro sum term outer
    exact ⟨_, ih ⟨sum, term, none⟩ outer true, _, rfl, rfl, rfl, rfl⟩
  | @power ts us a b _ _ iha ihb =>
    intro sum term outer
    have hstep : State.step ⟨⟨sum, term, none⟩, outer, .operator a⟩ .power =
        some ⟨⟨sum, term, some a⟩, outer, .operand false⟩ := rfl
    refine ⟨⟨⟨sum, term, some a⟩, outer, .operator b⟩, ?_, b, rfl, rfl, rfl, rfl⟩
    rw [State.run_append (iha _ outer true), State.run_cons hstep, ihb _ outer false]
  | @negative ts a _ ih =>
    intro sum term outer
    have hstep : State.step ⟨⟨sum, term, none⟩, outer, .operand true⟩ .minus =
        some ⟨⟨sum, fun a => term (.neg a), none⟩, outer, .operand true⟩ := rfl
    obtain ⟨s, hrun, hs⟩ := ih sum (fun a => term (.neg a)) outer
    exact ⟨s, by rw [State.run_cons hstep, hrun], hs⟩
  | factor _ ih =>
    intro sum outer
    exact ih sum id outer
  | @product ts us a b op hop _ _ iha ihb =>
    intro sum outer
    obtain ⟨s, hrun, hs⟩ := iha sum outer
    obtain ⟨s', hrun', hs'⟩ := ihb sum (.binary op a) outer
    have hstep := hs.step op
    rw [if_pos hop] at hstep
    exact ⟨s', by rw [State.run_append hrun, State.run_cons hstep, hrun'], hs'⟩
  | term _ ih =>
    intro outer
    obtain ⟨s, hrun, hs⟩ := ih id outer
    exact ⟨s, id, _, hrun, hs, rfl⟩
  | @sum ts us a b op hop _ _ iha ihb =>
    intro outer
    obtain ⟨s, sum, c, hrun, hs, rfl⟩ := iha outer
    obtain ⟨s', hrun', hs'⟩ := ihb (.binary op (sum c)) outer
    have hstep := hs.step op
    rw [if_neg (Bool.eq_false_iff.1 hop)] at hstep
    exact ⟨s', _, b, by rw [State.run_append hrun, State.run_cons hstep, hrun'], hs', rfl⟩

/-- A sequence of the grammar is read as what it stands for. -/
theorem Parses.read_eq {ts : List Token} {a : Formula} (h : Parses .sum ts a) :
    Formula.read ts = some a := by
  obtain ⟨s, sum, b, hrun, ⟨c, hm, houter, rfl, rfl⟩, rfl⟩ := h.followed []
  obtain ⟨f, outer, m⟩ := s
  obtain rfl : m = .operator c := hm
  obtain rfl : outer = [] := houter
  rw [Formula.read, hrun]
  rfl

/-- The grammar has one reading of a sequence. -/
theorem Parses.unique {ts : List Token} {a b : Formula} (ha : Parses .sum ts a)
    (hb : Parses .sum ts b) : a = b := by
  have h : some a = some b := by rw [← ha.read_eq, hb.read_eq]
  injection h

/-! ## Numerals in double precision -/

theorem atom?_of_numeral {w : List Char} {v : ℚ} (h : numeral? w = some v) :
    atom? w = some (.number v) := by
  rw [atom?, isName_of_numeral h, doubleNumeral?, h]
  rfl

/-- A word with the mark `d` and without the mark `e` is no numeral in single precision. -/
theorem numeral?_eq_none {w : List Char} (he : 'e' ∉ w) (hd : 'd' ∈ w) : numeral? w = none := by
  by_contra hne
  obtain ⟨v, hv⟩ := Option.ne_none_iff_exists'.1 hne
  obtain ⟨c, cs, mark, k, rfl, hchars, hmark, -⟩ := exists_mantissa hv
  cases mark with
  | nil =>
    rw [List.append_nil] at hd
    exact absurd (hchars 'd' hd) (by decide)
  | cons e u =>
    obtain rfl : e = 'e' := by simpa using hmark
    exact he (by simp)

/-- The digits of a half-integer in double precision. -/
def halfChars (n : ℕ) : List Char := Nat.toDigits 10 n ++ ['.', '5', 'd', '0']

theorem doubleNumeral?_halfChars (n : ℕ) :
    doubleNumeral? (halfChars n) = some ((n : ℚ) + 1 / 2) := by
  have hdigits : ∀ c ∈ Nat.toDigits 10 n, c.isDigit = true := isDigit_digitChars n
  have hno : ∀ m : Char, m.isDigit = false → m ∉ Nat.toDigits 10 n := by
    intro m hm hmem
    rw [hdigits m hmem] at hm
    cases hm
  have hmap : (halfChars n).map (fun c => if c = 'd' then 'e' else c) =
      withPoint false (Nat.toDigits 10 n) ['5'] ++ ['e', '0'] := by
    have hkeep : (Nat.toDigits 10 n).map (fun c => if c = 'd' then 'e' else c) =
        Nat.toDigits 10 n := by
      refine (List.map_congr_left fun c hc => if_neg ?_).trans (List.map_id _)
      rintro rfl
      exact hno _ (by decide) hc
    rw [halfChars, List.map_append, hkeep]
    simp [withPoint]
  have hvalue : pointed (Nat.toDigits 10 n) ['5'] 0 = (n : ℚ) + 1 / 2 := by
    have hfive : Nat.ofDigitChars 10 ['5'] n = 10 * n + 5 := rfl
    rw [pointed, Nat.ofDigitChars_append, Nat.ofDigitChars_ten_toDigits, hfive]
    norm_num
    ring
  rw [doubleNumeral?, numeral?_eq_none (by simp [halfChars, hno 'e' (by decide)])
    (by simp [halfChars]), Option.none_or, hmap,
    numeral?_withPoint Nat.toDigits_ne_nil hdigits (List.forall_mem_singleton.2 rfl) (.inr rfl)
      (k := 0) (by decide), hvalue]

theorem atom?_halfChars (n : ℕ) : atom? (halfChars n) = some (.number (n + 1 / 2)) := by
  have hname : isName (halfChars n) = false := by
    obtain ⟨c, cs, hc⟩ := List.exists_cons_of_ne_nil (Nat.toDigits_ne_nil (b := 10) (n := n))
    rw [halfChars, hc, isName]
    exact not_isLetter_of_isDigit (isDigit_digitChars n c (by rw [digitChars, hc]; simp))
  rw [atom?, hname, doubleNumeral?_halfChars]
  rfl

theorem scansSigned_halfChars (n : ℕ) : ScansSigned (halfChars n) [.word (halfChars n)] := by
  obtain ⟨c, cs, hc⟩ := List.exists_cons_of_ne_nil (Nat.toDigits_ne_nil (b := 10) (n := n))
  have hword : ∀ d ∈ halfChars n, isWordChar d = true := by
    refine List.forall_mem_append.2 ⟨fun d hd => ?_, List.all_eq_true.1 (by decide)⟩
    exact isWordChar_of_isDigit (isDigit_digitChars n d hd)
  have hlast : (halfChars n).getLast? = some '0' := by
    rw [halfChars, List.getLast?_append]
    rfl
  have hend : awaitsExponent (halfChars n) = false := by
    rw [awaitsExponent, hlast]
    simp
  have hcons : halfChars n = c :: (cs ++ ['.', '5', 'd', '0']) := by rw [halfChars, hc]; rfl
  rw [hcons] at hword hend ⊢
  rw [List.forall_mem_cons] at hword
  exact .word hword.1 (extends?_of_all (by simpa using hword.1) hword.2) hend

/-! ## Texts -/

/-- The text has the value, read at the level. -/
def Means (lookup : List Char → Option ℂ) (l : Level) (s : List Char) (x : ℂ) : Prop :=
  ∃ ts a, ScansSigned s ts ∧ Parses l ts a ∧ a.value lookup = some x

namespace Means

variable {lookup : List Char → Option ℂ} {s t : List Char} {x y : ℂ}

theorem factor (h : Means lookup .primary s x) : Means lookup .factor s x := by
  obtain ⟨ts, a, hs, ha, hx⟩ := h
  exact ⟨ts, a, hs, .primary ha, hx⟩

theorem term (h : Means lookup .factor s x) : Means lookup .term s x := by
  obtain ⟨ts, a, hs, ha, hx⟩ := h
  exact ⟨ts, a, hs, .factor ha, hx⟩

theorem sum (h : Means lookup .term s x) : Means lookup .sum s x := by
  obtain ⟨ts, a, hs, ha, hx⟩ := h
  exact ⟨ts, a, hs, .term ha, hx⟩

/-- A number or a variable. -/
theorem atom {a : Formula} (hs : ScansSigned s [.word s]) (ha : atom? s = some a)
    (hx : a.value lookup = some x) : Means lookup .primary s x :=
  ⟨_, a, hs, .atom ha, hx⟩

theorem numeral {v : ℚ} (h : numeral? s = some v) : Means lookup .primary s v :=
  atom (.numeral h) (atom?_of_numeral h) rfl

theorem half (n : ℕ) : Means lookup .primary (halfChars n) (n + 1 / 2) :=
  atom (scansSigned_halfChars n) (atom?_halfChars n) (by simp [Formula.value])

theorem name (hname : isName s = true) (hall : s.all isWordChar = true)
    (hx : lookup s = some x) : Means lookup .primary s x := by
  have hword := List.all_eq_true.1 hall
  refine atom (a := .name s) ?_ (if_pos hname) hx
  cases s with
  | nil => cases hname
  | cons c cs =>
    have hc : isWordChar c = true := hword c List.mem_cons_self
    have hletter : isLetter c = true := hname
    have hstart : startsNumeral c = false := by
      refine Bool.eq_false_iff.2 fun h => ?_
      rcases Bool.or_eq_true_iff.1 h with hd | hd
      · rw [not_isLetter_of_isDigit hd] at hletter
        cases hletter
      · rw [beq_iff_eq.1 hd] at hletter
        exact absurd hletter (by decide)
    refine .word hc (extends?_of_all (by simpa using hc) fun d hd =>
      hword d (List.mem_cons_of_mem c hd)) ?_
    simp [awaitsExponent, hstart]

theorem parenthesized (h : Means lookup .sum s x) :
    Means lookup .primary ('(' :: (s ++ [')'])) x := by
  obtain ⟨ts, a, hs, ha, hx⟩ := h
  exact ⟨_, a, hs.parenthesized, .parentheses ha, hx⟩

theorem negated (h : Means lookup .factor s x) : Means lookup .factor ('-' :: s) (-x) := by
  obtain ⟨ts, a, hs, ha, hx⟩ := h
  exact ⟨_, .neg a, hs.negated, .negative ha, by simp [Formula.value, hx]⟩

theorem power (hs : Means lookup .primary s x) (ht : Means lookup .primary t y) (h0 : x ≠ 0) :
    Means lookup .factor (s ++ '*' :: '*' :: t) (x ^ y) := by
  obtain ⟨ts, a, hs, ha, hx⟩ := hs
  obtain ⟨us, b, ht, hb, hy⟩ := ht
  refine ⟨ts ++ .power :: us, .power a b, ?_, .power ha hb, ?_⟩
  · simpa using ScansSigned.joined (by decide) (fun c cs _ => scan_power c cs) hs ht
  · simp [Formula.value, hx, hy, h0]

theorem scans_binary {ts us : List Token} (hs : ScansSigned s ts) (ht : ScansSigned t us)
    (op : Operation) : ScansSigned (s ++ op.char :: t) (ts ++ op.token :: us) := by
  have hop : [op.char].head?.any (!isWordChar ·) = true := by cases op <;> decide
  simpa using ScansSigned.joined hop (fun _ cs hc => op.scan_char hc cs) hs ht

/-- A product or a quotient. -/
theorem product (op : Operation) {z : ℂ} (hop : op.isProduct = true)
    (hs : Means lookup .term s x) (ht : Means lookup .factor t y) (hz : op.apply x y = some z) :
    Means lookup .term (s ++ op.char :: t) z := by
  obtain ⟨ts, a, hs, ha, hx⟩ := hs
  obtain ⟨us, b, ht, hb, hy⟩ := ht
  exact ⟨_, _, scans_binary hs ht op, .product hop ha hb, by simp [Formula.value, hx, hy, hz]⟩

theorem mul (hs : Means lookup .term s x) (ht : Means lookup .factor t y) :
    Means lookup .term (s ++ '*' :: t) (x * y) :=
  product .mul rfl hs ht rfl

theorem div (hs : Means lookup .term s x) (ht : Means lookup .factor t y) (h0 : y ≠ 0) :
    Means lookup .term (s ++ '/' :: t) (x / y) :=
  product .div rfl hs ht (if_neg h0)

/-- A sum or a difference. -/
theorem addend (op : Operation) {z : ℂ} (hop : op.isProduct = false)
    (hs : Means lookup .sum s x) (ht : Means lookup .term t y) (hz : op.apply x y = some z) :
    Means lookup .sum (s ++ op.char :: t) z := by
  obtain ⟨ts, a, hs, ha, hx⟩ := hs
  obtain ⟨us, b, ht, hb, hy⟩ := ht
  exact ⟨_, _, scans_binary hs ht op, .sum hop ha hb, by simp [Formula.value, hx, hy, hz]⟩

theorem add (hs : Means lookup .sum s x) (ht : Means lookup .term t y) :
    Means lookup .sum (s ++ '+' :: t) (x + y) :=
  addend .add rfl hs ht rfl

theorem sub (hs : Means lookup .sum s x) (ht : Means lookup .term t y) :
    Means lookup .sum (s ++ '-' :: t) (x - y) :=
  addend .sub rfl hs ht rfl

/-- A numeral with a minus sign in front of it or none. -/
theorem decimal {v : ℚ} (h : decimal? s = some v) : Means lookup .factor s v := by
  unfold decimal? at h
  split at h
  · next w =>
    rw [Option.map_eq_some_iff] at h
    obtain ⟨u, hu, rfl⟩ := h
    rw [Rat.cast_neg]
    exact (numeral hu).factor.negated
  · exact (numeral h).factor

end Means

/-! ## Definitions -/

/-- The definition of a name. -/
structure Definition where
  name : List Char
  body : Formula

/-- Reads a line: a name, the assignment sign and a formula. -/
def readDefinition (line : String) : Option Definition :=
  match tokens line with
  | .word w :: .equals :: ts => if isName w then (Formula.read ts).map fun a => ⟨w, a⟩ else none
  | _ => none

/-- A name, the assignment sign between blanks and a text with a value define the name. -/
theorem exists_readDefinition {lookup : List Char → Option ℂ} {w s : List Char} {x : ℂ}
    (hname : isName w = true) (hw : ScansSigned w [.word w]) (h : Means lookup .sum s x) :
    ∃ a, readDefinition (String.ofList (w ++ [' ', '=', ' '] ++ s)) = some ⟨w, a⟩ ∧
      a.value lookup = some x := by
  obtain ⟨ts, a, hs, ha, hx⟩ := h
  have hscan : ScansSigned (w ++ [' ', '=', ' '] ++ s) ([.word w] ++ [.equals] ++ ts) :=
    ScansSigned.joined (by decide)
      (fun c cs _ => scan_spaced (o := '=') (by decide) (by decide) (c :: cs)) hw hs
  have htokens : tokens (String.ofList (w ++ [' ', '=', ' '] ++ s)) =
      .word w :: .equals :: ts := by
    apply ScansSigned.tokens_eq
    rwa [String.toList_ofList]
  refine ⟨a, ?_, hx⟩
  rw [readDefinition, htokens]
  simp [hname, ha.read_eq]

end GaussianIntegrals.Code
