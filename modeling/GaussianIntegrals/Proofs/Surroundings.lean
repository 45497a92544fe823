/-
  Lawful surroundings of a run. A view says what stands at the places of a state and which paths
  can be opened for writing; it is lawful if a file is either written whole at its place or not
  opened and nothing changes, if making a directory adds no more than that, and if questions and
  records leave the files as they are (`FileView.Lawful`).

  In lawful surroundings a part of a run that writes no file is quiet: its result is that of the
  pure computation and the files stay as they are. Composing an artifact is quiet
  (`FileView.Lawful.quiet_compose`).
-/
import GaussianIntegrals.Files.Tree
import GaussianIntegrals.Proofs.ArtifactTexts

namespace GaussianIntegrals

/-! ## Views -/

/-- How the files of a state are seen. -/
structure FileView (S : Type) where
  Place : Type
  /-- The place that a path leads to. -/
  place : String → Place
  /-- What stands at a place. -/
  entry? : S → Place → Option FileEntry
  /-- A file can be opened for writing at a path. -/
  Opens : S → String → Prop
  /-- The states that the view is about. -/
  Fit : S → Prop

/-- Only a path with a null character is refused for one. -/
def FileFault.Suits (fault : FileFault) (path : String) : Prop :=
  fault = .nullCharacter → '\x00' ∈ path.toList

namespace FileView

section

variable {S : Type} (v : FileView S)

/-- The files are the same, and the same paths can be opened. -/
structure Same (w w' : S) : Prop where
  fit : v.Fit w'
  entry : ∀ p, v.entry? w' p = v.entry? w p
  opens : ∀ path, v.Opens w' path ↔ v.Opens w path

/-- Nothing has changed but that there may be new directories. -/
def AddsDirectories (w w' : S) : Prop :=
  ∀ p, v.entry? w' p = v.entry? w p ∨ (v.entry? w p = none ∧ v.entry? w' p = some .directory)

/-- Files of some paths and texts have been written, and nothing else has changed. -/
structure Wrote (files : List (String × String)) (w w' : S) : Prop where
  fit : v.Fit w'
  written : ∀ e ∈ files, v.entry? w' (v.place e.1) = some (.file e.2)
  kept : ∀ p, (∀ e ∈ files, v.place e.1 ≠ p) → v.entry? w' p = v.entry? w p
  opens : ∀ path, v.Opens w' path ↔ v.Opens w path

/-- The laws of the surroundings. -/
structure Lawful [Host (StateM S)] : Prop where
  store_of_opens : ∀ {w path} text, v.Fit w → v.Opens w path → ∃ w',
    (Host.store path text : StateM S (Except FileError Unit)).run w = (.ok (), w') ∧
      v.Wrote [(path, text)] w w'
  store_of_not_opens : ∀ {w path} text, v.Fit w → ¬ v.Opens w path → ∃ fault,
    (Host.store path text : StateM S (Except FileError Unit)).run w = (.error ⟨fault, path⟩, w) ∧
      fault.Suits path
  createDirectory : ∀ {w} path, v.Fit w →
    (∃ w', (Host.createDirectory path : StateM S (Except FileError Unit)).run w = (.ok (), w') ∧
      v.Fit w' ∧ v.AddsDirectories w w') ∨
    ∃ fault, (Host.createDirectory path : StateM S (Except FileError Unit)).run w =
      (.error ⟨fault, path⟩, w) ∧ fault.Suits path
  pathExists : ∀ w path, ((Host.pathExists path : StateM S Bool).run w).2 = w
  isDirectory : ∀ w path, ((Host.isDirectory path : StateM S Bool).run w).2 = w
  keeps : ∀ w level, ((Host.keeps level : StateM S Bool).run w).2 = w
  record : ∀ {w} r, v.Fit w → v.Same w ((Host.record r : StateM S Unit).run w).2
  /-- The artifacts of a directory have places of their own. -/
  place_injective : ∀ dir (a b : Artifact), v.place (a.path dir) = v.place (b.path dir) → a = b

variable {v} {w w₁ w₂ : S}

theorem Same.refl (h : v.Fit w) : v.Same w w := ⟨h, fun _ => rfl, fun _ => Iff.rfl⟩

theorem Same.trans (h₁ : v.Same w w₁) (h₂ : v.Same w₁ w₂) : v.Same w w₂ :=
  ⟨h₂.fit, fun p => (h₂.entry p).trans (h₁.entry p),
    fun path => (h₂.opens path).trans (h₁.opens path)⟩

theorem AddsDirectories.refl : v.AddsDirectories w w := fun _ => .inl rfl

theorem AddsDirectories.trans (h₁ : v.AddsDirectories w w₁) (h₂ : v.AddsDirectories w₁ w₂) :
    v.AddsDirectories w w₂ := by
  intro p
  obtain h₂ | ⟨hnone, hdir⟩ := h₂ p
  · rw [h₂]
    exact h₁ p
  · obtain h₁ | ⟨-, h₁⟩ := h₁ p
    · exact .inr ⟨h₁ ▸ hnone, hdir⟩
    · rw [hnone] at h₁
      cases h₁

theorem Same.wrote (h : v.Same w w₁) : v.Wrote [] w w₁ :=
  ⟨h.fit, fun _ hmem => absurd hmem List.not_mem_nil, fun p _ => h.entry p, h.opens⟩

theorem Same.trans_wrote {files : List (String × String)} (h₁ : v.Same w w₁)
    (h₂ : v.Wrote files w₁ w₂) : v.Wrote files w w₂ :=
  ⟨h₂.fit, h₂.written, fun p hp => (h₂.kept p hp).trans (h₁.entry p),
    fun path => (h₂.opens path).trans (h₁.opens path)⟩

theorem Wrote.trans_same {files : List (String × String)} (h₁ : v.Wrote files w w₁)
    (h₂ : v.Same w₁ w₂) : v.Wrote files w w₂ :=
  ⟨h₂.fit, fun e he => (h₂.entry _).trans (h₁.written e he),
    fun p hp => (h₂.entry p).trans (h₁.kept p hp),
    fun path => (h₂.opens path).trans (h₁.opens path)⟩

/-- Where two parts of a run write the same place, they write the same text. -/
theorem Wrote.trans {files files' : List (String × String)} (h₁ : v.Wrote files w w₁)
    (h₂ : v.Wrote files' w₁ w₂)
    (hsame : ∀ e ∈ files, ∀ e' ∈ files', v.place e'.1 = v.place e.1 → e'.2 = e.2) :
    v.Wrote (files ++ files') w w₂ where
  fit := h₂.fit
  written e he := by
    obtain he | he := List.mem_append.1 he
    · by_cases hagain : ∃ e' ∈ files', v.place e'.1 = v.place e.1
      · obtain ⟨e', he', hplace⟩ := hagain
        rw [← hplace, h₂.written e' he', hsame e he e' he' hplace]
      · rw [h₂.kept _ fun e' he' hplace => hagain ⟨e', he', hplace⟩, h₁.written e he]
    · exact h₂.written e he
  kept p hp := by
    rw [h₂.kept p fun e he => hp e (List.mem_append_right _ he),
      h₁.kept p fun e he => hp e (List.mem_append_left _ he)]
  opens path := (h₂.opens path).trans (h₁.opens path)

end

/-! ## Quiet parts of a run -/

section

variable {S : Type} {v : FileView S}

/-- A part of a run that ends with a result and leaves the files as they are. -/
def Quiet (v : FileView S) {α : Type} (x : Run (StateM S) α) (r : Except RunError α) : Prop :=
  ∀ w, v.Fit w → ∃ w', x.run.run w = (r, w') ∧ v.Same w w'

theorem run_bind_of_ok {α β : Type} {x : Run (StateM S) α} {f : α → Run (StateM S) β} {a : α}
    {w w' : S} (h : x.run.run w = (.ok a, w')) : (x >>= f).run.run w = (f a).run.run w' := by
  rw [ExceptT.run_bind, StateT.run_bind, h]
  rfl

theorem run_bind_of_error {α β : Type} {x : Run (StateM S) α} {f : α → Run (StateM S) β}
    {e : RunError} {w w' : S} (h : x.run.run w = (.error e, w')) :
    (x >>= f).run.run w = (.error e, w') := by
  rw [ExceptT.run_bind, StateT.run_bind, h]
  rfl

theorem run_lift_eq {α : Type} {x : StateM S α} {a : α} {w w' : S} (h : x.run w = (a, w')) :
    (ExceptT.lift x : Run (StateM S) α).run.run w = (.ok a, w') := by
  rw [ExceptT.run_lift, StateT.run_map, h]
  rfl

theorem run_ofExcept_of_ok {ε α : Type} {cause : ε → RunError} {x : Except ε α} {a : α}
    (h : x = .ok a) (w : S) : (Run.ofExcept cause x : Run (StateM S) α).run.run w = (.ok a, w) := by
  rw [h]
  rfl

theorem run_ofExcept_of_error {ε α : Type} {cause : ε → RunError} {x : Except ε α} {e : ε}
    (h : x = .error e) (w : S) :
    (Run.ofExcept cause x : Run (StateM S) α).run.run w = (.error (cause e), w) := by
  rw [h]
  rfl

theorem quiet_pure {α : Type} (a : α) : v.Quiet (pure a : Run (StateM S) α) (.ok a) :=
  fun w hw => ⟨w, rfl, .refl hw⟩

theorem quiet_ofExcept {ε α : Type} (cause : ε → RunError) (x : Except ε α) :
    v.Quiet (Run.ofExcept cause x : Run (StateM S) α) (x.mapError cause) :=
  fun w hw => ⟨w, rfl, .refl hw⟩

theorem Quiet.bind {α β : Type} {x : Run (StateM S) α} {f : α → Run (StateM S) β}
    {r : Except RunError α} {g : α → Except RunError β} (hx : v.Quiet x r)
    (hf : ∀ a, r = .ok a → v.Quiet (f a) (g a)) : v.Quiet (x >>= f) (r >>= g) := by
  intro w hw
  obtain ⟨w₁, hrun, hsame⟩ := hx w hw
  cases hr : r with
  | error e => exact ⟨w₁, run_bind_of_error (hr ▸ hrun), hsame⟩
  | ok a =>
    obtain ⟨w₂, hrun₂, hsame₂⟩ := hf a hr w₁ hsame.fit
    exact ⟨w₂, (run_bind_of_ok (hr ▸ hrun)).trans hrun₂, hsame.trans hsame₂⟩

/-- What precedes the computation of the result. -/
theorem Quiet.after {α β : Type} {x : Run (StateM S) α} {y : Run (StateM S) β} {a : α}
    {r : Except RunError β} (hx : v.Quiet x (.ok a)) (hy : v.Quiet y r) :
    v.Quiet (x >>= fun _ => y) r := by
  have hboth : v.Quiet (x >>= fun _ => y) (Except.ok a >>= fun _ => r) := hx.bind fun _ _ => hy
  exact hboth

theorem Quiet.mapM {α β : Type} {f : α → Run (StateM S) β} {g : α → Except RunError β}
    (h : ∀ a, v.Quiet (f a) (g a)) (as : List α) : v.Quiet (as.mapM f) (as.mapM g) := by
  induction as with
  | nil => exact quiet_pure []
  | cons a as ih =>
    rw [List.mapM_cons, List.mapM_cons]
    exact (h a).bind fun b _ => ih.bind fun bs _ => quiet_pure (b :: bs)

namespace Lawful

variable [Host (StateM S)] (hv : v.Lawful)

include hv

theorem quiet_record (r : LogRecord) :
    v.Quiet (ExceptT.lift (Host.record r) : Run (StateM S) Unit) (.ok ()) :=
  fun _ hw => ⟨_, rfl, hv.record r hw⟩

theorem quiet_info (message : String) : v.Quiet (Run.info message) (.ok ()) :=
  hv.quiet_record _

theorem quiet_logAll (level : LogLevel) (records : Unit → List LogRecord) :
    v.Quiet (ExceptT.lift (Host.logAll level records) : Run (StateM S) Unit) (.ok ()) := by
  have hall : ∀ (rs : List LogRecord) (w : S), v.Fit w → ∃ w',
      (rs.forM Host.record : StateM S Unit).run w = ((), w') ∧ v.Same w w' := by
    intro rs
    induction rs with
    | nil => exact fun w hw => ⟨w, rfl, .refl hw⟩
    | cons r rs ih =>
      intro w hw
      have hsame := hv.record r hw
      obtain ⟨w', hrun, hsame'⟩ := ih _ hsame.fit
      refine ⟨w', ?_, hsame.trans hsame'⟩
      exact hrun
  intro w hw
  have hkeeps : (Host.keeps level : StateM S Bool).run w =
      (((Host.keeps level : StateM S Bool).run w).1, w) := Prod.ext rfl (hv.keeps w level)
  rw [ExceptT.run_lift, StateT.run_map, Host.logAll, StateT.run_bind, hkeeps]
  cases ((Host.keeps level : StateM S Bool).run w).1 with
  | false => exact ⟨w, rfl, .refl hw⟩
  | true =>
    obtain ⟨w', hrun, hsame⟩ := hall (records ()) w hw
    exact ⟨w', congrArg (fun p => (Except.ok p.1, p.2)) hrun, hsame⟩

/-- The texts of a family are made without touching a file, by one worker or by several. -/
theorem quiet_texts (f : Family) (pairs : List ShellPair) (d : Dialect) (workers : ℤ) :
    v.Quiet (f.texts pairs d workers) (f.caseTexts pairs d) := by
  refine (hv.quiet_info _).after ?_
  dsimp only
  split
  · exact (hv.quiet_info _).after (Quiet.mapM (fun c => quiet_ofExcept _ _) pairs)
  · exact Quiet.mapM (fun c => (hv.quiet_logAll _ _).after (quiet_ofExcept _ _)) pairs

/-- Composing an artifact gives its text and touches no file. -/
theorem quiet_compose (pairs : List ShellPair) (d : Dialect) (workers : ℤ) (a : Artifact) :
    v.Quiet (a.compose pairs d workers) (a.text pairs d) := by
  cases a with
  | family n => exact (hv.quiet_texts _ pairs d workers).bind fun ts _ => quiet_ofExcept _ _
  | closedForms => exact quiet_ofExcept _ _
  | series => exact quiet_pure _

end Lawful

end

end FileView

end GaussianIntegrals
