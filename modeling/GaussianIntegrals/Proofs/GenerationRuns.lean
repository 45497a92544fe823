/-
  What a run of generation leaves in lawful surroundings. One artifact is written whole or not at
  all (`FileView.Lawful.write_artifact`); so a list of artifacts leaves the texts of those before
  the first path that cannot be opened, and nothing else (`FileView.Lawful.write_artifacts`). With
  the making of the output directory in front this describes every run (`generate_writes_prefix`).
-/
import GaussianIntegrals.Proofs.WorkspaceLaws

namespace GaussianIntegrals

open FileView

/-! ## The way to a directory -/

theorem mem_of_mem_parentOf {p : List Char} {c : Char} (h : c ∈ Path.parentOf p) : c ∈ p := by
  have hbefore : ∀ {c}, c ∈ p.reverse.dropWhile (· != '/') → c ∈ p := fun hc =>
    List.mem_reverse.1 ((List.dropWhile_suffix _).subset hc)
  unfold Path.parentOf at h
  dsimp only at h
  split at h
  · exact hbefore (List.mem_reverse.1 h)
  · exact hbefore ((List.dropWhile_suffix _).subset (List.mem_reverse.1 h))

/-- The paths on the way to a path hold no other characters. -/
theorem mem_of_mem_ancestry {p : List Char} {c : Char} {step : String × String}
    (h : step ∈ Path.ancestry p) (hc : c ∈ step.1.toList) : c ∈ p := by
  induction p using Path.ancestry.induct with
  | case1 p ih =>
    rw [Path.ancestry, List.mem_cons] at h
    obtain rfl | h := h
    · rwa [String.toList_ofList] at hc
    · split at h
      · next hne =>
        have hparent := ih hne h
        unfold Path.splitEnd at hparent
        split at hparent
        · exact mem_of_mem_parentOf (mem_of_mem_parentOf hparent)
        · exact mem_of_mem_parentOf hparent
      · cases h

namespace FileView

variable {S : Type} [Host (StateM S)] {v : FileView S}

/-! ## Making directories -/

/-- An attempt that at most adds directories, and whose errors are about some paths. -/
def MakesDirectories (v : FileView S) (paths : List String)
    (x : StateM S (Except FileError Unit)) : Prop :=
  ∀ w, v.Fit w → ∃ r w', x.run w = (r, w') ∧ v.Fit w' ∧ v.AddsDirectories w w' ∧
    ∀ e, r = .error e → ∃ path ∈ paths, e.fault.Suits path

omit [Host (StateM S)] in
theorem makesDirectories_pure {paths : List String} {r : Except FileError Unit}
    (h : ∀ e, r = .error e → ∃ path ∈ paths, e.fault.Suits path) :
    v.MakesDirectories paths (pure r) :=
  fun w hw => ⟨r, w, rfl, hw, .refl, h⟩

omit [Host (StateM S)] in
theorem MakesDirectories.bind {paths : List String} {x : StateM S (Except FileError Unit)}
    {f : Except FileError Unit → StateM S (Except FileError Unit)}
    (hx : v.MakesDirectories paths x)
    (hf : ∀ r, (∀ e, r = .error e → ∃ path ∈ paths, e.fault.Suits path) →
      v.MakesDirectories paths (f r)) : v.MakesDirectories paths (x >>= f) := by
  intro w hw
  obtain ⟨r, w₁, hrun, hfit, hadds, herror⟩ := hx w hw
  obtain ⟨r', w₂, hrun', hfit', hadds', herror'⟩ := hf r herror w₁ hfit
  refine ⟨r', w₂, ?_, hfit', hadds.trans hadds', herror'⟩
  rw [StateT.run_bind, hrun]
  exact hrun'

omit [Host (StateM S)] in
/-- A question changes nothing. -/
theorem MakesDirectories.ask {paths : List String} {question : StateM S Bool}
    (hquestion : ∀ w, (question.run w).2 = w) {f : Bool → StateM S (Except FileError Unit)}
    (hf : ∀ b, v.MakesDirectories paths (f b)) : v.MakesDirectories paths (question >>= f) := by
  intro w hw
  obtain ⟨r, w', hrun, h⟩ := hf (question.run w).1 w hw
  refine ⟨r, w', ?_, h⟩
  rw [StateT.run_bind, ← hrun]
  exact congrArg (fun w₁ => (f (question.run w).1).run w₁) (hquestion w)

omit [Host (StateM S)] in
theorem MakesDirectories.mono {paths paths' : List String}
    {x : StateM S (Except FileError Unit)} (hx : v.MakesDirectories paths x)
    (h : ∀ path ∈ paths, path ∈ paths') : v.MakesDirectories paths' x := by
  intro w hw
  obtain ⟨r, w', hrun, hfit, hadds, herror⟩ := hx w hw
  refine ⟨r, w', hrun, hfit, hadds, fun e he => ?_⟩
  obtain ⟨path, hpath, hsuits⟩ := herror e he
  exact ⟨path, h path hpath, hsuits⟩

namespace Lawful

variable (hv : v.Lawful)

include hv

theorem createOrAccept (mayExist : Bool) (path : String) :
    v.MakesDirectories [path] (Host.createOrAccept mayExist path) := by
  have hcreate : v.MakesDirectories [path] (Host.createDirectory path) := by
    intro w hw
    obtain ⟨w', hrun, hfit, hadds⟩ | ⟨fault, hrun, hsuits⟩ := hv.createDirectory path hw
    · exact ⟨_, w', hrun, hfit, hadds, fun e he => by cases he⟩
    · refine ⟨_, w, hrun, hw, .refl, fun e he => ⟨path, List.mem_singleton_self path, ?_⟩⟩
      cases he
      exact hsuits
  refine hcreate.bind fun r hr => ?_
  cases r with
  | ok _ => exact makesDirectories_pure fun e he => by cases he
  | error e =>
    refine MakesDirectories.ask (fun w => hv.isDirectory w path) fun there => ?_
    refine makesDirectories_pure fun e' he' => ?_
    split at he'
    · cases he'
    · exact hr e' he'

theorem createChain (mayExist : Bool) : ∀ chain : List (String × String),
    v.MakesDirectories (chain.map Prod.fst) (Host.createChain mayExist chain)
  | [] => makesDirectories_pure fun e he => by cases he
  | [(path, _)] => hv.createOrAccept mayExist path
  | (path, name) :: (parent, parentName) :: rest => by
    have hself : v.MakesDirectories (((path, name) :: (parent, parentName) :: rest).map Prod.fst)
        (Host.createOrAccept mayExist path) :=
      (hv.createOrAccept mayExist path).mono (by simp)
    refine MakesDirectories.ask (fun w => hv.pathExists w parent) fun there => ?_
    split
    · exact hself
    · have hparent := (createChain mayExist ((parent, parentName) :: rest)).mono
        fun _ => List.mem_cons_of_mem path
      refine hparent.bind fun r hr => ?_
      cases r with
      | error e =>
        dsimp only
        split
        · exact makesDirectories_pure hr
        · split
          · exact makesDirectories_pure fun e he => by cases he
          · exact hself
      | ok _ =>
        dsimp only
        split
        · exact makesDirectories_pure fun e he => by cases he
        · exact hself

theorem createDirectories {w : S} (hw : v.Fit w) (mayExist : Bool) (path : String) :
    ∃ r w', (Host.createDirectories path mayExist : StateM S (Except FileError Unit)).run w =
      (r, w') ∧ v.Fit w' ∧ v.AddsDirectories w w' ∧ ∀ e, r = .error e → e.fault.Suits path := by
  obtain ⟨r, w', hrun, hfit, hadds, herror⟩ :=
    hv.createChain mayExist (Path.ancestry path.toList) w hw
  refine ⟨r, w', hrun, hfit, hadds, fun e he hnull => ?_⟩
  obtain ⟨ancestor, hancestor, hsuits⟩ := herror e he
  obtain ⟨p, hp, rfl⟩ := List.mem_map.1 hancestor
  exact mem_of_mem_ancestry hp (hsuits hnull)

/-! ## Writing artifacts -/

section

variable (pairs : List ShellPair) (d : Dialect) (workers : ℤ) (dir : String)

/-- Without a text no file is touched. -/
theorem write_artifact_of_error {a : Artifact} {e : RunError} (htext : a.text pairs d = .error e)
    {w : S} (hw : v.Fit w) : ∃ w',
      (a.write pairs d workers dir : Run (StateM S) String).run.run w = (.error e, w') ∧
        v.Same w w' := by
  obtain ⟨w', hrun, hsame⟩ := hv.quiet_compose pairs d workers a w hw
  rw [htext] at hrun
  exact ⟨w', run_bind_of_error hrun, hsame⟩

/-- An artifact with a text is written whole, or its path cannot be opened and no file is
touched. -/
theorem write_artifact {a : Artifact} {text : String} (htext : a.text pairs d = .ok text) {w : S}
    (hw : v.Fit w) :
    (v.Opens w (a.path dir) ∧ ∃ w',
      (a.write pairs d workers dir : Run (StateM S) String).run.run w = (.ok (a.path dir), w') ∧
        v.Wrote [(a.path dir, text)] w w') ∨
    (¬ v.Opens w (a.path dir) ∧ ∃ fault w',
      (a.write pairs d workers dir : Run (StateM S) String).run.run w =
        (.error (.artifact (a.path dir) ⟨fault, a.path dir⟩), w') ∧
      fault.Suits (a.path dir) ∧ v.Same w w') := by
  obtain ⟨w₁, hcompose, hsame⟩ := hv.quiet_compose pairs d workers a w hw
  rw [htext] at hcompose
  by_cases hopens : v.Opens w (a.path dir)
  · refine .inl ⟨hopens, ?_⟩
    obtain ⟨w₂, hstore, hwrote⟩ :=
      hv.store_of_opens text hsame.fit ((hsame.opens _).2 hopens)
    obtain ⟨w₃, hinfo, hsame₃⟩ :=
      hv.quiet_info s!"Wrote {Path.name (a.path dir)} ({text.length} characters)" w₂ hwrote.fit
    have hwrite : (Run.write (a.path dir) text : Run (StateM S) Unit).run.run w₁ =
        (.ok (), w₃) := (run_bind_of_ok (run_lift_eq hstore)).trans hinfo
    exact ⟨w₃, (run_bind_of_ok hcompose).trans (run_bind_of_ok hwrite),
      (hsame.trans_wrote hwrote).trans_same hsame₃⟩
  · refine .inr ⟨hopens, ?_⟩
    obtain ⟨fault, hstore, hsuits⟩ :=
      hv.store_of_not_opens text hsame.fit fun h => hopens ((hsame.opens _).1 h)
    have hwrite : (Run.write (a.path dir) text : Run (StateM S) Unit).run.run w₁ =
        (.error (.artifact (a.path dir) ⟨fault, a.path dir⟩), w₁) :=
      (run_bind_of_ok (run_lift_eq hstore)).trans (run_bind_of_error rfl)
    exact ⟨fault, w₁, (run_bind_of_ok hcompose).trans (run_bind_of_error hwrite), hsuits, hsame⟩

/-- A list of artifacts is written up to the first path that cannot be opened. -/
theorem write_artifacts {text : Artifact → String}
    (htext : ∀ a : Artifact, a.text pairs d = .ok (text a)) (as : List Artifact) {w : S}
    (hw : v.Fit w) :
    ((∀ a ∈ as, v.Opens w (a.path dir)) ∧ ∃ w',
      (as.mapM (Artifact.write pairs d workers dir) : Run (StateM S) (List String)).run.run w =
        (.ok (as.map (Artifact.path dir)), w') ∧
      v.Wrote (as.map fun a => (a.path dir, text a)) w w') ∨
    ∃ done a later fault w', as = done ++ a :: later ∧ (∀ b ∈ done, v.Opens w (b.path dir)) ∧
      ¬ v.Opens w (a.path dir) ∧
      (as.mapM (Artifact.write pairs d workers dir) : Run (StateM S) (List String)).run.run w =
        (.error (.artifact (a.path dir) ⟨fault, a.path dir⟩), w') ∧
      fault.Suits (a.path dir) ∧ v.Wrote (done.map fun b => (b.path dir, text b)) w w' := by
  induction as generalizing w with
  | nil =>
    refine .inl ⟨fun a ha => absurd ha List.not_mem_nil, w, rfl, (Same.refl hw).wrote⟩
  | cons a as ih =>
    rw [List.mapM_cons]
    obtain ⟨hopens, w₁, hrun, hwrote⟩ | ⟨hopens, fault, w₁, hrun, hsuits, hsame⟩ :=
      hv.write_artifact pairs d workers dir (htext a) hw
    · -- the same artifact may come again, with the same text
      have hagain : ∀ bs : List Artifact, ∀ e ∈ [(a.path dir, text a)],
          ∀ e' ∈ bs.map fun b => (b.path dir, text b), v.place e'.1 = v.place e.1 →
            e'.2 = e.2 := by
        intro bs e he e' he' hplace
        obtain rfl := List.mem_singleton.1 he
        obtain ⟨b, -, rfl⟩ := List.mem_map.1 he'
        rw [hv.place_injective dir b a hplace]
      obtain ⟨hall, w₂, hrest, hwrote₂⟩ |
          ⟨done, b, later, fault, w₂, rfl, hdone, hfails, hrest, hsuits, hwrote₂⟩ :=
        ih hwrote.fit
      · refine .inl ⟨?_, w₂, ?_, hwrote.trans hwrote₂ (hagain as)⟩
        · rw [List.forall_mem_cons]
          exact ⟨hopens, fun b hb => (hwrote.opens _).1 (hall b hb)⟩
        · rw [run_bind_of_ok hrun, run_bind_of_ok hrest]
          rfl
      · refine .inr ⟨a :: done, b, later, fault, w₂, rfl, ?_,
          fun h => hfails ((hwrote.opens _).2 h), ?_, hsuits, hwrote.trans hwrote₂ (hagain done)⟩
        · rw [List.forall_mem_cons]
          exact ⟨hopens, fun b hb => (hwrote.opens _).1 (hdone b hb)⟩
        · rw [run_bind_of_ok hrun, run_bind_of_error hrest]
    · exact .inr ⟨[], a, as, fault, w₁, rfl, fun b hb => absurd hb List.not_mem_nil, hopens,
        run_bind_of_error hrun, hsuits, hsame.wrote⟩

end

end Lawful

end FileView

/-! ## Errors of the operating system -/

theorem mem_path {dir : String} {a : Artifact} {c : Char} (h : c ∈ (a.path dir).toList) :
    c ∈ dir.toList ∨ c = '/' ∨ c ∈ a.fileName.toList := by
  unfold Artifact.path Path.join at h
  split at h
  · exact .inr (.inr h)
  · split at h
    · rw [String.toList_append, List.mem_append] at h
      exact h.imp_right .inr
    · rw [String.toList_append, String.toList_append, List.mem_append, List.mem_append] at h
      obtain (h | h) | h := h
      · exact .inl h
      · exact .inr (.inl (by simpa using h))
      · exact .inr (.inr h)

theorem null_notMem_path {dir : String} (h : '\x00' ∉ dir.toList) (a : Artifact) :
    '\x00' ∉ (a.path dir).toList := by
  intro hmem
  obtain hmem | hmem | hmem := mem_path hmem
  · exact h hmem
  · revert hmem
    decide
  · revert hmem
    cases a with
    | family n => cases n <;> decide
    | closedForms => decide
    | series => decide

theorem FileFault.Suits.ne {fault : FileFault} {path : String} (h : fault.Suits path)
    (hpath : '\x00' ∉ path.toList) : fault ≠ .nullCharacter :=
  fun hnull => hpath (h hnull)

theorem RunError.message_directory {path : String} {e : FileError}
    (h : e.fault ≠ .nullCharacter) : (RunError.directory path e).message =
      s!"Cannot create output directory {path}: {e.message}" :=
  if_neg h

theorem RunError.message_artifact {path : String} {e : FileError}
    (h : e.fault ≠ .nullCharacter) : (RunError.artifact path e).message =
      s!"Error opening file {path}: {e.message}" :=
  if_neg h

/-! ## Runs -/

section

variable {S : Type} [Host (StateM S)]

/-- How a run of generation from a state can end: its result and the state that it leaves. -/
inductive GenerationEnds (v : FileView S) (pairs : List ShellPair) (s : Settings) (w : S) :
    Except RunError (List String) → S → Prop where
  /-- The settings make no dialect, and nothing has changed. -/
  | noDialect {e : DialectError} (hdialect : s.dialect = .error e) :
    GenerationEnds v pairs s w (.error (.dialect e)) w
  /-- The output directory cannot be made, and no file has changed. -/
  | noDirectory {d : Dialect} {e : FileError} {w₁ : S} (hdialect : s.dialect = .ok d)
    (hmade : (Host.createDirectories s.outputDir true : StateM S (Except FileError Unit)).run w =
      (.error e, w₁))
    (hadds : v.AddsDirectories w w₁)
    (hmessage : '\x00' ∉ s.outputDir.toList → (RunError.directory s.outputDir e).message =
      s!"Cannot create output directory {s.outputDir}: {e.message}") :
    GenerationEnds v pairs s w (.error (.directory s.outputDir e)) w₁
  /-- The files before the first path that cannot be opened have been written; those of all other
  paths are as before. -/
  | stopped {d : Dialect} {plan done later : List (String × String)} {path text : String}
    {e : FileError} {w₁ w' : S} (hdialect : s.dialect = .ok d)
    (hplan : s.IsPlan pairs d plan)
    (hmade : (Host.createDirectories s.outputDir true : StateM S (Except FileError Unit)).run w =
      (.ok (), w₁))
    (hadds : v.AddsDirectories w w₁) (hsplit : plan = done ++ (path, text) :: later)
    (hopens : ∀ file ∈ done, v.Opens w₁ file.1) (hfails : ¬ v.Opens w₁ path)
    (hwrote : v.Wrote done w₁ w')
    (hkept : ∀ file ∈ plan, file ∉ done →
      v.entry? w' (v.place file.1) = v.entry? w₁ (v.place file.1))
    (hmessage : '\x00' ∉ s.outputDir.toList → (RunError.artifact path e).message =
      s!"Error opening file {path}: {e.message}") :
    GenerationEnds v pairs s w (.error (.artifact path e)) w'
  /-- All files have been written, and nothing else. -/
  | finished {d : Dialect} {plan : List (String × String)} {w₁ w' : S}
    (hdialect : s.dialect = .ok d) (hplan : s.IsPlan pairs d plan)
    (hmade : (Host.createDirectories s.outputDir true : StateM S (Except FileError Unit)).run w =
      (.ok (), w₁))
    (hadds : v.AddsDirectories w w₁) (hopens : ∀ file ∈ plan, v.Opens w₁ file.1)
    (hwrote : v.Wrote plan w₁ w') :
    GenerationEnds v pairs s w (.ok (plan.map Prod.fst)) w'

variable {v : FileView S} (hv : v.Lawful) (pairs : List ShellPair)

include hv

/-- From the state with the output directory on, a run writes its artifacts. -/
theorem FileView.Lawful.generationEnds_of_made {s : Settings} {d : Dialect} {w w₁ : S}
    (hdialect : s.dialect = .ok d)
    (hmade : (Host.createDirectories s.outputDir true : StateM S (Except FileError Unit)).run w =
      (.ok (), w₁))
    (hadds : v.AddsDirectories w w₁) (hfit : v.Fit w₁) :
    ∃ r w', (s.generate pairs : Run (StateM S) (List String)).run.run w = (r, w') ∧
      GenerationEnds v pairs s w r w' := by
  obtain ⟨text, htext⟩ := Settings.exists_texts hdialect pairs
  have hplan := Settings.isPlan_artifacts htext s
  obtain ⟨hopens, w₂, hrun, hwrote⟩ |
      ⟨done, a, later, fault, w₂, hsplit, hopens, hfails, hrun, hsuits, hwrote⟩ :=
    hv.write_artifacts pairs d s.workers s.outputDir htext s.artifacts hfit
  · have hpaths : s.artifacts.map (Artifact.path s.outputDir) =
        (s.artifacts.map fun a => (a.path s.outputDir, text a)).map Prod.fst := by
      rw [List.map_map]
      rfl
    obtain ⟨w₃, hinfo, hsame⟩ := hv.quiet_info
      s!"Generation finished: {(s.artifacts.map (Artifact.path s.outputDir)).length} files written to {s.outputDir}"
      w₂ hwrote.fit
    refine ⟨_, w₃, ?_, .finished hdialect hplan hmade hadds ?_ (hwrote.trans_same hsame)⟩
    · rw [Settings.generate, run_bind_of_ok (run_ofExcept_of_ok hdialect w),
        run_bind_of_ok (run_lift_eq hmade), run_bind_of_ok (run_ofExcept_of_ok rfl w₁),
        run_bind_of_ok hrun, run_bind_of_ok hinfo, ← hpaths]
      rfl
    · rw [List.forall_mem_map]
      exact hopens
  · have hplanned : (s.artifacts.map fun a => (a.path s.outputDir, text a)) =
        (done.map fun a => (a.path s.outputDir, text a)) ++ (a.path s.outputDir, text a) ::
          later.map fun a => (a.path s.outputDir, text a) := by
      rw [hsplit, List.map_append, List.map_cons]
    have hmessage : '\x00' ∉ s.outputDir.toList →
        (RunError.artifact (a.path s.outputDir) ⟨fault, a.path s.outputDir⟩).message = _ :=
      fun hnull => RunError.message_artifact (hsuits.ne (null_notMem_path hnull a))
    refine ⟨_, w₂, ?_,
      .stopped hdialect hplan hmade hadds hplanned ?_ hfails hwrote ?_ hmessage⟩
    · rw [Settings.generate, run_bind_of_ok (run_ofExcept_of_ok hdialect w),
        run_bind_of_ok (run_lift_eq hmade), run_bind_of_ok (run_ofExcept_of_ok rfl w₁),
        run_bind_of_error hrun]
    · rw [List.forall_mem_map]
      exact hopens
    · rw [List.forall_mem_map]
      intro b _ hb
      -- another artifact stands at another place
      refine hwrote.kept _ fun file hfile hplace => hb ?_
      obtain ⟨c, hc, rfl⟩ := List.mem_map.1 hfile
      rw [← hv.place_injective _ c b hplace]
      exact hfile

theorem FileView.Lawful.generationEnds (s : Settings) {w : S} (hw : v.Fit w) :
    ∃ r w', (s.generate pairs : Run (StateM S) (List String)).run.run w = (r, w') ∧
      GenerationEnds v pairs s w r w' := by
  cases hdialect : s.dialect with
  | error e =>
    exact ⟨_, w, run_bind_of_error (run_ofExcept_of_error hdialect w), .noDialect hdialect⟩
  | ok d =>
    obtain ⟨made, w₁, hmade, hfit, hadds, hsuits⟩ := hv.createDirectories hw true s.outputDir
    cases made with
    | error e =>
      refine ⟨_, w₁, ?_, .noDirectory hdialect hmade hadds fun hnull => ?_⟩
      · rw [Settings.generate, run_bind_of_ok (run_ofExcept_of_ok hdialect w),
          run_bind_of_ok (run_lift_eq hmade)]
        exact run_bind_of_error (run_ofExcept_of_error rfl w₁)
      · exact RunError.message_directory ((hsuits e rfl).ne hnull)
    | ok _ => exact hv.generationEnds_of_made pairs hdialect hmade hadds hfit

end

/-- **A run writes a prefix of its artifacts and nothing else**, in all lawful surroundings and
for all settings; and a family without a text in a dialect leaves the files as they are. -/
theorem generate_writes_prefix {S : Type} [Host (StateM S)] {v : FileView S} (hv : v.Lawful)
    (pairs : List ShellPair) {w : S} (hw : v.Fit w) :
    (∀ s : Settings, ∃ r w',
      (s.generate pairs : Run (StateM S) (List String)).run.run w = (r, w') ∧
        GenerationEnds v pairs s w r w') ∧
    ∀ (n : FamilyName) (d : Dialect) (workers : ℤ) (dir : String) (e : RunError),
      (Artifact.family n).text pairs d = .error e → ∃ w',
        (Artifact.write pairs d workers dir (.family n) : Run (StateM S) String).run.run w =
          (.error e, w') ∧ v.Same w w' :=
  ⟨fun s => hv.generationEnds pairs s hw, fun _ d workers dir _ he =>
    hv.write_artifact_of_error pairs d workers dir he hw⟩

/-- A directory stands where the series of the Boys function is to be written. -/
def blocked : Workspace :=
  { tree := ⟨[], [(["out"], .directory), (["out", "approx"], .directory)]⟩ }

/-- Only the artifacts of the Boys function are asked for. -/
def boysOnly : Settings := { Settings.standard with outputDir := "out", families := [] }

/-- The header of the first branch has an open brace. -/
def brokenHeader : Dialect := { Dialect.standard with firstBranch := "if \x7b" }

/-- The run stops at the directory; a family in the broken dialect has no text. -/
theorem generate_writes_prefix_blocked :
    (Workspace.view []).Lawful ∧ (Workspace.view []).Fit blocked ∧
    (∃ r w', (boysOnly.generate [⟨.s, .s⟩] : Run (StateM Workspace) (List String)).run.run blocked =
      (r, w') ∧ GenerationEnds (Workspace.view []) [⟨.s, .s⟩] boysOnly blocked r w') ∧
    ((boysOnly.generate [⟨.s, .s⟩] : Run (StateM Workspace) (List String)).run.run blocked).1 =
      .error (.artifact "out/approx" ⟨.isDirectory, "out/approx"⟩) ∧
    (Artifact.family .nuclear).text [⟨.s, .s⟩] brokenHeader =
      .error (.template (.strayBrace '\x7b')) ∧
    ∃ w', (Artifact.write [⟨.s, .s⟩] brokenHeader 1 "out" (.family .nuclear) :
      Run (StateM Workspace) String).run.run blocked =
        (.error (.template (.strayBrace '\x7b')), w') ∧ (Workspace.view []).Same blocked w' := by
  have hfit : (Workspace.view []).Fit blocked := ⟨rfl, rfl⟩
  have htext : (Artifact.family .nuclear).text [⟨.s, .s⟩] brokenHeader =
      .error (.template (.strayBrace '\x7b')) := by
    decide +kernel
  obtain ⟨hruns, hfails⟩ := generate_writes_prefix (Workspace.lawful []) [⟨.s, .s⟩] hfit
  exact ⟨Workspace.lawful [], hfit, hruns boysOnly, by decide +kernel, htext,
    hfails .nuclear brokenHeader 1 "out" _ htext⟩

end GaussianIntegrals
