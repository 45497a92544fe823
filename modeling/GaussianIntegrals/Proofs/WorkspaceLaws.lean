/-
  A tree of files obeys the laws of the surroundings (`Workspace.lawful`). The place of a path is
  read off its parts (`FileTree.placeOf`), since nothing in a tree is a link; whether a path can be
  opened depends on the directories only (`filePlace_congr`), and writing a file changes none.
-/
import GaussianIntegrals.Proofs.Surroundings
import GaussianIntegrals.Workspace

namespace GaussianIntegrals

namespace FileTree

/-! ## Places of paths -/

/-- The place that a part of a path leads to. -/
def stepPlace (place : List String) (part : String) : List String :=
  if part.isEmpty ∨ part = "." then place
  else if part = ".." then place.dropLast
  else place ++ [part]

/-- The parts of a path. -/
def partsOf (path : String) : List String := (Text.splitAt '/' path.toList).map String.ofList

/-- Where a path starts. -/
def startOf (workPlace : List String) (path : String) : List String :=
  if path.toList.head? = some '/' then [] else workPlace

/-- The place of a path. -/
def placeOf (workPlace : List String) (path : String) : List String :=
  (partsOf path).foldl stepPlace (startOf workPlace path)

section

variable {t t' : FileTree} {place : List String} {path : String}

theorem step_of_directory (h : t.lookup? place = some .directory) (part : String) :
    t.step place part =
      if part.isEmpty ∨ part = "." then .ok place
      else if part = ".." then .ok place.dropLast
      else if nameLimit < part.utf8ByteSize then .error .nameTooLong
      else .ok (place ++ [part]) := by
  rw [step, h]

theorem toOption_step_of_not_directory (h : t.lookup? place ≠ some .directory) (part : String) :
    (t.step place part).toOption = none := by
  unfold step
  split
  · rfl
  · rfl
  · next hd => exact absurd hd h

theorem eq_of_step {part : String} {p : List String} (h : t.step place part = .ok p) :
    p = stepPlace place part := by
  by_cases hd : t.lookup? place = some .directory
  · rw [step_of_directory hd] at h
    unfold stepPlace
    split at h
    · next hpart => rw [if_pos hpart]; exact (Except.ok.inj h).symm
    · next hpart =>
      rw [if_neg hpart]
      split at h
      · next hup => rw [if_pos hup]; exact (Except.ok.inj h).symm
      · next hup =>
        rw [if_neg hup]
        split at h
        · cases h
        · exact (Except.ok.inj h).symm
  · have hnone := toOption_step_of_not_directory hd part
    rw [h] at hnone
    cases hnone

theorem eq_of_walk {parts : List String} {p : List String}
    (h : parts.foldlM t.step place = .ok p) : p = parts.foldl stepPlace place := by
  induction parts generalizing place with
  | nil => exact (Except.ok.inj h).symm
  | cons part parts ih =>
    rw [List.foldlM_cons] at h
    obtain ⟨q, hq, hp⟩ := bind_eq_ok.1 h
    rw [List.foldl_cons, ← eq_of_step hq]
    exact ih hp

theorem eq_of_route {start parts : List String} (h : t.route path = .ok (start, parts)) :
    start = startOf t.workPlace path ∧ parts = partsOf path := by
  unfold route at h
  split at h
  · cases h
  · split at h
    · cases h
    · split at h
      · cases h
      · obtain ⟨rfl, rfl⟩ := Prod.mk.inj (Except.ok.inj h)
        exact ⟨rfl, rfl⟩

theorem foldl_stepPlace_of_isEmpty {parts : List String} (h : ∀ part ∈ parts, part.isEmpty)
    (place : List String) : parts.foldl stepPlace place = place := by
  induction parts with
  | nil => rfl
  | cons part parts ih =>
    rw [List.forall_mem_cons] at h
    rw [List.foldl_cons, stepPlace, if_pos (.inl h.1), ih h.2]

/-- A name at the end of a path is a name, and the path leads to it in its directory. -/
theorem placeOf_of_target {directory : List String} {name : String} {slashed : Bool}
    (h : t.target path = .ok ⟨directory, some name, slashed⟩) :
    placeOf t.workPlace path = directory ++ [name] ∧
      stepPlace directory name = directory ++ [name] := by
  obtain ⟨⟨start, parts⟩, hroute, h⟩ := bind_eq_ok.1 h
  obtain ⟨rfl, rfl⟩ := eq_of_route hroute
  obtain ⟨directory', hwalk, h⟩ := bind_eq_ok.1 h
  obtain ⟨_, -, h⟩ := bind_eq_ok.1 h
  obtain ⟨rfl, hname, -⟩ := Target.mk.inj (Except.ok.inj h)
  obtain ⟨hhead, hplain⟩ := Option.filter_eq_some_iff.1 hname
  have hsplit := List.takeWhile_append_dropWhile (p := (·.isEmpty)) (l := (partsOf path).reverse)
  have hfirst := List.head?_dropWhile_not (fun part : String => part.isEmpty)
    (partsOf path).reverse
  have hempty : ∀ part ∈ (partsOf path).reverse.takeWhile (·.isEmpty), part.isEmpty :=
    fun part hpart => List.mem_takeWhile_imp hpart
  cases hrest : (partsOf path).reverse.dropWhile (·.isEmpty) with
  | nil =>
    rw [hrest] at hhead
    cases hhead
  | cons last before =>
    rw [hrest] at hhead hwalk hsplit hfirst
    obtain rfl := Option.some.inj hhead
    have hparts : partsOf path = before.reverse ++ [last] ++
        ((partsOf path).reverse.takeWhile (·.isEmpty)).reverse := by
      rw [← List.reverse_cons, ← List.reverse_append, hsplit, List.reverse_reverse]
    have hstep : stepPlace directory' last = directory' ++ [last] := by
      obtain ⟨hdot, hup⟩ := of_decide_eq_true hplain
      have hnonempty : last.isEmpty = false := hfirst
      rw [stepPlace, if_neg (not_or.2 ⟨by simp [hnonempty], hdot⟩), if_neg hup]
    refine ⟨?_, hstep⟩
    rw [placeOf, hparts, List.foldl_append, List.foldl_append,
      foldl_stepPlace_of_isEmpty fun part hpart => hempty part (List.mem_reverse.1 hpart)]
    rw [List.drop_one, List.tail_cons] at hwalk
    rw [← eq_of_walk hwalk, List.foldl_cons, List.foldl_nil, hstep]

/-- A file that can be opened stands at the place of its path, where there is no directory. -/
theorem placeOf_of_filePlace {p : List String} (h : t.filePlace path = .ok p) :
    p = placeOf t.workPlace path ∧ p ≠ [] ∧ t.lookup? p ≠ some .directory := by
  obtain ⟨⟨directory, name, slashed⟩, htarget, h⟩ := bind_eq_ok.1 h
  split at h
  · next directory name heq =>
    obtain ⟨rfl, rfl, rfl⟩ := Target.mk.inj heq
    obtain ⟨hplace, hstep⟩ := placeOf_of_target htarget
    obtain ⟨q, hq, h⟩ := bind_eq_ok.1 h
    rw [eq_of_step hq, hstep] at h
    split at h
    · cases h
    · next hdir =>
      obtain rfl := Except.ok.inj h
      exact ⟨hplace.symm, by simp, hdir⟩
  · cases h

/-! ## Faults -/

/-- Only a path with a null character fails for one. -/
def FailsFor (path : String) {α : Type} (x : Except FileFault α) : Prop :=
  ∀ fault, x = .error fault → fault.Suits path

theorem FailsFor.bind {α β : Type} {x : Except FileFault α} {f : α → Except FileFault β}
    (hx : FailsFor path x) (hf : ∀ a, FailsFor path (f a)) : FailsFor path (x >>= f) := by
  cases x with
  | error fault =>
    intro fault' h
    cases h
    exact hx fault rfl
  | ok a => exact hf a

theorem failsFor_ok {α : Type} (a : α) : FailsFor path (.ok a) := fun _ h => by cases h

theorem failsFor_error {α : Type} {fault : FileFault} (h : fault ≠ .nullCharacter) :
    FailsFor path (.error fault : Except FileFault α) := by
  intro fault' heq hnull
  cases heq
  exact absurd hnull h

theorem failsFor_route : FailsFor path (t.route path) := by
  unfold route
  split
  · next h =>
    intro fault _ _
    simpa using h
  · split
    · exact failsFor_error (by decide)
    · split
      · exact failsFor_error (by decide)
      · exact failsFor_ok _

theorem failsFor_step (part : String) : FailsFor path (t.step place part) := by
  unfold step
  split
  · exact failsFor_error (by decide)
  · exact failsFor_error (by decide)
  · split
    · exact failsFor_ok _
    · split
      · exact failsFor_ok _
      · split
        · exact failsFor_error (by decide)
        · exact failsFor_ok _

theorem failsFor_walk (parts : List String) : FailsFor path (parts.foldlM t.step place) := by
  induction parts generalizing place with
  | nil => exact failsFor_ok _
  | cons part parts ih =>
    rw [List.foldlM_cons]
    exact (failsFor_step part).bind fun _ => ih

theorem failsFor_target : FailsFor path (t.target path) :=
  failsFor_route.bind fun _ => (failsFor_walk _).bind fun _ => (failsFor_step _).bind fun _ =>
    failsFor_ok _

theorem failsFor_filePlace : FailsFor path (t.filePlace path) := by
  refine failsFor_target.bind fun target => ?_
  split
  · refine (failsFor_step _).bind fun p => ?_
    split
    · exact failsFor_error (by decide)
    · exact failsFor_ok _
  · exact failsFor_error (by decide)

theorem failsFor_createDirectory : FailsFor path (t.createDirectory path) := by
  refine failsFor_target.bind fun target => ?_
  split
  · exact failsFor_error (by decide)
  · refine (failsFor_step _).bind fun p => ?_
    split
    · exact failsFor_error (by decide)
    · exact failsFor_ok _

/-- A directory is made where nothing stands. -/
theorem exists_of_createDirectory (h : t.createDirectory path = .ok t') :
    ∃ p, p ≠ [] ∧ t.lookup? p = none ∧ t' = t.put p .directory := by
  obtain ⟨⟨directory, name, slashed⟩, htarget, h⟩ := bind_eq_ok.1 h
  split at h
  · cases h
  · next directory name slashed heq =>
    obtain ⟨rfl, rfl, rfl⟩ := Target.mk.inj heq
    obtain ⟨-, hstep⟩ := placeOf_of_target htarget
    obtain ⟨p, hp, h⟩ := bind_eq_ok.1 h
    split at h
    · cases h
    · next hnone =>
      refine ⟨p, ?_, hnone, (Except.ok.inj h).symm⟩
      rw [eq_of_step hp, hstep]
      simp

/-! ## Directories decide what can be opened -/

/-- The same directories, and relative paths start at the same place. -/
structure SameDirectories (t t' : FileTree) : Prop where
  workPlace : t'.workPlace = t.workPlace
  iff : ∀ p, t'.lookup? p = some .directory ↔ t.lookup? p = some .directory

theorem toOption_bind {ε α β : Type} (x : Except ε α) (f : α → Except ε β) :
    (x >>= f).toOption = x.toOption.bind fun a => (f a).toOption := by
  cases x <;> rfl

section

variable (h : SameDirectories t t')

include h

theorem route_congr (path : String) : t'.route path = t.route path := by
  rw [route, route, h.workPlace]

theorem step_congr (place : List String) (part : String) :
    (t'.step place part).toOption = (t.step place part).toOption := by
  by_cases hd : t.lookup? place = some .directory
  · rw [step_of_directory hd, step_of_directory ((h.iff place).2 hd)]
  · rw [toOption_step_of_not_directory hd,
      toOption_step_of_not_directory fun hd' => hd ((h.iff place).1 hd')]

theorem walk_congr (place : List String) (parts : List String) :
    (parts.foldlM t'.step place).toOption = (parts.foldlM t.step place).toOption := by
  induction parts generalizing place with
  | nil => rfl
  | cons part parts ih =>
    rw [List.foldlM_cons, List.foldlM_cons, toOption_bind, toOption_bind, step_congr h]
    exact congrArg _ (funext ih)

theorem target_congr (path : String) : (t'.target path).toOption = (t.target path).toOption := by
  rw [target, target, route_congr h]
  simp only [toOption_bind, walk_congr h, step_congr h]

theorem filePlace_congr (path : String) :
    (t'.filePlace path).toOption = (t.filePlace path).toOption := by
  rw [filePlace, filePlace, toOption_bind, toOption_bind, target_congr h]
  refine congrArg _ (funext fun target => ?_)
  match target with
  | ⟨_, none, _⟩ => rfl
  | ⟨_, some _, true⟩ => rfl
  | ⟨directory, some name, false⟩ =>
    dsimp only
    rw [toOption_bind, toOption_bind, step_congr h]
    refine congrArg _ (funext fun p => ?_)
    by_cases hd : t.lookup? p = some .directory
    · rw [hd, (h.iff p).2 hd]
    · have hd' : t'.lookup? p ≠ some .directory := fun hp => hd ((h.iff p).1 hp)
      generalize t.lookup? p = entry at hd
      generalize t'.lookup? p = entry' at hd'
      rcases entry with _ | (_ | _) <;> rcases entry' with _ | (_ | _) <;>
        first | rfl | exact absurd rfl hd | exact absurd rfl hd'

end

/-- Writing over anything but a directory leaves the directories. -/
theorem sameDirectories_put {p : List String} (hp : p ≠ [])
    (hentry : t.lookup? p ≠ some .directory) (text : String) :
    SameDirectories t (t.put p (.file text)) where
  workPlace := rfl
  iff q := by
    by_cases hq : q = p
    · rw [hq, lookup?_put_self t hp]
      simp [hentry]
    · rw [lookup?_put_of_ne t hq]

end

end FileTree

/-! ## The laws -/

namespace Workspace

open FileTree

/-- The files of the tree; records are kept in no file of it. -/
def view (workPlace : List String) : FileView Workspace where
  Place := List String
  place := placeOf workPlace
  entry? w p := w.tree.lookup? p
  Opens w path := (w.tree.filePlace path).toOption.isSome
  Fit w := w.tree.workPlace = workPlace ∧ w.logFile = none

variable {workPlace : List String} {w : Workspace}

theorem run_change_of_ok {path : String} {f : FileTree → Except FileFault FileTree} {t : FileTree}
    (h : f w.tree = .ok t) : (change path f).run w = (.ok (), { w with tree := t }) := by
  rw [StateT.run, change, h]

theorem run_change_of_error {path : String} {f : FileTree → Except FileFault FileTree}
    {fault : FileFault} (h : f w.tree = .error fault) :
    (change path f).run w = (.error ⟨fault, path⟩, w) := by
  rw [StateT.run, change, h]

theorem opens_iff {path : String} :
    (view workPlace).Opens w path ↔ ∃ p, w.tree.filePlace path = .ok p := by
  change (w.tree.filePlace path).toOption.isSome = true ↔ _
  cases w.tree.filePlace path <;> simp [Except.toOption]

theorem add_eq (h : w.logFile = none) (r : LogRecord) :
    (w.add r).tree = w.tree ∧ (w.add r).logFile = none := by
  unfold add
  split <;> simp [h]

/-! ## Places of artifacts -/

theorem fileName_injective {a b : Artifact} (h : a.fileName = b.fileName) : a = b := by
  revert h
  rcases a with (_ | _ | _) | _ | _ <;> rcases b with (_ | _ | _) | _ | _ <;> decide

/-- The name of a file is a name of its own, without slashes. -/
theorem fileName_plain (a : Artifact) : '/' ∉ a.fileName.toList ∧ ¬ a.fileName.isEmpty ∧
    a.fileName ≠ "." ∧ a.fileName ≠ ".." := by
  rcases a with (_ | _ | _) | _ | _ <;> decide

theorem stepPlace_fileName (place : List String) (a : Artifact) :
    stepPlace place a.fileName = place ++ [a.fileName] := by
  obtain ⟨-, hempty, hdot, hup⟩ := fileName_plain a
  rw [stepPlace, if_neg (not_or.2 ⟨hempty, hdot⟩), if_neg hup]

/-- A path in a directory is a slash and the name after characters of the directory, unless the
directory is empty. -/
theorem path_eq (dir : String) :
    (∀ a : Artifact, a.path dir = a.fileName) ∨
      ∃ before, ∀ a : Artifact, (a.path dir).toList = before ++ '/' :: a.fileName.toList := by
  have hhead : ∀ a : Artifact, a.fileName.toList.head? ≠ some '/' := fun a h =>
    (fileName_plain a).1 (List.mem_of_mem_head? h)
  by_cases hempty : dir.isEmpty
  · refine .inl fun a => ?_
    rw [Artifact.path, Path.join, if_neg (hhead a), if_pos (.inl hempty),
      String.isEmpty_iff.1 hempty, String.empty_append]
  · refine .inr ?_
    by_cases hlast : dir.toList.getLast? = some '/'
    · obtain ⟨before, hbefore⟩ := List.getLast?_eq_some_iff.1 hlast
      refine ⟨before, fun a => ?_⟩
      rw [Artifact.path, Path.join, if_neg (hhead a), if_pos (.inr hlast), String.toList_append,
        hbefore, List.append_assoc, List.singleton_append]
    · refine ⟨dir.toList, fun a => ?_⟩
      rw [Artifact.path, Path.join, if_neg (hhead a), if_neg (not_or.2 ⟨hempty, hlast⟩),
        String.toList_append, String.toList_append]
      simp

/-- The artifacts of a directory stand side by side. -/
theorem exists_placeOf_path (workPlace : List String) (dir : String) :
    ∃ place, ∀ a : Artifact, placeOf workPlace (a.path dir) = place ++ [a.fileName] := by
  have hparts : ∀ a : Artifact, partsOf a.fileName = [a.fileName] := fun a => by
    rw [partsOf, Text.splitAt_of_notMem (fileName_plain a).1, List.map_singleton,
      String.ofList_toList]
  obtain hpath | ⟨before, hpath⟩ := path_eq dir
  · refine ⟨workPlace, fun a => ?_⟩
    have hstart : startOf workPlace a.fileName = workPlace :=
      if_neg fun h => (fileName_plain a).1 (List.mem_of_mem_head? h)
    rw [hpath, placeOf, hparts, hstart, List.foldl_cons, List.foldl_nil, stepPlace_fileName]
  · refine ⟨((Text.splitAt '/' before).map String.ofList).foldl stepPlace
      (if (before ++ ['/']).head? = some '/' then [] else workPlace), fun a => ?_⟩
    have hstart : startOf workPlace (a.path dir) =
        if (before ++ ['/']).head? = some '/' then [] else workPlace := by
      rw [startOf, hpath]
      cases before <;> rfl
    have hsplit : partsOf (a.path dir) =
        (Text.splitAt '/' before).map String.ofList ++ partsOf a.fileName := by
      rw [partsOf, hpath, Text.splitAt_append_cons, List.map_append, partsOf]
    rw [placeOf, hsplit, hparts, hstart, List.foldl_append, List.foldl_cons, List.foldl_nil,
      stepPlace_fileName]

/-- Writing a file changes its place only, and no path becomes or ceases to be one to write to. -/
theorem wrote_put (hfit : (view workPlace).Fit w) {path : String} {p : List String}
    (hplace : w.tree.filePlace path = .ok p) (text : String) :
    (view workPlace).Wrote [(path, text)] w { w with tree := w.tree.put p (.file text) } := by
  obtain ⟨hpath, hne, hdir⟩ := placeOf_of_filePlace hplace
  rw [hfit.1] at hpath
  refine ⟨⟨hfit.1, hfit.2⟩, ?_, ?_, ?_⟩
  · intro e he
    obtain rfl := List.mem_singleton.1 he
    exact hpath ▸ lookup?_put_self w.tree hne _
  · intro q hq
    exact lookup?_put_of_ne _ (hpath ▸ (hq _ (List.mem_singleton_self _)).symm) _
  · intro q
    change ((w.tree.put p (.file text)).filePlace q).toOption.isSome = true ↔ _
    rw [filePlace_congr (sameDirectories_put hne hdir text)]
    exact Iff.rfl

/-- **A tree of files is lawful.** -/
theorem lawful (workPlace : List String) : (view workPlace).Lawful where
  store_of_opens := by
    intro w path text hfit hopens
    obtain ⟨p, hplace⟩ := opens_iff.1 hopens
    have hwrite : w.tree.write path text = .ok (w.tree.put p (.file text)) := by
      rw [FileTree.write, hplace]
      rfl
    exact ⟨_, run_change_of_ok hwrite, wrote_put hfit hplace text⟩
  store_of_not_opens := by
    intro w path text _ hopens
    cases hplace : w.tree.filePlace path with
    | ok p => exact absurd (opens_iff.2 ⟨p, hplace⟩) hopens
    | error fault =>
      have hwrite : w.tree.write path text = .error fault := by
        rw [FileTree.write, hplace]
        rfl
      exact ⟨fault, run_change_of_error hwrite, failsFor_filePlace fault hplace⟩
  createDirectory := by
    intro w path hfit
    cases hcreate : w.tree.createDirectory path with
    | error fault =>
      exact .inr ⟨fault, run_change_of_error hcreate, failsFor_createDirectory fault hcreate⟩
    | ok t =>
      refine .inl ⟨_, run_change_of_ok hcreate, ?_⟩
      obtain ⟨p, hne, hnone, rfl⟩ := exists_of_createDirectory hcreate
      refine ⟨⟨hfit.1, hfit.2⟩, fun q => ?_⟩
      by_cases hq : q = p
      · exact .inr ⟨hq ▸ hnone, hq ▸ lookup?_put_self w.tree hne _⟩
      · exact .inl (lookup?_put_of_ne w.tree hq _)
  pathExists _ _ := rfl
  isDirectory _ _ := rfl
  keeps _ _ := rfl
  record := by
    intro w r hfit
    obtain ⟨htree, hlog⟩ := add_eq hfit.2 r
    change (view workPlace).Same w (w.add r)
    refine ⟨⟨htree ▸ hfit.1, hlog⟩, fun p => ?_, fun path => ?_⟩
    · exact congrArg (·.lookup? p) htree
    · rw [opens_iff, opens_iff, htree]
  place_injective := by
    intro dir a b h
    obtain ⟨place, hplace⟩ := exists_placeOf_path workPlace dir
    have hnames : place ++ [a.fileName] = place ++ [b.fileName] :=
      (hplace a).symm.trans (h.trans (hplace b))
    exact fileName_injective (List.singleton_inj.1 (List.append_cancel_left hnames))

end Workspace

end GaussianIntegrals
