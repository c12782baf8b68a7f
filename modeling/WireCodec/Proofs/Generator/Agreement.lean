import WireCodec.Generator.Run
import WireCodec.Proofs.Files.Changes
import WireCodec.Proofs.Schema.Parsed
import WireCodec.Proofs.Source.File

/-!
# Generating what was checked

Checking, planning and generating start with the same plan, and a plan only reads.  So a generator
fails where the check fails, with the same error and before anything is written, and otherwise there
is nothing left that can fail but the writing.
-/

namespace WireCodec

/-- What work on a tree gives, and the tree that it leaves. -/
def FileTree.run {α : Type} (tree : FileTree) (work : StateM FileTree α) : α × FileTree :=
  StateT.run work tree

namespace Generator

/-! ## In any files -/

def textOf (settings : Settings) (path : String) (codecs : List Codec) : String :=
  (Source.File.ofCodecs settings.style settings.emitStructs codecs).text
    ((Path.fileName? path).getD path)

section AnyFiles

variable {m : Type → Type} [Monad m] [FileAccess m]

/-- What is left to do when a plan was made: to write the code, and to tell what was planned. -/
def finish (settings : Settings) (path : String) (output : Option String) :
    Except GeneratorError (List Codec) → m (Except GeneratorError (Report × String))
  | .error error => return .error error
  | .ok codecs => do
    let target := output.getD (defaultOutput path)
    return (← writeFile target (textOf settings path codecs)).map fun () =>
      (codecs.map Codec.reportEntry, target)

/-- A generator makes a plan first, and touches no file before it is made. -/
theorem generate_eq_plan_bind [LawfulMonad m] (settings : Settings) (path : String)
    (output : Option String) :
    (generate settings path output : m _) =
      plan settings path >>= finish settings path output := by
  rw [generate, plan, bind_assoc]
  refine bind_congr fun loaded => ?_
  cases loaded with
  | error error =>
    dsimp only
    rw [pure_bind]
    rfl
  | ok schema =>
    dsimp only
    rw [pure_bind, sourceOf_eq]
    cases schema.compile settings.selection <;> rfl

end AnyFiles

/-! ## In a tree -/

variable (settings : Settings) (path : String) (output : Option String) (tree : FileTree)

theorem run_bind {α β : Type} (work : StateM FileTree α) (more : α → StateM FileTree β) :
    tree.run (work >>= more) = (tree.run work).2.run (more (tree.run work).1) := rfl

/-- Loading a schema changes nothing. -/
theorem run_load : (tree.run (load path)).2 = tree := by
  have hload : (tree.run (Schema.load path)).2 = tree := by
    unfold Schema.load
    split
    · rfl
    · have hread : tree.run (FileAccess.readText path) = (tree.readText path, tree) := rfl
      rw [run_bind, hread]
      cases tree.readText path <;> rfl
  exact hload

/-- Planning leaves the files as they are. -/
theorem run_plan : (tree.run (plan settings path)).2 = tree := by
  rw [plan, run_bind, run_load]
  cases (tree.run (load path)).1 <;> rfl

/-- A check is a plan that only reports. -/
theorem run_check : tree.run (check settings path) =
    ((tree.run (plan settings path)).1.map (·.map Codec.reportEntry), tree) := by
  rw [check, run_bind, run_plan]
  rfl

theorem run_generate : tree.run (generate settings path output) =
    tree.run (finish settings path output (tree.run (plan settings path)).1) := by
  rw [generate_eq_plan_bind, run_bind, run_plan]

/-! ## What is written -/

/-- Making the directories for a file, if it lies in any. -/
def parentMade (target : String) : Except FileError Unit × FileTree :=
  if (Path.parent? target).getD "" = "" then (.ok (), tree)
  else tree.makeDirectories ((Path.parent? target).getD "")

/-- What comes of writing a file, after the directories for it were made or were not. -/
def written (target text : String) :
    Except FileError Unit × FileTree → Except GeneratorError Unit × FileTree
  | (.error cause, made) => (.error (.makeDirectory ((Path.parent? target).getD "") cause), made)
  | (.ok (), made) =>
    match made.writeText target text with
    | .error cause => (.error (.write target cause), made)
    | .ok after => (.ok (), after)

theorem run_writeFile (target text : String) :
    tree.run (writeFile target text) = written target text (parentMade tree target) := by
  have hwrite (made : FileTree) : made.run (FileAccess.writeText target text) =
      ((made.writeText target text).map fun _ => (),
        (made.writeText target text).toOption.getD made) := by
    simp only [FileTree.run, FileAccess.writeText, modifyGet, MonadStateOf.modifyGet,
      StateT.modifyGet, StateT.run]
    cases made.writeText target text <;> rfl
  have hmake (dir : String) :
      tree.run (FileAccess.makeDirectories dir) = tree.makeDirectories dir := rfl
  have hmade (made : FileTree) : made.run (do
      return (← FileAccess.writeText target text).mapError (GeneratorError.write target)) =
      written target text (.ok (), made) := by
    rw [run_bind, hwrite, written]
    cases made.writeText target text <;> rfl
  rw [writeFile, parentMade]
  by_cases hdir : (Path.parent? target).getD "" = ""
  · rw [if_pos hdir, if_pos hdir]
    exact hmade tree
  · rw [if_neg hdir, if_neg hdir, run_bind, hmake]
    rcases tree.makeDirectories ((Path.parent? target).getD "") with ⟨cause | ⟨⟨⟩⟩, made⟩
    · rfl
    · exact hmade made

theorem parent?_eq_some {target : String} (h : (Path.parent? target).getD "" ≠ "") :
    Path.parent? target = some ((Path.parent? target).getD "") := by
  cases hparent : Path.parent? target with
  | none => exact absurd (by rw [hparent]; rfl) h
  | some dir => rfl

/-- Making the parent of a target changes nothing but the directories on the way to it. -/
theorem kept_parentMade (target : String) (place : Location) :
    tree.KeptAt (parentMade tree target).2 (Path.LiesIn target) place := by
  rw [parentMade]
  split
  · exact .inl rfl
  · rename_i hdir
    exact FileTree.kept_makeDirectories (parent?_eq_some hdir) tree place

/-- How writing the code of what was planned ends: the file is there, or it cannot be written, or
the directory that it lies in cannot be made.  The file, and directories around it that were
missing, are all that may be new or changed. -/
inductive Generated (report : Report) (target text : String) (before after : FileTree) :
    Except GeneratorError (Report × String) → Prop where
  | written (file : after.readText target = .ok text)
      (kept : ∀ place, after.resolve target = .ok place ∨
        before.KeptAt after (Path.LiesIn target) place) :
      Generated report target text before after (.ok (report, target))
  | noDirectory {dir : String} {cause : FileError} (parent : Path.parent? target = some dir)
      (failed : before.makeDirectories dir = (.error cause, after))
      (kept : ∀ place, before.KeptAt after (Path.LiesIn target) place) :
      Generated report target text before after (.error (.makeDirectory dir cause))
  | noFile {cause : FileError} (failed : after.writeText target text = .error cause)
      (kept : ∀ place, before.KeptAt after (Path.LiesIn target) place) :
      Generated report target text before after (.error (.write target cause))

/-- Finishing a plan writes the text at the target or fails, and changes nothing else. -/
theorem generated_finish (codecs : List Codec) :
    Generated (codecs.map Codec.reportEntry) (output.getD (defaultOutput path))
      (textOf settings path codecs) tree
      (tree.run (finish settings path output (.ok codecs))).2
      (tree.run (finish settings path output (.ok codecs))).1 := by
  generalize htarget : output.getD (defaultOutput path) = target
  have hrun : tree.run (finish settings path output (.ok codecs)) =
      ((tree.run (writeFile target (textOf settings path codecs))).1.map fun () =>
        (codecs.map Codec.reportEntry, target),
      (tree.run (writeFile target (textOf settings path codecs))).2) := by
    rw [finish, htarget]
    rfl
  have hkept := kept_parentMade tree target
  rw [hrun, run_writeFile]
  rcases hmade : parentMade tree target with ⟨cause | ⟨⟨⟩⟩, mid⟩ <;> rw [hmade] at hkept
  · rw [parentMade] at hmade
    split at hmade
    · cases hmade
    · rename_i hdir
      exact .noDirectory (parent?_eq_some hdir) hmade hkept
  · rw [written]
    cases hwrite : mid.writeText target (textOf settings path codecs) with
    | error cause => exact .noFile hwrite hkept
    | ok after =>
      obtain ⟨hfile, hkeeps, hplaces⟩ := FileTree.of_writeText hwrite
      refine .written hfile fun place => ?_
      rcases hplaces place with hplace | hsame
      · exact .inl hplace
      · right
        rcases hkept place with hfirst | ⟨hnone, hdirectory, dir, hdir, hresolve⟩
        · exact .inl (hsame.trans hfirst)
        · exact .inr ⟨hnone, hsame.trans hdirectory, dir, hdir,
            FileTree.resolve_of_keeps hkeeps hresolve⟩

/-- Checks and plans change nothing.  A generator that is run where a check fails fails as the check
does and changes nothing; where the check succeeds, the generator has the same report, and can fail
only to write the code of what was checked. -/
theorem generate_agrees_with_check :
    (tree.run (plan settings path)).2 = tree ∧ (tree.run (check settings path)).2 = tree ∧
    (∀ error, (tree.run (check settings path)).1 = .error error →
      tree.run (generate settings path output) = (.error error, tree)) ∧
    ∀ report, (tree.run (check settings path)).1 = .ok report →
      ∃ codecs, (tree.run (plan settings path)).1 = .ok codecs ∧
        report = codecs.map Codec.reportEntry ∧
        Generated report (output.getD (defaultOutput path)) (textOf settings path codecs) tree
          (tree.run (generate settings path output)).2
          (tree.run (generate settings path output)).1 := by
  have hplan := run_plan settings path tree
  rw [run_check, run_generate]
  refine ⟨hplan, rfl, ?_⟩
  dsimp only
  cases (tree.run (plan settings path)).1 with
  | error error =>
    refine ⟨?_, fun report h => (by cases h)⟩
    intro error' h
    cases h
    rfl
  | ok codecs =>
    refine ⟨fun error h => (by cases h), ?_⟩
    intro report h
    cases h
    exact ⟨codecs, rfl, rfl, generated_finish settings path output tree codecs⟩

/-- The code of a small schema goes to a directory that is made for it; without the schema, nothing
is made. -/
theorem generate_agrees_with_check_count :
    let tree := FileTree.empty.addFile "count.toml"
      (Schema.smallText "Count" "u16" "Packet" "total")
    let missing : GeneratorError := .load "count.toml" (.unreadable "count.toml" .notFound)
    (tree.run (check .standard "count.toml")).1 = .ok [⟨"Packet", 2, true⟩] ∧
    (∃ codecs, (tree.run (plan .standard "count.toml")).1 = .ok codecs ∧
      [⟨"Packet", 2, true⟩] = codecs.map Codec.reportEntry ∧
      Generated [⟨"Packet", 2, true⟩] "gen/count.rs" (textOf .standard "count.toml" codecs) tree
        (tree.run (generate .standard "count.toml" (some "gen/count.rs"))).2
        (tree.run (generate .standard "count.toml" (some "gen/count.rs"))).1) ∧
    (FileTree.empty.run (check .standard "count.toml")).1 = .error missing ∧
    FileTree.empty.run (generate .standard "count.toml" (some "gen/count.rs")) =
      (.error missing, .empty) := by
  have hcheck : ((FileTree.empty.addFile "count.toml"
      (Schema.smallText "Count" "u16" "Packet" "total")).run (check .standard "count.toml")).1 =
      .ok [⟨"Packet", 2, true⟩] := by
    decide +kernel
  have hmissing : (FileTree.empty.run (check .standard "count.toml")).1 =
      .error (.load "count.toml" (.unreadable "count.toml" .notFound)) := by
    decide +kernel
  obtain ⟨-, -, -, hagrees⟩ := generate_agrees_with_check .standard "count.toml"
    (some "gen/count.rs") (.addFile .empty "count.toml"
      (Schema.smallText "Count" "u16" "Packet" "total"))
  obtain ⟨-, -, hfails, -⟩ := generate_agrees_with_check .standard "count.toml"
    (some "gen/count.rs") .empty
  exact ⟨hcheck, hagrees _ hcheck, hmissing, hfails _ hmissing⟩

end Generator

end WireCodec
