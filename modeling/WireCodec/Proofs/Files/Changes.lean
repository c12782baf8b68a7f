import WireCodec.Files.Tree
import WireCodec.Proofs.Except

/-!
# Changes to a tree of files

Making directories and writing a file change a tree at the locations that their paths lead to and
nowhere else.  A directory stays where it is through both, so a path keeps its location once it
leads anywhere.
-/

namespace WireCodec

inductive Path.LiesIn : String → String → Prop where
  | directly {path dir : String} (parent : parent? path = some dir) : LiesIn path dir
  | deeper {path dir outer : String} (parent : parent? path = some dir) (h : LiesIn dir outer) :
    LiesIn path outer

namespace FileTree

/-! ## One location -/

theorem isGiven_eq_false {tree : FileTree} {place : Location}
    (h : tree.get? place ≠ some .directory) : isGiven place = false := by
  rw [get?] at h
  split at h
  · exact absurd rfl h
  · rename_i hgiven
    exact Bool.not_eq_true _ ▸ hgiven

/-- Something that is put where no directory is lies there, and nothing else is moved. -/
theorem get?_put {tree : FileTree} {place : Location} (h : tree.get? place ≠ some .directory)
    (entry : FileEntry) (other : Location) :
    (tree.put place entry).get? other = if other = place then some entry else tree.get? other := by
  have key (entries : List (Location × FileEntry)) :
      (entries.filter (·.1 ≠ place) ++ [(place, entry)]).lookup other =
        if other = place then some entry else entries.lookup other := by
    induction entries with
    | nil =>
      by_cases hother : other = place
      · simp [hother]
      · have hne : (other == place) = false := by simp [hother]
        simp [List.lookup_cons, hother, hne]
    | cons e rest ih =>
      obtain ⟨p, v⟩ := e
      by_cases hp : p = place
      · have hkept : ((p, v) :: rest).filter (·.1 ≠ place) = rest.filter (·.1 ≠ place) := by
          simp [hp]
        rw [hkept, ih]
        by_cases hother : other = place
        · rw [if_pos hother, if_pos hother]
        · have hne : (other == p) = false := by simp [hp, hother]
          rw [if_neg hother, if_neg hother, List.lookup_cons, hne]
      · have hkept : ((p, v) :: rest).filter (·.1 ≠ place) =
            (p, v) :: rest.filter (·.1 ≠ place) := by
          simp [hp]
        rw [hkept, List.cons_append, List.lookup_cons, List.lookup_cons, ih]
        by_cases hother : other = p
        · simp [hother, hp]
        · have hne : (other == p) = false := by simp [hother]
          rw [hne]
  rw [get?, get?, put]
  dsimp only
  rw [key]
  by_cases hother : other = place
  · rw [hother, isGiven_eq_false h, if_neg Bool.false_ne_true, if_pos rfl, if_pos rfl]
  · rw [if_neg hother, if_neg hother]

/-! ## Paths -/

/-- Every directory of a tree is one of another, too. -/
def KeepsDirectories (before after : FileTree) : Prop :=
  ∀ place, before.get? place = some .directory → after.get? place = some .directory

/-- Where directories are kept, paths lead to where they led. -/
theorem follow_of_keeps {before after : FileTree} (h : before.KeepsDirectories after)
    {place next : Location} {piece : String} (hfollow : before.follow place piece = .ok next) :
    after.follow place piece = .ok next := by
  unfold follow at hfollow ⊢
  split at hfollow
  · cases hfollow
  · cases hfollow
  · rename_i hdirectory
    rw [h place hdirectory]
    exact hfollow

/-- A path that leads somewhere goes on to lead there. -/
theorem resolve_of_keeps {before after : FileTree} (h : before.KeepsDirectories after)
    {path : String} {place : Location} (hresolve : before.resolve path = .ok place) :
    after.resolve path = .ok place := by
  have key (pieces : List String) (start : Location)
      (hpieces : pieces.foldlM before.follow start = .ok place) :
      pieces.foldlM after.follow start = .ok place := by
    induction pieces generalizing start with
    | nil => exact hpieces
    | cons piece rest ih =>
      rw [List.foldlM_cons] at hpieces ⊢
      obtain ⟨next, hnext, hrest⟩ := bind_eq_ok.mp hpieces
      rw [follow_of_keeps h hnext, ok_bind]
      exact ih next hrest
  unfold resolve at hresolve ⊢
  split at hresolve
  · cases hresolve
  · rename_i hpath
    rw [if_neg hpath]
    exact key _ _ hresolve

/-! ## Making directories -/

/-- At a location nothing changed, unless it is that of a directory of a certain sort, which was
made where nothing was. -/
def KeptAt (before after : FileTree) (dirs : String → Prop) (place : Location) : Prop :=
  after.get? place = before.get? place ∨
    before.get? place = none ∧ after.get? place = some .directory ∧
      ∃ dir, dirs dir ∧ after.resolve (withoutSlashes dir) = .ok place

section Kept

variable {dirs : String → Prop}

theorem keepsDirectories_of_kept {before after : FileTree}
    (h : ∀ place, before.KeptAt after dirs place) : before.KeepsDirectories after := by
  intro place hdirectory
  rcases h place with hsame | ⟨hnone, -, -⟩
  · rw [hsame, hdirectory]
  · rw [hdirectory] at hnone
    cases hnone

/-- What two changes both keep, they keep together. -/
theorem kept_trans {before mid after : FileTree} (h : ∀ place, before.KeptAt mid dirs place)
    (hmore : ∀ place, mid.KeptAt after dirs place) (place : Location) :
    before.KeptAt after dirs place := by
  have hkeeps := keepsDirectories_of_kept hmore
  rcases hmore place with hsame | ⟨hnone, hmade, hdir⟩
  · rcases h place with hfirst | ⟨hnone, hmade, dir, hdir, hresolve⟩
    · exact .inl (hsame.trans hfirst)
    · exact .inr ⟨hnone, hsame.trans hmade, dir, hdir, resolve_of_keeps hkeeps hresolve⟩
  · rcases h place with hfirst | ⟨-, hfirst, -⟩
    · exact .inr ⟨hfirst.symm.trans hnone, hmade, hdir⟩
    · rw [hfirst] at hnone
      cases hnone

theorem makeDirectory_eq_ok {tree after : FileTree} {path : String} :
    tree.makeDirectory path = .ok after ↔
      ∃ place, tree.resolve (withoutSlashes path) = .ok place ∧ tree.get? place = none ∧
        after = tree.put place .directory := by
  unfold makeDirectory
  rw [bind_eq_ok]
  refine exists_congr fun place => and_congr_right fun _ => ?_
  cases tree.get? place with
  | none => exact ⟨fun h => ⟨rfl, (Except.ok.inj h).symm⟩, fun h => h.2 ▸ rfl⟩
  | some entry => exact ⟨fun h => (by cases h), fun h => (by cases h.1)⟩

/-- Making a directory changes only its own place. -/
theorem kept_makeDirectory {tree after : FileTree} {path : String}
    (h : tree.makeDirectory path = .ok after) (hpath : dirs path) (place : Location) :
    tree.KeptAt after dirs place := by
  obtain ⟨made, hresolve, hnone, rfl⟩ := makeDirectory_eq_ok.mp h
  have hfree : tree.get? made ≠ some .directory := by simp [hnone]
  have hput := get?_put hfree .directory
  have hkeeps : tree.KeepsDirectories (tree.put made .directory) := by
    intro other hother
    rw [hput]
    split
    · rfl
    · exact hother
  by_cases hplace : place = made
  · subst hplace
    exact .inr ⟨hnone, by rw [hput, if_pos rfl], path, hpath, resolve_of_keeps hkeeps hresolve⟩
  · exact .inl (by rw [hput, if_neg hplace])

/-- Making directories one inside the next makes no others. -/
theorem kept_makeChain {paths : List String} (h : ∀ path ∈ paths, dirs path) (tree : FileTree)
    (place : Location) : tree.KeptAt (tree.makeChain paths).2 dirs place := by
  induction paths generalizing tree place with
  | nil => exact .inl rfl
  | cons path outer ih =>
    have hpath := h path (List.mem_cons_self ..)
    have houter := ih fun p hp => h p (List.mem_cons_of_mem path hp)
    rw [makeChain]
    split
    · rename_i after hmade
      exact kept_makeDirectory hmade hpath place
    · have hchain := houter tree
      split
      · rename_i error mid hmid
        rw [hmid] at hchain
        exact hchain place
      · rename_i mid hmid
        rw [hmid] at hchain
        split
        · rename_i after hmade
          exact kept_trans hchain (kept_makeDirectory hmade hpath) place
        · exact hchain place
    · exact .inl rfl

end Kept

/-- The directories that are made for a path lie on the way to it. -/
theorem mem_chain {path dir : String} {n : Nat} (h : dir ∈ chain path n) :
    dir = path ∨ Path.LiesIn path dir := by
  induction n generalizing path with
  | zero => cases h
  | succ n ih =>
    rw [chain] at h
    split at h
    · cases h
    · split at h
      · cases h
      · rename_i outer houter
        rcases List.mem_cons.mp h with rfl | h
        · exact .inl rfl
        · rcases ih h with rfl | hlies
          · exact .inr (.directly houter)
          · exact .inr (.deeper houter hlies)

/-- Making the directory that a path lies in makes no directories but those around the path. -/
theorem kept_makeDirectories {path dir : String} (h : Path.parent? path = some dir)
    (tree : FileTree) (place : Location) :
    tree.KeptAt (tree.makeDirectories dir).2 (Path.LiesIn path) place := by
  refine kept_makeChain (fun outer houter => ?_) tree place
  rcases mem_chain houter with rfl | hlies
  · exact .directly h
  · exact .deeper h hlies

/-! ## Writing -/

/-- Writing succeeds where the path leads to no directory, and puts the text there. -/
theorem writeText_eq_ok {tree after : FileTree} {path text : String} :
    tree.writeText path text = .ok after ↔
      withoutSlashes path = path ∧ ∃ place, tree.resolve path = .ok place ∧
        tree.get? place ≠ some .directory ∧ after = tree.put place (.file text) := by
  unfold writeText
  rw [bind_eq_ok]
  by_cases hslashes : withoutSlashes path = path
  · rw [hslashes, and_iff_right rfl]
    refine exists_congr fun place => and_congr_right fun _ => ?_
    simp only [ne_eq, not_true_eq_false, if_false]
    split
    · rename_i hdirectory
      exact ⟨fun h => (by cases h), fun h => absurd hdirectory h.1⟩
    · rename_i hfile
      exact ⟨fun h => ⟨hfile, (Except.ok.inj h).symm⟩, fun h => h.2 ▸ rfl⟩
  · simp only [ne_eq, hslashes, not_false_eq_true, if_true, false_and, iff_false]
    rintro ⟨_, -, h⟩
    cases h

/-- A file that was written is at its path, and all other locations are as before. -/
theorem of_writeText {tree after : FileTree} {path text : String}
    (h : tree.writeText path text = .ok after) :
    after.readText path = .ok text ∧ tree.KeepsDirectories after ∧
      ∀ place, after.resolve path = .ok place ∨ after.get? place = tree.get? place := by
  obtain ⟨-, written, hresolve, hfile, rfl⟩ := writeText_eq_ok.mp h
  have hput := get?_put hfile (.file text)
  have hkeeps : tree.KeepsDirectories (tree.put written (.file text)) := by
    intro other hother
    rw [hput, if_neg]
    · exact hother
    · rintro rfl
      exact hfile hother
  have hresolve' := resolve_of_keeps hkeeps hresolve
  refine ⟨?_, hkeeps, fun place => ?_⟩
  · rw [readText, hresolve', ok_bind, hput, if_pos rfl]
    rfl
  · by_cases hplace : place = written
    · exact .inl (hplace ▸ hresolve')
    · exact .inr (by rw [hput, if_neg hplace])

end FileTree

end WireCodec
