import ShaderPress.Disk
import ShaderPress.Proofs.Storage.Names

/-! # A directory as a map

Walking to a file of a directory passes through directories only, and writing a file leaves
those as they are.  So the files of a directory are a map from names to texts: a write sets one
name and no other.  A path that can be read ends in a file name.
-/
namespace ShaderPress.Disk
variable {d d' : Disk} {directory name text : List Char}

theorem get?_set (d : Disk) (path path' : List (List Char)) (entry : DiskEntry) :
    (d.set path entry).get? path' = if path' = path then some entry else d.get? path' := by
  rw [set, get?, List.lookup_cons]
  by_cases h : path' = path
  · simp [h]
  · rw [beq_false_of_ne h, if_neg h, get?]
    induction d.entries with
    | nil => rfl
    | cons e es ih =>
      rw [List.filter_cons, List.lookup_cons]
      by_cases he : e.1 = path
      · rw [if_neg (by simp [he]), ih, he, beq_false_of_ne h]
      · rw [if_pos (bne_iff_ne.mpr he), List.lookup_cons]
        cases path' == e.1
        · exact ih
        · rfl

/-- The directories are the same. -/
def SameTree (d d' : Disk) : Prop :=
  ∀ path, d.get? path = some .directory ↔ d'.get? path = some .directory

/-- What is at a place whose surroundings are directories. -/
def placeAt (d : Disk) (path : List (List Char)) : Place :=
  match d.get? path with
  | some .directory => .directory
  | some (.file text) => .file path text false
  | none => .free path false

theorem sameTree_set {path : List (List Char)} (h : d.get? path ≠ some .directory)
    (text : Option (List Char)) : SameTree d (d.set path (.file text)) := by
  intro path'
  rw [get?_set]
  by_cases hp : path' = path
  · subst hp
    simp [h]
  · rw [if_neg hp]

theorem walk_name (h : Path.IsFileName name) (d : Disk) (path : List (List Char)) :
    d.walk 0 path [name] = .ok (d.placeAt (path ++ [name])) := by
  rw [walk, if_neg (by simp [h.names]), if_neg h.below, if_neg (by simp), placeAt]
  simp only [List.all_nil, List.isEmpty_nil, Bool.not_true, if_true, walk]
  cases d.get? (path ++ [name]) with
  | none => rfl
  | some entry => cases entry <;> rfl

/-- A walk to a file name leads to a place in one directory, and walks to other names there lead
to theirs, as long as the tree is the same. -/
theorem exists_walk_append (h : Path.IsFileName name) {above : Nat} {path before : List (List Char)}
    {place : Place} (hwalk : d.walk above path (before ++ [name]) = .ok place) :
    ∃ dir, ∀ d', SameTree d d' → ∀ other, Path.IsFileName other →
      d'.walk above path (before ++ [other]) = .ok (d'.placeAt (dir ++ [other])) := by
  induction before generalizing above path with
  | nil =>
    rw [List.nil_append, walk, if_neg (by simp [h.names]), if_neg h.below] at hwalk
    by_cases habove : above = 0
    · subst habove
      exact ⟨path, fun d' _ other hother => walk_name hother d' path⟩
    · rw [if_pos habove] at hwalk
      cases hwalk
  | cons part before ih =>
    rw [List.cons_append, walk] at hwalk
    by_cases htrivial : Path.isTrivial part = true
    · rw [if_pos htrivial] at hwalk
      obtain ⟨dir, hdir⟩ := ih hwalk
      refine ⟨dir, fun d' hd other hother => ?_⟩
      rw [List.cons_append, walk, if_pos htrivial]
      exact hdir d' hd other hother
    rw [if_neg htrivial] at hwalk
    by_cases hup : part = Path.upwards
    · rw [if_pos hup] at hwalk
      by_cases hroot : path = []
      · rw [if_pos hroot] at hwalk
        obtain ⟨dir, hdir⟩ := ih hwalk
        refine ⟨dir, fun d' hd other hother => ?_⟩
        rw [List.cons_append, walk, if_neg htrivial, if_pos hup, if_pos hroot]
        exact hdir d' hd other hother
      · rw [if_neg hroot] at hwalk
        obtain ⟨dir, hdir⟩ := ih hwalk
        refine ⟨dir, fun d' hd other hother => ?_⟩
        rw [List.cons_append, walk, if_neg htrivial, if_pos hup, if_neg hroot]
        exact hdir d' hd other hother
    rw [if_neg hup] at hwalk
    by_cases habove : above ≠ 0
    · rw [if_pos habove] at hwalk
      cases hwalk
    rw [if_neg habove] at hwalk
    have hmore : (before ++ [name]).all List.isEmpty = false := by simp [h.ne_nil]
    -- a file or nothing cannot be walked through
    cases hentry : d.get? (path ++ [part]) with
    | none => simp [hentry, hmore] at hwalk
    | some entry =>
      cases entry with
      | file text => simp [hentry, hmore] at hwalk
      | directory =>
        simp only [hentry] at hwalk
        obtain ⟨dir, hdir⟩ := ih hwalk
        refine ⟨dir, fun d' hd other hother => ?_⟩
        rw [List.cons_append, walk, if_neg htrivial, if_neg hup, if_neg habove]
        simp only [(hd _).mp hentry]
        exact hdir d' hd other hother

theorem exists_locate_join (h : Path.IsFileName name) {place : Place}
    (hplace : d.locate (Path.join directory name) = .ok place) :
    ∃ dir, ∀ d', SameTree d d' → ∀ other, Path.IsFileName other →
      d'.locate (Path.join directory other) = .ok (d'.placeAt (dir ++ [other])) := by
  obtain ⟨before, rooted, hjoin⟩ := Path.exists_parts_join directory
  have hlocate : ∀ (d : Disk) other, Path.IsFileName other →
      d.locate (Path.join directory other) =
        d.walk (if rooted then 1 else 0) [] (before ++ [other]) := by
    intro d other hother
    obtain ⟨hne, hparts, hrooted⟩ := hjoin other hother
    rw [locate, if_neg hne, hparts, ← hrooted]
    simp only [decide_eq_true_iff]
  rw [hlocate d name h] at hplace
  obtain ⟨dir, hdir⟩ := exists_walk_append h hplace
  exact ⟨dir, fun d' hd other hother => (hlocate d' other hother).trans (hdir d' hd other hother)⟩

/-- Writing a file of a directory sets the text of its name and of no other. -/
theorem readText_writeText (h : Path.IsFileName name)
    (hwrite : d.writeText (Path.join directory name) text = .ok d') {other : List Char}
    (hother : Path.IsFileName other) :
    d'.readText (Path.join directory other) =
      if other = name then .ok text else d.readText (Path.join directory other) := by
  cases hplace : d.locate (Path.join directory name) with
  | error fault =>
    rw [writeText, hplace] at hwrite
    cases hwrite
  | ok place =>
  obtain ⟨dir, hdir⟩ := exists_locate_join h hplace
  rw [writeText, hdir d (fun _ => Iff.rfl) name h] at hwrite
  have hset : d.get? (dir ++ [name]) ≠ some .directory ∧
      d' = d.set (dir ++ [name]) (.file (some text)) := by
    rw [placeAt] at hwrite
    cases hentry : d.get? (dir ++ [name]) with
    | none =>
      rw [hentry] at hwrite
      cases hwrite
      exact ⟨nofun, rfl⟩
    | some entry =>
      rw [hentry] at hwrite
      cases entry with
      | directory => cases hwrite
      | file old =>
        cases hwrite
        exact ⟨nofun, rfl⟩
  obtain ⟨hfile, rfl⟩ := hset
  have hd := sameTree_set hfile (some text)
  rw [readText, readText, hdir _ hd other hother, hdir d (fun _ => Iff.rfl) other hother, placeAt,
    placeAt, get?_set]
  by_cases heq : other = name
  · simp [heq]
  · rw [if_neg heq, if_neg (by simp [heq])]

theorem exists_last_of_walk {above : Nat} {path ps place : List (List Char)}
    {text : Option (List Char)} (h : d.walk above path ps = .ok (.file place text false)) :
    ∃ before part, ps = before ++ [part] ∧ Path.isTrivial part = false ∧ part ≠ Path.upwards := by
  induction ps generalizing above path with
  | nil =>
    rw [walk] at h
    cases h
  | cons part rest ih =>
    have behind : ∀ {above path}, d.walk above path rest = .ok (.file place text false) →
        ∃ before last, part :: rest = before ++ [last] ∧ Path.isTrivial last = false ∧
          last ≠ Path.upwards := by
      intro above path hw
      obtain ⟨before, last, hrest, hlast⟩ := ih hw
      exact ⟨part :: before, last, by rw [hrest, List.cons_append], hlast⟩
    rw [walk] at h
    split at h
    · exact behind h
    · next htrivial =>
      split at h
      · split at h
        · exact behind h
        · exact behind h
      · next hup =>
        split at h
        · cases h
        · simp only at h
          split at h
          · exact behind h
          · split at h
            · injection h with h
              injection h with _ _ hslash
              obtain rfl : rest = [] := by simpa using hslash
              exact ⟨[], part, rfl, by simpa using htrivial, hup⟩
            · cases h
          · split at h <;> cases h

/-- Only a path that ends in a file name can be read. -/
theorem exists_fileName_of_readText {path : List Char} (h : d.readText path = .ok text) :
    ∃ name, Path.fileName? path = some name ∧ Path.IsFileName name := by
  have hfile : ∃ place text, d.locate path = .ok (.file place text false) := by
    rw [readText] at h
    split at h
    · cases h
    · cases h
    · cases h
    · next hl => exact ⟨_, _, hl⟩
    · cases h
    · cases h
  obtain ⟨place, text', hl⟩ := hfile
  rw [locate] at hl
  split at hl
  · cases hl
  · obtain ⟨before, part, hparts, htrivial, hup⟩ := exists_last_of_walk hl
    have hname := Path.fileName?_of_parts hparts htrivial hup
    exact ⟨part, hname, Path.isFileName_of_fileName? hname⟩

end ShaderPress.Disk
