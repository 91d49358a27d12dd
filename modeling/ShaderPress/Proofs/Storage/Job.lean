import ShaderPress.Job
import ShaderPress.Proofs.Batch.Settled
import ShaderPress.Proofs.Storage.Directory

/-! # Jobs on a disk

A job that succeeds on a disk is a row of steps that each succeed.  Reading leaves the disk as
it is and adds the texts of the files to a batch, in order and under their file names.  Writing
a row of files to a directory leaves, under each name, the text of the last file of that name,
and all other names as they were.
-/
namespace ShaderPress

namespace Batch
variable {b : Batch}

theorem add_fst_eq_ok_iff {name source : List Char} : (b.add name source).1 = .ok () ↔
    ∃ tokens, (lex b.options.unknown source).outcome = .ok tokens := by
  rw [add, Shader.read]
  cases (lex b.options.unknown source).outcome <;> simp [Except.map]

/-- Sources that lex give the batch one shader each, in order and under their names. -/
theorem map_name_foldl_add {sources : List (List Char × List Char)}
    (h : ∀ s ∈ sources, ∃ tokens, (lex b.options.unknown s.2).outcome = .ok tokens) :
    (sources.foldl (fun b s => (b.add s.1 s.2).2) b).shaders.map Shader.name =
      b.shaders.map Shader.name ++ sources.map Prod.fst := by
  induction sources generalizing b with
  | nil => exact (List.append_nil _).symm
  | cons s sources ih =>
    rw [List.forall_mem_cons] at h
    obtain ⟨⟨tokens, hlex⟩, hrest⟩ := h
    rw [List.foldl_cons, ih (by rw [options_add]; exact hrest), add_snd, hlex]
    simp

end Batch

namespace Job
variable {α β ε : Type} {d d' : Disk} {b b' : Batch}

/-- What a job results in and the disk it leaves. -/
def onDisk (job : Job (StateM Disk) α) (d : Disk) : Except JobError α × Disk := job.run.run d

theorem onDisk_bind (job : Job (StateM Disk) α) (next : α → Job (StateM Disk) β) (d : Disk) :
    onDisk (job >>= next) d = match onDisk job d with
      | (.ok x, d₁) => onDisk (next x) d₁
      | (.error e, d₁) => (.error e, d₁) := by
  unfold onDisk ExceptT.run StateT.run
  simp only [bind, ExceptT.bind, ExceptT.mk, StateT.bind, ExceptT.bindCont]
  cases job d with
  | mk outcome d₁ => cases outcome <;> rfl

theorem exists_of_onDisk_bind {job : Job (StateM Disk) α} {next : α → Job (StateM Disk) β} {y : β}
    (h : onDisk (job >>= next) d = (.ok y, d')) :
    ∃ x d₁, onDisk job d = (.ok x, d₁) ∧ onDisk (next x) d₁ = (.ok y, d') := by
  rw [onDisk_bind] at h
  cases hjob : onDisk job d with
  | mk outcome d₁ =>
    rw [hjob] at h
    cases outcome with
    | error e => cases h
    | ok x => exact ⟨x, d₁, rfl, h⟩

theorem eq_ok_of_onDisk_ofExcept {wrap : ε → JobError} {outcome : Except ε α} {x : α}
    (h : onDisk (ofExcept wrap outcome) d = (.ok x, d')) : outcome = .ok x ∧ d' = d := by
  change (outcome.mapError wrap, d) = (.ok x, d') at h
  cases outcome with
  | error e => cases h
  | ok x' =>
    cases h
    exact ⟨rfl, rfl⟩

theorem eq_ok_of_onDisk_readText {path text : List Char}
    (h : onDisk (readText path) d = (.ok text, d')) : d.readText path = .ok text ∧ d' = d := by
  change ((d.readText path).mapError (JobError.readInput path), d) = (.ok text, d') at h
  cases hread : d.readText path with
  | error fault =>
    rw [hread] at h
    cases h
  | ok text' =>
    rw [hread] at h
    cases h
    exact ⟨rfl, rfl⟩

theorem eq_ok_of_onDisk_writeText {path text : List Char}
    (h : onDisk (writeText path text) d = (.ok (), d')) : d.writeText path text = .ok d' := by
  unfold onDisk writeText onStorage ExceptT.run StateT.run at h
  simp only [ExceptT.mk, Functor.map, StateT.map, Storage.writeText] at h
  cases hwrite : d.writeText path text with
  | error fault =>
    rw [hwrite] at h
    cases h
  | ok next =>
    rw [hwrite] at h
    cases h
    rfl

section Reading

/-- A path to a file, with the name and the text of that file. -/
def Names (d : Disk) (path : List Char) (source : List Char × List Char) : Prop :=
  Path.fileName? path = some source.1 ∧ d.readText path = .ok source.2

theorem onDisk_addFile_eq_ok_iff {path : List Char} :
    onDisk (addFile b path) d = (.ok b', d') ↔ d' = d ∧ ∃ source, Names d path source ∧
      (∃ tokens, (lex b.options.unknown source.2).outcome = .ok tokens) ∧
      b' = (b.add source.1 source.2).2 := by
  constructor
  · intro h
    obtain ⟨text, d₁, hstep, hrest⟩ := exists_of_onDisk_bind h
    obtain ⟨hread, rfl⟩ := eq_ok_of_onDisk_readText hstep
    obtain ⟨name, hname, -⟩ := Disk.exists_fileName_of_readText hread
    rw [hname, Option.getD_some] at hrest
    obtain ⟨⟨⟩, d₂, hsource, hlast⟩ := exists_of_onDisk_bind hrest
    obtain ⟨hadd, rfl⟩ := eq_ok_of_onDisk_ofExcept hsource
    injection hlast with hok hd
    exact ⟨hd.symm, (name, text), ⟨hname, hread⟩, Batch.add_fst_eq_ok_iff.mp hadd,
      (Except.ok.inj hok).symm⟩
  · rintro ⟨rfl, ⟨name, text⟩, ⟨hname, hread⟩, hlex, rfl⟩
    have hstep : onDisk (readText path) d' = (.ok text, d') := by
      change ((d'.readText path).mapError (JobError.readInput path), d') = (.ok text, d')
      rw [hread]
      rfl
    have hadd : (b.add name text).1 = .ok () := Batch.add_fst_eq_ok_iff.mpr hlex
    rw [addFile, onDisk_bind, hstep, hname, Option.getD_some]
    change onDisk (ofExcept .source (b.add name text).1 >>= fun _ => pure (b.add name text).2) d' = _
    rw [hadd]
    rfl

/-- All files are read exactly where each of them is there and lexes.  They are added in order,
and the disk stays. -/
theorem onDisk_addFiles_eq_ok_iff {inputs : List (List Char)} :
    onDisk (addFiles b inputs) d = (.ok b', d') ↔ d' = d ∧ ∃ sources,
      List.Forall₂ (Names d) inputs sources ∧
      (∀ s ∈ sources, ∃ tokens, (lex b.options.unknown s.2).outcome = .ok tokens) ∧
      b' = sources.foldl (fun b s => (b.add s.1 s.2).2) b := by
  induction inputs generalizing b with
  | nil =>
    constructor
    · intro h
      cases h
      exact ⟨rfl, [], .nil, by simp, rfl⟩
    · rintro ⟨rfl, sources, hsources, -, rfl⟩
      cases hsources
      rfl
  | cons path paths ih =>
    constructor
    · intro h
      obtain ⟨next, d₁, hfile, hrest⟩ := exists_of_onDisk_bind h
      obtain ⟨rfl, source, hsource, htokens, rfl⟩ := onDisk_addFile_eq_ok_iff.mp hfile
      obtain ⟨rfl, sources, hsources, hlex, rfl⟩ := ih.mp hrest
      rw [Batch.options_add] at hlex
      exact ⟨rfl, source :: sources, .cons hsource hsources,
        List.forall_mem_cons.mpr ⟨htokens, hlex⟩, rfl⟩
    · rintro ⟨rfl, _, hsources, hlex, rfl⟩
      cases hsources with
      | @cons _ source _ sources hsource hsources =>
        rw [List.forall_mem_cons] at hlex
        rw [addFiles, onDisk_bind,
          onDisk_addFile_eq_ok_iff.mpr ⟨rfl, source, hsource, hlex.1, rfl⟩]
        exact ih.mpr ⟨rfl, sources, hsources, by rw [Batch.options_add]; exact hlex.2, rfl⟩

end Reading

section Writing
variable {outdir : List Char}

/-- The text under a name after a row of files: that of the last file of the name. -/
theorem readText_writeFiles {files : List OutputFile} (hnames : ∀ f ∈ files, Path.IsFileName f.name)
    (h : onDisk (writeFiles outdir files) d = (.ok (), d')) {name : List Char}
    (hname : Path.IsFileName name) :
    d'.readText (Path.join outdir name) = ((files.reverse.find? (·.name = name)).elim
      (d.readText (Path.join outdir name)) fun f => .ok f.contents) := by
  induction files generalizing d with
  | nil =>
    cases h
    rfl
  | cons f fs ih =>
    rw [List.forall_mem_cons] at hnames
    obtain ⟨⟨⟩, d₁, hwrite, hrest⟩ := exists_of_onDisk_bind h
    have hf := Disk.readText_writeText hnames.1 (eq_ok_of_onDisk_writeText hwrite) hname
    rw [ih hnames.2 hrest, List.reverse_cons, List.find?_append, hf]
    cases fs.reverse.find? (·.name = name) with
    | some g => rfl
    | none =>
      by_cases he : f.name = name
      · simp [he]
      · simp [he, Ne.symm he]

/-- Every file of a row is read back exactly if no two files of a name differ. -/
theorem readText_writeFiles_iff {files : List OutputFile}
    (hnames : ∀ f ∈ files, Path.IsFileName f.name)
    (h : onDisk (writeFiles outdir files) d = (.ok (), d')) :
    (∀ f ∈ files, d'.readText (Path.join outdir f.name) = .ok f.contents) ↔
      ∀ f ∈ files, ∀ g ∈ files, f.name = g.name → f.contents = g.contents := by
  constructor
  · intro hread f hf g hg he
    have hboth := hread f hf
    rw [he, hread g hg] at hboth
    exact (Except.ok.inj hboth).symm
  · intro hsame f hf
    rw [readText_writeFiles hnames h (hnames f hf)]
    cases hlast : files.reverse.find? (·.name = f.name) with
    | none =>
      have hnone := List.find?_eq_none.mp hlast f (List.mem_reverse.mpr hf)
      simp at hnone
    | some g =>
      have hg := List.mem_reverse.mp (List.mem_of_find?_eq_some hlast)
      have hname : g.name = f.name := by simpa using List.find?_some hlast
      rw [Option.elim_some, hsame g hg f hf hname]

end Writing

/-- A job that minifies files succeeds exactly where it reads them all, their batch finishes and
its files can be written. -/
theorem onDisk_minifyFiles_eq_ok_iff {inputs : List (List Char)} {outdir : List Char}
    {options : MinifyOptions} {m : MinifiedBatch} :
    onDisk (minifyFiles inputs outdir options) d = (.ok m, d') ↔
      ∃ sources, List.Forall₂ (Names d) inputs sources ∧
        (∀ s ∈ sources, ∃ tokens, (lex options.unknown s.2).outcome = .ok tokens) ∧
        (Batch.ofSources options sources).finish = .ok m ∧
        onDisk (writeTo outdir m) d = (.ok (), d') := by
  constructor
  · intro h
    obtain ⟨b, d₁, hread, hrest⟩ := exists_of_onDisk_bind h
    obtain ⟨rfl, sources, hsources, hlex, rfl⟩ := onDisk_addFiles_eq_ok_iff.mp hread
    obtain ⟨minified, d₂, hstep, hout⟩ := exists_of_onDisk_bind hrest
    obtain ⟨hfinish, rfl⟩ := eq_ok_of_onDisk_ofExcept hstep
    obtain ⟨⟨⟩, d₃, hwrite, hlast⟩ := exists_of_onDisk_bind hout
    cases hlast
    exact ⟨sources, hsources, hlex, hfinish, hwrite⟩
  · rintro ⟨sources, hsources, hlex, hfinish, hwrite⟩
    have hread : onDisk (addFiles (.empty options) inputs) d =
        (.ok (Batch.ofSources options sources), d) :=
      onDisk_addFiles_eq_ok_iff.mpr ⟨rfl, sources, hsources, hlex, rfl⟩
    have hstep : onDisk (ofExcept .naming (Batch.ofSources options sources).finish) d = (.ok m, d) := by
      rw [hfinish]
      rfl
    rw [minifyFiles, onDisk_bind, hread]
    dsimp only
    rw [onDisk_bind, hstep]
    dsimp only
    rw [onDisk_bind, hwrite]
    rfl

theorem onDisk_writeFiles_of_writeTo {outdir : List Char} {m : MinifiedBatch}
    (h : onDisk (writeTo outdir m) d = (.ok (), d')) : ∃ d₁,
      onDisk (writeFiles outdir (m.artifacts.flatMap Artifacts.files)) d₁ = (.ok (), d') := by
  obtain ⟨⟨⟩, d₁, -, hfiles⟩ := exists_of_onDisk_bind h
  exact ⟨d₁, hfiles⟩

end Job

end ShaderPress
