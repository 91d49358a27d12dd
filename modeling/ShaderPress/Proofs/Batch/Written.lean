import Mathlib
import ShaderPress.Proofs.Batch.Contents
import ShaderPress.Proofs.Shader.FileNames
import ShaderPress.Proofs.Storage.Job

/-! # What is written of a batch

All files of a batch go to one directory, under names made of the last parts of the input paths.
Files that share a name stand in each other's place, so every file of a batch is there in the end
exactly if files that share a name do not differ: the sources of shaders of one name, and the two
files that are both `S.minified.hpp`.  Export headers never differ within a batch.
-/
namespace ShaderPress

namespace Artifacts
variable {cx : EmitContext} {s s' : Shader} {a a' : Artifacts}

theorem isFileName_of_render (h : render cx s = .ok a) (hs : Path.IsFileName s.name) :
    ∀ f ∈ a.files, Path.IsFileName f.name := by
  obtain ⟨hheader, hembedded, hoffline⟩ := names_of_render h
  rw [files, List.forall_mem_cons, List.forall_mem_cons, List.forall_mem_singleton, hheader,
    hembedded, hoffline]
  exact ⟨Shader.isFileName_exportsName hs, Shader.isFileName_embeddedName hs,
    Shader.isFileName_offlineName hs⟩

/-- Files that share a name do not differ. -/
def Agree (a a' : Artifacts) : Prop :=
  ∀ f ∈ a.files, ∀ g ∈ a'.files, f.name = g.name → f.contents = g.contents

/-- Shaders of one name have the same sources, and so have an embedded and an offline source that
are both `S.minified.hpp`. -/
structure Compatible (a a' : Artifacts) : Prop where
  same : a.shader = a'.shader →
    a.embedded.contents = a'.embedded.contents ∧ a.offline.contents = a'.offline.contents
  crossed : ∀ stem, stem ≠ [] → a.shader = stem ++ ".minified".toList →
    a'.shader = stem ++ ".hpp".toList → a.embedded.contents = a'.offline.contents

/-- No other files of one context that share a name can differ. -/
theorem agree_iff (h : render cx s = .ok a) (h' : render cx s' = .ok a')
    (hs : Path.IsFileName s.name) (hs' : Path.IsFileName s'.name) :
    Agree a a' ↔ Compatible a a' ∧ Compatible a' a := by
  obtain ⟨hshader, hheader, -, -⟩ := contents_of_render h
  obtain ⟨hshader', hheader', -, -⟩ := contents_of_render h'
  obtain ⟨hx, he, ho⟩ := names_of_render h
  obtain ⟨hx', he', ho'⟩ := names_of_render h'
  have hheaders : a.exportsHeader.contents = a'.exportsHeader.contents := hheader.trans hheader'.symm
  simp only [Agree, files, List.forall_mem_cons, List.not_mem_nil, IsEmpty.forall_iff, implies_true,
    and_true, hx, hx', he, he', ho, ho']
  constructor
  · rintro ⟨-, ⟨-, hee, heo⟩, -, hoe, hoo⟩
    have hsame : s.name = s'.name → a.embedded.contents = a'.embedded.contents ∧
        a.offline.contents = a'.offline.contents := by
      intro hname
      refine ⟨hee ?_, hoo ?_⟩
      · rw [Shader.embeddedName, Shader.embeddedName, hname]
      · rw [Shader.offlineName, Shader.offlineName, Shader.stem, Shader.stem, hname]
    rw [← hshader, ← hshader'] at hsame
    refine ⟨⟨hsame, fun stem hstem hm hh => heo ?_⟩,
      ⟨fun hname => (hsame hname.symm).imp Eq.symm Eq.symm, fun stem hstem hm hh => (hoe ?_).symm⟩⟩
    · rw [hshader] at hm
      rw [hshader'] at hh
      exact (Shader.embeddedName_eq_offlineName_iff hs').mpr ⟨stem, hstem, hm, hh⟩
    · rw [hshader'] at hm
      rw [hshader] at hh
      exact ((Shader.embeddedName_eq_offlineName_iff hs).mpr ⟨stem, hstem, hm, hh⟩).symm
  · rintro ⟨hc, hc'⟩
    have hsame := hc.same
    rw [hshader, hshader'] at hsame
    refine ⟨⟨fun _ => hheaders, fun hn => ?_, fun hn => ?_⟩, ⟨fun hn => ?_, fun hn => ?_, fun hn => ?_⟩,
      ⟨fun hn => ?_, fun hn => ?_, fun hn => ?_⟩⟩
    · exact absurd hn (Shader.exportsName_ne_embeddedName s s')
    · exact absurd hn (Shader.exportsName_ne_offlineName hs' s)
    · exact absurd hn.symm (Shader.exportsName_ne_embeddedName s' s)
    · exact (hsame (Shader.eq_of_embeddedName hn)).1
    · obtain ⟨stem, hstem, hm, hh⟩ := (Shader.embeddedName_eq_offlineName_iff hs').mp hn
      exact hc.crossed stem hstem (hshader.trans hm) (hshader'.trans hh)
    · exact absurd hn.symm (Shader.exportsName_ne_offlineName hs s')
    · obtain ⟨stem, hstem, hm, hh⟩ := (Shader.embeddedName_eq_offlineName_iff hs).mp hn.symm
      exact (hc'.crossed stem hstem (hshader'.trans hm) (hshader.trans hh)).symm
    · exact (hsame (Shader.eq_of_offlineName hs hs' hn)).2

end Artifacts

namespace MinifiedBatch

/-- All files of a batch in the order in which they are written. -/
def files (m : MinifiedBatch) : List OutputFile := m.artifacts.flatMap Artifacts.files

/-- No file of the batch takes the place of a different one. -/
def Compatible (m : MinifiedBatch) : Prop :=
  ∀ a ∈ m.artifacts, ∀ a' ∈ m.artifacts, a.Compatible a'

theorem agree_files_iff (m : MinifiedBatch) :
    (∀ f ∈ m.files, ∀ g ∈ m.files, f.name = g.name → f.contents = g.contents) ↔
      ∀ a ∈ m.artifacts, ∀ b ∈ m.artifacts, a.Agree b := by
  simp only [files, List.mem_flatMap]
  constructor
  · intro h a ha b hb f hf g hg
    exact h f ⟨a, ha, hf⟩ g ⟨b, hb, hg⟩
  · rintro h f ⟨a, ha, hf⟩ g ⟨b, hb, hg⟩
    exact h a ha b hb f hf g hg

end MinifiedBatch

namespace Batch
variable {b : Batch} {m : MinifiedBatch}

theorem exists_mem_of_forall₂ {α β : Type} {R : α → β → Prop} {xs : List α} {ys : List β}
    (h : List.Forall₂ R xs ys) {y : β} (hy : y ∈ ys) : ∃ x ∈ xs, R x y := by
  induction h with
  | nil => cases hy
  | cons hxy _ ih =>
    rcases List.mem_cons.mp hy with rfl | hy
    · exact ⟨_, List.mem_cons_self, hxy⟩
    · obtain ⟨x, hx, hR⟩ := ih hy
      exact ⟨x, List.mem_cons_of_mem _ hx, hR⟩

theorem Finished.agree_files_iff (h : Finished b m)
    (hnames : ∀ s ∈ b.settled.1, Path.IsFileName s.name) :
    (∀ f ∈ m.files, ∀ g ∈ m.files, f.name = g.name → f.contents = g.contents) ↔ m.Compatible := by
  have hpair : ∀ a ∈ m.artifacts, ∀ a' ∈ m.artifacts,
      (a.Agree a' ↔ a.Compatible a' ∧ a'.Compatible a) := by
    intro a ha a' ha'
    obtain ⟨s, hs, hr⟩ := exists_mem_of_forall₂ h.rendered ha
    obtain ⟨s', hs', hr'⟩ := exists_mem_of_forall₂ h.rendered ha'
    exact Artifacts.agree_iff hr hr' (hnames s hs) (hnames s' hs')
  rw [MinifiedBatch.agree_files_iff]
  constructor
  · intro hall a ha a' ha'
    exact ((hpair a ha a' ha').mp (hall a ha a' ha')).1
  · intro hm a ha a' ha'
    exact (hpair a ha a' ha').mpr ⟨hm a ha a' ha', hm a' ha' a ha⟩

theorem Finished.isFileName_files (h : Finished b m)
    (hnames : ∀ s ∈ b.settled.1, Path.IsFileName s.name) :
    ∀ f ∈ m.files, Path.IsFileName f.name := by
  intro f hf
  obtain ⟨a, ha, hf⟩ := List.mem_flatMap.mp hf
  obtain ⟨s, hs, hr⟩ := exists_mem_of_forall₂ h.rendered ha
  exact Artifacts.isFileName_of_render hr (hnames s hs) f hf

theorem map_name_settled (b : Batch) :
    b.settled.1.map Shader.name = b.shaders.map Shader.name := by
  cases hb : b.options.humanReadable with
  | true => rw [settled, if_pos hb]
  | false => exact map_settled hb id

/-- The artifacts of a batch are in the order of its shaders and under their names. -/
theorem Finished.map_shader (h : Finished b m) :
    m.artifacts.map Artifacts.shader = b.shaders.map Shader.name := by
  rw [← map_name_settled]
  exact (h.map_artifacts fun s a hr => (Artifacts.contents_of_render hr).1.symm).symm

end Batch

namespace Job
variable {d d' : Disk} {inputs : List (List Char)} {outdir : List Char} {options : MinifyOptions}
  {m : MinifiedBatch}

/-- A job on two files without identifiers succeeds where its output can be written. -/
theorem exists_onDisk_minifyFiles {sources : List (List Char × List Char)} {s s' : Shader}
    (hsources : List.Forall₂ (Names d) inputs sources)
    (hlex : ∀ s ∈ sources, ∃ tokens, (lex .pass s.2).outcome = .ok tokens)
    (hsettled : (Batch.ofSources {} sources).settled = ([s, s'], .empty))
    (hwrite : ∀ a a', Artifacts.render ⟨.empty, .empty, {}⟩ s = .ok a →
      Artifacts.render ⟨.empty, .empty, {}⟩ s' = .ok a' →
      (onDisk (writeTo outdir ⟨[a, a'], .empty, [], []⟩) d).1 = .ok ()) :
    ∃ a a' d', onDisk (minifyFiles inputs outdir {}) d = (.ok ⟨[a, a'], .empty, [], []⟩, d') ∧
      Artifacts.render ⟨.empty, .empty, {}⟩ s = .ok a ∧
      Artifacts.render ⟨.empty, .empty, {}⟩ s' = .ok a' := by
  obtain ⟨artifacts, hm, hrendered⟩ := Batch.exists_finish_of_settled hsettled
  cases hrendered with
  | @cons _ a _ _ ha rest =>
  cases rest with
  | @cons _ a' _ _ ha' rest =>
  cases rest
  have hok := hwrite a a' ha ha'
  exact ⟨a, a', _, onDisk_minifyFiles_eq_ok_iff.mpr
    ⟨sources, hsources, hlex, hm, Prod.ext hok rfl⟩, ha, ha'⟩

/-- Two directories with one file each. -/
def twoDirectories (name text name' text' : List Char) : Disk :=
  ⟨[(["a".toList], .directory), (["a".toList, name], .file (some text)),
    (["b".toList], .directory), (["b".toList, name'], .file (some text'))]⟩

theorem exists_onDisk_twoDirectories {name : List Char}
    (h : name = "x.glsl".toList ∨ name = "y.glsl".toList) :
    ∃ a a' d', onDisk (minifyFiles ["a/x.glsl".toList, "b/".toList ++ name] "out".toList {})
        (twoDirectories "x.glsl".toList "1".toList name "2".toList) =
          (.ok ⟨[a, a'], .empty, [], []⟩, d') ∧
      Artifacts.render ⟨.empty, .empty, {}⟩
        ⟨"x.glsl".toList, [.lexeme "1".toList 1 .intLiteral]⟩ = .ok a ∧
      Artifacts.render ⟨.empty, .empty, {}⟩ ⟨name, [.lexeme "2".toList 1 .intLiteral]⟩ = .ok a' := by
  have hone : (lex .pass "1".toList).outcome = .ok [.lexeme "1".toList 1 .intLiteral] := by cbv
  have htwo : (lex .pass "2".toList).outcome = .ok [.lexeme "2".toList 1 .intLiteral] := by cbv
  have hsources : List.Forall₂
      (Names (twoDirectories "x.glsl".toList "1".toList name "2".toList))
      ["a/x.glsl".toList, "b/".toList ++ name]
      [("x.glsl".toList, "1".toList), (name, "2".toList)] := by
    rcases h with rfl | rfl
    · exact .cons ⟨by cbv, by cbv⟩ (.cons ⟨by cbv, by cbv⟩ .nil)
    · exact .cons ⟨by cbv, by cbv⟩ (.cons ⟨by cbv, by cbv⟩ .nil)
  refine exists_onDisk_minifyFiles hsources (List.forall_mem_cons.mpr
    ⟨⟨_, hone⟩, List.forall_mem_singleton.mpr ⟨_, htwo⟩⟩) ?_ ?_
  · rcases h with rfl | rfl
    · cbv
    · cbv
  · rintro ⟨shader, ⟨n₁, c₁⟩, ⟨n₂, c₂⟩, ⟨n₃, c₃⟩⟩ ⟨shader', ⟨n₁', c₁'⟩, ⟨n₂', c₂'⟩, ⟨n₃', c₃'⟩⟩ ha ha'
    obtain ⟨rfl, rfl, rfl⟩ := Artifacts.names_of_render ha
    obtain ⟨rfl, rfl, rfl⟩ := Artifacts.names_of_render ha'
    rcases h with rfl | rfl
    · cbv
    · cbv

/-- A job that succeeds has written three files for each of its inputs, named after the last part
of its path.  They are all there with their own contents exactly if the batch is compatible. -/
theorem minifyFiles_written_iff (h : onDisk (minifyFiles inputs outdir options) d = (.ok m, d')) :
    (∃ sources, List.Forall₂ (Names d) inputs sources ∧
      (Batch.ofSources options sources).finish = .ok m ∧
      m.artifacts.map Artifacts.shader = sources.map Prod.fst) ∧
    ((∀ f ∈ m.files, d'.readText (Path.join outdir f.name) = .ok f.contents) ∧
      (∀ f ∈ m.files, ∀ g ∈ m.files, f.name = g.name → f.contents = g.contents) ↔ m.Compatible) := by
  obtain ⟨sources, hsources, hlex, hfinish, hwrite⟩ := onDisk_minifyFiles_eq_ok_iff.mp h
  obtain ⟨d₁, hfiles⟩ := onDisk_writeFiles_of_writeTo hwrite
  have hshaders : (Batch.ofSources options sources).shaders.map Shader.name = sources.map Prod.fst :=
    Batch.map_name_foldl_add hlex
  have hf := Batch.finished_of_finish hfinish
  have hartifacts : m.artifacts.map Artifacts.shader = sources.map Prod.fst :=
    hf.map_shader.trans hshaders
  have hnames : ∀ s ∈ (Batch.ofSources options sources).settled.1, Path.IsFileName s.name := by
    intro s hs
    have hname : s.name ∈ sources.map Prod.fst := by
      rw [← hshaders, ← Batch.map_name_settled]
      exact List.mem_map_of_mem hs
    obtain ⟨source, hsource, heq⟩ := List.mem_map.mp hname
    obtain ⟨path, -, hpath, -⟩ := Batch.exists_mem_of_forall₂ hsources hsource
    rw [← heq]
    exact Path.isFileName_of_fileName? hpath
  refine ⟨⟨sources, hsources, hfinish, hartifacts⟩, ?_⟩
  rw [readText_writeFiles_iff (hf.isFileName_files hnames) hfiles, and_self]
  exact hf.agree_files_iff hnames

theorem minifyFiles_written_of_two_names :
    ∃ m d', onDisk (minifyFiles ["a/x.glsl".toList, "b/y.glsl".toList] "out".toList {})
        (twoDirectories "x.glsl".toList "1".toList "y.glsl".toList "2".toList) = (.ok m, d') ∧
      ∀ f ∈ m.files, d'.readText (Path.join "out".toList f.name) = .ok f.contents := by
  obtain ⟨a, a', d', h, ha, ha'⟩ := exists_onDisk_twoDirectories (Or.inr rfl)
  obtain ⟨hx, -⟩ := Artifacts.contents_of_render ha
  obtain ⟨hy, -⟩ := Artifacts.contents_of_render ha'
  have hcompatible : MinifiedBatch.Compatible ⟨[a, a'], .empty, [], []⟩ := by
    intro a₁ h₁ a₂ h₂
    have hcases : (a₁ = a ∨ a₁ = a') ∧ (a₂ = a ∨ a₂ = a') := by simpa using And.intro h₁ h₂
    refine ⟨fun he => ?_, fun stem _ hminified _ => ?_⟩
    · have hsame : a₁ = a₂ := by
        rcases hcases with ⟨rfl | rfl, rfl | rfl⟩
        · rfl
        · exact absurd (hx.symm.trans (he.trans hy)) (by decide)
        · exact absurd (hy.symm.trans (he.trans hx)) (by decide)
        · rfl
      rw [hsame]
      exact ⟨rfl, rfl⟩
    · have hlast : a₁.shader.getLast? = some 'l' := by
        rcases hcases.1 with rfl | rfl
        · rw [hx]
          rfl
        · rw [hy]
          rfl
      rw [hminified, List.getLast?_append_of_ne_nil _ (by decide)] at hlast
      exact absurd hlast (by decide)
  exact ⟨_, d', h, ((minifyFiles_written_iff h).2.mpr hcompatible).1⟩

/-- Two files of one name in different directories: the sources of one take the place of the
other's. -/
theorem not_written_of_same_name :
    ∃ m d', onDisk (minifyFiles ["a/x.glsl".toList, "b/x.glsl".toList] "out".toList {})
        (twoDirectories "x.glsl".toList "1".toList "x.glsl".toList "2".toList) = (.ok m, d') ∧
      ¬ ∀ f ∈ m.files, d'.readText (Path.join "out".toList f.name) = .ok f.contents := by
  obtain ⟨a, a', d', h, ha, ha'⟩ := exists_onDisk_twoDirectories (Or.inl rfl)
  obtain ⟨-, -, -, hone⟩ := Artifacts.contents_of_render ha
  obtain ⟨-, -, -, htwo⟩ := Artifacts.contents_of_render ha'
  obtain ⟨-, -, hname⟩ := Artifacts.names_of_render ha
  obtain ⟨-, -, hname'⟩ := Artifacts.names_of_render ha'
  refine ⟨_, d', h, fun hread => ?_⟩
  have hfirst := hread a.offline (by simp [MinifiedBatch.files, Artifacts.files])
  have hsecond := hread a'.offline (by simp [MinifiedBatch.files, Artifacts.files])
  have hnames : a.offline.name = a'.offline.name := hname.trans hname'.symm
  rw [hnames] at hfirst
  have hcontents := hone.symm.trans ((Except.ok.inj (hfirst.symm.trans hsecond)).trans htwo)
  exact absurd hcontents (by decide)

end Job

end ShaderPress
