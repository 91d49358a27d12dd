import ShaderPress.Proofs.Storage.Names
import ShaderPress.Shader.Artifact

/-! # The names of artifacts

The three files of a shader are named after its own file name.  Two of their kinds never share
a name except in one way: the embedded source of `S.minified` and the offline source of `S.hpp`
are both `S.minified.hpp`.  Within a kind only export headers of different shaders can share
one, since those alone are named after the stem.
-/
namespace ShaderPress

namespace Path
variable {name : List Char}

theorem stem_eq (h : IsFileName name) : stem name = (splitExtension name).1 := by
  rw [stem, fileName?_eq_self h]

theorem extension?_eq (h : IsFileName name) : extension? name = (splitExtension name).2 := by
  rw [extension?, fileName?_eq_self h, Option.bind_some]

end Path

namespace Shader
open ShaderPress.Path
variable {s s' : Shader}

theorem exportsName_eq (s : Shader) :
    s.exportsName = (s.stem ++ ".exports".toList) ++ '.' :: ['h'] := by
  rw [exportsName, List.append_assoc]
  rfl

theorem embeddedName_eq (s : Shader) : s.embeddedName = s.name ++ '.' :: "hpp".toList := rfl

/-- The offline name has the extension of the file name, or `minified` where there is none. -/
theorem offlineName_cases (h : IsFileName s.name) :
    (∃ stem extension, stem ≠ [] ∧ '.' ∉ extension ∧ s.name = stem ++ '.' :: extension ∧
      s.offlineName = (stem ++ ".minified".toList) ++ '.' :: extension) ∨
    s.offlineName = s.name ++ '.' :: "minified".toList ∧
      ∀ stem extension, stem ≠ [] → '.' ∉ extension → s.name ≠ stem ++ '.' :: extension := by
  rw [offlineName, Shader.stem, stem_eq h, extension?_eq h]
  rcases splitExtension_cases h with ⟨stem, extension, hstem, hext, hname, hsplit⟩ | ⟨hsplit, hnone⟩
  · refine Or.inl ⟨stem, extension, hstem, hext, hname, ?_⟩
    simp only [hsplit, List.append_assoc]
    rfl
  · refine Or.inr ⟨?_, hnone⟩
    rw [hsplit]
    rfl

theorem slash_not_mem_stem (h : IsFileName s.name) : '/' ∉ s.stem := by
  rw [Shader.stem, stem_eq h]
  rcases splitExtension_cases h with ⟨stem, extension, -, -, hname, hsplit⟩ | ⟨hsplit, -⟩
  · rw [hsplit]
    intro hmem
    refine h.slash ?_
    rw [hname]
    exact List.mem_append_left _ hmem
  · rw [hsplit]
    exact h.slash

theorem isFileName_exportsName (h : IsFileName s.name) : IsFileName s.exportsName := by
  refine isFileName_of_length ?_ ?_
  · rw [exportsName, List.mem_append, not_or]
    exact ⟨slash_not_mem_stem h, by decide⟩
  · rw [exportsName, List.length_append]
    exact Nat.le_add_left_of_le (by decide)

theorem isFileName_embeddedName (h : IsFileName s.name) : IsFileName s.embeddedName := by
  refine isFileName_of_length ?_ ?_
  · rw [embeddedName, List.mem_append, not_or]
    exact ⟨h.slash, by decide⟩
  · rw [embeddedName, List.length_append]
    exact Nat.le_add_left_of_le (by decide)

theorem isFileName_offlineName (h : IsFileName s.name) : IsFileName s.offlineName := by
  rcases offlineName_cases h with ⟨stem, extension, -, -, hname, hoffline⟩ | ⟨hoffline, -⟩
  · have hslash := h.slash
    rw [hname, List.mem_append, List.mem_cons, not_or, not_or] at hslash
    obtain ⟨hstem, -, hext⟩ := hslash
    rw [hoffline]
    refine isFileName_of_length ?_ ?_
    · rw [List.mem_append, List.mem_append, List.mem_cons, not_or, not_or, not_or]
      exact ⟨⟨hstem, by decide⟩, by decide, hext⟩
    · rw [List.append_assoc, List.length_append, List.length_append]
      exact Nat.le_add_left_of_le (Nat.le_add_right_of_le (by decide))
  · rw [hoffline]
    refine isFileName_of_length ?_ ?_
    · rw [List.mem_append, not_or]
      exact ⟨h.slash, by decide⟩
    · rw [List.length_append]
      exact Nat.le_add_left_of_le (by decide)

theorem exportsName_ne_embeddedName (s s' : Shader) : s.exportsName ≠ s'.embeddedName := by
  rw [exportsName_eq, embeddedName_eq]
  intro h
  exact absurd (last_point_unique (by decide) (by decide) h).2 (by decide)

theorem exportsName_ne_offlineName (h : IsFileName s'.name) (s : Shader) :
    s.exportsName ≠ s'.offlineName := by
  rw [exportsName_eq]
  rcases offlineName_cases h with ⟨stem, extension, -, hext, -, hoffline⟩ | ⟨hoffline, -⟩
  · rw [hoffline]
    intro he
    obtain ⟨hstem, -⟩ := last_point_unique (by decide) hext he
    have hlast := congrArg List.getLast? hstem
    rw [List.getLast?_append_of_ne_nil _ (by decide),
      List.getLast?_append_of_ne_nil _ (by decide)] at hlast
    exact absurd hlast (by decide)
  · rw [hoffline]
    intro he
    exact absurd (last_point_unique (by decide) (by decide) he).2 (by decide)

theorem eq_of_embeddedName (h : s.embeddedName = s'.embeddedName) : s.name = s'.name :=
  List.append_cancel_right h

theorem eq_of_offlineName (hs : IsFileName s.name) (hs' : IsFileName s'.name)
    (h : s.offlineName = s'.offlineName) : s.name = s'.name := by
  -- a name without an extension is none that ends in `.minified` behind a stem
  have hmixed : ∀ {s s' : Shader} {stem extension : List Char}, stem ≠ [] → '.' ∉ extension →
      s.offlineName = (stem ++ ".minified".toList) ++ '.' :: extension →
      s'.offlineName = s'.name ++ '.' :: "minified".toList →
      (∀ stem extension, stem ≠ [] → '.' ∉ extension → s'.name ≠ stem ++ '.' :: extension) →
      s.offlineName ≠ s'.offlineName := by
    intro s s' stem extension hstem hext hoffline hoffline' hnone he
    rw [hoffline, hoffline'] at he
    obtain ⟨hname, -⟩ := last_point_unique hext (by decide) he
    exact hnone stem "minified".toList hstem (by decide) hname.symm
  rcases offlineName_cases hs with ⟨stem, extension, hstem, hext, hname, hoffline⟩ | ⟨hoffline, hnone⟩
  · rcases offlineName_cases hs' with
      ⟨stem', extension', -, hext', hname', hoffline'⟩ | ⟨hoffline', hnone'⟩
    · rw [hoffline, hoffline'] at h
      obtain ⟨hstems, rfl⟩ := last_point_unique hext hext' h
      rw [hname, hname', List.append_cancel_right hstems]
    · exact absurd h (hmixed hstem hext hoffline hoffline' hnone')
  · rcases offlineName_cases hs' with
      ⟨stem', extension', hstem', hext', hname', hoffline'⟩ | ⟨hoffline', -⟩
    · exact absurd h.symm (hmixed hstem' hext' hoffline' hoffline hnone)
    · rw [hoffline, hoffline'] at h
      exact List.append_cancel_right h

/-- The only way for two kinds of files to share a name. -/
theorem embeddedName_eq_offlineName_iff (h : IsFileName s'.name) :
    s.embeddedName = s'.offlineName ↔
      ∃ stem, stem ≠ [] ∧ s.name = stem ++ ".minified".toList ∧ s'.name = stem ++ ".hpp".toList := by
  rw [embeddedName_eq]
  constructor
  · intro he
    rcases offlineName_cases h with ⟨stem, extension, hstem, hext, hname, hoffline⟩ | ⟨hoffline, -⟩
    · rw [hoffline] at he
      obtain ⟨hs, hhpp⟩ := last_point_unique (by decide) hext he
      exact ⟨stem, hstem, hs, by rw [hname, ← hhpp]; rfl⟩
    · rw [hoffline] at he
      exact absurd (last_point_unique (by decide) (by decide) he).2 (by decide)
  · rintro ⟨stem, hstem, hs, hname⟩
    rcases offlineName_cases h with ⟨stem', extension, -, hext, hname', hoffline⟩ | ⟨-, hnone⟩
    · have hhpp : '.' ∉ "hpp".toList := by decide
      obtain ⟨rfl, rfl⟩ := last_point_unique hhpp hext (hname.symm.trans hname')
      rw [hoffline, hs]
    · exact absurd hname (hnone stem "hpp".toList hstem (by decide))

end Shader

end ShaderPress
