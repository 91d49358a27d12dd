import Mathlib.Data.List.Basic
import ShaderPress.Path

/-! # File names

A file name is one part of a path that names something: it holds no slash and is no point or
pair of points.  Behind a directory it is the last part of the path, and the last part that
counts is a file name.  The last point of a name divides its extension from its stem.
-/
namespace ShaderPress.Path

structure IsFileName (name : List Char) : Prop where
  slash : '/' ∉ name
  names : isTrivial name = false
  below : name ≠ upwards

theorem isFileName_of_length {name : List Char} (hslash : '/' ∉ name) (hlength : 3 ≤ name.length) :
    IsFileName name := by
  refine ⟨hslash, ?_, ?_⟩
  · rw [isTrivial, Bool.or_eq_false_iff, beq_eq_false_iff_ne, beq_eq_false_iff_ne]
    constructor <;> (rintro rfl; simp at hlength)
  · rintro rfl
    simp [upwards] at hlength

theorem IsFileName.ne_nil {name : List Char} (h : IsFileName name) : name ≠ [] := by
  rintro rfl
  simpa [isTrivial] using h.names

theorem slash_not_mem_of_mem_parts {path part : List Char} (h : part ∈ parts path) : '/' ∉ part := by
  rw [parts] at h
  induction path generalizing part with
  | nil =>
    rw [List.splitOn_nil, List.mem_singleton] at h
    simp [h]
  | cons c path ih =>
    rw [List.splitOn_cons_eq_if_modifyHead] at h
    split at h
    · rcases List.mem_cons.mp h with rfl | h
      · exact List.not_mem_nil
      · exact ih h
    · next hc =>
      cases hs : List.splitOn '/' path with
      | nil => exact absurd hs (List.splitOn_ne_nil _ _)
      | cons p ps =>
        rw [hs] at h ih
        rcases List.mem_cons.mp h with rfl | h
        · have hp : '/' ∉ p := ih List.mem_cons_self
          rw [List.mem_cons, not_or]
          refine ⟨?_, hp⟩
          rintro rfl
          exact hc (beq_self_eq_true '/')
        · exact ih (List.mem_cons_of_mem p h)

theorem parts_of_slash_not_mem {name : List Char} (h : '/' ∉ name) : parts name = [name] :=
  List.splitOn_eq_singleton h

theorem fileName?_eq_self {name : List Char} (h : IsFileName name) : fileName? name = some name := by
  rw [fileName?, parts_of_slash_not_mem h.slash]
  simp [h.names, h.below]

theorem isFileName_of_fileName? {path name : List Char} (h : fileName? path = some name) :
    IsFileName name := by
  rw [fileName?] at h
  split at h
  · next part hpart =>
    split at h
    · cases h
    · next hup =>
      cases h
      obtain ⟨hmem, htrivial⟩ := List.mem_filter.mp (List.mem_of_getLast? hpart)
      exact ⟨slash_not_mem_of_mem_parts hmem, by simpa using htrivial, hup⟩
  · cases h

theorem fileName?_of_parts {path part : List Char} {before : List (List Char)}
    (h : parts path = before ++ [part]) (htrivial : isTrivial part = false)
    (hup : part ≠ upwards) : fileName? path = some part := by
  rw [fileName?, h]
  simp [htrivial, hup]

/-- Behind a directory a file name is the last part, and what stands before it does not depend
on the name. -/
theorem exists_parts_join (directory : List Char) : ∃ before rooted, ∀ name, IsFileName name →
    join directory name ≠ [] ∧ parts (join directory name) = before ++ [name] ∧
      decide ((join directory name).head? = some '/') = rooted := by
  have hhead : ∀ name, IsFileName name → name.head? ≠ some '/' :=
    fun name h he => h.slash (List.mem_of_head? he)
  have divided : ∀ o : List Char, ∃ before rooted, ∀ name, IsFileName name →
      o ++ '/' :: name ≠ [] ∧ parts (o ++ '/' :: name) = before ++ [name] ∧
        decide ((o ++ '/' :: name).head? = some '/') = rooted := by
    intro o
    refine ⟨parts o, decide ((o ++ ['/']).head? = some '/'), fun name h => ⟨by simp, ?_, ?_⟩⟩
    · rw [parts, List.splitOn_append_cons_self, ← parts, ← parts, parts_of_slash_not_mem h.slash]
    · cases o <;> rfl
  by_cases hempty : directory = []
  · refine ⟨[], false, fun name h => ?_⟩
    rw [join, if_neg (hhead name h), if_pos (Or.inl hempty), hempty, List.nil_append]
    exact ⟨h.ne_nil, parts_of_slash_not_mem h.slash, decide_eq_false (hhead name h)⟩
  by_cases hlast : directory.getLast? = some '/'
  · obtain ⟨o, rfl⟩ := List.getLast?_eq_some_iff.mp hlast
    obtain ⟨before, rooted, hall⟩ := divided o
    refine ⟨before, rooted, fun name h => ?_⟩
    rw [join, if_neg (hhead name h), if_pos (Or.inr hlast), List.append_assoc, List.singleton_append]
    exact hall name h
  · obtain ⟨before, rooted, hall⟩ := divided directory
    refine ⟨before, rooted, fun name h => ?_⟩
    rw [join, if_neg (hhead name h), if_neg (by simp [hempty, hlast])]
    exact hall name h

section Extension
variable {stem stem' extension extension' name : List Char}

theorem bne_point_of_not_mem (h : '.' ∉ name) : ∀ c ∈ name.reverse, (c != '.') = true := by
  intro c hc
  rw [bne_iff_ne]
  rintro rfl
  exact h (List.mem_reverse.mp hc)

theorem behind_last_point (h : '.' ∉ extension) :
    ((stem ++ '.' :: extension).reverse.takeWhile (· != '.')).reverse = extension := by
  rw [List.reverse_append, List.reverse_cons, List.append_assoc,
    List.takeWhile_append_of_pos (bne_point_of_not_mem h)]
  simp

theorem behind_no_point (h : '.' ∉ name) :
    (name.reverse.takeWhile (· != '.')).reverse = name := by
  rw [← List.append_nil name.reverse, List.takeWhile_append_of_pos (bne_point_of_not_mem h)]
  simp

/-- A name is divided at its last point in one way. -/
theorem last_point_unique (he : '.' ∉ extension) (he' : '.' ∉ extension')
    (h : stem ++ '.' :: extension = stem' ++ '.' :: extension') :
    stem = stem' ∧ extension = extension' := by
  obtain rfl : extension = extension' := by
    rw [← @behind_last_point stem extension he, h, behind_last_point he']
  exact ⟨List.append_cancel_right h, rfl⟩

theorem exists_last_point (h : '.' ∈ name) :
    ∃ stem extension, '.' ∉ extension ∧ name = stem ++ '.' :: extension := by
  obtain ⟨before, behind, hname, hbefore⟩ := List.eq_append_cons_of_mem (List.mem_reverse.mpr h)
  refine ⟨behind.reverse, before.reverse, fun hmem => hbefore (List.mem_reverse.mp hmem), ?_⟩
  rw [← List.reverse_reverse name, hname]
  simp

theorem splitExtension_append (hs : stem ≠ []) (he : '.' ∉ extension)
    (hup : stem ++ '.' :: extension ≠ upwards) :
    splitExtension (stem ++ '.' :: extension) = (stem, some extension) := by
  have hlength : (stem ++ '.' :: extension).length - extension.length - 1 = stem.length := by
    rw [List.length_append, List.length_cons]
    omega
  rw [splitExtension]
  simp only [behind_last_point he, hlength, List.take_left]
  rw [if_neg]
  simp only [hup, hs, false_or, List.length_append, List.length_cons]
  omega

theorem splitExtension_of_point (he : '.' ∉ extension) :
    splitExtension ('.' :: extension) = ('.' :: extension, none) := by
  have hbehind := @behind_last_point [] extension he
  rw [List.nil_append] at hbehind
  rw [splitExtension]
  simp only [hbehind, List.length_cons, Nat.add_sub_cancel_left]
  rw [if_pos]
  simp

theorem splitExtension_of_no_point (h : '.' ∉ name) : splitExtension name = (name, none) := by
  rw [splitExtension]
  simp only [behind_no_point h, or_true, if_true]

/-- A file name has an extension behind its last point, unless that point is its first character
or missing. -/
theorem splitExtension_cases (h : IsFileName name) :
    (∃ stem extension, stem ≠ [] ∧ '.' ∉ extension ∧ name = stem ++ '.' :: extension ∧
      splitExtension name = (stem, some extension)) ∨
    splitExtension name = (name, none) ∧ ∀ stem extension, stem ≠ [] → '.' ∉ extension →
      name ≠ stem ++ '.' :: extension := by
  by_cases hpoint : '.' ∈ name
  · obtain ⟨stem, extension, he, rfl⟩ := exists_last_point hpoint
    by_cases hs : stem = []
    · subst hs
      refine Or.inr ⟨splitExtension_of_point he, fun stem' extension' hs' he' heq => ?_⟩
      exact hs' (last_point_unique he he' heq).1.symm
    · exact Or.inl ⟨stem, extension, hs, he, rfl, splitExtension_append hs he h.below⟩
  · refine Or.inr ⟨splitExtension_of_no_point hpoint, ?_⟩
    rintro stem extension - - rfl
    simp at hpoint

end Extension

end ShaderPress.Path
