import Mathlib.Data.List.Infix
import ShaderPress.Proofs.Shader.Rendered

/-! # Reading an embedded source

The raw string constant of an embedded source ends at the first closing mark behind its opening
mark, wherever that stands.  A mark whose first character does not come again in it cannot begin
in one text and end in the next one, so the constant holds the code exactly if the closing mark
does not stand in the code itself.
-/
namespace ShaderPress

namespace Text

/-- The text before the first place where a mark stands, and the text behind that place. -/
def cut? (mark : List Char) : List Char → Option (List Char × List Char)
  | [] => if mark = [] then some ([], []) else none
  | c :: cs =>
    if mark.isPrefixOf (c :: cs) then some ([], (c :: cs).drop mark.length)
    else (cut? mark cs).map fun p => (c :: p.1, p.2)

theorem append_of_cut? {mark text before rest : List Char} (h : cut? mark text = some (before, rest)) :
    text = before ++ (mark ++ rest) := by
  induction text generalizing before with
  | nil =>
    rw [cut?] at h
    split at h
    · next hmark =>
      cases h
      rw [hmark]
      rfl
    · cases h
  | cons c cs ih =>
    rw [cut?] at h
    split at h
    · next hstart =>
      cases h
      obtain ⟨more, hmore⟩ := List.isPrefixOf_iff_prefix.mp hstart
      rw [← hmore, List.drop_left, List.nil_append]
    · obtain ⟨p, hp, heq⟩ := Option.map_eq_some_iff.mp h
      cases heq
      rw [ih hp, List.cons_append]

section Mark
variable {c : Char} {mark a b before rest : List Char}

/-- A mark that begins in a text ends in it if the character behind that text is not in the rest
of the mark. -/
theorem prefix_of_prefix_append_cons (hc : c ∉ mark.drop a.length) (h : mark <+: a ++ c :: b) :
    mark <+: a := by
  rcases List.prefix_or_prefix_of_prefix h (List.prefix_append a _) with hp | ⟨more, rfl⟩
  · exact hp
  · rw [List.drop_left] at hc
    cases more with
    | nil => rw [List.append_nil]
    | cons x more =>
      rw [List.prefix_append_right_inj, List.cons_prefix_cons] at h
      rw [h.1] at hc
      exact absurd List.mem_cons_self hc

/-- A text before a mark is cut off there exactly if the mark does not stand in it. -/
theorem cut?_append_iff (hc : c ∉ mark) :
    cut? (c :: mark) (before ++ c :: (mark ++ rest)) = some (before, rest) ↔
      ¬ c :: mark <:+: before := by
  induction before with
  | nil =>
    rw [List.nil_append, cut?, if_pos (by simp)]
    simp
  | cons x before ih =>
    rw [List.cons_append, cut?, List.infix_cons_iff]
    by_cases hp : c :: mark <+: x :: before
    · rw [if_pos]
      · simp [hp]
      · rw [List.isPrefixOf_iff_prefix]
        exact hp.trans (List.prefix_append (x :: before) _)
    · have hrest : c ∉ (c :: mark).drop (x :: before).length := fun hmem =>
        hc (List.mem_of_mem_drop (by simpa using hmem))
      have hnot : ¬ c :: mark <+: x :: (before ++ c :: (mark ++ rest)) := fun h =>
        hp (prefix_of_prefix_append_cons (a := x :: before) hrest h)
      rw [if_neg (by rwa [List.isPrefixOf_iff_prefix]), or_iff_right hp, ← ih]
      cases cut? (c :: mark) (before ++ c :: (mark ++ rest)) with
      | none => simp
      | some p => simp [Prod.ext_iff]

theorem map_fst_cut?_append_iff (hc : c ∉ mark) :
    (cut? (c :: mark) (before ++ c :: (mark ++ rest))).map Prod.fst = some before ↔
      ¬ c :: mark <:+: before := by
  rw [← @cut?_append_iff c mark before rest hc]
  constructor
  · intro h
    obtain ⟨⟨p, q⟩, hcut, hp⟩ := Option.map_eq_some_iff.mp h
    obtain rfl : p = before := hp
    have hrest : c :: mark ++ rest = c :: mark ++ q := List.append_cancel_left (append_of_cut? hcut)
    rw [hcut, List.append_cancel_left hrest]
  · intro h
    rw [h]
    rfl

/-- A character that is not in a mark divides the places where it can stand. -/
theorem infix_append_cons_iff (hc : c ∉ mark) :
    mark <:+: a ++ c :: b ↔ mark <:+: a ∨ mark <:+: b := by
  induction a with
  | nil =>
    rw [List.nil_append, List.infix_cons_iff, List.infix_nil]
    refine or_congr_left ⟨fun h => ?_, fun h => by rw [h]; exact List.nil_prefix⟩
    cases mark with
    | nil => rfl
    | cons x mark =>
      obtain ⟨rfl, -⟩ := List.cons_prefix_cons.mp h
      exact absurd List.mem_cons_self hc
  | cons x a ih =>
    rw [List.cons_append, List.infix_cons_iff, ih, List.infix_cons_iff, or_assoc]
    exact or_congr_left ⟨prefix_of_prefix_append_cons (a := x :: a) fun h => hc (List.mem_of_mem_drop h),
      fun h => h.trans (List.prefix_append (x :: a) _)⟩

/-- A mark does not begin in a text without its first character. -/
theorem infix_append_iff_of_not_mem (h : c ∉ a) : c :: mark <:+: a ++ b ↔ c :: mark <:+: b := by
  induction a with
  | nil => rw [List.nil_append]
  | cons x a ih =>
    rw [List.mem_cons, not_or] at h
    rw [List.cons_append, List.infix_cons_iff, ih h.2, List.cons_prefix_cons]
    exact or_iff_right fun hp => h.1 hp.1

theorem not_infix_of_not_mem (h : c ∉ a) : ¬ c :: mark <:+: a :=
  fun hi => h (hi.subset List.mem_cons_self)

end Mark

end Text

namespace Shader
open Text

/-- What begins the raw string constant of an embedded source. -/
def rawOpening : List Char := "R\"===(".toList

/-- What ends the raw string constant of an embedded source. -/
def rawClosing : List Char := ")===\"".toList

/-- The text of the raw string constant in a C++ source. -/
def rawConstant? (source : List Char) : Option (List Char) := do
  let (_, behind) ← cut? rawOpening source
  (cut? rawClosing behind).map Prod.fst

variable {s : Shader} {options : MinifyOptions} {code : List Char} {newline : Bool}

/-- What stands before the constant of an embedded source. -/
def beforeConstant (s : Shader) (options : MinifyOptions) : List Char :=
  pragmaOnce ++ "#include \"".toList ++ (s.stem ++ '.' :: ("exports.h".toList ++ "\"\n\n".toList ++
    options.namespaces.flatMap openNamespace ++ "const char ".toList ++ (s.stem ++ '[' :: "] = ".toList)))

theorem embeddedHead_eq (s : Shader) (options : MinifyOptions) :
    s.embeddedHead options = s.beforeConstant options ++ rawOpening := by
  have hheader : ".exports.h".toList = '.' :: "exports.h".toList := by decide
  have hopening : "[] = R\"===(".toList = '[' :: "] = ".toList ++ rawOpening := by decide
  simp only [embeddedHead, beforeConstant, exportsName, hheader, hopening, List.append_assoc,
    List.cons_append]

/-- Only a stem can bring an opening mark before the constant. -/
theorem rawOpening_infix_beforeConstant_iff
    (hnamespaces : options.namespaces = ({} : MinifyOptions).namespaces) :
    rawOpening <:+: s.beforeConstant options ↔ rawOpening <:+: s.stem := by
  have hmark : rawOpening = 'R' :: "\"===(".toList := by decide
  have hinclude : 'R' ∉ pragmaOnce ++ "#include \"".toList := by decide
  have hchar : 'R' ∉ "exports.h".toList ++ "\"\n\n".toList ++
      options.namespaces.flatMap openNamespace ++ "const char ".toList := by
    rw [hnamespaces]
    decide
  have hend : ¬ 'R' :: "\"===(".toList <:+: "] = ".toList := not_infix_of_not_mem (by decide)
  rw [beforeConstant, hmark, infix_append_iff_of_not_mem hinclude, infix_append_cons_iff (by decide),
    infix_append_iff_of_not_mem hchar, infix_append_cons_iff (by decide),
    or_iff_left hend, or_self]

/-- The constant reads as the code, with the newline that may be added, exactly if the closing
mark does not stand in the code. -/
theorem rawConstant?_embedded_iff
    (hnamespaces : options.namespaces = ({} : MinifyOptions).namespaces)
    (hstem : ¬ rawOpening <:+: s.stem) :
    rawConstant? (s.embeddedHead options ++ code ++ embeddedTail options newline) =
        some (code ++ if newline then [] else ['\n']) ↔
      ¬ rawClosing <:+: code := by
  have hopening : cut? rawOpening (s.embeddedHead options ++ code ++ embeddedTail options newline) =
      some (s.beforeConstant options, code ++ embeddedTail options newline) := by
    rw [embeddedHead_eq, List.append_assoc, List.append_assoc]
    exact (cut?_append_iff (by decide)).mpr
      (mt (rawOpening_infix_beforeConstant_iff hnamespaces).mp hstem)
  have hclosing : rawClosing <:+: code ++ (if newline then [] else ['\n']) ↔ rawClosing <:+: code := by
    cases newline with
    | true => rw [if_pos rfl, List.append_nil]
    | false =>
      rw [if_neg Bool.false_ne_true, infix_append_cons_iff (by decide), List.infix_nil]
      exact or_iff_left (by decide)
  have htail : code ++ embeddedTail options newline = (code ++ if newline then [] else ['\n']) ++
      ')' :: ("===\"".toList ++ (";\n".toList ++
        ['\n'].intercalate (options.namespaces.reverse.map closeNamespace))) := by
    rw [embeddedTail, List.append_assoc]
    rfl
  rw [rawConstant?, hopening, ← hclosing, Option.bind_eq_bind, Option.bind_some, htail]
  exact map_fst_cut?_append_iff (by decide)

end Shader

end ShaderPress
