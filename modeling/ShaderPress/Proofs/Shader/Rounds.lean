import ShaderPress.Shader.Basic

/-! # Rounds of stripping

Stripping twice is stripping once with the names that either round drops, so all the
rounds of a batch come to one: the definitions of certain names are dropped from every
shader.  The catalog that is left counts the shaders that are left.
-/
namespace ShaderPress

namespace Token

theorem attach_attach (a b : List Char) (line line' : Nat) (ts : List Token) :
    attach (lexeme a line .whitespace) (attach (lexeme b line' .whitespace) ts) =
      attach (lexeme (a ++ b) line .whitespace) ts := by
  cases ts with
  | nil => rfl
  | cons t ts =>
    cases t with
    | lexeme text line₂ kind => cases kind <;> simp [attach]
    | _ => rfl

theorem strip_whitespace (dead : Ident → Bool) (text : List Char) (line : Nat) (ts : List Token) :
    strip dead (lexeme text line .whitespace :: ts) =
      attach (lexeme text line .whitespace) (strip dead ts) := by
  simp only [strip, blankedComment]

theorem strip_attach_whitespace (dead : Ident → Bool) (text : List Char) (line : Nat)
    (ts : List Token) :
    strip dead (attach (lexeme text line .whitespace) ts) =
      attach (lexeme text line .whitespace) (strip dead ts) := by
  cases ts with
  | nil => exact strip_whitespace dead text line []
  | cons t ts =>
    cases t with
    | lexeme text' line' kind =>
      cases kind with
      | whitespace =>
        rw [attach, strip_whitespace, strip_whitespace, attach_attach]
      | _ => exact strip_whitespace dead text line _
    | _ => exact strip_whitespace dead text line _

/-- Stripping twice drops what either round drops. -/
theorem strip_strip (dead dead' : Ident → Bool) (tokens : List Token) :
    strip dead' (strip dead tokens) = strip (fun x => dead x || dead' x) tokens := by
  have nested : ∀ o : Option (List Token),
      (∀ s, o = some s → strip dead' (strip dead s) = strip (fun x => dead x || dead' x) s) →
      stripNested dead' (stripNested dead o) = stripNested (fun x => dead x || dead' x) o := by
    intro o ho
    cases o with
    | none => simp only [stripNested]
    | some s => simp only [stripNested, ho s rfl]
  induction tokens using stream_induction with
  | nil => simp only [strip]
  | define text line name arguments body rest ha hb hr =>
    cases hd : dead name with
    | true => simp only [strip, hd, Bool.true_or, if_true, hr]
    | false =>
      simp only [strip, hd, Bool.false_or, Bool.false_eq_true, if_false, nested _ ha, nested _ hb, hr]
  | conditional text line test name rest hr => simp only [strip, blankedComment, attach, hr]
  | definedTest text line name rest hr => simp only [strip, blankedComment, attach, hr]
  | directive text line body rest hb hr => simp only [strip, nested _ hb, hr]
  | lexeme text line kind rest hr =>
    cases kind with
    | whitespace | lineComment | blockComment =>
      simp only [strip, blankedComment, strip_attach_whitespace, hr]
    | _ => simp only [strip, blankedComment, attach, hr]

end Token

namespace Shader

/-- The shader without the definitions of some names. -/
def without (dead : Ident → Bool) (s : Shader) : Shader :=
  { s with tokens := Token.strip dead s.tokens }

theorem without_without (dead dead' : Ident → Bool) (s : Shader) :
    (s.without dead).without dead' = s.without fun x => dead x || dead' x := by
  simp only [without, Token.strip_strip]

/-- Rounds of stripping drop the definitions of certain names, and the catalog left counts
the shaders left. -/
theorem stripFrom_spec (lexed current : Catalog) (shaders : List Shader) :
    (∃ dead, (stripFrom lexed current shaders).shaders = shaders.map (without dead)) ∧
    (stripFrom lexed current shaders).catalog =
      lexed.recount ((stripFrom lexed current shaders).shaders.map tokens) := by
  fun_induction stripFrom lexed current shaders with
  | case1 current shaders left counted h => exact ⟨⟨isDead current, rfl⟩, rfl⟩
  | case2 current shaders left counted h rest ih =>
    obtain ⟨⟨dead, hd⟩, hc⟩ := ih
    refine ⟨⟨fun x => isDead current x || dead x, ?_⟩, hc⟩
    change rest.shaders = _
    rw [hd]
    simp only [left, stripAll, List.map_map]
    refine List.map_congr_left fun s _ => ?_
    exact without_without _ _ s

end Shader

end ShaderPress
