import Mathlib
import ShaderPress.Batch
import ShaderPress.Proofs.Catalog.References
import ShaderPress.Proofs.Shader.Rounds

/-! # Stripping does not depend on the order of files

Stripping asks a catalog only how often names are referred to.  These counts are sums over the
files, so in any order of the files every pass drops the same names.  The order of first meeting
does depend on the order of files, but no pass looks at it.
-/
namespace ShaderPress

namespace Shader
variable {lexed lexed' current current' : Catalog} {shaders shaders' : List Shader}

/-- Stripping cannot tell the catalogs apart. -/
def SameReferences (c c' : Catalog) : Prop := ∀ x, c.referenceCount x = c'.referenceCount x

theorem SameReferences.isDead (h : SameReferences current current') :
    isDead current = isDead current' := by
  funext x
  rw [Shader.isDead, Shader.isDead, h x]

theorem SameReferences.stripAll (h : SameReferences current current') :
    stripAll current = stripAll current' := by
  funext ss
  apply List.map_congr_left
  intro s hs
  rw [strip, strip, h.isDead]

theorem SameReferences.totalRemoved (h : SameReferences current current') :
    totalRemoved current = totalRemoved current' := by
  funext ss
  have hremoved : removed current = removed current' := by
    funext s
    rw [removed, removed, h.isDead]
  rw [Shader.totalRemoved, Shader.totalRemoved, hremoved]

theorem sameReferences_replay {c : Catalog} {trail trail' : List Occurrence}
    (h : trail.Perm trail') : SameReferences (c.replay trail) (c.replay trail') := by
  intro x
  rw [Catalog.referenceCount_replay, Catalog.referenceCount_replay, h.countP_eq]

/-- A recount sums over the streams, whichever catalog asks for it. -/
theorem sameReferences_recount {streams streams' : List (List Token)}
    (h : streams.Perm streams') :
    SameReferences (lexed.recount streams) (lexed'.recount streams') := by
  intro x
  rw [Catalog.referenceCount_recount, Catalog.referenceCount_recount]
  exact (h.flatMap_right Token.occurrences).countP_eq _

theorem totalRemoved_perm (current : Catalog) (h : shaders.Perm shaders') :
    totalRemoved current shaders = totalRemoved current shaders' :=
  (h.map (removed current)).foldr_eq 0

/-- Shaders in another order, under catalogs that count references alike, lose the definitions of
the same names. -/
theorem stripFrom_perm (hc : SameReferences current current') (h : shaders.Perm shaders') :
    ∃ dead, (stripFrom lexed current shaders).shaders = shaders.map (without dead) ∧
      (stripFrom lexed' current' shaders').shaders = shaders'.map (without dead) ∧
      (stripFrom lexed current shaders).removed = (stripFrom lexed' current' shaders').removed := by
  fun_induction stripFrom lexed current shaders generalizing current' shaders'
  case case1 current shaders left counted hnone =>
    have hnone' : totalRemoved current' shaders' = 0 := by
      rw [← hc.totalRemoved, ← totalRemoved_perm current h, hnone]
    rw [stripFrom, dif_pos hnone', ← hc.stripAll]
    exact ⟨isDead current, rfl, rfl, rfl⟩
  case case2 current shaders left counted hsome rest ih =>
    have hround : totalRemoved current' shaders' = totalRemoved current shaders := by
      rw [← hc.totalRemoved, totalRemoved_perm current h]
    have hleft : left.Perm (stripAll current shaders') := h.map (strip current)
    obtain ⟨dead, hs, hs', hremoved⟩ := ih (sameReferences_recount (hleft.map tokens)) hleft
    -- this pass and the later ones drop together what either drops
    have both : ∀ ss : List Shader, (stripAll current ss).map (without dead) =
        ss.map (without fun x => isDead current x || dead x) := by
      intro ss
      rw [stripAll, List.map_map]
      apply List.map_congr_left
      intro s hs
      exact without_without _ _ s
    have hsome' : totalRemoved current' shaders' ≠ 0 := by
      rw [hround]
      exact hsome
    rw [stripFrom, dif_neg hsome', ← hc.stripAll, hround]
    refine ⟨fun x => isDead current x || dead x, ?_, ?_, ?_⟩
    · rw [← both]
      exact hs
    · rw [← both]
      exact hs'
    · exact congrArg (totalRemoved current shaders + ·) hremoved

end Shader

/-- A source text with its file name and what is done with characters that start no token. -/
structure Source where
  policy : UnknownPolicy
  name : List Char
  text : List Char

namespace Source

def Lexes (s : Source) : Prop := ∃ tokens, (lex s.policy s.text).outcome = .ok tokens

/-- The tokens of a source, none if it does not lex. -/
def tokens (s : Source) : List Token := (lex s.policy s.text).outcome.toOption.getD []

def trail (s : Source) : List Occurrence := (lex s.policy s.text).trail

end Source

namespace Shader

/-- Reads sources one after the other into one catalog, up to the first that does not lex. -/
def readAll (c : Catalog) : List Source → Except LexError (List Shader) × Catalog
  | [] => (.ok [], c)
  | s :: rest =>
    match Shader.read c s.policy s.name s.text with
    | (.error e, c) => (.error e, c)
    | (.ok shader, c) => ((readAll c rest).1.map (shader :: ·), (readAll c rest).2)

theorem readAll_of_lexes {sources : List Source} (h : ∀ s ∈ sources, s.Lexes) (c : Catalog) :
    readAll c sources = (.ok (sources.map fun s => ⟨s.name, s.tokens⟩),
      c.replay (sources.flatMap Source.trail)) := by
  induction sources generalizing c with
  | nil => rfl
  | cons s rest ih =>
    rw [List.forall_mem_cons] at h
    obtain ⟨⟨tokens, hs⟩, hrest⟩ := h
    have hread : Shader.read c s.policy s.name s.text =
        (.ok ⟨s.name, s.tokens⟩, c.replay s.trail) := by
      rw [Shader.read, Source.tokens, hs]
      rfl
    rw [readAll, hread]
    dsimp only
    rw [ih hrest, List.flatMap_cons, Catalog.replay_append]
    rfl

/-- Sources that all lex are read in any order, and stripping leaves the same tokens of each of
them and drops as many definitions. -/
theorem stripBatch_reordered {sources sources' : List Source} (hperm : sources.Perm sources')
    (h : ∀ s ∈ sources, s.Lexes) :
    ∃ shaders c shaders' c', readAll .empty sources = (.ok shaders, c) ∧
      readAll .empty sources' = (.ok shaders', c') ∧
      (stripBatch c shaders).removed = (stripBatch c' shaders').removed ∧
      ∃ left : Source → List Token,
        (stripBatch c shaders).shaders = sources.map (fun s => ⟨s.name, left s⟩) ∧
        (stripBatch c' shaders').shaders = sources'.map fun s => ⟨s.name, left s⟩ := by
  have h' : ∀ s ∈ sources', s.Lexes := fun s hs => h s (hperm.mem_iff.mpr hs)
  refine ⟨_, _, _, _, readAll_of_lexes h .empty, readAll_of_lexes h' .empty, ?_⟩
  have hreferences := sameReferences_replay (c := Catalog.empty)
    (hperm.flatMap_right Source.trail)
  obtain ⟨dead, hs, hs', hremoved⟩ :=
    stripFrom_perm hreferences (hperm.map fun s => Shader.mk s.name s.tokens)
  refine ⟨hremoved, fun s => Token.strip dead s.tokens, ?_, ?_⟩
  · rw [stripBatch, hs, List.map_map]
    rfl
  · rw [stripBatch, hs', List.map_map]
    rfl

/-- Of two files one defines the macro that keeps the other's alive, and both go in either order. -/
theorem stripBatch_reordered_of_chain :
    let first : Source := ⟨.pass, ['a'], "#define X Y".toList⟩
    let second : Source := ⟨.reject, ['b'], "#define Y 1".toList⟩
    [first, second].Perm [second, first] ∧ (∀ s ∈ [first, second], s.Lexes) ∧
      ∃ shaders c shaders' c', readAll .empty [first, second] = (.ok shaders, c) ∧
        readAll .empty [second, first] = (.ok shaders', c') ∧
        (stripBatch c shaders).removed = 2 ∧ (stripBatch c' shaders').removed = 2 := by
  intro first second
  let macroX : Token := .define "#define X Y".toList 1 ['X'] none
    (some [.lexeme [' '] 1 .whitespace, .lexeme ['Y'] 1 .identifier])
  let macroY : Token := .define "#define Y 1".toList 1 ['Y'] none
    (some [.lexeme [' '] 1 .whitespace, .lexeme ['1'] 1 .intLiteral])
  have hperm : [first, second].Perm [second, first] := List.Perm.swap second first []
  have hfirst : (lex first.policy first.text).outcome = .ok [macroX] := by
    simp only [first, macroX]
    cbv
  have hsecond : (lex second.policy second.text).outcome = .ok [macroY] := by
    simp only [second, macroY]
    cbv
  have hlex : ∀ s ∈ [first, second], s.Lexes := by
    rw [List.forall_mem_cons, List.forall_mem_singleton]
    exact ⟨⟨_, hfirst⟩, ⟨_, hsecond⟩⟩
  obtain ⟨shaders, c, shaders', c', hread, hread', hremoved, -⟩ := stripBatch_reordered hperm hlex
  have hknown : readAll .empty [first, second] =
      (.ok [⟨['a'], [macroX]⟩, ⟨['b'], [macroY]⟩], ⟨[⟨['Y'], 2, 1⟩, ⟨['X'], 1, 0⟩], []⟩) := by
    simp only [first, second, macroX, macroY]
    cbv
  have hboth : (stripBatch c shaders).removed = 2 := by
    obtain ⟨hshaders, rfl⟩ := Prod.mk.inj (hread.symm.trans hknown)
    obtain rfl := Except.ok.inj hshaders
    simp only [macroX, macroY]
    cbv
  exact ⟨hperm, hlex, shaders, c, shaders', c', hread, hread', hboth, hremoved.symm.trans hboth⟩

end Shader

end ShaderPress
