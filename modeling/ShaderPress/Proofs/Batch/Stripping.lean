import Mathlib
import ShaderPress.Proofs.Batch.Settled
import ShaderPress.Proofs.Shader.Dropped

/-! # Stripping a batch

Stripping a batch is sound: a dropped name is free in all that is left, and nothing else
goes but the definitions of dropped names, with all that stands inside them.  A definition
that goes because it stands inside one of another name may leave references behind.

Stripping is not always complete.  The lexer counts an accessor behind a point as the source
spells it, so a definition of that name survives a first round that drops nothing, although
nothing refers to it when the tokens are counted.
-/
namespace ShaderPress

namespace Batch
open Token Shader
variable {b : Batch}

/-- The catalog of a batch misses no reference in its shaders. -/
theorem counted_add (h : Counted b.catalog b.shaders) (name source : List Char) :
    Counted (b.add name source).2.catalog (b.add name source).2.shaders := by
  rw [add_snd]
  intro x hx
  obtain ⟨hbefore, htrail⟩ := Catalog.referenceCount_eq_zero_of_replay hx
  cases ho : (lex b.options.unknown source).outcome with
  | error e => exact h x hbefore
  | ok tokens =>
    have hread : AvoidsFrom x false tokens := by
      refine avoidsFrom_of_noted fun o hm => htrail o ?_
      rw [lex, trail_lexFrom ho]
      exact hm
    intro s hs
    rcases List.mem_append.mp hs with hs | hs
    · exact h x hbefore s hs
    · rw [List.mem_singleton.mp hs]
      exact hread

theorem counted_foldl_add (h : Counted b.catalog b.shaders)
    (sources : List (List Char × List Char)) :
    Counted (sources.foldl (fun b s => (b.add s.1 s.2).2) b).catalog
      (sources.foldl (fun b s => (b.add s.1 s.2).2) b).shaders := by
  induction sources generalizing b with
  | nil => exact h
  | cons s sources ih => exact ih (counted_add h s.1 s.2)

theorem counted_ofSources (options : MinifyOptions) (sources : List (List Char × List Char)) :
    Counted (ofSources options sources).catalog (ofSources options sources).shaders :=
  counted_foldl_add (fun _ _ _ hs => absurd hs List.not_mem_nil) sources

/-- What stripping leaves of a batch is live, and would be left by stripping once more, unless
the first round drops nothing although a definition is not referred to as tokens count. -/
theorem stripBatch_complete_iff (options : MinifyOptions)
    (sources : List (List Char × List Char)) :
    let b := ofSources options sources
    let r := stripBatch b.catalog b.shaders
    (AllLive r.catalog r.shaders ∧ (stripBatch r.catalog r.shaders).removed = 0) ↔
      ¬ AllLive b.catalog b.shaders ∨
        AllLive (b.catalog.recount (b.shaders.map Shader.tokens)) b.shaders := by
  intro b r
  have hagain : (stripBatch r.catalog r.shaders).removed = 0 ↔ AllLive r.catalog r.shaders :=
    removed_stripFrom_eq_zero_iff.trans totalRemoved_eq_zero_iff
  rw [hagain, and_self]
  exact allLive_stripBatch_iff

/-- A macro that only an accessor is spelled like outlives the rounds, and goes when they are run
again. -/
theorem not_allLive_of_accessor :
    let b := ofSources {} [(['a'], "#define rg 1\nc.rg".toList)]
    let r := stripBatch b.catalog b.shaders
    r.removed = 0 ∧ (∃ s ∈ r.shaders, ['r', 'g'] ∈ definedNames s.tokens) ∧
      r.catalog.referenceCount ['r', 'g'] = 0 ∧ ¬ AllLive r.catalog r.shaders ∧
      (stripBatch r.catalog r.shaders).removed = 1 := by
  intro b r
  let macroRg : Token :=
    .define ['#', 'd', 'e', 'f', 'i', 'n', 'e', ' ', 'r', 'g', ' ', '1'] 1 ['r', 'g'] none
      (some [.lexeme [' '] 1 .whitespace, .lexeme ['1'] 1 .intLiteral])
  let left : List Token := [macroRg, .lexeme ['\n'] 1 .whitespace, .lexeme ['c'] 2 .identifier,
    .lexeme ['.'] 2 .operator, .lexeme ['r', 'g'] 2 .identifier]
  have hr : r =
      ⟨[⟨['a'], left⟩], ⟨[⟨['r', 'g'], 1, 0⟩, ⟨['c'], 1, 1⟩, ⟨['x', 'y'], 1, 1⟩], []⟩, 0⟩ := by
    simp only [r, b, left, macroRg]
    cbv
  have hcount : r.catalog.referenceCount ['r', 'g'] = 0 := by
    rw [hr]
    rfl
  have hdefined : ∃ s ∈ r.shaders, ['r', 'g'] ∈ definedNames s.tokens := by
    rw [hr]
    exact ⟨_, List.mem_singleton_self _, List.mem_cons_self⟩
  obtain ⟨s, hs, hx⟩ := hdefined
  refine ⟨by rw [hr], ⟨s, hs, hx⟩, hcount, fun h => (h s hs _ hx).ne' hcount, ?_⟩
  rw [hr]
  cbv

/-- A dropped name is free in every stream of what is left, and what is left is every stream
without the definitions of the dropped names, in order, with comments blank and blanks joined. -/
theorem stripBatch_sound (options : MinifyOptions) (sources : List (List Char × List Char)) :
    let b := ofSources options sources
    let r := stripBatch b.catalog b.shaders
    (∀ x, Drops b.catalog b.catalog b.shaders x →
      ∀ s ∈ r.shaders, ∀ stream ∈ streams s.tokens, Free x stream) ∧
    ∃ dead : Ident → Bool, (∀ x, dead x = true ↔ Drops b.catalog b.catalog b.shaders x) ∧
      r.shaders = b.shaders.map fun s =>
        { s with tokens := everywhere (stripStream dead) s.tokens } := by
  intro b r
  refine ⟨fun x hx => free_of_drops hx (counted_ofSources options sources), ?_⟩
  obtain ⟨dead, hdead, he⟩ := shaders_stripFrom b.catalog b.catalog b.shaders
  refine ⟨dead, hdead, he.trans (List.map_congr_left fun s _ => ?_)⟩
  rw [without, strip_eq_everywhere]

/-- A macro used only by a dead one of another file is dropped, and so is one that only an accessor
is spelled like. -/
theorem stripBatch_sound_of_chain :
    let b := ofSources {} [(['a'], "#define X Y\n#define rg 1\nv.rg".toList),
      (['b'], "#define Y 2".toList)]
    let r := stripBatch b.catalog b.shaders
    Drops b.catalog b.catalog b.shaders ['Y'] ∧ Drops b.catalog b.catalog b.shaders ['r', 'g'] ∧
      ∀ s ∈ r.shaders, Free ['Y'] s.tokens ∧ Free ['r', 'g'] s.tokens := by
  intro b r
  let first : List Token :=
    [.define ['#', 'd', 'e', 'f', 'i', 'n', 'e', ' ', 'X', ' ', 'Y'] 1 ['X'] none
        (some [.lexeme [' '] 1 .whitespace, .lexeme ['Y'] 1 .identifier]),
      .lexeme ['\n'] 1 .whitespace,
      .define ['#', 'd', 'e', 'f', 'i', 'n', 'e', ' ', 'r', 'g', ' ', '1'] 2 ['r', 'g'] none
        (some [.lexeme [' '] 2 .whitespace, .lexeme ['1'] 2 .intLiteral]),
      .lexeme ['\n'] 2 .whitespace, .lexeme ['v'] 3 .identifier, .lexeme ['.'] 3 .operator,
      .lexeme ['r', 'g'] 3 .identifier]
  let second : List Token :=
    [.define ['#', 'd', 'e', 'f', 'i', 'n', 'e', ' ', 'Y', ' ', '2'] 1 ['Y'] none
      (some [.lexeme [' '] 1 .whitespace, .lexeme ['2'] 1 .intLiteral])]
  have hb : b = ⟨{}, ⟨[⟨['Y'], 2, 1⟩, ⟨['X'], 1, 0⟩, ⟨['r', 'g'], 2, 1⟩, ⟨['v'], 1, 1⟩], []⟩,
      [⟨['a'], first⟩, ⟨['b'], second⟩]⟩ := by
    simp only [b, first, second]
    cbv
  have hround : totalRemoved b.catalog b.shaders ≠ 0 := by
    have h : totalRemoved b.catalog b.shaders = 1 := by
      rw [hb]
      cbv
    rw [h]
    exact Nat.one_ne_zero
  have later : ∀ x, ((stripAll b.catalog b.shaders).any fun s =>
        (definedNames s.tokens).contains x) = true →
      isDead (b.catalog.recount ((stripAll b.catalog b.shaders).map Shader.tokens)) x = true →
      Drops b.catalog b.catalog b.shaders x := by
    intro x hdefined hdead
    obtain ⟨s, hs, hx⟩ := List.any_eq_true.mp hdefined
    exact .later hround (.now hs (List.contains_iff_mem.mp hx) hdead)
  have hY : Drops b.catalog b.catalog b.shaders ['Y'] := by
    apply later
    · rw [hb]
      cbv
    · rw [hb]
      cbv
  have hrg : Drops b.catalog b.catalog b.shaders ['r', 'g'] := by
    apply later
    · rw [hb]
      cbv
    · rw [hb]
      cbv
  have hfree : ∀ x, Drops b.catalog b.catalog b.shaders x →
      ∀ s ∈ r.shaders, ∀ stream ∈ streams s.tokens, Free x stream :=
    (stripBatch_sound {} [(['a'], "#define X Y\n#define rg 1\nv.rg".toList),
      (['b'], "#define Y 2".toList)]).1
  exact ⟨hY, hrg, fun s hs => ⟨hfree _ hY s hs _ (self_mem_streams _),
    hfree _ hrg s hs _ (self_mem_streams _)⟩⟩

set_option maxRecDepth 8000 in
/-- The only definition of a name goes inside a dropped one of another name, and a reference to it
is left. -/
theorem not_free_of_nested :
    let b := ofSources {} [(['a'], "#define M #define N 1\nN".toList)]
    let r := stripBatch b.catalog b.shaders
    (∃ s ∈ b.shaders, ['N'] ∈ definedNames s.tokens) ∧
      (∀ s ∈ r.shaders, ['N'] ∉ definedNames s.tokens) ∧
      (∃ s ∈ r.shaders, ¬ Free ['N'] s.tokens) ∧ ¬ Drops b.catalog b.catalog b.shaders ['N'] := by
  intro b r
  let inner : Token := .define ['#', 'd', 'e', 'f', 'i', 'n', 'e', ' ', 'N', ' ', '1'] 1 ['N'] none
    (some [.lexeme [' '] 1 .whitespace, .lexeme ['1'] 1 .intLiteral])
  let outer : Token := .define ("#define M ".toList ++ inner.text) 1 ['M'] none
    (some [.lexeme [' '] 1 .whitespace, inner])
  let left : List Token := [.lexeme ['\n'] 1 .whitespace, .lexeme ['N'] 2 .identifier]
  have hb : b.shaders = [⟨['a'], outer :: left⟩] := by
    simp only [b, outer, inner, left]
    cbv
  have hr : r.shaders = [⟨['a'], left⟩] := by
    simp only [r, b, left]
    cbv
  have hleft : ¬ Free ['N'] left := by
    intro h
    obtain ⟨swizzle, hs, -⟩ := h.respelled [.lexeme ['\n'] 1 .whitespace] 2 [] rfl
    cases hs
  rw [hb, hr]
  refine ⟨⟨_, List.mem_singleton_self _, by decide⟩, List.forall_mem_singleton.mpr (by decide),
    ⟨_, List.mem_singleton_self _, hleft⟩, fun h => hleft ?_⟩
  rw [← hb] at h
  have hfree := free_of_drops h (counted_ofSources {} [(['a'], "#define M #define N 1\nN".toList)])
  have hmem : ⟨['a'], left⟩ ∈ r.shaders := hr ▸ List.mem_singleton_self _
  exact hfree _ hmem left (self_mem_streams left)

end Batch

end ShaderPress
