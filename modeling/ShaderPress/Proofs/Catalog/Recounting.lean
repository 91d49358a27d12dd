import Mathlib
import ShaderPress.Proofs.Catalog.Counts
import ShaderPress.Proofs.Token.Accessors

/-! # Counting while lexing and counting from tokens

The lexer fills a catalog as it meets the identifiers of its texts, and a recount fills one
from the streams that it has made of them.  The two know the same switches and differ in
their counts by the accessors that are respelled, and in nothing if there are none.
-/
namespace ShaderPress.Catalog
open Token

/-- The catalog that lexing some texts one after the other leaves behind. -/
def ofTexts (texts : List (UnknownPolicy × List Char)) : Catalog :=
  texts.foldl (fun c t => c.replay (lex t.1 t.2).trail) empty

/-- Each text is lexed into its stream. -/
def LexedInto (texts : List (UnknownPolicy × List Char)) (streams : List (List Token)) : Prop :=
  List.Forall₂ (fun t tokens => (lex t.1 t.2).outcome = .ok tokens) texts streams

variable {texts : List (UnknownPolicy × List Char)} {streams : List (List Token)}

theorem foldl_replay_lex (h : LexedInto texts streams) (c : Catalog) :
    texts.foldl (fun c t => c.replay (lex t.1 t.2).trail) c =
      c.replay ((streams.flatMap sites).map (·.2)) := by
  induction h generalizing c with
  | nil => rfl
  | @cons t tokens texts streams ht _ ih =>
    have htrail : (lex t.1 t.2).trail = (sites tokens).map (·.2) :=
      (trail_lexFrom ht).trans (noted_eq_sites false tokens)
    rw [List.foldl_cons, ih, htrail, List.flatMap_cons, List.map_append, replay_append]

theorem ofTexts_eq_replay (h : LexedInto texts streams) :
    ofTexts texts = empty.replay ((streams.flatMap sites).map (·.2)) :=
  foldl_replay_lex h empty

theorem flatMap_occurrences (streams : List (List Token)) :
    streams.flatMap occurrences = (streams.flatMap sites).map writtenAs := by
  rw [List.map_flatMap]
  exact congrArg streams.flatMap (funext occurrences_eq_sites)

theorem accessors_perm_sites (streams : List (List Token)) :
    (streams.flatMap accessors).Perm ((streams.flatMap sites).filterMap respelling?) := by
  rw [List.filterMap_flatMap]
  exact List.Perm.flatMap_left streams fun tokens _ => (accessorsAreSites tokens).perm

theorem isPlaced_of_mem_flatMap (streams : List (List Token)) :
    ∀ p ∈ streams.flatMap sites, IsPlaced p := by
  intro p hp
  obtain ⟨tokens, -, hp⟩ := List.mem_flatMap.mp hp
  exact isPlaced_of_mem_sites tokens p hp

theorem tested?_writtenAs {p : Bool × Occurrence} (hp : IsPlaced p) :
    (writtenAs p).tested? = p.2.tested? := by
  cases h : respelling? p with
  | none => rw [writtenAs_of_respelling?_eq_none hp h]
  | some a =>
    obtain ⟨hx, hy⟩ := writtenAs_of_respelling?_eq_some h
    rw [hx, hy]
    rfl

theorem switches_recount (h : LexedInto texts streams) (c : Catalog) :
    (c.recount streams).switches = (ofTexts texts).switches := by
  have htested : ((streams.flatMap sites).map writtenAs).filterMap Occurrence.tested? =
      ((streams.flatMap sites).map (·.2)).filterMap Occurrence.tested? := by
    rw [List.filterMap_map, List.filterMap_map]
    exact List.filterMap_congr fun p hp => tested?_writtenAs (isPlaced_of_mem_flatMap streams p hp)
  rw [ofTexts_eq_replay h, switches_replay_eq, ← htested, ← flatMap_occurrences,
    ← switches_replay_eq]
  rfl

theorem Counts.figureOf_recount_ofTexts {figure : Entry → Nat} {kind : Bool → Bool}
    (hf : Counts figure kind) (hkind : kind true = true) (h : LexedInto texts streams)
    (c : Catalog) (x : Ident) :
    figureOf figure (c.recount streams).entries x +
        (streams.flatMap accessors).countP (·.1 == x) =
      figureOf figure (ofTexts texts).entries x +
        (streams.flatMap accessors).countP (·.2 == x) := by
  have hempty : figureOf figure empty.entries x = 0 := rfl
  rw [hf.figureOf_recount, ofTexts_eq_replay h, hf.figureOf_replay, hempty, Nat.zero_add,
    flatMap_occurrences, (accessors_perm_sites streams).countP_eq,
    (accessors_perm_sites streams).countP_eq]
  refine countP_writtenAs (fun y => ?_) (isPlaced_of_mem_flatMap streams)
  rw [Occurrence.isReference, hkind, Bool.true_and, Occurrence.name]

theorem vanished_self (c : Catalog) : c.vanished c = [] := by
  rw [vanished, List.map_eq_nil_iff, List.filter_eq_nil_iff]
  intro x hx
  simp [hx]

theorem recount_ofTexts_eq_self (h : LexedInto texts streams)
    (hnone : streams.flatMap accessors = []) : (ofTexts texts).recount streams = ofTexts texts := by
  have hsites : (streams.flatMap sites).filterMap respelling? = [] :=
    (hnone ▸ accessors_perm_sites streams).symm.eq_nil
  have heq : (streams.flatMap sites).map writtenAs = (streams.flatMap sites).map (·.2) :=
    List.map_congr_left fun p hp => writtenAs_of_respelling?_eq_none
      (isPlaced_of_mem_flatMap streams p hp) (List.filterMap_eq_nil_iff.mp hsites p hp)
  have hnew : empty.replay (streams.flatMap occurrences) = ofTexts texts := by
    rw [flatMap_occurrences, heq, ofTexts_eq_replay h]
  rw [recount, hnew, vanished_self, List.append_nil]

/-- A recount of the streams of some texts has the switches that lexing the texts has found.
It counts each name as often as the lexer, less the accessors spelled so that are written
otherwise, and with those that are so written; without such accessors it changes nothing. -/
theorem recount_ofTexts (texts : List (UnknownPolicy × List Char)) (streams : List (List Token))
    (h : LexedInto texts streams) :
    ((ofTexts texts).recount streams).switches = (ofTexts texts).switches ∧
    (∀ x, (((ofTexts texts).recount streams).count x : Int) = (ofTexts texts).count x -
        (streams.flatMap accessors).countP (·.1 == x) +
        (streams.flatMap accessors).countP (·.2 == x) ∧
      (((ofTexts texts).recount streams).referenceCount x : Int) =
        (ofTexts texts).referenceCount x - (streams.flatMap accessors).countP (·.1 == x) +
        (streams.flatMap accessors).countP (·.2 == x)) ∧
    (streams.flatMap accessors = [] → (ofTexts texts).recount streams = ofTexts texts) := by
  refine ⟨switches_recount h _, fun x => ⟨?_, ?_⟩, recount_ofTexts_eq_self h⟩
  · have hcount : ((ofTexts texts).recount streams).count x + _ = (ofTexts texts).count x + _ :=
      counts_total.figureOf_recount_ofTexts rfl h (ofTexts texts) x
    omega
  · have hcount : ((ofTexts texts).recount streams).referenceCount x + _ =
        (ofTexts texts).referenceCount x + _ :=
      counts_references.figureOf_recount_ofTexts rfl h (ofTexts texts) x
    omega

/-- Of two identifiers of one spelling, the one behind a point and a comment counts as it is written.
A text with a switch alone is counted as the lexer counts it. -/
theorem recount_ofTexts_of_accessor :
    let switch : UnknownPolicy × List Char := (.pass, "defined(@X)".toList)
    let test : List Token :=
      [.definedTest ['d', 'e', 'f', 'i', 'n', 'e', 'd', '(', '@', 'X', ')'] 1 ['@', 'X']]
    let texts := [(.reject, "rg./**/rg".toList), switch]
    let streams : List (List Token) :=
      [[.lexeme ['r', 'g'] 1 .identifier, .lexeme ['.'] 1 .operator,
        .lexeme ['/', '*', '*', '/'] 1 .blockComment, .lexeme ['r', 'g'] 1 .identifier], test]
    let c := ofTexts texts
    let r := c.recount streams
    LexedInto texts streams ∧ r.switches = [['@', 'X']] ∧
      (r.count ['r', 'g'] : Int) = c.count ['r', 'g'] - 1 ∧
      (r.count ['x', 'y'] : Int) = c.count ['x', 'y'] + 1 ∧
      (ofTexts [switch]).recount [test] = ofTexts [switch] := by
  intro switch test texts streams c r
  have hswitch : (lex switch.1 switch.2).outcome = .ok test := by
    simp only [switch, test]
    cbv
  have h : LexedInto texts streams := by
    refine .cons ?_ (.cons hswitch .nil)
    simp only
    cbv
  have haccessors : streams.flatMap accessors = [(['r', 'g'], ['x', 'y'])] := by
    simp only [streams, test]
    cbv
  have hswitches : c.switches = [['@', 'X']] := by
    simp only [c, texts, switch]
    cbv
  have hplain : [test].flatMap accessors = [] := by
    simp only [test]
    cbv
  obtain ⟨hsame, hcounts, -⟩ := recount_ofTexts texts streams h
  have hrg := (hcounts ['r', 'g']).1
  have hxy := (hcounts ['x', 'y']).1
  rw [haccessors] at hrg hxy
  have hzero : c.count ['x', 'y'] - (0 : Int) = c.count ['x', 'y'] := Int.sub_zero _
  refine ⟨h, hsame.trans hswitches, hrg.trans (Int.add_zero _), hxy.trans (congrArg (· + 1) hzero), ?_⟩
  exact (recount_ofTexts [switch] [test] (.cons hswitch .nil)).2.2 hplain

end ShaderPress.Catalog
