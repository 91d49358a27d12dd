import ShaderPress.Proofs.Rename.Fixpoint
import ShaderPress.Proofs.Shader.Fixpoint
import ShaderPress.Proofs.Shader.Text
import ShaderPress.Proofs.Token.Names

/-! # A stream and what is read back of it

A stream of words is written with the names of its own table.  Where the text is lexed as
the stream respelled, the tokens read back have the occurrences of the stream under their
names, and so the catalog of the stream renamed.
-/
namespace ShaderPress

namespace EmitContext
open Ident Pattern Token

/-- A text is lexed as the tokens that were written, their identifiers respelled. -/
def ReadsBack (cx : EmitContext) (tokens : List Token) (text : List Char) : Prop :=
  ∃ again, (lex cx.options.unknown text).outcome = .ok again ∧
    outline asRead again = outline (cx.respell true) tokens

/-- No identifier behind a point has a name that reads as an accessor in another spelling. -/
def KeepsAccessors (cx : EmitContext) (tokens : List Token) : Prop :=
  ∀ p ∈ sites tokens, p.1 = true → canonicalSwizzle? (cx.respell true true p.2.name) = none

theorem respell_eq {cx : EmitContext} (h : cx.catalog.switches = []) (preserve followsPoint : Bool)
    (x : Ident) : cx.respell preserve followsPoint x =
      if followsPoint then (canonicalSwizzle? x).getD (cx.names.nameOf x)
      else cx.names.nameOf x := by
  have hname : cx.nameOf preserve x = cx.names.nameOf x := by
    have hswitch : cx.catalog.isSwitch x = false := by
      rw [Catalog.isSwitch, h]
      rfl
    rw [nameOf, spelling, hswitch, Bool.and_false, if_neg Bool.false_ne_true, outputName,
      RenameTable.nameOf]
    cases cx.names.get? x <;> rfl
  cases followsPoint with
  | false => exact hname
  | true =>
    cases hs : canonicalSwizzle? x with
    | none => simp only [respell, hs, if_true, Option.getD_none, hname]
    | some swizzle => simp only [respell, hs, if_true, Option.getD_some]

end EmitContext

namespace Token
open Ident Pattern

theorem isWord_written {x : Ident} (hx : IsWord x) (followsPoint : Bool) :
    IsWord (written followsPoint x) := by
  cases followsPoint with
  | false => exact hx
  | true =>
    cases hs : canonicalSwizzle? x with
    | none => simpa [written, hs] using hx
    | some swizzle => simpa [written, hs] using isWord_canonicalSwizzle? hs

section
variable {tokens : List Token} (hwords : ∀ p ∈ sites tokens, IsWord p.2.name)
include hwords

theorem isWord_of_mem_occurrences : ∀ o ∈ occurrences tokens, IsWord o.name := by
  rw [occurrences_eq_sites, List.forall_mem_map]
  intro p hp
  rw [Occurrence.name_rename]
  exact isWord_written (hwords p hp) p.1

theorem isWord_of_mem_names :
    ∀ x ∈ (Catalog.empty.replay (occurrences tokens)).names, IsWord x := by
  intro x hx
  rcases Catalog.mem_names_replay.mp hx with hx | hx
  · obtain ⟨o, ho, rfl⟩ := List.mem_map.mp hx
    exact isWord_of_mem_occurrences hwords o ho
  · cases hx

theorem hasNoSigil_of_mem_names :
    ∀ x ∈ (Catalog.empty.replay (occurrences tokens)).names, HasNoSigil x :=
  fun x hx => hasNoSigil_of_isWord (isWord_of_mem_names hwords x hx)

theorem switches_of_words : (Catalog.empty.replay (occurrences tokens)).switches = [] :=
  Catalog.switches_replay fun o ho => isExport_of_isWord (isWord_of_mem_occurrences hwords o ho)

end

theorem sites_outline_asRead (tokens : List Token) :
    sites (outline asRead tokens) = sites tokens := by
  have hid : ∀ p : Bool × Occurrence, (p.1, p.2.rename (asRead p.1)) = p :=
    fun p => Prod.ext rfl p.2.rename_id
  refine (sitesFrom_outlineFrom asRead none false tokens).trans ?_
  simp only [hid, List.map_id']
  rfl

/-- Tokens with the outline of a stream respelled have its sites respelled. -/
theorem sites_of_outline {spell : Bool → Ident → List Char} {again tokens : List Token}
    (h : outline asRead again = outline spell tokens) :
    sites again = (sites tokens).map fun p => (p.1, p.2.rename (spell p.1)) := by
  rw [← sites_outline_asRead again, h]
  exact sitesFrom_outlineFrom spell none false tokens

theorem outline_strip_keepAll (spell : Bool → Ident → List Char) (tokens : List Token) :
    outline spell (strip keepAll tokens) = outline spell tokens :=
  outlineFrom_strip_keepAll false

theorem sites_strip_keepAll (tokens : List Token) :
    sites (strip keepAll tokens) = sites tokens := by
  rw [← sites_outline_asRead, outline_strip_keepAll, sites_outline_asRead]

end Token

namespace EmitContext
open Ident Pattern Token
variable {tokens again : List Token} {t : RenameTable} {options : MinifyOptions} {preserve : Bool}

section
variable (h : RenameTable.allocate (Catalog.empty.replay (occurrences tokens)) false = .ok t)
  (hwords : ∀ p ∈ sites tokens, IsWord p.2.name)
include h hwords

/-- A stream of words is written with the names of the occurrences that are counted. -/
theorem respell_of_mem_sites {p : Bool × Occurrence} (hp : p ∈ sites tokens) :
    respell ⟨t, Catalog.empty.replay (occurrences tokens), options⟩ preserve p.1 p.2.name =
      t.nameOf (written p.1 p.2.name) := by
  have hcounted : written p.1 p.2.name ∈ (Catalog.empty.replay (occurrences tokens)).names := by
    refine Catalog.mem_names_replay.mpr (Or.inl (List.mem_map.mpr ⟨_, ?_, p.2.name_rename _⟩))
    rw [occurrences_eq_sites]
    exact List.mem_map_of_mem hp
  rw [respell_eq (switches_of_words hwords)]
  cases hpoint : p.1 with
  | false => rfl
  | true =>
    rw [hpoint] at hcounted
    cases hs : canonicalSwizzle? p.2.name with
    | none => simp [written, hs]
    | some swizzle =>
      have hwritten : written true p.2.name = swizzle := by simp [written, hs]
      rw [hwritten] at hcounted ⊢
      -- the canonical spelling is reserved, so it is its own name
      have hreserved : isRenameable swizzle = false := by
        rw [isRenameable_of_isWord (isWord_canonicalSwizzle? hs), isReserved_canonicalSwizzle? hs]
        rfl
      rw [RenameTable.nameOf_of_kept h (hasNoSigil_of_mem_names hwords)
        (RenameTable.mem_kept.mpr ⟨hcounted, hreserved⟩)]
      simp

variable (hread : outline asRead again =
  outline (respell ⟨t, Catalog.empty.replay (occurrences tokens), options⟩ preserve) tokens)
include hread

/-- What is read back has the counted occurrences of the stream under their names. -/
theorem noted_of_readsBack :
    noted again = (occurrences tokens).map (Occurrence.rename t.nameOf) := by
  have hagain : noted again = (sites again).map (·.2) := noted_eq_sites false again
  conv_rhs => rw [occurrences_eq_sites, List.map_map]
  rw [hagain, sites_of_outline hread, List.map_map]
  refine List.map_congr_left fun p hp => ?_
  simp only [Function.comp_apply, Occurrence.rename_rename]
  exact Occurrence.rename_congr (respell_of_mem_sites h hwords hp)

theorem isWord_of_readsBack : ∀ p ∈ sites again, IsWord p.2.name := by
  intro p hp
  have hmem : p.2 ∈ noted again := by
    rw [noted_eq_sites false again]
    exact List.mem_map_of_mem hp
  rw [noted_of_readsBack h hwords hread] at hmem
  obtain ⟨o, ho, he⟩ := List.mem_map.mp hmem
  rw [← he, Occurrence.name_rename]
  exact RenameTable.isWord_nameOf h (isWord_of_mem_occurrences hwords o ho)

/-- Lexing what is read back gives the catalog of the stream, renamed. -/
theorem replay_of_readsBack :
    Catalog.empty.replay (noted again) =
      (Catalog.empty.replay (occurrences tokens)).rename t.nameOf := by
  have hnames := isWord_of_mem_names hwords
  rw [noted_of_readsBack h hwords hread]
  refine Catalog.replay_rename (c := Catalog.empty) (RenameTable.injOn_nameOf h
      (hasNoSigil_of_mem_names hwords))
    (fun x hx => ⟨?_, ?_⟩) (fun x hx => absurd hx List.not_mem_nil) fun o ho =>
      Catalog.mem_names_replay.mpr (Or.inl (List.mem_map_of_mem ho))
  · exact isExport_of_isWord (hnames x hx)
  · exact isExport_of_isWord (RenameTable.isWord_nameOf h (hnames x hx))

theorem mem_definedNames_of_readsBack {y : Ident} :
    y ∈ definedNames again ↔ ∃ x ∈ definedNames tokens, t.nameOf x = y := by
  have hname : ∀ {x : Ident}, (false, .defined x) ∈ sites tokens →
      respell ⟨t, Catalog.empty.replay (occurrences tokens), options⟩ preserve false x =
        t.nameOf x :=
    fun hx => respell_of_mem_sites h hwords hx
  have hagain : y ∈ definedNames again ↔ (false, .defined y) ∈ sites again :=
    mem_definedNames_iff false
  simp only [hagain, mem_definedNames_iff false, sites_of_outline hread, List.mem_map,
    Prod.mk.injEq, Prod.exists]
  constructor
  · rintro ⟨_, o, hp, rfl, he⟩
    cases o with
    | defined x => exact ⟨x, hp, (hname hp).symm.trans (Occurrence.defined.inj he)⟩
    | referenced x | tested x => cases he
  · rintro ⟨x, hx, he⟩
    exact ⟨false, .defined x, hx, rfl, congrArg Occurrence.defined ((hname hx).trans he)⟩

/-- What is read back is live by its own counts exactly if the stream is. -/
theorem allLive_of_readsBack (file : List Char) :
    Shader.AllLive (Catalog.empty.replay (noted again)) [⟨file, again⟩] ↔
      Shader.AllLive (Catalog.empty.replay (occurrences tokens)) [⟨file, tokens⟩] := by
  have hinj := RenameTable.injOn_nameOf h (hasNoSigil_of_mem_names hwords)
  have hcount : ∀ x ∈ definedNames tokens,
      (Catalog.empty.replay (noted again)).referenceCount (t.nameOf x) =
        (Catalog.empty.replay (occurrences tokens)).referenceCount x := by
    intro x hx
    rw [noted_of_readsBack h hwords hread]
    refine Catalog.referenceCount_replay_rename hinj
      (fun o ho => Catalog.mem_names_replay.mpr (Or.inl (List.mem_map_of_mem ho)))
      (Catalog.mem_names_replay.mpr (Or.inl (List.mem_map.mpr ⟨.defined x, ?_, rfl⟩)))
    rw [occurrences_eq_sites]
    exact List.mem_map.mpr ⟨_, (mem_definedNames_iff false).mp hx, rfl⟩
  simp only [Shader.AllLive, List.forall_mem_singleton,
    mem_definedNames_of_readsBack h hwords hread]
  constructor
  · intro hall x hx
    rw [← hcount x hx]
    exact hall _ ⟨x, hx, rfl⟩
  · rintro hall _ ⟨x, hx, rfl⟩
    rw [hcount x hx]
    exact hall x hx

end

/-- Whether accessors are kept shows in what is read back. -/
theorem keepsAccessors_iff {cx : EmitContext}
    (hread : outline asRead again = outline (cx.respell true) tokens) :
    cx.KeepsAccessors tokens ↔
      ∀ p ∈ sites again, p.1 = true → canonicalSwizzle? p.2.name = none := by
  simp only [KeepsAccessors, sites_of_outline hread, List.forall_mem_map, Occurrence.name_rename]
  refine forall₂_congr fun p _ => imp_congr_right fun hp => ?_
  rw [hp]

end EmitContext

namespace Token
open Ident

section
variable {tokens : List Token}
  (h : ∀ p ∈ sites tokens, p.1 = true → canonicalSwizzle? p.2.name = none)
include h

theorem written_of_mem_sites {p : Bool × Occurrence} (hp : p ∈ sites tokens) :
    written p.1 p.2.name = p.2.name := by
  cases hpoint : p.1 with
  | false => rfl
  | true => simp [written, h p hp hpoint]

/-- Without accessors in another spelling the lexer and the recount count alike. -/
theorem occurrences_eq_noted : occurrences tokens = noted tokens := by
  rw [occurrences_eq_sites, noted_eq_sites false tokens]
  refine List.map_congr_left fun p hp => ?_
  rw [Occurrence.rename_congr (g := fun x => x) (written_of_mem_sites h hp), Occurrence.rename_id]

theorem outline_written : outline written tokens = outline asRead tokens :=
  outlineFrom_congr none false fun _ hp => written_of_mem_sites h hp

end

end Token

end ShaderPress
