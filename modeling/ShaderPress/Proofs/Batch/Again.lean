import ShaderPress.Proofs.Batch.Single
import ShaderPress.Proofs.Shader.Alignment
import ShaderPress.Proofs.Shader.Hashes
import ShaderPress.Proofs.Shader.Spacing

/-! # Written once more

The text of a settled stream that is read back as it was written is minified again.  If
no definition is lost and no accessor respelled, it is named and written as it was; and if
it is written as it was, its hashes and words tell that neither has happened.
-/
namespace ShaderPress.Batch
open EmitContext Ident Layout Pattern Token Shader
variable {file source : List Char} {tokens again : List Token} {t : RenameTable}
  {options : MinifyOptions}

theorem respell_diagonal {c : Catalog} (hc : c.switches = []) (preserve : Bool) :
    respell ⟨t.diagonal, c, options⟩ preserve = Token.written := by
  funext followsPoint x
  rw [respell_eq hc, RenameTable.nameOf_diagonal, Token.written]

theorem isWord_respell {c : Catalog} (h : RenameTable.allocate c false = .ok t)
    (hc : c.switches = []) {x : Ident} (hx : IsWord x) (preserve followsPoint : Bool) :
    IsWord (respell ⟨t, c, options⟩ preserve followsPoint x) := by
  have hname := RenameTable.isWord_nameOf h hx
  rw [respell_eq hc]
  cases followsPoint with
  | false => exact hname
  | true =>
    cases hs : canonicalSwizzle? x with
    | none => exact hname
    | some swizzle => exact isWord_canonicalSwizzle? hs

/-- What is read back is, as it stands, the text that was written. -/
theorem textFrom_asRead (hcomment : ∀ u ∈ deep tokens, u.isComment = false)
    {spell : Bool → Ident → List Char} (hread : outline asRead again = outline spell tokens) :
    textFrom asRead start (Token.strip keepAll again) = textFrom spell start tokens := by
  rw [← textFrom_outline (isComment_of_mem_strip keepAll again), outline_strip_keepAll, hread,
    textFrom_outline hcomment]

/-- Without accessors in another spelling it is written so once more. -/
theorem textFrom_written
    (hkeeps : ∀ p ∈ sites again, p.1 = true → canonicalSwizzle? p.2.name = none) :
    textFrom Token.written start (Token.strip keepAll again) =
      textFrom asRead start (Token.strip keepAll again) := by
  have hcomment := isComment_of_mem_strip keepAll again
  rw [← textFrom_outline hcomment, ← textFrom_outline hcomment, outline_strip_keepAll,
    outline_strip_keepAll, outline_written hkeeps]

section
variable {left : List Token}
  (h : RenameTable.allocate (Catalog.empty.replay (occurrences left)) false = .ok t)
  (hwords : ∀ p ∈ sites left, IsWord p.2.name)
  (hagain : (lex .pass source).outcome = .ok again)
  (hread : outline asRead again =
    outline (respell ⟨t, Catalog.empty.replay (occurrences left), {}⟩ true) left)
include h hwords hagain hread

theorem isWord_of_mem_mentioned_again : ∀ x ∈ mentioned again, IsWord x := by
  intro x hx
  obtain ⟨o, ho, rfl⟩ := List.mem_map.mp (mentioned_subset_trail hagain hx)
  rw [trail_lexFrom hagain, noted_eq_sites false again] at ho
  obtain ⟨p, hp, rfl⟩ := List.mem_map.mp ho
  exact isWord_of_readsBack h hwords hread p hp

/-- A stream that is live and keeps its accessors is settled and named as it was. -/
theorem settled_again (file : List Char)
    (hlive : AllLive (Catalog.empty.replay (occurrences left)) [⟨file, left⟩])
    (hkeeps : ∀ p ∈ sites again, p.1 = true → canonicalSwizzle? p.2.name = none) :
    (ofSources {} [(file, source)]).settled = ([⟨file, Token.strip keepAll again⟩],
        (Catalog.empty.replay (occurrences left)).rename t.nameOf) := by
  obtain ⟨dead, hnone, hsettled⟩ :=
    settled_of_words file hagain (isWord_of_readsBack h hwords hread)
  have hstrip := strip_eq_of_removed_eq_zero
    (hnone.mpr ((allLive_of_readsBack h hwords hread file).mpr hlive))
  have hoccurrences : occurrences (Token.strip keepAll again) = noted again :=
    (occurrencesFrom_strip_keepAll false again).trans (occurrences_eq_noted hkeeps)
  rw [hsettled, hstrip, hoccurrences, replay_of_readsBack h hwords hread]

/-- So it is written as it was. -/
theorem finish_again (hcomment : ∀ u ∈ deep left, u.isComment = false)
    (hemit : ∀ preserve, Shader.emit ⟨file, left⟩ ⟨t, Catalog.empty.replay (occurrences left), {}⟩
      preserve = .ok (textFrom (respell ⟨t, Catalog.empty.replay (occurrences left), {}⟩ true) start
        left)) {a : Artifacts}
    (hrender : Artifacts.render ⟨t, Catalog.empty.replay (occurrences left), {}⟩ ⟨file, left⟩ =
      .ok a)
    (hlive : AllLive (Catalog.empty.replay (occurrences left)) [⟨file, left⟩])
    (hkeeps : ∀ p ∈ sites again, p.1 = true → canonicalSwizzle? p.2.name = none) :
    ∃ m, (ofSources {} [(file, source)]).finish = .ok m ∧ m.artifacts = [a] := by
  have hnames := isWord_of_mem_names hwords
  have hswitches := switches_of_words hwords
  have hsettled := settled_again h hwords hagain hread file hlive hkeeps
  have hsound := sound_ofSources {} [(file, source)]
  have hoptions : (ofSources {} [(file, source)]).options = {} := options_ofSources _ _
  generalize ofSources {} [(file, source)] = b at hsettled hsound hoptions ⊢
  have hname : RenameTable.allocate b.settled.2 false = .ok t.diagonal := by
    rw [hsettled]
    exact RenameTable.allocate_rename h (hasNoSigil_of_mem_names hwords) hswitches
      (Catalog.nodup_names_replay (c := Catalog.empty) List.nodup_nil _)
  have hrenamed : ∀ x ∈ b.settled.2.names, IsWord x := by
    rw [hsettled]
    simp only [Catalog.names_rename, List.forall_mem_map]
    exact fun x hx => RenameTable.isWord_nameOf h (hnames x hx)
  have hswitchesAgain : b.settled.2.switches = [] := by
    rw [hsettled]
    simp only [Catalog.rename, hswitches, List.map_nil]
  have hrenderAgain :
      Artifacts.render ⟨t.diagonal, b.settled.2, b.options⟩ ⟨file, Token.strip keepAll again⟩ =
        .ok a := by
    rw [← hrender]
    refine Artifacts.render_congr rfl hoptions (exports_of_words hrenamed) (exports_of_words hnames)
      fun preserve => ?_
    rw [hsound.emit_eq (by rw [hoptions]) hname (by rw [hsettled]; exact List.mem_singleton_self _),
      respell_diagonal hswitchesAgain, hemit, textFrom_written hkeeps,
      textFrom_asRead hcomment hread]
  have hpair : b.settled = ([⟨file, Token.strip keepAll again⟩], b.settled.2) := by rw [hsettled]
  exact ⟨_, (finish_of_settled (by rw [hoptions]) hpair).mpr
    ⟨t.diagonal, a, hname, hrenderAgain, rfl⟩, rfl⟩

/-- What is written as it was has lost no definition and no accessor in another spelling. -/
theorem of_textFrom_again (hcomment : ∀ u ∈ deep left, u.isComment = false) {dead : Ident → Bool}
    {t' : RenameTable}
    (ht' : RenameTable.allocate (Catalog.empty.replay (occurrences (Token.strip dead again)))
      false = .ok t')
    (htext : (textFrom (respell
        ⟨t', Catalog.empty.replay (occurrences (Token.strip dead again)), options⟩ true) start
        (Token.strip dead again)).1 =
      (textFrom (respell ⟨t, Catalog.empty.replay (occurrences left), {}⟩ true) start left).1) :
    removed dead again = 0 ∧ ∀ p ∈ sites again, p.1 = true → canonicalSwizzle? p.2.name = none := by
  have hsites := isWord_of_readsBack h hwords hread
  have hmentioned := isWord_of_mem_mentioned_again h hwords hagain hread
  have hstripped : ∀ x ∈ mentioned (Token.strip dead again), IsWord x :=
    isWord_of_mem_mentioned_strip hmentioned dead
  have hswitches := @switches_of_words (Token.strip dead again) fun p hp =>
    hstripped _ (name_mem_mentioned false p hp)
  rw [← textFrom_asRead hcomment hread] at htext
  have hremoved : removed dead again = 0 := by
    have heq := hashes_eq_of_textFrom
      (fun x hx followsPoint => hash_not_mem_of_isWord
        (isWord_respell ht' hswitches (hstripped x hx) true followsPoint))
      (fun x hx _ => hash_not_mem_of_isWord
        (isWord_of_mem_mentioned_strip hmentioned keepAll x hx)) htext
    have hle := hashes_strip_add_removed_le dead again
    omega
  refine ⟨hremoved, fun p hp hpoint => ?_⟩
  have hstrip := strip_eq_of_removed_eq_zero hremoved
  rw [hstrip] at htext hswitches ht'
  have hspell := agree_of_textFrom (fun u hu =>
      ⟨endsWords_of_mem_strip hagain keepAll u hu, isComment_of_mem_strip keepAll again u hu⟩)
    (by
      rw [sites_strip_keepAll]
      exact fun p hp => ⟨isWord_respell ht' hswitches (hsites p hp) true p.1, hsites p hp⟩)
    (Prod.ext htext newline_textFrom)
  rw [sites_strip_keepAll] at hspell
  have hkept := hspell p hp
  rw [respell_eq hswitches, hpoint] at hkept
  cases hs : canonicalSwizzle? p.2.name with
  | none => rfl
  | some swizzle =>
    -- a canonical spelling is not another spelling of itself
    rw [hs] at hkept
    have hcanonical := canonicalSwizzle?_canonical hs
    rw [show swizzle = p.2.name from hkept, hs] at hcanonical
    cases hcanonical

end

end ShaderPress.Batch
