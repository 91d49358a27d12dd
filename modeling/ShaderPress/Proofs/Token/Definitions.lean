import ShaderPress.Catalog.Recount
import ShaderPress.Proofs.Token.Depth

/-! # The definitions in a stream

Stripping looks only at the names that a stream defines.  It drops nothing exactly if
none of them is dead, and then it changes nothing but comments and blanks, so the
stream still counts the same.
-/
namespace ShaderPress.Token

def definedName? : Token → Option Ident
  | define _ _ name .. => some name
  | _ => none

/-- The names that a stream defines, at every depth. -/
def definedNames (tokens : List Token) : List Ident := (deep tokens).filterMap definedName?

def definedInPart (part : Option (List Token)) : List Ident :=
  (deepNested part).filterMap definedName?

section
variable {text : List Char} {line : Nat} {name : Ident} {arguments body : Option (List Token)}
  {test : Conditional} {kind : Lexeme} {ts : List Token}

@[simp] theorem definedInPart_none : definedInPart none = [] := rfl

@[simp] theorem definedInPart_some (ts : List Token) :
    definedInPart (some ts) = definedNames ts := rfl

@[simp] theorem definedNames_nil : definedNames [] = [] := rfl

@[simp] theorem definedNames_define :
    definedNames (define text line name arguments body :: ts) =
      name :: (definedInPart arguments ++ (definedInPart body ++ definedNames ts)) := by
  simp [definedNames, definedInPart, deep, withParts, definedName?]

@[simp] theorem definedNames_directive :
    definedNames (directive text line body :: ts) = definedInPart body ++ definedNames ts :=
  List.filterMap_append

@[simp] theorem definedNames_conditional :
    definedNames (conditional text line test name :: ts) = definedNames ts := rfl

@[simp] theorem definedNames_definedTest :
    definedNames (definedTest text line name :: ts) = definedNames ts := rfl

@[simp] theorem definedNames_lexeme :
    definedNames (lexeme text line kind :: ts) = definedNames ts := rfl

end

theorem definedNames_attach (text : List Char) (line : Nat) (ts : List Token) :
    definedNames (attach (lexeme text line .whitespace) ts) = definedNames ts := by
  unfold attach
  split <;> rfl

theorem strip_congr {dead dead' : Ident → Bool} {tokens : List Token}
    (h : ∀ x ∈ definedNames tokens, dead x = dead' x) : strip dead tokens = strip dead' tokens := by
  have nested : ∀ {part : Option (List Token)},
      (∀ s, part = some s → (∀ x ∈ definedNames s, dead x = dead' x) →
        strip dead s = strip dead' s) →
      (∀ x ∈ definedInPart part, dead x = dead' x) →
      stripNested dead part = stripNested dead' part := by
    intro part ih hp
    cases part with
    | none => simp only [stripNested]
    | some s => simp only [stripNested, ih s rfl hp]
  induction tokens using stream_induction with
  | nil => simp only [strip]
  | define text line name arguments body rest ha hb hr =>
    simp only [definedNames_define, List.forall_mem_cons, List.forall_mem_append] at h
    obtain ⟨hname, harguments, hbody, hrest⟩ := h
    simp only [strip, hname, nested ha harguments, nested hb hbody, hr hrest]
  | directive text line body rest hb hr =>
    simp only [definedNames_directive, List.forall_mem_append] at h
    simp only [strip, nested hb h.1, hr h.2]
  | conditional text line test name rest hr => simp only [strip, hr h]
  | definedTest text line name rest hr => simp only [strip, hr h]
  | lexeme text line kind rest hr => simp only [strip, hr h]

/-- What is left defines live names of the stream only. -/
theorem mem_definedNames_strip {dead : Ident → Bool} {tokens : List Token} {x : Ident}
    (h : x ∈ definedNames (strip dead tokens)) : x ∈ definedNames tokens ∧ dead x = false := by
  have nested : ∀ {part : Option (List Token)},
      (∀ s, part = some s → x ∈ definedNames (strip dead s) →
        x ∈ definedNames s ∧ dead x = false) →
      x ∈ definedInPart (stripNested dead part) → x ∈ definedInPart part ∧ dead x = false := by
    intro part ih hp
    cases part with
    | none =>
      rw [stripNested] at hp
      exact absurd hp List.not_mem_nil
    | some s =>
      rw [stripNested] at hp
      exact ih s rfl hp
  induction tokens using stream_induction with
  | nil =>
    rw [strip] at h
    exact absurd h List.not_mem_nil
  | define text line name arguments body rest ha hb hr =>
    rw [strip] at h
    simp only [definedNames_define, List.mem_cons, List.mem_append]
    split at h
    · obtain ⟨hx, hdead⟩ := hr h
      exact ⟨Or.inr (Or.inr (Or.inr hx)), hdead⟩
    · next hname =>
      simp only [definedNames_define, List.mem_cons, List.mem_append] at h
      rcases h with rfl | h | h | h
      · exact ⟨Or.inl rfl, by simpa using hname⟩
      · obtain ⟨hx, hdead⟩ := nested ha h
        exact ⟨Or.inr (Or.inl hx), hdead⟩
      · obtain ⟨hx, hdead⟩ := nested hb h
        exact ⟨Or.inr (Or.inr (Or.inl hx)), hdead⟩
      · obtain ⟨hx, hdead⟩ := hr h
        exact ⟨Or.inr (Or.inr (Or.inr hx)), hdead⟩
  | directive text line body rest hb hr =>
    rw [strip] at h
    simp only [definedNames_directive, List.mem_append] at h ⊢
    rcases h with h | h
    · obtain ⟨hx, hdead⟩ := nested hb h
      exact ⟨Or.inl hx, hdead⟩
    · obtain ⟨hx, hdead⟩ := hr h
      exact ⟨Or.inr hx, hdead⟩
  | conditional text line test name rest hr =>
    simp only [strip, blankedComment, attach] at h
    exact hr h
  | definedTest text line name rest hr =>
    simp only [strip, blankedComment, attach] at h
    exact hr h
  | lexeme text line kind rest hr =>
    simp only [strip] at h
    cases kind with
    | whitespace | lineComment | blockComment =>
      simp only [blankedComment, definedNames_attach] at h
      exact hr h
    | _ => exact hr h

/-- Stripping drops a definition unless every name that is defined is live. -/
theorem removed_eq_zero_iff {dead : Ident → Bool} {tokens : List Token} :
    removed dead tokens = 0 ↔ ∀ x ∈ definedNames tokens, dead x = false := by
  have nested : ∀ {part : Option (List Token)},
      (∀ s, part = some s → (removed dead s = 0 ↔ ∀ x ∈ definedNames s, dead x = false)) →
      (removedNested dead part = 0 ↔ ∀ x ∈ definedInPart part, dead x = false) := by
    intro part ih
    cases part with
    | none => simp [removedNested]
    | some s =>
      rw [removedNested]
      exact ih s rfl
  induction tokens using stream_induction with
  | nil => simp [removed]
  | define text line name arguments body rest ha hb hr =>
    simp only [removed, definedNames_define, List.forall_mem_cons, List.forall_mem_append]
    cases dead name with
    | true => simp
    | false =>
      simp only [Bool.false_eq_true, if_false, Nat.add_eq_zero_iff, true_and, and_assoc]
      exact and_congr (nested ha) (and_congr (nested hb) hr)
  | directive text line body rest hb hr =>
    simp only [removed, definedNames_directive, List.forall_mem_append, Nat.add_eq_zero_iff]
    exact and_congr (nested hb) hr
  | conditional text line test name rest hr =>
    simp only [removed]
    exact hr
  | definedTest text line name rest hr =>
    simp only [removed]
    exact hr
  | lexeme text line kind rest hr =>
    simp only [removed]
    exact hr

/-- Stripping that drops no definition. -/
def keepAll : Ident → Bool := fun _ => false

theorem strip_eq_of_removed_eq_zero {dead : Ident → Bool} {tokens : List Token}
    (h : removed dead tokens = 0) : strip dead tokens = strip keepAll tokens :=
  strip_congr (removed_eq_zero_iff.mp h)

/-- A view of tokens that does not look into their parts and sees neither comments nor blanks. -/
structure SeesHeads {α : Type} (view : Token → Option α) : Prop where
  define : ∀ text line name a b a' b',
    view (define text line name a b) = view (define text line name a' b')
  directive : ∀ text line b b', view (directive text line b) = view (directive text line b')
  blank : ∀ t : Token, t.isBlank = true → view t = none

theorem SeesHeads.filterMap_attach {α : Type} {view : Token → Option α} (hv : SeesHeads view)
    (text : List Char) (line : Nat) (ts : List Token) :
    (deep (attach (lexeme text line .whitespace) ts)).filterMap view =
      (deep ts).filterMap view := by
  have hnone : ∀ text line, view (lexeme text line .whitespace) = none :=
    fun _ _ => hv.blank _ rfl
  unfold attach
  split <;> simp [deep, withParts, hnone]

/-- Stripping that drops nothing leaves all that can be seen of the tokens, at every depth. -/
theorem SeesHeads.filterMap_strip_keepAll {α : Type} {view : Token → Option α}
    (hv : SeesHeads view) (tokens : List Token) :
    (deep (strip keepAll tokens)).filterMap view = (deep tokens).filterMap view := by
  have nested : ∀ {part : Option (List Token)},
      (∀ s, part = some s → (deep (strip keepAll s)).filterMap view = (deep s).filterMap view) →
      (deepNested (stripNested keepAll part)).filterMap view =
        (deepNested part).filterMap view := by
    intro part ih
    cases part with
    | none => simp only [stripNested]
    | some s => simp only [stripNested, deepNested, ih s rfl]
  induction tokens using stream_induction with
  | nil => simp only [strip]
  | define text line name arguments body rest ha hb hr =>
    have hname : keepAll name = false := rfl
    simp only [strip, hname, Bool.false_eq_true, if_false, deep, withParts, List.cons_append,
      List.filterMap_cons, List.filterMap_append, nested ha, nested hb, hr]
    rw [hv.define text line name _ _ arguments body]
  | directive text line body rest hb hr =>
    simp only [strip, deep, withParts, List.cons_append, List.filterMap_cons,
      List.filterMap_append, nested hb, hr]
    rw [hv.directive text line _ body]
  | conditional text line test name rest hr =>
    simp only [strip, blankedComment, attach, deep, List.filterMap_append, hr]
  | definedTest text line name rest hr =>
    simp only [strip, blankedComment, attach, deep, List.filterMap_append, hr]
  | lexeme text line kind rest hr =>
    simp only [strip]
    cases kind with
    | whitespace | lineComment | blockComment =>
      simp only [blankedComment, hv.filterMap_attach, hr]
      exact (List.filterMap_cons_none (hv.blank _ rfl)).symm
    | _ => simp only [blankedComment, attach, deep, List.filterMap_append, hr]

theorem seesHeads_definedName? : SeesHeads definedName? where
  define _ _ _ _ _ _ _ := rfl
  directive _ _ _ _ := rfl
  blank t ht := by
    cases t with
    | define text line name arguments body => cases ht
    | _ => rfl

theorem definedNames_strip_keepAll (tokens : List Token) :
    definedNames (strip keepAll tokens) = definedNames tokens :=
  seesHeads_definedName?.filterMap_strip_keepAll tokens

/-- What a macro definition is apart from its parts: its text, its line and its name. -/
def definition? : Token → Option (List Char × Nat × Ident)
  | define text line name .. => some (text, line, name)
  | _ => none

/-- The macro definitions of a stream, at every depth. -/
def definitions (tokens : List Token) : List (List Char × Nat × Ident) :=
  (deep tokens).filterMap definition?

theorem seesHeads_definition? : SeesHeads definition? where
  define _ _ _ _ _ _ _ := rfl
  directive _ _ _ _ := rfl
  blank t ht := by
    cases t with
    | define text line name arguments body => cases ht
    | _ => rfl

theorem definitions_strip_keepAll (tokens : List Token) :
    definitions (strip keepAll tokens) = definitions tokens :=
  seesHeads_definition?.filterMap_strip_keepAll tokens

theorem length_definitions (tokens : List Token) : (definitions tokens).length = defines tokens := by
  have nested : ∀ {part : Option (List Token)},
      (∀ s, part = some s → (definitions s).length = defines s) →
      ((deepNested part).filterMap definition?).length = definesNested part := by
    intro part ih
    cases part with
    | none => simp only [deepNested, definesNested, List.filterMap_nil, List.length_nil]
    | some s =>
      rw [definesNested]
      exact ih s rfl
  induction tokens using stream_induction with
  | nil => simp only [definitions, deep, defines, List.filterMap_nil, List.length_nil]
  | define text line name arguments body rest ha hb hr =>
    have harguments := nested ha
    have hbody := nested hb
    simp only [definitions, deep, withParts, List.cons_append, List.filterMap_cons, definition?,
      List.filterMap_append, List.length_cons, List.length_append, defines] at hr ⊢
    omega
  | directive text line body rest hb hr =>
    have hbody := nested hb
    simp only [definitions, deep, withParts, List.cons_append, List.filterMap_cons, definition?,
      List.filterMap_append, List.length_append, defines] at hr ⊢
    omega
  | conditional text line test name rest hr | definedTest text line name rest hr
  | lexeme text line kind rest hr =>
    simp only [defines]
    exact hr

theorem occurrencesFrom_attach (followsPoint : Bool) (text : List Char) (line : Nat)
    (ts : List Token) :
    occurrencesFrom followsPoint (attach (lexeme text line .whitespace) ts) =
      occurrencesFrom followsPoint ts := by
  unfold attach
  split
  · next he =>
    cases he
    simp [occurrencesFrom, occurrencesOf, isBlank, isWhitespace]
  · simp [occurrencesFrom, occurrencesOf, isBlank, isWhitespace]

/-- Comments and blanks do not count, so a stream counts the same when only they change. -/
theorem occurrencesFrom_strip_keepAll (followsPoint : Bool) (tokens : List Token) :
    occurrencesFrom followsPoint (strip keepAll tokens) = occurrencesFrom followsPoint tokens := by
  have nested : ∀ {part : Option (List Token)},
      (∀ s, part = some s → ∀ followsPoint, occurrencesFrom followsPoint (strip keepAll s) =
        occurrencesFrom followsPoint s) →
      nestedOccurrences (stripNested keepAll part) = nestedOccurrences part := by
    intro part ih
    cases part with
    | none => simp only [stripNested]
    | some s => simp only [stripNested, nestedOccurrences, ih s rfl]
  induction tokens using stream_induction generalizing followsPoint with
  | nil => simp only [strip]
  | define text line name arguments body rest ha hb hr =>
    have hname : keepAll name = false := rfl
    simp only [strip, hname, Bool.false_eq_true, if_false, occurrencesFrom, occurrencesOf]
    rw [nested ha, nested hb, hr]
    rfl
  | directive text line body rest hb hr =>
    simp only [strip, occurrencesFrom, occurrencesOf, nested hb, hr]
    rfl
  | conditional text line test name rest hr =>
    simp only [strip, blankedComment, attach, occurrencesFrom, hr]
  | definedTest text line name rest hr =>
    simp only [strip, blankedComment, attach, occurrencesFrom, hr]
  | lexeme text line kind rest hr =>
    simp only [strip]
    cases kind with
    | whitespace | lineComment | blockComment =>
      simp only [blankedComment, occurrencesFrom_attach, hr]
      simp [occurrencesFrom, occurrencesOf, isBlank, isWhitespace, isComment]
    | _ => simp only [blankedComment, attach, occurrencesFrom, hr]

end ShaderPress.Token
