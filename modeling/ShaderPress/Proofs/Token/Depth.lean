import ShaderPress.Token.Strip
import ShaderPress.Proofs.Token.Lexing

/-! # Tokens at every depth

The tokens of a stream together with those of all streams inside it.  Stripping leaves
no token that was not there, up to what it does to their parts, but for blanks.  Every
identifier that a lexed token carries has left its occurrence on the trail.
-/
namespace ShaderPress

def Occurrence.name : Occurrence → Ident
  | defined name | referenced name | tested name => name

namespace Token

/-- Induction over a token and, at once, over the tokens of its parts. -/
theorem parts_induction {motive : Token → Prop}
    (define : ∀ text line name arguments body, (∀ s, arguments = some s → ∀ t ∈ s, motive t) →
      (∀ s, body = some s → ∀ t ∈ s, motive t) → motive (define text line name arguments body))
    (conditional : ∀ text line test name, motive (conditional text line test name))
    (definedTest : ∀ text line name, motive (definedTest text line name))
    (directive : ∀ text line body, (∀ s, body = some s → ∀ t ∈ s, motive t) →
      motive (directive text line body))
    (lexeme : ∀ text line kind, motive (lexeme text line kind)) (t : Token) : motive t := by
  have h : ∀ ts : List Token, ∀ t ∈ ts, motive t := by
    intro ts
    induction ts using stream_induction with
    | nil => simp
    | define text line name arguments body rest ha hb hr =>
      exact List.forall_mem_cons.mpr ⟨define _ _ _ _ _ ha hb, hr⟩
    | conditional text line test name rest hr =>
      exact List.forall_mem_cons.mpr ⟨conditional _ _ _ _, hr⟩
    | definedTest text line name rest hr =>
      exact List.forall_mem_cons.mpr ⟨definedTest _ _ _, hr⟩
    | directive text line body rest hb hr =>
      exact List.forall_mem_cons.mpr ⟨directive _ _ _ hb, hr⟩
    | lexeme text line kind rest hr => exact List.forall_mem_cons.mpr ⟨lexeme _ _ _, hr⟩
  exact h [t] t (List.mem_singleton_self t)

mutual

/-- A token and the tokens of its parts. -/
def withParts : Token → List Token
  | define text line name arguments body =>
    define text line name arguments body :: (deepNested arguments ++ deepNested body)
  | directive text line body => directive text line body :: deepNested body
  | conditional text line test name => [conditional text line test name]
  | definedTest text line name => [definedTest text line name]
  | lexeme text line kind => [lexeme text line kind]

def deepNested : Option (List Token) → List Token
  | none => []
  | some tokens => deep tokens

/-- The tokens of a stream at every depth. -/
def deep : List Token → List Token
  | [] => []
  | t :: ts => t.withParts ++ deep ts

end

theorem deep_append (xs ys : List Token) : deep (xs ++ ys) = deep xs ++ deep ys := by
  induction xs with
  | nil => rfl
  | cons t ts ih => rw [List.cons_append, deep, deep, ih, List.append_assoc]

theorem self_mem_withParts (t : Token) : t ∈ t.withParts := by
  cases t <;> exact List.mem_cons_self

theorem mem_deep_of_mem_withParts {t u : Token} {tokens : List Token} (ht : t ∈ tokens)
    (hu : u ∈ t.withParts) : u ∈ deep tokens := by
  induction tokens with
  | nil => cases ht
  | cons v ts ih =>
    rcases List.mem_cons.mp ht with rfl | ht
    · exact List.mem_append_left _ hu
    · exact List.mem_append_right _ (ih ht)

theorem exists_mem_withParts {u : Token} {tokens : List Token} (hu : u ∈ deep tokens) :
    ∃ t ∈ tokens, u ∈ t.withParts := by
  induction tokens with
  | nil => cases hu
  | cons t ts ih =>
    rcases List.mem_append.mp hu with hu | hu
    · exact ⟨t, List.mem_cons_self, hu⟩
    · obtain ⟨v, hv, huv⟩ := ih hu
      exact ⟨v, List.mem_cons_of_mem t hv, huv⟩

/-- A property of a token and of the tokens of its parts, at every depth. -/
inductive Throughout (p : Token → Prop) : Token → Prop
  | define (text : List Char) (line : Nat) (name : Ident) (arguments body : Option (List Token))
      (own : p (.define text line name arguments body))
      (inArguments : ∀ s, arguments = some s → ∀ t ∈ s, Throughout p t)
      (inBody : ∀ s, body = some s → ∀ t ∈ s, Throughout p t) :
      Throughout p (.define text line name arguments body)
  | conditional (text : List Char) (line : Nat) (test : Conditional) (name : Ident)
      (own : p (.conditional text line test name)) : Throughout p (.conditional text line test name)
  | definedTest (text : List Char) (line : Nat) (name : Ident)
      (own : p (.definedTest text line name)) : Throughout p (.definedTest text line name)
  | directive (text : List Char) (line : Nat) (body : Option (List Token))
      (own : p (.directive text line body))
      (inBody : ∀ s, body = some s → ∀ t ∈ s, Throughout p t) :
      Throughout p (.directive text line body)
  | lexeme (text : List Char) (line : Nat) (kind : Lexeme)
      (own : p (.lexeme text line kind)) : Throughout p (.lexeme text line kind)

theorem Throughout.own {p : Token → Prop} {t : Token} (h : Throughout p t) : p t := by
  cases h <;> assumption

theorem throughout_of_withParts {p : Token → Prop} (t : Token) (h : ∀ u ∈ t.withParts, p u) :
    Throughout p t := by
  have nested : ∀ {part : Option (List Token)},
      (∀ s, part = some s → ∀ t ∈ s, (∀ u ∈ t.withParts, p u) → Throughout p t) →
      (∀ u ∈ deepNested part, p u) → ∀ s, part = some s → ∀ t ∈ s, Throughout p t := by
    rintro part ih hp s rfl t ht
    exact ih s rfl t ht fun u hu => hp u (mem_deep_of_mem_withParts ht hu)
  induction t using parts_induction with
  | define text line name arguments body ha hb =>
    simp only [withParts, List.forall_mem_cons, List.forall_mem_append] at h
    exact .define text line name arguments body h.1 (nested ha h.2.1) (nested hb h.2.2)
  | conditional text line test name =>
    exact .conditional text line test name (h _ (self_mem_withParts _))
  | definedTest text line name => exact .definedTest text line name (h _ (self_mem_withParts _))
  | directive text line body hb =>
    simp only [withParts, List.forall_mem_cons] at h
    exact .directive text line body h.1 (nested hb h.2)
  | lexeme text line kind => exact .lexeme text line kind (h _ (self_mem_withParts _))

/-- What holds of all tokens of a stream at every depth holds throughout its tokens. -/
theorem throughout_of_deep {p : Token → Prop} {tokens : List Token} (h : ∀ u ∈ deep tokens, p u) :
    ∀ t ∈ tokens, Throughout p t :=
  fun t ht => throughout_of_withParts t fun u hu => h u (mem_deep_of_mem_withParts ht hu)

theorem withParts_subset {u t : Token} (hu : u ∈ t.withParts) :
    u.withParts ⊆ t.withParts := by
  have nested : ∀ {part : Option (List Token)},
      (∀ s, part = some s → ∀ v ∈ s, u ∈ v.withParts → u.withParts ⊆ v.withParts) →
      u ∈ deepNested part → u.withParts ⊆ deepNested part := by
    intro part hp hmem
    cases part with
    | none => cases hmem
    | some s =>
      rw [deepNested] at hmem ⊢
      obtain ⟨v, hv, huv⟩ := exists_mem_withParts hmem
      exact fun w hw => mem_deep_of_mem_withParts hv (hp s rfl v hv huv hw)
  induction t using parts_induction with
  | define text line name arguments body ha hb =>
    rw [withParts, List.mem_cons, List.mem_append] at hu
    rcases hu with rfl | hu | hu
    · exact List.Subset.refl _
    · exact List.subset_cons_of_subset _ (List.subset_append_of_subset_left _ (nested ha hu))
    · exact List.subset_cons_of_subset _ (List.subset_append_of_subset_right _ (nested hb hu))
  | directive text line body hb =>
    rw [withParts, List.mem_cons] at hu
    rcases hu with rfl | hu
    · exact List.Subset.refl _
    · exact List.subset_cons_of_subset _ (nested hb hu)
  | conditional text line test name | definedTest text line name | lexeme text line kind =>
    obtain rfl := List.mem_singleton.mp hu
    exact List.Subset.refl _

def ownName? : Token → Option Ident
  | define _ _ name .. | conditional _ _ _ name | definedTest _ _ name => some name
  | lexeme text _ .identifier => some text
  | _ => none

/-- The identifiers of a stream at every depth, as the source spells them. -/
def mentioned (tokens : List Token) : List Ident := (deep tokens).filterMap ownName?

theorem mentioned_cons (t : Token) (ts : List Token) :
    mentioned (t :: ts) = t.withParts.filterMap ownName? ++ mentioned ts := List.filterMap_append

/-- A property of tokens that does not look into their parts and holds of whitespace. -/
structure Shallow (p : Token → Prop) : Prop where
  whitespace : ∀ text line, p (lexeme text line .whitespace)
  define : ∀ text line name a b a' b', p (define text line name a b) →
    p (define text line name a' b')
  directive : ∀ text line b b', p (directive text line b) → p (directive text line b')

/-- A property of tokens that is kept where their parts are stripped, and holds of whitespace. -/
structure KeptByStrip (dead : Ident → Bool) (p : Token → Prop) : Prop where
  whitespace : ∀ text line, p (lexeme text line .whitespace)
  define : ∀ text line name a b, p (define text line name a b) →
    p (define text line name (stripNested dead a) (stripNested dead b))
  directive : ∀ text line b, p (directive text line b) →
    p (directive text line (stripNested dead b))

theorem Shallow.keptByStrip {p : Token → Prop} (hp : Shallow p) (dead : Ident → Bool) :
    KeptByStrip dead p :=
  ⟨hp.whitespace, fun _ _ _ _ _ h => hp.define _ _ _ _ _ _ _ h,
    fun _ _ _ h => hp.directive _ _ _ _ h⟩

theorem forall_deep_attach_whitespace {p : Token → Prop}
    (hp : ∀ text line, p (lexeme text line .whitespace)) (text : List Char)
    (line : Nat) {ts : List Token} (h : ∀ t ∈ deep ts, p t) :
    ∀ t ∈ deep (attach (lexeme text line .whitespace) ts), p t := by
  unfold attach
  split
  · next text' line' next line₂ ts' he =>
    simp only [deep, withParts, List.singleton_append, List.forall_mem_cons] at h ⊢
    exact ⟨hp _ _, h.2⟩
  · simp only [deep, withParts, List.singleton_append, List.forall_mem_cons]
    exact ⟨hp _ _, h⟩

/-- Stripping leaves no comment, and what held of all other tokens holds of what is left. -/
theorem KeptByStrip.forall_deep_strip {p : Token → Prop} {dead : Ident → Bool}
    (hp : KeptByStrip dead p) {tokens : List Token} (h : ∀ t ∈ deep tokens, t.isComment = false → p t) :
    ∀ t ∈ deep (strip dead tokens), p t := by
  have nested : ∀ o : Option (List Token),
      (∀ s, o = some s → (∀ t ∈ deep s, t.isComment = false → p t) → ∀ t ∈ deep (strip dead s), p t) →
      (∀ t ∈ deepNested o, t.isComment = false → p t) → ∀ t ∈ deepNested (stripNested dead o), p t := by
    intro o ho hall
    cases o with
    | none => simp [stripNested, deepNested]
    | some s =>
      rw [stripNested]
      exact ho s rfl hall
  induction tokens using stream_induction with
  | nil => simp [strip, deep]
  | define text line name arguments body rest ha hb hr =>
    simp only [deep, withParts, List.cons_append, List.forall_mem_cons,
      List.forall_mem_append] at h
    obtain ⟨hd, ⟨haa, hbb⟩, hrr⟩ := h
    simp only [strip]
    split
    · exact hr hrr
    · simp only [deep, withParts, List.cons_append, List.forall_mem_cons,
        List.forall_mem_append]
      exact ⟨hp.define _ _ _ _ _ (hd rfl), ⟨nested _ ha haa, nested _ hb hbb⟩, hr hrr⟩
  | conditional text line test name rest hr =>
    simp only [deep, withParts, List.singleton_append, List.forall_mem_cons] at h
    simp only [strip, blankedComment, attach, deep, withParts, List.singleton_append,
      List.forall_mem_cons]
    exact ⟨h.1 rfl, hr h.2⟩
  | definedTest text line name rest hr =>
    simp only [deep, withParts, List.singleton_append, List.forall_mem_cons] at h
    simp only [strip, blankedComment, attach, deep, withParts, List.singleton_append,
      List.forall_mem_cons]
    exact ⟨h.1 rfl, hr h.2⟩
  | directive text line body rest hb hr =>
    simp only [deep, withParts, List.cons_append, List.forall_mem_cons,
      List.forall_mem_append] at h
    obtain ⟨hd, hbb, hrr⟩ := h
    simp only [strip, deep, withParts, List.cons_append, List.forall_mem_cons,
      List.forall_mem_append]
    exact ⟨hp.directive _ _ _ (hd rfl), nested _ hb hbb, hr hrr⟩
  | lexeme text line kind rest hr =>
    simp only [deep, withParts, List.singleton_append, List.forall_mem_cons] at h
    obtain ⟨hd, hrr⟩ := h
    simp only [strip]
    cases kind with
    | whitespace | lineComment | blockComment => exact forall_deep_attach_whitespace hp.whitespace _ _ (hr hrr)
    | _ =>
      simp only [blankedComment, attach, deep, withParts, List.singleton_append,
        List.forall_mem_cons]
      exact ⟨hd rfl, hr hrr⟩

theorem forall_deep_strip {p : Token → Prop} (hp : Shallow p) (dead : Ident → Bool)
    {tokens : List Token} (h : ∀ t ∈ deep tokens, t.isComment = false → p t) :
    ∀ t ∈ deep (strip dead tokens), p t :=
  (hp.keptByStrip dead).forall_deep_strip h

theorem isComment_of_mem_strip (dead : Ident → Bool) (tokens : List Token) :
    ∀ t ∈ deep (strip dead tokens), t.isComment = false :=
  forall_deep_strip ⟨fun _ _ => rfl, fun _ _ _ _ _ _ _ _ => rfl, fun _ _ _ _ _ => rfl⟩ dead
    fun _ _ h => h

/-- Stripping leaves no identifier that was not mentioned. -/
theorem mentioned_strip_subset (dead : Ident → Bool) (tokens : List Token) :
    mentioned (strip dead tokens) ⊆ mentioned tokens := by
  have hown : ∀ t ∈ deep (strip dead tokens), ∀ x, ownName? t = some x → x ∈ mentioned tokens := by
    refine forall_deep_strip ⟨fun _ _ x hx => ?_, fun _ _ _ _ _ _ _ h => h, fun _ _ _ _ h => h⟩ dead
      fun t ht _ x hx => List.mem_filterMap.mpr ⟨t, ht, hx⟩
    cases hx
  intro x hx
  obtain ⟨t, ht, hx⟩ := List.mem_filterMap.mp hx
  exact hown t ht x hx

/-- An identifier of a lexed stream has left its occurrence on the trail. -/
theorem mentioned_subset_trail {policy : UnknownPolicy} {line : Nat} {s : List Char}
    {tokens : List Token} (h : (lexFrom policy line s).outcome = .ok tokens) :
    mentioned tokens ⊆ (lexFrom policy line s).trail.map Occurrence.name := by
  have part : ∀ {line s o tr},
      PartHolds (fun _ _ ts tr => mentioned ts ⊆ tr.map Occurrence.name) line s o tr →
      (deepNested o).filterMap ownName? ⊆ tr.map Occurrence.name := by
    intro line s o tr hp
    rcases hp with ⟨-, rfl, -⟩ | ⟨-, ts, rfl, hts⟩
    · exact List.nil_subset _
    · exact hts
  refine lexFrom_induction (motive := fun _ _ ts tr => mentioned ts ⊆ tr.map Occurrence.name)
    ?_ ?_ ?_ ?_ ?_ ?_ ?_ s line tokens h
  · intro line
    exact List.nil_subset _
  · intro line s gap space name arguments body a b ts ta tb tr _ ha hb text hr x hx
    simp only [mentioned_cons, withParts, List.filterMap_cons, List.filterMap_append, ownName?,
      List.mem_append, List.mem_cons] at hx
    simp only [List.map_append, List.map_cons, List.mem_append, List.mem_cons, Occurrence.name]
    rcases hx with (rfl | hx | hx) | hx
    · exact Or.inr (Or.inr (Or.inl rfl))
    · exact Or.inl (part ha hx)
    · exact Or.inr (Or.inl (part hb hx))
    · exact Or.inr (Or.inr (Or.inr (hr hx)))
  · intro line s gap test space name ts tr _ text hr
    exact List.cons_subset_cons _ hr
  · intro line s name ts tr _ text hr
    exact List.cons_subset_cons _ hr
  · intro line s gap body b ts tb tr _ hb text hr x hx
    simp only [mentioned_cons, withParts, List.filterMap_cons, ownName?, List.mem_append] at hx
    rw [List.map_append, List.mem_append]
    exact hx.imp (part hb ·) (hr ·)
  · intro line s text kind ts tr _ hr
    by_cases hk : kind = .identifier
    · subst hk
      exact List.cons_subset_cons _ hr
    · have he : mentioned (lexeme text line kind :: ts) = mentioned ts := by
        cases kind <;> first | rfl | exact absurd rfl hk
      rwa [he, if_neg hk]
  · intro line s c ts tr _ _ hr
    exact hr

end Token

end ShaderPress
