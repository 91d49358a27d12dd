import ShaderPress.Proofs.Ident.Words
import ShaderPress.Proofs.Token.Reading
import ShaderPress.Proofs.Token.Rules
import ShaderPress.Proofs.Token.Sites

/-! # The names of a source

Every identifier that the lexer notes is a word with an optional sigil and is spelled with
characters of the source.  So a source without sigils has words for its names.
-/
namespace ShaderPress

namespace Form
open Ident Pattern

/-- The identifier in a form, but for those in its parts. -/
def name? : Form → Option Ident
  | define _ _ name _ _ | conditional _ _ _ name | definedTest name => some name
  | lexeme text .identifier => some text
  | _ => none

theorem name?_subset_text {f : Form} {x : Ident} (h : f.name? = some x) : x ⊆ f.text := by
  cases f with
  | define gap space name arguments body =>
    cases h
    intro c hc
    simp [text, hc]
  | conditional gap test space name =>
    cases h
    intro c hc
    simp [text, hc]
  | definedTest name =>
    cases h
    intro c hc
    simp [text, hc]
  | lexeme w kind =>
    cases kind <;> cases h
    exact List.Subset.refl _
  | _ => cases h

theorem isName_of_named? {keyword : Keyword}
    {form : List Char → List Char → Ident → List Char → Form} {s : List Char} {f : Form} {x : Ident}
    (h : named? keyword form s = some f) (hx : f.name? = some x)
    (hform : ∀ before space name rest, (form before space name rest).name? = some name) :
    IsName x := by
  unfold named? at h
  split at h
  · cases h
  · next before t _ =>
    simp only at h
    split at h
    · split at h
      · cases h
        cases hx
      · cases h
    · next hn =>
      cases h
      rw [hform] at hx
      cases hx
      refine isName_identifier fun he => hn ?_
      rw [he]
      exact Bool.or_true _

theorem isName_of_first? {s : List Char} {f : Form} (h : first? s = some f) {x : Ident}
    (hx : f.name? = some x) : IsName x := by
  cases found_of_first? h with
  | define hr | conditional test hr => exact isName_of_named? hr hx fun _ _ _ _ => rfl
  | definedTest hr =>
    obtain ⟨name, rest, rfl, hname, hid, -⟩ := definedTest?_cases hr
    cases hx
    rw [← hid] at hname ⊢
    exact isName_identifier hname
  | directive hr =>
    obtain ⟨_, _, rfl, _⟩ := directive?_eq_some hr
    cases hx
  | lexeme kind hne =>
    cases kind with
    | identifier =>
      cases hx
      exact isName_identifier hne
    | _ => cases hx
  | unknown c rest hs => cases hx

theorem text_subset {s : List Char} {f : Form} (h : first? s = some f) : f.text ⊆ s := by
  rcases covers_of_first? h with ⟨keyword, rfl⟩ | ⟨hp, -⟩
  · exact List.nil_subset s
  · exact hp.subset

end Form

namespace Token
open Ident Pattern

/-- The names on a trail are words with an optional sigil, spelled with characters of the text. -/
theorem isName_of_mem_trail {policy : UnknownPolicy} {line : Nat} {s : List Char}
    {tokens : List Token} (h : (lexFrom policy line s).outcome = .ok tokens) :
    ∀ o ∈ (lexFrom policy line s).trail, IsName o.name ∧ o.name ⊆ s := by
  have part : ∀ {line u o tr s}, u ⊆ s →
      PartHolds (fun _ u _ tr => ∀ o ∈ tr, IsName o.name ∧ o.name ⊆ u) line u o tr →
      ∀ o ∈ tr, IsName o.name ∧ o.name ⊆ s := by
    intro line u o tr s hu hp
    rcases hp with ⟨-, -, rfl⟩ | ⟨-, ts, -, hts⟩
    · exact fun o ho => absurd ho List.not_mem_nil
    · exact fun o ho => ⟨(hts o ho).1, List.Subset.trans (hts o ho).2 hu⟩
  have rest : ∀ {u : List Char} {n : Nat} {tr : List Occurrence},
      (∀ o ∈ tr, IsName o.name ∧ o.name ⊆ u.drop n) → ∀ o ∈ tr, IsName o.name ∧ o.name ⊆ u :=
    fun hr o ho => ⟨(hr o ho).1, List.Subset.trans (hr o ho).2 (List.drop_subset _ _)⟩
  have own : ∀ {u : List Char} {f : Form} {x : Ident}, Form.first? u = some f → f.name? = some x →
      IsName x ∧ x ⊆ u :=
    fun hf hx => ⟨Form.isName_of_first? hf hx,
      List.Subset.trans (Form.name?_subset_text hx) (Form.text_subset hf)⟩
  refine lexFrom_induction (motive := fun _ s _ tr => ∀ o ∈ tr, IsName o.name ∧ o.name ⊆ s)
    ?_ ?_ ?_ ?_ ?_ ?_ ?_ s line tokens h
  · exact fun _ o ho => absurd ho List.not_mem_nil
  · intro line s gap space name arguments body a b ts ta tb tr hf ha hb text hr
    have htext := Form.text_subset hf
    have hin : arguments ⊆ s ∧ body ⊆ s := by
      refine ⟨fun c hc => htext ?_, fun c hc => htext ?_⟩
      · simp [Form.text, hc]
      · simp [Form.text, hc]
    simp only [List.forall_mem_append, List.forall_mem_cons]
    exact ⟨part hin.1 ha, part hin.2 hb, own hf rfl, rest hr⟩
  · intro line s gap test space name ts tr hf text hr
    exact List.forall_mem_cons.mpr ⟨own hf rfl, rest hr⟩
  · intro line s name ts tr hf text hr
    exact List.forall_mem_cons.mpr ⟨own hf rfl, rest hr⟩
  · intro line s gap body b ts tb tr hf hb text hr
    have hin : body ⊆ s := fun c hc => Form.text_subset hf (by simp [Form.text, hc])
    exact List.forall_mem_append.mpr ⟨part hin hb, rest hr⟩
  · intro line s text kind ts tr hf hr
    split
    · next hk =>
      subst hk
      exact List.forall_mem_cons.mpr ⟨own hf rfl, rest hr⟩
    · exact rest hr
  · intro line s c ts tr _ _ hr
    exact rest hr

theorem isWord_of_isName {x : Ident} (hx : IsName x) (hsigil : '@' ∉ x ∧ '$' ∉ x) : IsWord x := by
  cases x with
  | nil => exact hx
  | cons c x =>
    have hc : (c == '@' || c == '$') = false := by
      simp only [List.mem_cons, not_or] at hsigil
      simp [Ne.symm hsigil.1.1, Ne.symm hsigil.2.1]
    rwa [IsName, stripSigil, hc, if_neg Bool.false_ne_true] at hx

end Token

end ShaderPress
