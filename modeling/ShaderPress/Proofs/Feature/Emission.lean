import ShaderPress.Feature.Block
import ShaderPress.Proofs.Outcome

/-! # Writing the blocks

A source is written exactly if each of its variants passes all checks, and then it is the header
followed by the blocks.  Otherwise the first variant that fails a check is reported, with the
first check that it fails.
-/
namespace ShaderPress

theorem BlockLine.render_append (lines more : List BlockLine) :
    render (lines ++ more) = render lines ++ render more :=
  List.flatMap_append

namespace Universe
variable {u : Universe} {v : Variant} {vs : List Variant} {e : VariantError}

theorem check_eq_error_iff : u.check v = .error e ↔
    VariantCheck.all.find? (!VariantCheck.passes u v ·) = some e.check ∧
      e.namespaceName = v.namespaceName u.width := by
  unfold check
  split
  · next c hc =>
    rw [hc, Except.error.injEq, Option.some.injEq]
    constructor
    · rintro rfl
      exact ⟨rfl, rfl⟩
    · rintro ⟨rfl, hname⟩
      rw [← hname]
  · next hc => simp [hc]

theorem check_eq_ok_iff : u.check v = .ok () ↔ ∀ c : VariantCheck, c.passes u v = true := by
  have hall : ∀ c : VariantCheck, c ∈ VariantCheck.all := by
    intro c
    cases c <;> decide
  have hnone : u.check v = .ok () ↔
      VariantCheck.all.find? (!VariantCheck.passes u v ·) = none := by
    unfold check
    split
    · next hc => simp [hc]
    · next hc => simp [hc]
  rw [hnone, List.find?_eq_none]
  exact ⟨fun h c => by simpa using h c (hall c), fun h c _ => by simp [h c]⟩

theorem emitVariant_of_check (h : u.check v = .ok ()) :
    u.emitVariant v = .ok (BlockLine.render (v.block u)) := by
  rw [emitVariant, h]
  rfl

theorem emitVariant_of_check_error (h : u.check v = .error e) : u.emitVariant v = .error e := by
  rw [emitVariant, h]
  rfl

theorem emitBlocks_of_checks (h : ∀ v ∈ vs, u.check v = .ok ()) :
    u.emitBlocks vs = .ok (BlockLine.render (vs.flatMap (Variant.block u))) := by
  induction vs with
  | nil => rfl
  | cons v vs ih =>
    rw [List.forall_mem_cons] at h
    rw [emitBlocks, emitVariant_of_check h.1, ih h.2, List.flatMap_cons, BlockLine.render_append]
    rfl

theorem emitBlocks_of_check_error {before after : List Variant}
    (hbefore : ∀ w ∈ before, u.check w = .ok ()) (h : u.check v = .error e) :
    u.emitBlocks (before ++ v :: after) = .error e := by
  induction before with
  | nil =>
    rw [List.nil_append, emitBlocks, emitVariant_of_check_error h]
    rfl
  | cons w before ih =>
    rw [List.forall_mem_cons] at hbefore
    rw [List.cons_append, emitBlocks, emitVariant_of_check hbefore.1, ih hbefore.2]
    rfl

/-- Either all variants pass, or there is a first one that does not. -/
theorem checks_cases (u : Universe) (vs : List Variant) : (∀ v ∈ vs, u.check v = .ok ()) ∨
    ∃ before v after e, vs = before ++ v :: after ∧ (∀ w ∈ before, u.check w = .ok ()) ∧
      u.check v = .error e := by
  induction vs with
  | nil => exact Or.inl (by simp)
  | cons v vs ih =>
    cases hv : u.check v with
    | error e => exact Or.inr ⟨[], v, vs, e, rfl, by simp, hv⟩
    | ok =>
      rcases ih with h | ⟨before, w, after, e, rfl, hbefore, hw⟩
      · exact Or.inl (List.forall_mem_cons.mpr ⟨hv, h⟩)
      · exact Or.inr ⟨v :: before, w, after, e, rfl, List.forall_mem_cons.mpr ⟨hv, hbefore⟩, hw⟩

theorem emitVariants_of_checks (h : ∀ v ∈ vs, u.check v = .ok ()) : u.emitVariants vs =
    .ok (generatedHeader ++ BlockLine.render (vs.flatMap (Variant.block u))) := by
  rw [emitVariants, emitBlocks_of_checks h]
  rfl

theorem emitVariants_of_check_error {before after : List Variant}
    (hbefore : ∀ w ∈ before, u.check w = .ok ()) (h : u.check v = .error e) :
    u.emitVariants (before ++ v :: after) = .error e := by
  rw [emitVariants, emitBlocks_of_check_error hbefore h]
  rfl

theorem emitVariants_eq_ok_iff {source : List Char} : u.emitVariants vs = .ok source ↔
    (∀ v ∈ vs, u.check v = .ok ()) ∧
      source = generatedHeader ++ BlockLine.render (vs.flatMap (Variant.block u)) := by
  constructor
  · intro h
    rcases checks_cases u vs with hall | ⟨before, v, after, e, rfl, hbefore, hv⟩
    · rw [emitVariants_of_checks hall] at h
      exact ⟨hall, (Except.ok.inj h).symm⟩
    · rw [emitVariants_of_check_error hbefore hv] at h
      cases h
  · rintro ⟨hall, rfl⟩
    exact emitVariants_of_checks hall

theorem emitVariants_eq_error_iff : u.emitVariants vs = .error e ↔
    ∃ before v after, vs = before ++ v :: after ∧ (∀ w ∈ before, u.check w = .ok ()) ∧
      u.check v = .error e := by
  constructor
  · intro h
    rcases checks_cases u vs with hall | ⟨before, v, after, e', rfl, hbefore, hv⟩
    · rw [emitVariants_of_checks hall] at h
      cases h
    · rw [emitVariants_of_check_error hbefore hv] at h
      cases h
      exact ⟨before, v, after, rfl, hbefore, hv⟩
  · rintro ⟨before, v, after, rfl, hbefore, hv⟩
    exact emitVariants_of_check_error hbefore hv

end Universe

end ShaderPress
