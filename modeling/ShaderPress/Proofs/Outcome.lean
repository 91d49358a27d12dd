import Mathlib.Data.List.Forall2

/-! # Steps that can fail

A row of steps in `Except` that succeeds is a row of steps that each succeed.
-/
namespace ShaderPress

theorem exists_of_bind_eq_ok {ε α β : Type} {x : Except ε α} {f : α → Except ε β} {b : β}
    (h : (x >>= f) = .ok b) : ∃ a, x = .ok a ∧ f a = .ok b := by
  cases x with
  | error e => cases h
  | ok a => exact ⟨a, rfl, h⟩

theorem exists_bind_eq_ok_iff {ε α β : Type} {x : Except ε α} {f : α → Except ε β} :
    (∃ b, (x >>= f) = .ok b) ↔ ∃ a, x = .ok a ∧ ∃ b, f a = .ok b := by
  constructor
  · rintro ⟨b, h⟩
    obtain ⟨a, hx, ha⟩ := exists_of_bind_eq_ok h
    exact ⟨a, hx, b, ha⟩
  · rintro ⟨a, rfl, b, h⟩
    exact ⟨b, h⟩

theorem forall₂_of_mapM {α β ε : Type} {f : α → Except ε β} {xs : List α} {ys : List β}
    (h : xs.mapM f = .ok ys) : List.Forall₂ (fun x y => f x = .ok y) xs ys := by
  induction xs generalizing ys with
  | nil =>
    cases h
    exact .nil
  | cons x xs ih =>
    rw [List.mapM_cons] at h
    obtain ⟨y, hy, h⟩ := exists_of_bind_eq_ok h
    obtain ⟨zs, hzs, h⟩ := exists_of_bind_eq_ok h
    cases h
    exact .cons hy (ih hzs)

theorem mem_iff_of_mapM {α β ε : Type} {f : α → Except ε β} {xs : List α} {ys : List β}
    (h : xs.mapM f = .ok ys) {y : β} : y ∈ ys ↔ ∃ x ∈ xs, f x = .ok y := by
  have hall := forall₂_of_mapM h
  clear h
  induction hall with
  | nil => simp
  | cons hx _ ih =>
    rw [List.mem_cons, List.exists_mem_cons_iff, hx, Except.ok.injEq]
    exact or_congr eq_comm ih

theorem forall_mem_iff_of_mapM {α β ε : Type} {f : α → Except ε β} {xs : List α} {ys : List β}
    (h : xs.mapM f = .ok ys) {P : α → Prop} {Q : β → Prop}
    (hsame : ∀ x y, f x = .ok y → (P x ↔ Q y)) : (∀ x ∈ xs, P x) ↔ ∀ y ∈ ys, Q y := by
  have hall := forall₂_of_mapM h
  clear h
  induction hall with
  | nil => simp
  | cons hx _ ih =>
    rw [List.forall_mem_cons, List.forall_mem_cons, hsame _ _ hx]
    exact and_congr_right fun _ => ih

theorem exists_mapM_eq_ok_iff {α β ε : Type} {f : α → Except ε β} {xs : List α} :
    (∃ ys, xs.mapM f = .ok ys) ↔ ∀ x ∈ xs, ∃ y, f x = .ok y := by
  induction xs with
  | nil => exact iff_of_true ⟨[], rfl⟩ nofun
  | cons x xs ih =>
    rw [List.mapM_cons, exists_bind_eq_ok_iff, List.forall_mem_cons, ← ih]
    constructor
    · rintro ⟨y, hy, h⟩
      obtain ⟨ys, hys, -⟩ := exists_bind_eq_ok_iff.mp h
      exact ⟨⟨y, hy⟩, ys, hys⟩
    · rintro ⟨⟨y, hy⟩, ys, hys⟩
      exact ⟨y, hy, exists_bind_eq_ok_iff.mpr ⟨ys, hys, y :: ys, rfl⟩⟩

theorem exists_of_mapM_eq_error {α β ε : Type} {f : α → Except ε β} {xs : List α} {e : ε}
    (h : xs.mapM f = .error e) : ∃ x ∈ xs, f x = .error e := by
  induction xs with
  | nil => cases h
  | cons x xs ih =>
    rw [List.mapM_cons] at h
    cases hx : f x with
    | error e' =>
      rw [hx] at h
      cases h
      exact ⟨x, List.mem_cons_self, hx⟩
    | ok y =>
      rw [hx] at h
      cases hxs : xs.mapM f with
      | error e' =>
        rw [hxs] at h
        cases h
        obtain ⟨z, hz, hfz⟩ := ih hxs
        exact ⟨z, List.mem_cons_of_mem x hz, hfz⟩
      | ok ys =>
        rw [hxs] at h
        cases h

/-- A row of steps that fail in one way alone fails in this way if one of them does. -/
theorem mapM_eq_error {α β ε : Type} {f : α → Except ε β} {xs : List α} {e : ε}
    (h : ∀ x ∈ xs, ∀ e', f x = .error e' → e' = e) (hx : ∃ x ∈ xs, f x = .error e) :
    xs.mapM f = .error e := by
  cases hxs : xs.mapM f with
  | ok ys =>
    obtain ⟨x, hmem, hfx⟩ := hx
    obtain ⟨y, hy⟩ := exists_mapM_eq_ok_iff.mp ⟨ys, hxs⟩ x hmem
    rw [hfx] at hy
    cases hy
  | error e' =>
    obtain ⟨x, hmem, hfx⟩ := exists_of_mapM_eq_error hxs
    rw [h x hmem e' hfx]

theorem mapM_mapError {α β ε ε' : Type} {f : α → Except ε β} {g : α → Except ε' β} {e : ε → ε'}
    {xs : List α} (h : ∀ x ∈ xs, g x = (f x).mapError e) : xs.mapM g = (xs.mapM f).mapError e := by
  induction xs with
  | nil => rfl
  | cons x xs ih =>
    rw [List.forall_mem_cons] at h
    rw [List.mapM_cons, List.mapM_cons, h.1, ih h.2]
    cases f x with
    | error => rfl
    | ok => cases xs.mapM f <;> rfl

theorem filterMap_of_mapM {α β ε : Type} {f : α → Except ε β} {xs : List α} {ys : List β}
    (h : xs.mapM f = .ok ys) : xs.filterMap (fun x => (f x).toOption) = ys := by
  have hall := forall₂_of_mapM h
  clear h
  induction hall with
  | nil => rfl
  | cons hx _ ih =>
    rw [List.filterMap_cons, hx, ih]
    rfl

/-- Steps taken in another order give the same results in another order. -/
theorem perm_of_mapM {α β ε : Type} {f : α → Except ε β} {xs xs' : List α} {ys ys' : List β}
    (hperm : xs.Perm xs') (h : xs.mapM f = .ok ys) (h' : xs'.mapM f = .ok ys') : ys.Perm ys' := by
  rw [← filterMap_of_mapM h, ← filterMap_of_mapM h']
  exact hperm.filterMap _

end ShaderPress
