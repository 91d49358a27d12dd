import Mathlib
import ShaderPress.Proofs.Ident.FirstFree
import ShaderPress.Proofs.Rename.Fixpoint

/-! # Names are given greedily

Each identifier gets the first name of its style that is still free, although the search never
goes back behind the names it has passed: a name that was not free once is never free again.
What carries a run is the relation between its state and the names given so far.
-/
namespace ShaderPress.RenameTable
open NameStyle

/-- A name that may be given after others: it is not reserved, none of the spellings that stay
as they are, and has not been given. -/
structure Free (c : Catalog) (given : List (Ident × List Char)) (name : List Char) : Prop where
  unreserved : Ident.isReserved name = false
  notKept : ∀ y ∈ kept c, Ident.literal y ≠ name
  notSwitch : ∀ y ∈ c.switches, Ident.stripSigil y ≠ name
  notGiven : ∀ p ∈ given, p.2 ≠ name

/-- The first free name of an identifier's style, with its number. -/
structure FirstFree (c : Catalog) (given : List (Ident × List Char)) (x : Ident) (name : List Char)
    (index : Nat) : Prop where
  named : name = (styleOf x).nameAt index
  short : name.length ≤ maxLength
  free : Free c given name
  first : ∀ j < index, ¬ Free c given ((styleOf x).nameAt j)

/-- Every identifier gets the first name that those before it have left free. -/
def Greedy (c : Catalog) (given : List (Ident × List Char)) : List (Ident × List Char) → Prop
  | [] => True
  | (x, name) :: rest =>
    (∃ index, FirstFree c given x name index) ∧ Greedy c (given ++ [(x, name)]) rest

/-- No short name is left for an identifier. -/
def Exhausted (c : Catalog) (given : List (Ident × List Char)) (x : Ident) : Prop :=
  ∀ index, ((styleOf x).nameAt index).length ≤ maxLength →
    ¬ Free c given ((styleOf x).nameAt index)

section
variable {c : Catalog} {given rest : List (Ident × List Char)} {a : Allocation} {x : Ident}
  {name : List Char}

theorem Free.of_append (h : Free c (given ++ rest) name) : Free c given name :=
  ⟨h.unreserved, h.notKept, h.notSwitch, fun p hp => h.notGiven p (List.mem_append_left _ hp)⟩

/-- The state of a run after some names: these and the spellings that stay are used, and no number
that a style has passed has a free name. -/
structure Tracks (c : Catalog) (given : List (Ident × List Char)) (a : Allocation) : Prop where
  used : ∀ name, name ∈ a.used ↔ name ∈ claimed c ∨ ∃ p ∈ given, p.2 = name
  passed : ∀ style, ∀ j < a.next style, ¬ Free c given (style.nameAt j)

theorem tracks_start (c : Catalog) : Tracks c [] ⟨claimed c, 0, 0⟩ :=
  ⟨fun name => by simp, fun style j hj => by cases style <;> exact absurd hj (Nat.not_lt_zero j)⟩

theorem mem_claimed : name ∈ claimed c ↔
    (∃ y ∈ kept c, Ident.literal y = name) ∨ ∃ y ∈ c.switches, Ident.stripSigil y = name := by
  simp only [claimed, literals, List.map_map, List.mem_append, List.mem_map, Function.comp_apply]

theorem Tracks.isTaken_eq_false (h : Tracks c given a) :
    a.isTaken name = false ↔ Free c given name := by
  rw [RenameTable.isTaken_eq_false, h.used, mem_claimed]
  constructor
  · rintro ⟨hr, hu⟩
    exact ⟨hr, fun y hy he => hu (Or.inl (Or.inl ⟨y, hy, he⟩)),
      fun y hy he => hu (Or.inl (Or.inr ⟨y, hy, he⟩)), fun p hp he => hu (Or.inr ⟨p, hp, he⟩)⟩
  · rintro ⟨hr, hkept, hswitch, hgiven⟩
    refine ⟨hr, ?_⟩
    rintro ((⟨y, hy, he⟩ | ⟨y, hy, he⟩) | ⟨p, hp, he⟩)
    · exact hkept y hy he
    · exact hswitch y hy he
    · exact hgiven p hp he

theorem Tracks.isTaken_eq_true (h : Tracks c given a) :
    a.isTaken name = true ↔ ¬ Free c given name := by
  rw [← h.isTaken_eq_false, Bool.not_eq_false]

/-- What the search finds from where its style stands is the first free name of all. -/
theorem Tracks.firstFree?_eq_some (h : Tracks c given a) {index : Nat} :
    (styleOf x).firstFree? a.isTaken (a.next (styleOf x)) = some (name, index) ↔
      FirstFree c given x name index := by
  rw [firstFree?_eq_some_iff, h.isTaken_eq_false]
  constructor
  · rintro ⟨hnext, hname, hshort, hfree, hbefore⟩
    refine ⟨hname, hshort, hfree, fun j hj => ?_⟩
    rcases Nat.lt_or_ge j (a.next (styleOf x)) with hpassed | hge
    · exact h.passed _ j hpassed
    · exact h.isTaken_eq_true.mp (hbefore j hge hj)
  · rintro ⟨rfl, hshort, hfree, hfirst⟩
    refine ⟨?_, rfl, hshort, hfree, fun j _ hj => h.isTaken_eq_true.mpr (hfirst j hj)⟩
    by_contra hlt
    exact h.passed _ index (Nat.lt_of_not_le hlt) hfree

theorem Tracks.firstFree?_eq_none (h : Tracks c given a) :
    (styleOf x).firstFree? a.isTaken (a.next (styleOf x)) = none ↔ Exhausted c given x := by
  rw [firstFree?_eq_none_iff]
  constructor
  · intro hall j hshort
    rcases Nat.lt_or_ge j (a.next (styleOf x)) with hpassed | hge
    · exact h.passed _ j hpassed
    · exact h.isTaken_eq_true.mp (hall j hge hshort)
  · exact fun hall j _ hshort => h.isTaken_eq_true.mpr (hall j hshort)

theorem next_take (a : Allocation) (style style' : NameStyle) (name : List Char) (index : Nat) :
    (a.take style name index).next style' =
      if style' = style then index + 1 else a.next style' := by
  cases style <;> cases style' <;> rfl

/-- Giving a name keeps the relation: no name becomes free, and the one given is no longer. -/
theorem Tracks.take (h : Tracks c given a) {index : Nat} (hf : FirstFree c given x name index) :
    Tracks c (given ++ [(x, name)]) (a.take (styleOf x) name index) := by
  constructor
  · intro other
    rw [used_take, List.mem_cons, h.used]
    simp only [List.mem_append, List.mem_singleton]
    constructor
    · rintro (rfl | hc | ⟨p, hp, he⟩)
      · exact Or.inr ⟨(x, other), Or.inr rfl, rfl⟩
      · exact Or.inl hc
      · exact Or.inr ⟨p, Or.inl hp, he⟩
    · rintro (hc | ⟨p, hp | rfl, he⟩)
      · exact Or.inr (Or.inl hc)
      · exact Or.inr (Or.inr ⟨p, hp, he⟩)
      · exact Or.inl he.symm
  · intro style j hj hfree
    rw [next_take] at hj
    split at hj
    · next hs =>
      subst hs
      rcases Nat.lt_succ_iff_lt_or_eq.mp hj with hlt | rfl
      · exact hf.first j hlt hfree.of_append
      · exact hfree.notGiven (x, name) (by simp) hf.named
    · exact h.passed style j hj hfree.of_append

end

section
variable {c : Catalog} {given : List (Ident × List Char)} {a : Allocation}

theorem generate_cons_eq_error {x : Ident} {xs : List Ident} {e : NamingError} :
    generate a (x :: xs) = .error e ↔
      (styleOf x).firstFree? a.isTaken (a.next (styleOf x)) = none ∧
          e = .nameSpaceExhausted x maxLength ∨
        ∃ name index,
          (styleOf x).firstFree? a.isTaken (a.next (styleOf x)) = some (name, index) ∧
            generate (a.take (styleOf x) name index) xs = .error e := by
  cases hf : (styleOf x).firstFree? a.isTaken (a.next (styleOf x)) with
  | none =>
    simp only [generate, hf, true_and, reduceCtorEq, false_and, exists_const, or_false]
    exact ⟨fun h => (Except.error.inj h).symm, fun h => congrArg _ h.symm⟩
  | some p =>
    obtain ⟨name, index⟩ := p
    have hu : a.used.contains name = false := by
      simpa using (RenameTable.isTaken_eq_false.mp (firstFree?_eq_some hf).2.2).2
    simp only [generate, hf, hu, Bool.false_eq_true, if_false, reduceCtorEq, false_and, false_or,
      Option.some.injEq, Prod.mk.injEq]
    constructor
    · intro h
      refine ⟨name, index, ⟨rfl, rfl⟩, ?_⟩
      cases hg : generate (a.take (styleOf x) name index) xs with
      | error e' =>
        rw [hg] at h
        exact h
      | ok l =>
        rw [hg] at h
        cases h
    · rintro ⟨_, _, ⟨rfl, rfl⟩, h⟩
      rw [h]
      rfl

theorem generate_eq_ok_iff (h : Tracks c given a) {xs : List Ident} {l : List (Ident × List Char)} :
    generate a xs = .ok l ↔ Greedy c given l ∧ l.map Prod.fst = xs := by
  induction xs generalizing given a l with
  | nil =>
    rw [List.map_eq_nil_iff]
    constructor
    · rintro ⟨⟩
      exact ⟨trivial, rfl⟩
    · rintro ⟨-, rfl⟩
      rfl
  | cons x xs ih =>
    rw [generate_cons_eq_ok]
    constructor
    · rintro ⟨name, index, rest, hf, hr, rfl⟩
      have hfirst := h.firstFree?_eq_some.mp hf
      obtain ⟨hgreedy, hnames⟩ := (ih (h.take hfirst)).mp hr
      exact ⟨⟨⟨index, hfirst⟩, hgreedy⟩, congrArg (x :: ·) hnames⟩
    · rintro ⟨hgreedy, hnames⟩
      obtain ⟨⟨y, name⟩, rest, rfl, rfl, hrest⟩ := List.map_eq_cons_iff.mp hnames
      obtain ⟨⟨index, hfirst⟩, hgreedy⟩ := hgreedy
      exact ⟨name, index, rest, h.firstFree?_eq_some.mpr hfirst,
        (ih (h.take hfirst)).mpr ⟨hgreedy, hrest⟩, rfl⟩

theorem generate_eq_error_iff (h : Tracks c given a) {xs : List Ident} {e : NamingError} :
    generate a xs = .error e ↔ ∃ l x rest, Greedy c given l ∧ xs = l.map Prod.fst ++ x :: rest ∧
      Exhausted c (given ++ l) x ∧ e = .nameSpaceExhausted x maxLength := by
  induction xs generalizing given a with
  | nil =>
    refine ⟨nofun, ?_⟩
    rintro ⟨l, x, rest, -, hxs, -⟩
    simp at hxs
  | cons x xs ih =>
    rw [generate_cons_eq_error, h.firstFree?_eq_none]
    constructor
    · rintro (⟨hnone, rfl⟩ | ⟨name, index, hf, he⟩)
      · exact ⟨[], x, xs, trivial, rfl, by rwa [List.append_nil], rfl⟩
      · have hfirst := h.firstFree?_eq_some.mp hf
        obtain ⟨l, y, rest, hgreedy, rfl, hnone, rfl⟩ := (ih (h.take hfirst)).mp he
        refine ⟨(x, name) :: l, y, rest, ⟨⟨index, hfirst⟩, hgreedy⟩, rfl, ?_, rfl⟩
        rwa [List.append_cons]
    · rintro ⟨l, y, rest, hgreedy, hxs, hnone, rfl⟩
      cases l with
      | nil =>
        obtain ⟨rfl, -⟩ := List.cons.inj hxs
        exact Or.inl ⟨by rwa [List.append_nil] at hnone, rfl⟩
      | cons p l =>
        obtain ⟨z, name⟩ := p
        obtain ⟨rfl, rfl⟩ := List.cons.inj hxs
        obtain ⟨⟨index, hfirst⟩, hgreedy⟩ := hgreedy
        refine Or.inr ⟨name, index, h.firstFree?_eq_some.mpr hfirst, ?_⟩
        refine (ih (h.take hfirst)).mpr ⟨l, y, rest, hgreedy, rfl, ?_, rfl⟩
        rwa [List.append_assoc]

/-- Every name that is given was free when the first one was. -/
theorem free_of_greedy {l : List (Ident × List Char)} (h : Greedy c given l) :
    ∀ p ∈ l, ∃ index, p.2 = (styleOf p.1).nameAt index ∧ Free c given p.2 := by
  induction l generalizing given with
  | nil => exact fun p hp => absurd hp List.not_mem_nil
  | cons p l ih =>
    obtain ⟨⟨index, hfirst⟩, hgreedy⟩ := h
    refine List.forall_mem_cons.mpr ⟨⟨index, hfirst.named, hfirst.free⟩, fun q hq => ?_⟩
    obtain ⟨j, hname, hfree⟩ := ih hgreedy q hq
    exact ⟨j, hname, hfree.of_append⟩

/-- Among names of one style an earlier one is never longer. -/
theorem pairwise_length_of_greedy {l : List (Ident × List Char)} (h : Greedy c given l) :
    l.Pairwise fun p q => styleOf p.1 = styleOf q.1 → p.2.length ≤ q.2.length := by
  induction l generalizing given with
  | nil => exact .nil
  | cons p l ih =>
    obtain ⟨⟨index, hfirst⟩, hgreedy⟩ := h
    refine List.pairwise_cons.mpr ⟨fun q hq hstyle => ?_, ih hgreedy⟩
    obtain ⟨j, hname, hfree⟩ := free_of_greedy hgreedy q hq
    have hle : index ≤ j := by
      by_contra hlt
      refine hfirst.first j (Nat.lt_of_not_le hlt) ?_
      rw [hstyle, ← hname]
      exact hfree.of_append
    rw [hfirst.named, hname, hstyle]
    exact length_nameAt_mono _ hle

end

section
variable {c : Catalog}

theorem get?_of_given {given : List (Ident × List Char)} (hgiven : given.map Prod.fst = renamed c)
    (hc : c.names.Nodup) : ∀ p ∈ given, get? ⟨literals (kept c) ++ given⟩ p.1 = some p.2 := by
  intro p hp
  have hnodup : (given.map Prod.fst).Nodup := by
    rw [hgiven]
    refine List.Nodup.filter _ ?_
    exact ((List.mergeSort_perm _ _).map _).nodup_iff.mpr hc
  have hx : p.1 ∈ renamed c := hgiven ▸ List.mem_map_of_mem hp
  exact (get?_of_mem_renamed hx given).trans (lookup_of_mem hnodup hp)

/-- Naming gives the identifiers that are renamed, in order of priority, each the first name of its
style that is free after those before it.  It fails exactly if an identifier in turn finds no
short name free, and says which; two identifiers are never offered one name.  So among
identifiers of one style an earlier one never has a longer name. -/
theorem allocate_greedy (c : Catalog) :
    (∀ t, allocate c false = .ok t ↔ ∃ given, Greedy c [] given ∧ given.map Prod.fst = renamed c ∧
      t = ⟨literals (kept c) ++ given⟩) ∧
    (∀ given, given.map Prod.fst = renamed c → c.names.Nodup →
      ∀ p ∈ given, get? ⟨literals (kept c) ++ given⟩ p.1 = some p.2) ∧
    (∀ e, allocate c false = .error e ↔ ∃ given x rest, Greedy c [] given ∧
      renamed c = given.map Prod.fst ++ x :: rest ∧ Exhausted c given x ∧
      e = .nameSpaceExhausted x maxLength) ∧
    (∀ x name, allocate c false ≠ .error (.nameCollision x name)) ∧
    ∀ given, Greedy c [] given →
      given.Pairwise fun p q => styleOf p.1 = styleOf q.1 → p.2.length ≤ q.2.length := by
  have hok : ∀ l, generate ⟨claimed c, 0, 0⟩ (renamed c) = .ok l ↔
      Greedy c [] l ∧ l.map Prod.fst = renamed c := fun _ => generate_eq_ok_iff (tracks_start c)
  have herror : ∀ e, generate ⟨claimed c, 0, 0⟩ (renamed c) = .error e ↔
      ∃ l x rest, Greedy c [] l ∧ renamed c = l.map Prod.fst ++ x :: rest ∧
        Exhausted c ([] ++ l) x ∧ e = .nameSpaceExhausted x maxLength :=
    fun _ => generate_eq_error_iff (tracks_start c)
  refine ⟨fun t => ?_, fun given => get?_of_given, fun e => ?_, fun x name he => ?_,
    fun given => pairwise_length_of_greedy⟩
  · constructor
    · intro h
      obtain ⟨given, hg, ht⟩ := allocate_false_eq_ok h
      obtain ⟨hgreedy, hnames⟩ := (hok given).mp hg
      exact ⟨given, hgreedy, hnames, ht⟩
    · rintro ⟨given, hgreedy, hnames, rfl⟩
      rw [allocate_false, (hok given).mpr ⟨hgreedy, hnames⟩]
      rfl
  · rw [allocate_false]
    refine Iff.trans ?_ (herror e)
    cases generate ⟨claimed c, 0, 0⟩ (renamed c) with
    | ok l => exact ⟨nofun, nofun⟩
    | error e' =>
      exact ⟨fun h => congrArg _ (Except.error.inj h), fun h => congrArg _ (Except.error.inj h)⟩
  · obtain ⟨y, hy⟩ := allocate_eq_error he
    cases hy

set_option maxRecDepth 8000 in
/-- `a` stays with `$a`, `b` is reserved, and the plain spelling of the switch has claimed `A`. -/
theorem allocate_greedy_of_switch :
    let c := Catalog.empty.replay [.tested ['@', 'A'], .referenced ['A'], .referenced ['$', 'a']]
    let given : List (Ident × List Char) := [(['@', 'A'], ['B']), (['A'], ['c'])]
    allocate c false = .ok ⟨(['$', 'a'], ['a']) :: given⟩ ∧ Greedy c [] given ∧
      get? ⟨(['$', 'a'], ['a']) :: given⟩ ['A'] = some ['c'] := by
  intro c given
  have h : allocate c false = .ok ⟨(['$', 'a'], ['a']) :: given⟩ := by cbv
  have hkept : literals (kept c) = [(['$', 'a'], ['a'])] := by cbv
  have hnodup : c.names.Nodup := by decide
  obtain ⟨given', hgreedy, hnames, ht⟩ := ((allocate_greedy c).1 _).mp h
  have hgiven : given' = given := by
    rw [hkept] at ht
    exact (List.cons.inj (RenameTable.mk.inj ht)).2.symm
  subst hgiven
  have hget := (allocate_greedy c).2.1 _ hnames hnodup (['A'], ['c']) (by simp [given])
  rw [hkept] at hget
  exact ⟨h, hgreedy, hget⟩

end

end ShaderPress.RenameTable
