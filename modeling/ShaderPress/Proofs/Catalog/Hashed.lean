import Mathlib
import ShaderPress.Proofs.Catalog.Priority
import ShaderPress.Proofs.Catalog.Updates

/-! # A catalog in hash maps

The counts, the positions and the references may be kept in a map each, which are changed one by
one and list their names in an order of their own.  Such a catalog holds what the list of entries
holds: the maps of counts and positions read at the names of the list and nowhere else.  So no name
is looked up in vain, and neither a recount nor the priorities depend on the order of listing.
-/
namespace ShaderPress

/-- A catalog with a map for each of its figures. -/
structure HashedCatalog where
  counts : Std.HashMap Ident Nat
  firstSeen : Std.HashMap Ident Nat
  references : Std.HashMap Ident Nat
  switches : List Ident

namespace HashedCatalog

def empty : HashedCatalog := ⟨∅, ∅, ∅, []⟩

def record (l : HashedCatalog) (name : Ident) (isReference : Bool) : HashedCatalog where
  counts := l.counts.insert name (l.counts.getD name 0 + 1)
  firstSeen := l.firstSeen.insertIfNew name l.firstSeen.size
  references :=
    if isReference then l.references.insert name (l.references.getD name 0 + 1) else l.references
  switches := l.switches

def recordSwitch (l : HashedCatalog) (name : Ident) : HashedCatalog :=
  if Ident.isExport name then { l with switches := Ident.insertSorted name l.switches } else l

def note (l : HashedCatalog) : Occurrence → HashedCatalog
  | .defined name => l.record name false
  | .referenced name => l.record name true
  | .tested name => (l.recordSwitch name).record name true

/-- A name without occurrences comes behind all others. -/
def enter (l : HashedCatalog) (name : Ident) : HashedCatalog where
  counts := l.counts.insert name 0
  firstSeen := l.firstSeen.insert name l.firstSeen.size
  references := l.references
  switches := l.switches

/-- The listed items with the positions of their names, if each name has one. -/
def standings? (l : HashedCatalog) (listing : List (Ident × Nat)) : Option (List Standing) :=
  listing.mapM fun a => (l.firstSeen[a.1]?).map (⟨a.1, a.2, ·⟩)

/-- The catalog of the streams, where the exports among the listed items that the streams do not
mention are put at the end in the order of their positions. -/
def recount? (l : HashedCatalog) (listing : List (Ident × Nat)) (streams : List (List Token)) :
    Option HashedCatalog := do
  let new := (streams.flatMap Token.occurrences).foldl note empty
  let vanished ← l.standings? <|
    listing.filter fun a => Ident.isExport a.1 && !new.counts.contains a.1
  return ((vanished.mergeSort fun s t => decide (s.position ≤ t.position)).map (·.name)).foldl
    enter new

/-- The listed items with the most frequent names first and, among equals, those met before. -/
def byPriority? (l : HashedCatalog) (listing : List (Ident × Nat)) :
    Option (List (Ident × Nat)) := do
  let standings ← l.standings? listing
  return (standings.mergeSort Standing.comesFirst).map Standing.frequency

def update? (l : HashedCatalog) (listing : List (Ident × Nat)) : Update → Option HashedCatalog
  | .record name isReference => some (l.record name isReference)
  | .recordSwitch name => some (l.recordSwitch name)
  | .recount streams => l.recount? listing streams

end HashedCatalog

section Reads

/-- The map has a value at the names of the list, which is that of `f`, and at no other. -/
def Reads (m : Std.HashMap Ident Nat) (names : List Ident) (f : Ident → Nat) : Prop :=
  ∀ x n, m[x]? = some n ↔ x ∈ names ∧ n = f x

variable {m : Std.HashMap Ident Nat} {names names' : List Ident} {f f' : Ident → Nat} {x : Ident}

theorem Reads.getElem?_of_mem (h : Reads m names f) (hx : x ∈ names) : m[x]? = some (f x) :=
  (h x (f x)).mpr ⟨hx, rfl⟩

theorem Reads.mem_iff (h : Reads m names f) : x ∈ m ↔ x ∈ names := by
  rw [Std.HashMap.mem_iff_isSome_getElem?, Option.isSome_iff_exists]
  constructor
  · rintro ⟨n, hn⟩
    exact ((h x n).mp hn).1
  · exact fun hx => ⟨f x, h.getElem?_of_mem hx⟩

theorem Reads.getD (h : Reads m names f) (hf : x ∉ names → f x = 0) : m.getD x 0 = f x := by
  by_cases hx : x ∈ names
  · rw [Std.HashMap.getD_eq_getD_getElem?, h.getElem?_of_mem hx, Option.getD_some]
  · rw [Std.HashMap.getD_eq_fallback (mt h.mem_iff.mp hx), hf hx]

theorem Reads.insert (h : Reads m names f) (hnames : ∀ y, y ∈ names' ↔ y = x ∨ y ∈ names)
    (hf : ∀ y ∈ names, y ≠ x → f' y = f y) {n : Nat} (hn : f' x = n) :
    Reads (m.insert x n) names' f' := by
  intro y k
  rw [Std.HashMap.getElem?_insert, hnames]
  by_cases hy : x = y
  · subst hy
    simp [hn, eq_comm]
  · simp only [beq_iff_eq, hy, if_false, Ne.symm hy, false_or]
    rw [h y k]
    refine and_congr_right fun hmem => ?_
    rw [hf y hmem (Ne.symm hy)]

theorem Reads.keys_perm (h : Reads m names f) (hnodup : names.Nodup) : m.keys.Perm names := by
  rw [List.perm_ext_iff_of_nodup Std.HashMap.nodup_keys hnodup]
  intro x
  rw [Std.HashMap.mem_keys, h.mem_iff]

theorem Reads.size_eq (h : Reads m names f) (hnodup : names.Nodup) : m.size = names.length := by
  rw [← Std.HashMap.length_keys]
  exact (h.keys_perm hnodup).length_eq

theorem Reads.toList_perm (h : Reads m names f) (hnodup : names.Nodup) :
    m.toList.Perm (names.map fun x => (x, f x)) := by
  have hlist : m.toList = m.keys.map fun x => (x, f x) := by
    rw [← Std.HashMap.map_fst_toList_eq_keys, List.map_map]
    conv_lhs => rw [← List.map_id m.toList]
    apply List.map_congr_left
    rintro ⟨x, n⟩ hx
    rw [Std.HashMap.mem_toList_iff_getElem?_eq_some] at hx
    exact congrArg (Prod.mk x) ((h x n).mp hx).2
  rw [hlist]
  exact (h.keys_perm hnodup).map _

/-- A new name takes the position behind all others. -/
theorem Reads.insert_last (h : Reads m names names.idxOf) (hnodup : names.Nodup) (hx : x ∉ names) :
    Reads (m.insert x m.size) (names ++ [x]) (names ++ [x]).idxOf := by
  refine h.insert (fun y => ?_) (fun y hy _ => ?_) ?_
  · rw [List.mem_append, List.mem_singleton, or_comm]
  · rw [List.idxOf_append, if_pos hy]
  · rw [List.idxOf_append, if_neg hx, List.idxOf_cons_self, Nat.zero_add, h.size_eq hnodup]

/-- A name keeps the position that it has. -/
theorem Reads.insertIfNew (h : Reads m names names.idxOf) (hnodup : names.Nodup)
    (hnames : names' = if x ∈ names then names else names ++ [x]) :
    Reads (m.insertIfNew x m.size) names' names'.idxOf := by
  intro y n
  rw [Std.HashMap.getElem?_insertIfNew]
  by_cases hx : x ∈ names
  · rw [if_pos hx] at hnames
    rw [if_neg (not_and_not_right.mpr fun _ => h.mem_iff.mpr hx), hnames]
    exact h y n
  · rw [if_neg hx] at hnames
    have hlast := h.insert_last hnodup hx y n
    rw [Std.HashMap.getElem?_insert] at hlast
    simp only [mt h.mem_iff.mp hx, not_false_eq_true, and_true]
    rw [hnames, ← hlast]

end Reads

namespace HashedCatalog
open Catalog
variable {l : HashedCatalog} {c : Catalog} {listing : List (Ident × Nat)}

/-- The maps hold what the entries of the catalog hold. -/
structure Holds (l : HashedCatalog) (c : Catalog) : Prop where
  counts : Reads l.counts c.names c.count
  firstSeen : Reads l.firstSeen c.names c.names.idxOf
  references : ∀ x, l.references.getD x 0 = c.referenceCount x
  switches : l.switches = c.switches

theorem holds_empty : empty.Holds Catalog.empty := by
  have hempty : ∀ f, Reads ∅ Catalog.empty.names f := by
    intro f x n
    rw [Std.HashMap.getElem?_empty]
    exact ⟨nofun, fun hx => absurd hx.1 List.not_mem_nil⟩
  exact ⟨hempty _, hempty _, fun _ => Std.HashMap.getD_empty, rfl⟩

theorem Holds.record (h : l.Holds c) (hnodup : c.names.Nodup) (name : Ident) (isReference : Bool) :
    (l.record name isReference).Holds (c.record name isReference) := by
  refine ⟨?_, h.firstSeen.insertIfNew hnodup names_record, fun x => ?_, h.switches⟩
  · refine h.counts.insert (fun y => mem_map_name_bump) (fun y _ hy => ?_) ?_
    · rw [count_record, beq_false_of_ne (Ne.symm hy), Bool.toNat_false, Nat.add_zero]
    · rw [h.counts.getD count_of_not_mem, count_record, beq_self_eq_true, Bool.toNat_true]
  · rw [referenceCount_record]
    cases isReference with
    | false => exact h.references x
    | true =>
      have hinsert : (l.record name true).references =
        l.references.insert name (l.references.getD name 0 + 1) := rfl
      rw [hinsert, Std.HashMap.getD_insert, Bool.true_and]
      by_cases hx : name = x
      · subst hx
        simp [h.references]
      · simp [hx, h.references]

theorem Holds.recordSwitch (h : l.Holds c) (name : Ident) :
    (l.recordSwitch name).Holds (c.recordSwitch name) := by
  unfold HashedCatalog.recordSwitch Catalog.recordSwitch
  split
  · exact ⟨h.counts, h.firstSeen, h.references, congrArg (Ident.insertSorted name) h.switches⟩
  · exact h

theorem Holds.note (h : l.Holds c) (hnodup : c.names.Nodup) (o : Occurrence) :
    (l.note o).Holds (c.note o) := by
  cases o with
  | defined name => exact h.record hnodup name false
  | referenced name => exact h.record hnodup name true
  | tested name =>
    have hnames : (c.recordSwitch name).names.Nodup := by rwa [names_recordSwitch]
    exact (h.recordSwitch name).record hnames name true

theorem Holds.replay (h : l.Holds c) (hnodup : c.names.Nodup) (trail : List Occurrence) :
    (trail.foldl HashedCatalog.note l).Holds (c.replay trail) := by
  induction trail generalizing l c with
  | nil => exact h
  | cons o trail ih => exact ih (h.note hnodup o) (nodup_names_replay hnodup [o])

theorem Holds.enter (h : l.Holds c) {name : Ident} (hnodup : c.names.Nodup) (hname : name ∉ c.names) :
    (l.enter name).Holds (c.withUnseen [name]) := by
  refine ⟨?_, ?_, fun x => ?_, h.switches⟩
  · refine h.counts.insert (fun y => ?_) (fun y _ _ => count_withUnseen) ?_
    · rw [names_withUnseen, List.mem_append, List.mem_singleton, or_comm]
    · rw [count_withUnseen, count_of_not_mem hname]
  · rw [names_withUnseen]
    exact h.firstSeen.insert_last hnodup hname
  · rw [referenceCount_withUnseen]
    exact h.references x

theorem Holds.enterAll (h : l.Holds c) {added : List Ident} (hnodup : (c.names ++ added).Nodup) :
    (added.foldl HashedCatalog.enter l).Holds (c.withUnseen added) := by
  induction added generalizing l c with
  | nil =>
    rw [withUnseen_nil]
    exact h
  | cons name added ih =>
    obtain ⟨hc, -, hdisjoint⟩ := List.nodup_append.mp hnodup
    have hname : name ∉ c.names := fun hmem => hdisjoint name hmem name List.mem_cons_self rfl
    rw [← withUnseen_withUnseen]
    apply ih (h.enter hc hname)
    rw [names_withUnseen, List.append_assoc]
    exact hnodup

theorem mapM_eq_some_map {α β : Type} {f : α → Option β} {g : α → β} {xs : List α}
    (h : ∀ x ∈ xs, f x = some (g x)) : xs.mapM f = some (xs.map g) := by
  induction xs with
  | nil => rfl
  | cons x xs ih =>
    rw [List.forall_mem_cons] at h
    rw [List.mapM_cons, h.1, ih h.2]
    rfl

theorem Holds.standings?_eq (h : l.Holds c) (hlisting : ∀ a ∈ listing, a.1 ∈ c.names) :
    l.standings? listing = some (listing.map (standing c.names.idxOf)) := by
  apply mapM_eq_some_map
  intro a ha
  rw [h.firstSeen.getElem?_of_mem (hlisting a ha)]
  rfl

theorem pairwise_idxOf {names : List Ident} (h : names.Nodup) :
    names.Pairwise fun x y => names.idxOf x < names.idxOf y := by
  rw [List.pairwise_iff_getElem]
  intro i j hi hj hij
  rw [h.idxOf_getElem, h.idxOf_getElem]
  exact hij

/-- Sorting by position puts some names of a list in the order that they have there. -/
theorem map_name_mergeSort_position {names kept : List Ident} (hnodup : names.Nodup)
    (hkept : kept.Sublist names) (hperm : (listing.map Prod.fst).Perm kept) :
    ((listing.map (standing names.idxOf)).mergeSort
      fun s t => decide (s.position ≤ t.position)).map (·.name) = kept := by
  have hsort := List.mergeSort_perm (listing.map (standing names.idxOf))
    fun s t => decide (s.position ≤ t.position)
  have hnames := hsort.map (·.name)
  rw [List.map_map] at hnames
  have hsorted := hnames.trans hperm
  have hordered : (((listing.map (standing names.idxOf)).mergeSort
      fun s t => decide (s.position ≤ t.position)).map (·.name)).Pairwise
      fun x y => names.idxOf x ≤ names.idxOf y := by
    rw [List.pairwise_map]
    apply List.Pairwise.imp_of_mem _ (List.pairwise_mergeSort _ _ _)
    · intro s t hs ht hst
      obtain ⟨a, -, rfl⟩ := List.mem_map.mp (hsort.mem_iff.mp hs)
      obtain ⟨b, -, rfl⟩ := List.mem_map.mp (hsort.mem_iff.mp ht)
      exact of_decide_eq_true hst
    · intro s t u hst htu
      rw [decide_eq_true_eq] at hst htu ⊢
      exact Nat.le_trans hst htu
    · intro s t
      rw [Bool.or_eq_true, decide_eq_true_eq, decide_eq_true_eq]
      exact Nat.le_total _ _
  refine List.Perm.eq_of_pairwise (fun x y hx _ hxy hyx => ?_) hordered ?_ hsorted
  · have hmem := hkept.subset (hsorted.mem_iff.mp hx)
    exact (List.idxOf_inj hmem).mp (Nat.le_antisymm hxy hyx)
  · exact ((pairwise_idxOf hnodup).sublist hkept).imp Nat.le_of_lt

theorem Holds.map_fst_perm (h : l.Holds c) (hnodup : c.names.Nodup)
    (hlisting : listing.Perm l.counts.toList) : (listing.map Prod.fst).Perm c.names := by
  have hkeys := hlisting.map Prod.fst
  rw [Std.HashMap.map_fst_toList_eq_keys] at hkeys
  exact hkeys.trans (h.counts.keys_perm hnodup)

theorem Holds.mem_names (h : l.Holds c) (hnodup : c.names.Nodup)
    (hlisting : listing.Perm l.counts.toList) {a : Ident × Nat} (ha : a ∈ listing) :
    a.1 ∈ c.names :=
  (h.map_fst_perm hnodup hlisting).mem_iff.mp (List.mem_map_of_mem ha)

/-- Some of the names, found in any listing and put in the order of their positions. -/
theorem Holds.standings?_filter (h : l.Holds c) (hnodup : c.names.Nodup)
    (hlisting : listing.Perm l.counts.toList) (chosen : Ident → Bool) :
    ∃ standings, l.standings? (listing.filter (chosen ∘ Prod.fst)) = some standings ∧
      (standings.mergeSort fun s t => decide (s.position ≤ t.position)).map (·.name) =
        c.names.filter chosen := by
  have hperm : ((listing.filter (chosen ∘ Prod.fst)).map Prod.fst).Perm (c.names.filter chosen) := by
    rw [← List.filter_map]
    exact (h.map_fst_perm hnodup hlisting).filter chosen
  refine ⟨_, h.standings?_eq fun a ha => ?_,
    map_name_mergeSort_position hnodup List.filter_sublist hperm⟩
  exact h.mem_names hnodup hlisting (List.mem_of_mem_filter ha)

theorem Holds.contains_counts (h : l.Holds c) (x : Ident) :
    l.counts.contains x = c.names.contains x := by
  rw [Bool.eq_iff_iff, List.contains_iff_mem, Std.HashMap.contains_iff_mem]
  exact h.counts.mem_iff

theorem Holds.recount? (h : l.Holds c) (hnodup : c.names.Nodup)
    (hlisting : listing.Perm l.counts.toList) (streams : List (List Token)) :
    ∃ l', l.recount? listing streams = some l' ∧ l'.Holds (c.recount streams) := by
  let new := (streams.flatMap Token.occurrences).foldl HashedCatalog.note empty
  let c' := Catalog.empty.replay (streams.flatMap Token.occurrences)
  let missing : Ident → Bool := fun x => Ident.isExport x && !new.counts.contains x
  have hnew : new.Holds c' := holds_empty.replay List.nodup_nil _
  have hrecount : c.recount streams = c'.withUnseen (c.names.filter missing) := by
    rw [recount_eq_withUnseen]
    simp only [missing, hnew.contains_counts]
    rfl
  obtain ⟨standings, hstandings, hsorted⟩ := h.standings?_filter hnodup hlisting missing
  refine ⟨(c.names.filter missing).foldl HashedCatalog.enter new, ?_, ?_⟩
  · have hunfold : l.recount? listing streams =
      (l.standings? (listing.filter (missing ∘ Prod.fst))).bind fun vanished =>
        some (((vanished.mergeSort fun s t => decide (s.position ≤ t.position)).map
          (·.name)).foldl HashedCatalog.enter new) := rfl
    rw [hunfold, hstandings, Option.bind_some, hsorted]
  · have hadded : (c.recount streams).names.Nodup := nodup_names_recount hnodup
    rw [hrecount, names_withUnseen] at hadded
    rw [hrecount]
    exact hnew.enterAll hadded

theorem Holds.update? (h : l.Holds c) (hnodup : c.names.Nodup)
    (hlisting : listing.Perm l.counts.toList) (u : Update) :
    ∃ l', l.update? listing u = some l' ∧ l'.Holds (c.update u) := by
  cases u with
  | record name isReference => exact ⟨_, rfl, h.record hnodup name isReference⟩
  | recordSwitch name => exact ⟨_, rfl, h.recordSwitch name⟩
  | recount streams => exact h.recount? hnodup hlisting streams

end HashedCatalog

end ShaderPress
