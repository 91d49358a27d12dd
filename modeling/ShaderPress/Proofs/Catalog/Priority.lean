import Mathlib
import ShaderPress.Catalog.Basic

/-! # The order of priority

The priority of a catalog goes by the counts of the names and, where these are equal, by their
positions.  Names apart have positions apart, so no two of them tie: however the names are listed
at first, sorting leaves the one list that is strictly ordered.
-/
namespace ShaderPress

/-- A name with its count and its position, by which it is sorted. -/
structure Standing where
  name : Ident
  count : Nat
  position : Nat

namespace Standing

/-- More frequent names come first, and those met before among equals. -/
def comesFirst (s t : Standing) : Bool :=
  decide (t.count < s.count) || s.count == t.count && decide (s.position ≤ t.position)

def frequency (s : Standing) : Ident × Nat := (s.name, s.count)

theorem comesFirst_iff {s t : Standing} : s.comesFirst t = true ↔
    t.count < s.count ∨ s.count = t.count ∧ s.position ≤ t.position := by
  simp [comesFirst]

theorem pairwise_mergeSort_comesFirst (standings : List Standing) :
    (standings.mergeSort comesFirst).Pairwise fun s t => s.comesFirst t = true := by
  apply List.pairwise_mergeSort
  · intro s t u hst htu
    rw [comesFirst_iff] at hst htu ⊢
    omega
  · intro s t
    rw [Bool.or_eq_true, comesFirst_iff, comesFirst_iff]
    omega

end Standing

section Ranked
variable {position : Ident → Nat} {listing listing' : List (Ident × Nat)}

/-- Strictly before in the order of priority. -/
def Precedes (position : Ident → Nat) (a b : Ident × Nat) : Prop :=
  b.2 < a.2 ∨ a.2 = b.2 ∧ position a.1 < position b.1

def standing (position : Ident → Nat) (a : Ident × Nat) : Standing := ⟨a.1, a.2, position a.1⟩

/-- The names with their counts, sorted by these and by the positions. -/
def ranked (position : Ident → Nat) (listing : List (Ident × Nat)) : List (Ident × Nat) :=
  ((listing.map (standing position)).mergeSort Standing.comesFirst).map Standing.frequency

/-- No two of a list can stand both ways, so it has one strictly ordered arrangement. -/
theorem eq_of_pairwise_precedes (hperm : listing.Perm listing')
    (h : listing.Pairwise (Precedes position)) (h' : listing'.Pairwise (Precedes position)) :
    listing = listing' := by
  apply List.Perm.eq_of_pairwise _ h h' hperm
  intro a b _ _ hab hba
  unfold Precedes at hab hba
  omega

theorem ranked_perm (position : Ident → Nat) (listing : List (Ident × Nat)) :
    (ranked position listing).Perm listing := by
  have hperm := (List.mergeSort_perm (listing.map (standing position)) Standing.comesFirst).map
    Standing.frequency
  rw [List.map_map] at hperm
  exact hperm.trans (List.Perm.of_eq (List.map_id listing))

theorem pairwise_ranked (hnodup : (listing.map Prod.fst).Nodup)
    (hinj : Set.InjOn position {x | x ∈ listing.map Prod.fst}) :
    (ranked position listing).Pairwise (Precedes position) := by
  have hperm := List.mergeSort_perm (listing.map (standing position)) Standing.comesFirst
  have hstanding : ∀ s ∈ (listing.map (standing position)).mergeSort Standing.comesFirst,
      s.position = position s.name ∧ s.name ∈ listing.map Prod.fst := by
    intro s hs
    obtain ⟨a, ha, rfl⟩ := List.mem_map.mp (hperm.mem_iff.mp hs)
    exact ⟨rfl, List.mem_map_of_mem ha⟩
  have hnames : ((listing.map (standing position)).mergeSort Standing.comesFirst).Pairwise
      fun s t => s.name ≠ t.name := by
    rw [← List.pairwise_map, hperm.map Standing.name |>.pairwise_iff Ne.symm, List.map_map]
    exact hnodup
  rw [ranked, List.pairwise_map]
  apply List.Pairwise.imp_of_mem _ ((Standing.pairwise_mergeSort_comesFirst _).and hnames)
  rintro s t hs ht ⟨hst, hne⟩
  obtain ⟨hs, hsname⟩ := hstanding s hs
  obtain ⟨ht, htname⟩ := hstanding t ht
  have hposition : position s.name ≠ position t.name := fun h => hne (hinj hsname htname h)
  rw [Standing.comesFirst_iff, hs, ht] at hst
  simp only [Precedes, Standing.frequency]
  omega

theorem ranked_congr {position' : Ident → Nat}
    (h : ∀ a ∈ listing, position a.1 = position' a.1) :
    ranked position listing = ranked position' listing := by
  have hstanding : listing.map (standing position) = listing.map (standing position') :=
    List.map_congr_left fun a ha => congrArg (Standing.mk a.1 a.2) (h a ha)
  rw [ranked, ranked, hstanding]

/-- The order in which the names are listed is of no account. -/
theorem ranked_eq_of_perm (hnodup : (listing.map Prod.fst).Nodup)
    (hinj : Set.InjOn position {x | x ∈ listing.map Prod.fst}) (hperm : listing'.Perm listing) :
    ranked position listing' = ranked position listing := by
  have hnames := hperm.map Prod.fst
  have hinj' : Set.InjOn position {x | x ∈ listing'.map Prod.fst} := by
    simpa only [hnames.mem_iff] using hinj
  have hranked := (ranked_perm position listing').trans hperm
  exact eq_of_pairwise_precedes (hranked.trans (ranked_perm position listing).symm)
    (pairwise_ranked (hnames.nodup_iff.mpr hnodup) hinj') (pairwise_ranked hnodup hinj)

end Ranked

/-- What naming sees of an entry. -/
def Entry.frequency (e : Entry) : Ident × Nat := (e.name, e.total)

namespace Catalog
variable {c : Catalog}

theorem names_eq_map_frequency (c : Catalog) :
    c.names = (c.entries.map Entry.frequency).map Prod.fst := by
  rw [List.map_map]
  rfl

theorem names_byPriority_eq (c : Catalog) : c.byPriority.map (·.name) =
    ((c.entries.map Entry.frequency).mergeSort fun a b => decide (b.2 ≤ a.2)).map Prod.fst := by
  have hsort : (c.entries.map Entry.frequency).mergeSort (fun a b => decide (b.2 ≤ a.2)) =
      c.byPriority.map Entry.frequency :=
    (List.map_mergeSort (f := Entry.frequency) fun a _ b _ => rfl).symm
  rw [hsort, List.map_map]
  rfl

theorem total_eq_count (h : c.names.Nodup) {e : Entry} (he : e ∈ c.entries) :
    e.total = c.count e.name := by
  obtain ⟨e', hfind⟩ : ∃ e', c.find? e.name = some e' := by
    rw [find?, ← Option.isSome_iff_exists, List.find?_isSome]
    exact ⟨e, he, decide_eq_true rfl⟩
  have hname : e'.name = e.name := by simpa using List.find?_some hfind
  have heq : e' = e := List.inj_on_of_nodup_map h (List.mem_of_find?_eq_some hfind) he hname
  rw [count, hfind, heq, Option.elim_some]

/-- The names, each with its count. -/
theorem map_frequency_eq (h : c.names.Nodup) :
    c.entries.map Entry.frequency = c.names.map fun x => (x, c.count x) := by
  rw [names, List.map_map]
  apply List.map_congr_left
  intro e he
  exact congrArg (Prod.mk e.name) (total_eq_count h he)

theorem idxOf_name_eq (h : c.names.Nodup) {e : Entry} {i : Nat} (hp : (e, i) ∈ c.entries.zipIdx) :
    c.names.idxOf e.name = i := by
  obtain ⟨hi, he⟩ := List.mem_zipIdx' hp
  have hi' : i < c.names.length := by rwa [names, List.length_map]
  have hname : c.names[i] = c.entries[i].name := List.getElem_map _
  rw [he, ← hname]
  exact h.idxOf_getElem i hi'

/-- A stable sort by the counts alone leaves equals in the order of their positions. -/
theorem byPriority_eq_ranked (h : c.names.Nodup) : c.byPriority.map Entry.frequency =
    ranked c.names.idxOf (c.entries.map Entry.frequency) := by
  let le (a b : Entry) : Bool := decide (b.total ≤ a.total)
  let place (p : Entry × Nat) : Standing := ⟨p.1.name, p.1.total, p.2⟩
  have hentries : c.entries = c.entries.zipIdx.map Prod.fst := (List.zipIdx_map_fst 0 _).symm
  have hplaces : (c.entries.map Entry.frequency).map (standing c.names.idxOf) =
      c.entries.zipIdx.map place := by
    conv_lhs => rw [hentries]
    rw [List.map_map, List.map_map]
    apply List.map_congr_left
    rintro ⟨e, i⟩ hp
    exact congrArg (Standing.mk e.name e.total) (idxOf_name_eq h hp)
  have hsort : (c.entries.zipIdx.mergeSort (List.zipIdxLE le)).map place =
      (c.entries.zipIdx.map place).mergeSort Standing.comesFirst := by
    apply List.map_mergeSort
    intro a _ b _
    rw [Bool.eq_iff_iff, Standing.comesFirst_iff]
    simp only [List.zipIdxLE, le, place, decide_eq_true_eq]
    split_ifs <;> simp <;> omega
  rw [byPriority, ← List.mergeSort_zipIdx, ranked, hplaces, ← hsort, List.map_map, List.map_map]
  rfl

theorem injOn_idxOf (names : List Ident) : Set.InjOn names.idxOf {x | x ∈ names} :=
  fun _ hx _ _ hxy => (List.idxOf_inj hx).mp hxy

theorem ranked_eq_byPriority (h : c.names.Nodup) {listing : List (Ident × Nat)}
    (hlisting : listing.Perm (c.entries.map Entry.frequency)) :
    ranked c.names.idxOf listing = c.byPriority.map Entry.frequency := by
  have hnames : (c.entries.map Entry.frequency).map Prod.fst = c.names :=
    (names_eq_map_frequency c).symm
  rw [byPriority_eq_ranked h]
  apply ranked_eq_of_perm _ _ hlisting
  · rwa [hnames]
  · rw [hnames]
    exact injOn_idxOf c.names

end Catalog

end ShaderPress
