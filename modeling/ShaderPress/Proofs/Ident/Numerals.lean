import Mathlib
import ShaderPress.Proofs.Ident.FirstFree

/-! # Names as numerals

The letters behind the first one are the digits of a number in the base of their alphabet, and a
last letter that is the zero of the alphabet would be a leading zero.  So such strings and numbers
determine each other.  The first letter is one more digit in a base of its own, and with it every
name has one number and every number one name.
-/
namespace ShaderPress.NameGenerator
variable {alphabet letters : List Char} {g : NameGenerator} {n : Nat}

section Loop

/-- Writing a number comes to an end with some letters.  While something of the number is left, its
last digit is looked up and taken away. -/
inductive Writes (alphabet : List Char) : Nat → List Char → Prop
  | nothingLeft : Writes alphabet 0 []
  | goesOn {left : Nat} {c : Char} {letters : List Char} (something : left ≠ 0)
      (digit : alphabet[left % alphabet.length]? = some c)
      (rest : Writes alphabet (left / alphabet.length) letters) :
      Writes alphabet left (c :: letters)

/-- The same for a name, whose first letter is looked up before the others. -/
inductive WritesName (g : NameGenerator) (index : Nat) : List Char → Prop
  | mk {c : Char} {letters : List Char}
      (first : g.first[index % g.first.length]? = some c)
      (rest : Writes g.continuation (index / g.first.length) letters) :
      WritesName g index (c :: letters)

theorem digits_eq_cons {c : Char} (hn : n ≠ 0) (h : 2 ≤ alphabet.length)
    (hc : alphabet[n % alphabet.length]? = some c) :
    digits alphabet n = c :: digits alphabet (n / alphabet.length) := by
  obtain ⟨_, rfl⟩ := List.getElem?_eq_some_iff.mp hc
  rw [digits, dif_neg (by omega)]

/-- The loop ends with the digits.  With fewer than two letters it only ends for zero. -/
theorem writes_iff :
    Writes alphabet n letters ↔ letters = digits alphabet n ∧ (n = 0 ∨ 2 ≤ alphabet.length) := by
  constructor
  · intro h
    induction h with
    | nothingLeft => exact ⟨by simp [digits], Or.inl rfl⟩
    | @goesOn left c letters something digit rest ih =>
      obtain ⟨hrest, hends⟩ := ih
      obtain ⟨hlt, -⟩ := List.getElem?_eq_some_iff.mp digit
      have hlength : 2 ≤ alphabet.length := by
        by_contra hshort
        -- dividing by one takes nothing away
        have hone : alphabet.length = 1 := by omega
        rw [hone, Nat.div_one] at hends
        omega
      exact ⟨by rw [digits_eq_cons something hlength digit, hrest], Or.inr hlength⟩
  · rintro ⟨rfl, h⟩
    fun_induction digits alphabet n with
    | case1 n hn =>
      obtain rfl : n = 0 := by omega
      exact .nothingLeft
    | case2 n hn hlt hdiv ih =>
      exact .goesOn (by omega) (List.getElem?_eq_getElem hlt) (ih (by omega))

theorem writesName_iff (hfirst : g.first ≠ []) (hcontinuation : 2 ≤ g.continuation.length)
    {index : Nat} {name : List Char} : g.WritesName index name ↔ name = g.nameAt index := by
  have hlt : index % g.first.length < g.first.length :=
    Nat.mod_lt _ (List.length_pos_iff.mpr hfirst)
  have hfirst' := List.getElem?_eq_getElem hlt
  rw [nameAt, hfirst']
  constructor
  · rintro ⟨hc, hrest⟩
    rw [hfirst', Option.some_inj] at hc
    rw [hc, (writes_iff.mp hrest).1]
    rfl
  · rintro rfl
    exact .mk hfirst' (writes_iff.mpr ⟨rfl, Or.inr hcontinuation⟩)

end Loop

section Numerals

/-- The number that letters stand for, the least significant first. -/
def value (alphabet letters : List Char) : Nat :=
  Nat.ofDigits alphabet.length (letters.map alphabet.idxOf)

/-- Letters of an alphabet that do not end with its zero. -/
structure IsNumeral (alphabet letters : List Char) : Prop where
  mem : ∀ c ∈ letters, c ∈ alphabet
  last : ∀ c ∈ letters.getLast?, alphabet.head? ≠ some c

theorem eq_of_map_idxOf_eq {letters' : List Char} (h : ∀ c ∈ letters, c ∈ alphabet)
    (h' : ∀ c ∈ letters', c ∈ alphabet)
    (heq : letters.map alphabet.idxOf = letters'.map alphabet.idxOf) : letters = letters' := by
  have hread : ∀ l : List Char, (∀ c ∈ l, c ∈ alphabet) →
      (l.map alphabet.idxOf).map (alphabet[·]?) = l.map some := by
    intro l hl
    rw [List.map_map]
    exact List.map_congr_left fun c hc => List.getElem?_idxOf (hl c hc)
  apply List.map_injective_iff.mpr (Option.some_injective Char)
  rw [← hread letters h, heq, hread letters' h']

theorem idxOf_eq_zero_iff {c : Char} (hne : alphabet ≠ []) :
    alphabet.idxOf c = 0 ↔ alphabet.head? = some c := by
  rw [List.idxOf_eq_zero_iff_head_eq hne, List.head?_eq_some_head hne, Option.some_inj]

variable (hnodup : alphabet.Nodup) (hlength : 2 ≤ alphabet.length)
include hnodup hlength

theorem map_idxOf_digits (n : Nat) :
    (digits alphabet n).map alphabet.idxOf = Nat.digits alphabet.length n := by
  fun_induction digits alphabet n with
  | case1 n hn =>
    obtain rfl : n = 0 := by omega
    rw [Nat.digits_zero, List.map_nil]
  | case2 n hn hlt hdiv ih =>
    have hpos : 0 < n := by omega
    rw [List.map_cons, hnodup.idxOf_getElem, ih, Nat.digits_def' hlength hpos]

theorem value_digits (n : Nat) : value alphabet (digits alphabet n) = n := by
  rw [value, map_idxOf_digits hnodup hlength, Nat.ofDigits_digits]

/-- A base of at least two needs no more digits than there are bits. -/
theorem length_digits_le (hn : n < UInt64.size) : (digits alphabet n).length ≤ 64 := by
  rw [← List.length_map (f := alphabet.idxOf), map_idxOf_digits hnodup hlength,
    Nat.digits_length_le_iff hlength]
  calc n < 2 ^ 64 := hn
    _ ≤ alphabet.length ^ 64 := Nat.pow_le_pow_left hlength 64

theorem isNumeral_digits (n : Nat) : IsNumeral alphabet (digits alphabet n) := by
  refine ⟨fun c => mem_of_mem_digits, fun c hc hhead => ?_⟩
  have hne : alphabet ≠ [] := List.length_pos_iff.mp (by omega)
  have hlast : (Nat.digits alphabet.length n).getLast? = some 0 := by
    rw [← map_idxOf_digits hnodup hlength, List.getLast?_map, Option.mem_def.mp hc,
      Option.map_some, (idxOf_eq_zero_iff hne).mpr hhead]
  have hdigits : Nat.digits alphabet.length n ≠ [] := by
    intro hnil
    rw [hnil] at hlast
    cases hlast
  exact Nat.getLast_digit_ne_zero _ (Nat.digits_ne_nil_iff_ne_zero.mp hdigits)
    ((List.getLast_eq_iff_getLast?_eq_some hdigits).mpr hlast)

theorem digits_value (h : IsNumeral alphabet letters) :
    digits alphabet (value alphabet letters) = letters := by
  apply eq_of_map_idxOf_eq (fun c => mem_of_mem_digits) h.mem
  rw [map_idxOf_digits hnodup hlength, value, Nat.digits_ofDigits _ (by omega)]
  · intro i hi
    obtain ⟨c, hc, rfl⟩ := List.mem_map.mp hi
    exact List.idxOf_lt_length_iff.mpr (h.mem c hc)
  · intro hne hzero
    have hletters : letters ≠ [] := fun h => hne (by rw [h, List.map_nil])
    rw [List.getLast_map, idxOf_eq_zero_iff (List.length_pos_iff.mp (by omega))] at hzero
    exact h.last _ (List.getLast?_eq_some_getLast hletters) hzero

end Numerals

/-- The number of a name: the place of its first letter, and what the others stand for. -/
def number (g : NameGenerator) : List Char → Nat
  | [] => 0
  | c :: letters => g.first.idxOf c + g.first.length * value g.continuation letters

/-- A letter of the first alphabet in front of a numeral in the second. -/
inductive IsName (g : NameGenerator) : List Char → Prop
  | mk {c : Char} {letters : List Char} (first : c ∈ g.first)
      (rest : IsNumeral g.continuation letters) : IsName g (c :: letters)

/-- The first alphabet holds a letter, the other at least two, and neither holds one twice. -/
structure Positional (g : NameGenerator) : Prop where
  first_ne : g.first ≠ []
  first_nodup : g.first.Nodup
  two_le : 2 ≤ g.continuation.length
  continuation_nodup : g.continuation.Nodup

namespace Positional
variable (h : g.Positional)
include h

theorem number_nameAt (index : Nat) : g.number (g.nameAt index) = index := by
  have hlt : index % g.first.length < g.first.length :=
    Nat.mod_lt _ (List.length_pos_iff.mpr h.first_ne)
  rw [nameAt, List.getElem?_eq_getElem hlt, Option.toList_some, List.singleton_append, number,
    h.first_nodup.idxOf_getElem, value_digits h.continuation_nodup h.two_le, Nat.mod_add_div]

theorem isName_nameAt (index : Nat) : g.IsName (g.nameAt index) := by
  obtain ⟨c, hc, he⟩ := exists_nameAt_eq_cons h.first_ne index
  rw [he]
  exact ⟨hc, isNumeral_digits h.continuation_nodup h.two_le _⟩

theorem nameAt_number {name : List Char} (hname : g.IsName name) :
    g.nameAt (g.number name) = name := by
  obtain ⟨hc, hrest⟩ := hname
  have hlt := List.idxOf_lt_length_iff.mpr hc
  rw [number, nameAt, Nat.add_mul_mod_self_left, Nat.mod_eq_of_lt hlt, List.getElem?_idxOf hc,
    Nat.add_mul_div_left _ _ (by omega), Nat.div_eq_of_lt hlt, Nat.zero_add,
    digits_value h.continuation_nodup h.two_le hrest, Option.toList_some, List.singleton_append]

theorem invOn_number (bound : Nat) : Set.InvOn g.number g.nameAt {index | index < bound}
    {name | g.IsName name ∧ g.number name < bound} :=
  ⟨fun index _ => h.number_nameAt index, fun _ hname => h.nameAt_number hname.1⟩

/-- The names with a number below a bound are the names of the numbers below it. -/
theorem bijOn_nameAt (bound : Nat) : Set.BijOn g.nameAt {index | index < bound}
    {name | g.IsName name ∧ g.number name < bound} := by
  apply (h.invOn_number bound).bijOn
  · intro index hindex
    refine ⟨h.isName_nameAt index, ?_⟩
    rwa [h.number_nameAt]
  · exact fun name hname => hname.2

theorem length_nameAt_le {index : Nat} (hindex : index < UInt64.size) :
    (g.nameAt index).length ≤ 1 + 64 := by
  obtain ⟨c, -, he⟩ := exists_nameAt_eq_cons h.first_ne index
  have hrest : index / g.first.length < UInt64.size :=
    Nat.lt_of_le_of_lt (Nat.div_le_self _ _) hindex
  have hlength := length_digits_le h.continuation_nodup h.two_le hrest
  rw [he, List.length_cons]
  omega

end Positional

/-- Writing the name of any number of 64 bits ends, after at most 64 rounds, and with that name
only.  The names of these numbers are all the strings that are names and have such a number, each
of one number alone, and they do not get shorter as the numbers grow. -/
theorem nameAt_lengthOrdered (h : g.Positional) :
    (∀ index < UInt64.size, (∀ name, g.WritesName index name ↔ name = g.nameAt index) ∧
      (g.nameAt index).length ≤ 1 + 64) ∧
    Set.BijOn g.nameAt {index | index < UInt64.size}
      {name | g.IsName name ∧ g.number name < UInt64.size} ∧
    Set.InvOn g.number g.nameAt {index | index < UInt64.size}
      {name | g.IsName name ∧ g.number name < UInt64.size} ∧
    MonotoneOn (fun index => (g.nameAt index).length) {index | index < UInt64.size} := by
  refine ⟨fun index hindex => ⟨fun name => ?_, h.length_nameAt_le hindex⟩,
    h.bijOn_nameAt UInt64.size, h.invOn_number UInt64.size, ?_⟩
  · exact writesName_iff h.first_ne h.two_le
  · intro i _ j _ hij
    exact length_nameAt_mono h.first_ne hij

/-- Bytes apart stand for letters apart. -/
theorem nodup_letters {s : String} (h : s.toUTF8.toList.Nodup) : (ofText.letters s).Nodup := by
  apply h.map
  intro b b' (hbb : Char.ofNat b.toNat = Char.ofNat b'.toNat)
  have htoNat : ∀ b : UInt8, (Char.ofNat b.toNat).toNat = b.toNat := by
    intro b
    have hlt := b.toNat_lt
    rw [Char.toNat_ofNat, if_pos (Or.inl (by omega))]
  apply UInt8.toNat_inj.mp
  rw [← htoNat b, hbb, htoNat b']

/-- The two bytes of one character are two letters.  The zero of the alphabet ends no name. -/
theorem nameAt_lengthOrdered_of_bytes :
    let g := ofText "xy" "0é"
    g.Positional ∧ g.WritesName 5 ['y', '©'] ∧
      (∀ index < UInt64.size, g.nameAt index = ['y', '©'] → index = 5) ∧
      ¬ ∃ index < UInt64.size, g.nameAt index = ['y', '©', '0'] := by
  intro g
  have hg : g = ⟨['x', 'y'], ['0', 'Ã', '©']⟩ := by
    simp only [g]
    cbv
  have hbytes : "xy".toUTF8.toList = [120, 121] := by cbv
  have hbytes' : "0é".toUTF8.toList = [48, 195, 169] := by cbv
  have hpositional : g.Positional := by
    constructor
    · rw [hg]
      decide
    · exact nodup_letters (by rw [hbytes]; decide)
    · rw [hg]
      decide
    · exact nodup_letters (by rw [hbytes']; decide)
  have hname : ['y', '©'] = g.nameAt 5 := by
    rw [hg]
    cbv
  obtain ⟨hwrites, hbij, -, -⟩ := nameAt_lengthOrdered hpositional
  refine ⟨hpositional, ?_, fun index hindex he => ?_, ?_⟩
  · exact ((hwrites 5 (by decide)).1 _).mpr hname
  · exact hbij.injOn hindex (show 5 < UInt64.size by decide) (he.trans hname)
  · rintro ⟨index, hindex, he⟩
    obtain ⟨hisName, -⟩ := hbij.mapsTo hindex
    rw [he] at hisName
    obtain ⟨-, hrest⟩ := hisName
    refine hrest.last '0' rfl ?_
    rw [hg]
    rfl

end ShaderPress.NameGenerator
