import ShaderPress.Ident.Order
import ShaderPress.Ident.Sigil
import ShaderPress.Token.Scan

/-! # The catalog of a batch

One entry for every distinct identifier, in the order in which they were first met,
with the number of occurrences and how many of them refer.  Exports tested by a
conditional are kept apart as switches.  Priority puts frequent identifiers first
and keeps the order of first meeting among equals.
-/
namespace ShaderPress

structure Entry where
  name : Ident
  total : Nat
  references : Nat
deriving DecidableEq, Repr

structure Catalog where
  entries : List Entry
  switches : List Ident
deriving DecidableEq, Repr

namespace Catalog

def empty : Catalog := ⟨[], []⟩

/-- One more occurrence of a name, of which `references` refer to it. -/
def bump (name : Ident) (references : Nat) : List Entry → List Entry
  | [] => [⟨name, 1, references⟩]
  | e :: es =>
    if e.name = name then ⟨name, e.total + 1, e.references + references⟩ :: es
    else e :: bump name references es

def record (c : Catalog) (name : Ident) (isReference : Bool) : Catalog :=
  { c with entries := bump name isReference.toNat c.entries }

/-- Only exports are switches. -/
def recordSwitch (c : Catalog) (name : Ident) : Catalog :=
  if Ident.isExport name then { c with switches := Ident.insertSorted name c.switches } else c

def note (c : Catalog) : Occurrence → Catalog
  | .defined name => c.record name false
  | .referenced name => c.record name true
  | .tested name => (c.recordSwitch name).record name true

def replay (c : Catalog) (trail : List Occurrence) : Catalog := trail.foldl note c

def find? (c : Catalog) (name : Ident) : Option Entry := c.entries.find? (·.name = name)

def count (c : Catalog) (name : Ident) : Nat := (c.find? name).elim 0 (·.total)

def referenceCount (c : Catalog) (name : Ident) : Nat := (c.find? name).elim 0 (·.references)

def isSwitch (c : Catalog) (name : Ident) : Bool := c.switches.contains name

def names (c : Catalog) : List Ident := c.entries.map (·.name)

def exports (c : Catalog) : List Ident := Ident.sortedSet (c.names.filter Ident.isExport)

def size (c : Catalog) : Nat := c.entries.length

def isEmpty (c : Catalog) : Bool := c.entries.isEmpty

/-- All entries, the most frequent first; ties keep the order of first meeting. -/
def byPriority (c : Catalog) : List Entry :=
  c.entries.mergeSort fun a b => decide (b.total ≤ a.total)

@[simp] theorem replay_nil (c : Catalog) : c.replay [] = c := rfl

@[simp] theorem replay_cons (c : Catalog) (o : Occurrence) (trail : List Occurrence) :
    c.replay (o :: trail) = (c.note o).replay trail := rfl

theorem replay_append (c : Catalog) (s t : List Occurrence) :
    c.replay (s ++ t) = (c.replay s).replay t := List.foldl_append

@[simp] theorem mem_exports {c : Catalog} {name : Ident} :
    name ∈ c.exports ↔ name ∈ c.names ∧ Ident.isExport name = true := by
  simp [exports]

end Catalog

end ShaderPress
