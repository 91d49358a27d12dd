import ShaderPress.Token.Form
import ShaderPress.Text.Lines
import ShaderPress.Text.Quoted

/-! # Reading with a trail

Lexing leaves a trail: one occurrence for every identifier it meets, in the order
met.  The trail up to a failure is kept beside the failure.
-/
namespace ShaderPress

inductive LexError where
  | illegalCharacter (c : Char) (line : Nat)
  | malformedDirective (keyword : Keyword) (text : List Char) (line : Nat)
deriving DecidableEq, Repr

def decimal (n : Nat) : List Char := Nat.toDigits 10 n

namespace LexError

def message : LexError → List Char
  | illegalCharacter c line =>
    "Illegal character '".toList ++ c :: "' at line ".toList ++ decimal line
  | malformedDirective keyword text line =>
    "Malformed #".toList ++ keyword.text ++ " at line ".toList ++ decimal line
      ++ ": ".toList ++ Text.quoted text

end LexError

/-- How a name occurs: defined by a macro, referred to, or tested by a conditional. -/
inductive Occurrence where
  | defined (name : Ident)
  | referenced (name : Ident)
  | tested (name : Ident)
deriving DecidableEq, Repr

/-- A reading that leaves a trail, whether it succeeds or not. -/
structure Scan (α : Type) where
  trail : List Occurrence
  outcome : Except LexError α

namespace Scan

variable {α β : Type}

protected def pure (a : α) : Scan α := ⟨[], .ok a⟩

protected def bind (x : Scan α) (f : α → Scan β) : Scan β :=
  match x.outcome with
  | .error e => ⟨x.trail, .error e⟩
  | .ok a => ⟨x.trail ++ (f a).trail, (f a).outcome⟩

protected def map (f : α → β) (x : Scan α) : Scan β := ⟨x.trail, x.outcome.map f⟩

instance : Monad Scan where
  pure := Scan.pure
  bind := Scan.bind
  map := Scan.map

def fail (e : LexError) : Scan α := ⟨[], .error e⟩

def note (o : Occurrence) : Scan Unit := ⟨[o], .ok ()⟩

@[simp] theorem pure_def (a : α) : (pure a : Scan α) = ⟨[], .ok a⟩ := rfl

@[simp] theorem map_def (f : α → β) (x : Scan α) : f <$> x = ⟨x.trail, x.outcome.map f⟩ := rfl

theorem bind_error {x : Scan α} {e : LexError} (h : x.outcome = .error e) (f : α → Scan β) :
    x >>= f = ⟨x.trail, .error e⟩ := by
  simp [bind, Scan.bind, h]

theorem bind_ok {x : Scan α} {a : α} (h : x.outcome = .ok a) (f : α → Scan β) :
    x >>= f = ⟨x.trail ++ (f a).trail, (f a).outcome⟩ := by
  simp [bind, Scan.bind, h]

end Scan

end ShaderPress
