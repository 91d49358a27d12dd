import ShaderPress.Proofs.Token.Lexed

/-! # The tokens of a logical line

A logical line goes on behind an escaped line end and through a block comment.  Its tokens
are those that start in it.  The argument list of a macro may go on behind the line, so
the tokens inside it are cut off there as well.
-/
namespace ShaderPress

namespace Pattern

/-- The rest of a logical line; `inComment` tells whether a block comment is open. -/
def logicalLineFrom (inComment : Bool) : List Char → List Char
  | [] => []
  | c :: s =>
    match inComment, c, s with
    | true, '*', '/' :: s => '*' :: '/' :: logicalLineFrom false s
    | true, c, s => c :: logicalLineFrom true s
    | false, '\\', '\n' :: s => '\\' :: '\n' :: logicalLineFrom false s
    | false, '/', '/' :: s => '/' :: '/' :: lineRest s
    | false, '/', '*' :: s => '/' :: '*' :: logicalLineFrom (commentRest? s).isSome s
    | false, c, s => if c = '\n' then [] else c :: logicalLineFrom false s

/-- Up to the first line end that is neither escaped nor inside a block comment. -/
def logicalLine (s : List Char) : List Char := logicalLineFrom false s

example : logicalLine "#if A /* \n */ && \\\n B // c\nd".toList =
    "#if A /* \n */ && \\\n B // c".toList := by
  decide

end Pattern

namespace Token

def coveredBy : Option (List Token) → Nat
  | none => 0
  | some tokens => (sourceOf tokens).length

mutual

/-- A token without those tokens of its parts that start behind its first `n` characters. -/
def cutOff (n : Nat) : Token → Token
  | define text line name arguments body =>
    let inner := n - (text.length - coveredBy arguments - coveredBy body)
    define text line name (cutPart inner arguments) (cutPart (inner - coveredBy arguments) body)
  | directive text line body =>
    directive text line (cutPart (n - (text.length - coveredBy body)) body)
  | conditional text line test name => conditional text line test name
  | definedTest text line name => definedTest text line name
  | lexeme text line kind => lexeme text line kind

def cutPart (n : Nat) : Option (List Token) → Option (List Token)
  | none => none
  | some tokens => if n = 0 then none else some (startingWithin n tokens)

/-- The tokens of a stream, at every depth, that start within its first `n` characters. -/
def startingWithin (n : Nat) : List Token → List Token
  | [] => []
  | t :: ts =>
    if n = 0 then []
    else (if t.text.length ≤ n then t else cutOff n t) :: startingWithin (n - t.text.length) ts

end

/-- The tokens of the logical line at the start of a stream. -/
def onLogicalLine (tokens : List Token) : List Token :=
  startingWithin (Pattern.logicalLine (sourceOf tokens)).length tokens

theorem startingWithin_of_lt {tokens : List Token} {n : Nat} (h : (sourceOf tokens).length < n) :
    startingWithin n tokens = tokens := by
  induction tokens generalizing n with
  | nil => rfl
  | cons t ts ih =>
    rw [sourceOf_cons, List.length_append] at h
    have hn : n ≠ 0 := by omega
    have ht : t.text.length ≤ n := by omega
    have hts : (sourceOf ts).length < n - t.text.length := by omega
    rw [startingWithin, if_neg hn, if_pos ht, ih hts]

theorem cutPart_of_lt {part : Option (List Token)} {n : Nat} (h : coveredBy part < n) :
    cutPart n part = part := by
  cases part with
  | none => rfl
  | some tokens =>
    have hn : n ≠ 0 := Nat.ne_zero_of_lt h
    rw [cutPart, if_neg hn, startingWithin_of_lt h]

theorem forall_deep_startingWithin {p : Token → Prop} (hp : Shallow p) {tokens : List Token}
    (h : ∀ t ∈ deep tokens, p t) (n : Nat) : ∀ t ∈ deep (startingWithin n tokens), p t := by
  have nested : ∀ {o : Option (List Token)} (n : Nat),
      (∀ s, o = some s → (∀ t ∈ deep s, p t) → ∀ n, ∀ t ∈ deep (startingWithin n s), p t) →
      (∀ t ∈ deepNested o, p t) → ∀ t ∈ deepNested (cutPart n o), p t := by
    intro o n ho hall
    cases o with
    | none => exact hall
    | some s =>
      rw [cutPart]
      split
      · exact fun t ht => absurd ht List.not_mem_nil
      · exact ho s rfl hall n
  have step : ∀ {t ts} (n : Nat), (∀ u ∈ t.withParts, p u) →
      (∀ u ∈ (cutOff n t).withParts, p u) → (∀ n, ∀ u ∈ deep (startingWithin n ts), p u) →
      ∀ u ∈ deep (startingWithin n (t :: ts)), p u := by
    intro t ts n ht hc hts
    rw [startingWithin]
    split
    · exact fun u hu => absurd hu List.not_mem_nil
    · rw [deep, List.forall_mem_append]
      refine ⟨?_, hts _⟩
      split
      · exact ht
      · exact hc
  induction tokens using stream_induction generalizing n with
  | nil => exact h
  | define text line name arguments body rest ha hb hr =>
    rw [deep, List.forall_mem_append] at h
    refine step n h.1 ?_ (hr h.2)
    simp only [withParts, List.forall_mem_cons, List.forall_mem_append] at h
    obtain ⟨⟨hd, haa, hbb⟩, -⟩ := h
    simp only [cutOff, withParts, List.forall_mem_cons, List.forall_mem_append]
    exact ⟨hp.define _ _ _ _ _ _ _ hd, nested _ ha haa, nested _ hb hbb⟩
  | directive text line body rest hb hr =>
    rw [deep, List.forall_mem_append] at h
    refine step n h.1 ?_ (hr h.2)
    simp only [withParts, List.forall_mem_cons] at h
    obtain ⟨⟨hd, hbb⟩, -⟩ := h
    simp only [cutOff, withParts, List.forall_mem_cons]
    exact ⟨hp.directive _ _ _ _ hd, nested _ hb hbb⟩
  | conditional text line test name rest hr =>
    rw [deep, List.forall_mem_append] at h
    exact step n h.1 h.1 (hr h.2)
  | definedTest text line name rest hr =>
    rw [deep, List.forall_mem_append] at h
    exact step n h.1 h.1 (hr h.2)
  | lexeme text line kind rest hr =>
    rw [deep, List.forall_mem_append] at h
    exact step n h.1 h.1 (hr h.2)

end Token

end ShaderPress
