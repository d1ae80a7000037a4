import LoopBounds.CmpOp
import LoopBounds.Expr.Basic
import LoopBounds.Name

namespace LoopBounds.Text

/-- A constant as it is written, leading zeros and all. -/
structure Numeral where
  digits : List Char
deriving DecidableEq

namespace Numeral

def toNat (n : Numeral) : Nat :=
  Nat.ofDigitChars 10 n.digits 0

/-- The constant that is meant, if a word can hold it. -/
def value? (n : Numeral) : Option Value :=
  if n.toNat < UInt64.size then some (.ofNat n.toNat) else none

end Numeral

/-- The units of the notation. A character that begins none of the others is one by itself. -/
inductive Token where
  | numeral (n : Numeral)
  | param (name : String)
  | var (name : String)
  | arith (op : ArithOp)
  | compare (op : CmpOp)
  | opening
  | closing
  | stray (c : Char)
deriving DecidableEq

namespace Token

def spelling : Token → List Char
  | numeral n => n.digits
  | param x => '$' :: x.toList
  | var x => x.toList
  | arith op => op.symbol.toList
  | compare op => op.spelling.toList
  | opening => ['(']
  | closing => [')']
  | stray c => [c]

/-- The tokens of a fixed spelling. One whose spelling continues that of another comes first. -/
def marks : List Token :=
  [.lessOrEqual, .greaterOrEqual, .equal, .lessThan, .greaterThan].map compare
    ++ ArithOp.all.map arith ++ [opening, closing]

/-- The token of fixed spelling that begins a text, or its first character as a stray. -/
def ofMark (c : Char) (rest : List Char) : Token :=
  (marks.find? (fun t => t.spelling.isPrefixOf (c :: rest))).getD (stray c)

/-- The longest token that begins the text `c :: rest`. -/
def first (c : Char) (rest : List Char) : Token :=
  if c.isDigit then numeral ⟨c :: rest.takeWhile Char.isDigit⟩
  else if c.isAlpha then var (.ofList (c :: rest.takeWhile isNameChar))
  else if c = '$' ∧ rest.head?.any Char.isAlpha then param (.ofList (rest.takeWhile isNameChar))
  else ofMark c rest

def after (c : Char) (rest : List Char) : List Char :=
  rest.drop ((first c rest).spelling.length - 1)

theorem length_after_le (c : Char) (rest : List Char) : (after c rest).length ≤ rest.length := by
  rw [after, List.length_drop]
  exact Nat.sub_le _ _

theorem ofMark_cases (c : Char) (rest : List Char) :
    ofMark c rest ∈ marks ∧ (ofMark c rest).spelling <+: c :: rest ∨ ofMark c rest = stray c := by
  unfold ofMark
  cases h : marks.find? (fun t => t.spelling.isPrefixOf (c :: rest)) with
  | none => exact .inr rfl
  | some t =>
    have hp : t.spelling.isPrefixOf (c :: rest) := by
      simpa only using List.find?_some h
    exact .inl ⟨List.mem_of_find?_eq_some h, List.isPrefixOf_iff_prefix.mp hp⟩

theorem spelling_ne_nil_of_mem_marks {t : Token} (h : t ∈ marks) : t.spelling ≠ [] := by
  revert t
  decide

theorem exists_spelling_first (c : Char) (rest : List Char) :
    ∃ tail, (first c rest).spelling = c :: tail ∧ tail <+: rest := by
  unfold first
  split
  · exact ⟨_, rfl, List.takeWhile_prefix _⟩
  · split
    · exact ⟨_, String.toList_ofList, List.takeWhile_prefix _⟩
    · split
      next h =>
        refine ⟨rest.takeWhile isNameChar, ?_, List.takeWhile_prefix _⟩
        rw [h.1, spelling, String.toList_ofList]
      next =>
        rcases ofMark_cases c rest with ⟨hmem, hpre⟩ | hs
        · cases hs : (ofMark c rest).spelling with
          | nil => exact absurd hs (spelling_ne_nil_of_mem_marks hmem)
          | cons d tail =>
            rw [hs] at hpre
            obtain ⟨rfl, h⟩ := List.cons_prefix_cons.mp hpre
            exact ⟨tail, rfl, h⟩
        · rw [hs]
          exact ⟨[], rfl, List.nil_prefix⟩

/-- Nothing is lost between a token and what follows it. -/
theorem spelling_append_after (c : Char) (rest : List Char) :
    (first c rest).spelling ++ after c rest = c :: rest := by
  obtain ⟨tail, hs, hpre⟩ := exists_spelling_first c rest
  rw [after, hs, List.length_cons, Nat.add_sub_cancel, List.cons_append]
  exact congrArg _ (List.prefix_iff_eq_append.mp hpre)

end Token

end LoopBounds.Text
