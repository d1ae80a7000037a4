import LoopBounds.Text.Gap
import LoopBounds.Text.Token

namespace LoopBounds.Text

/-- A token in its place: `here` is all of the text from the token on. -/
structure Lexeme where
  token : Token
  here : List Char
deriving DecidableEq

/-- The tokens of a text without the blanks and comments around them. -/
def lexemes : List Char → List Lexeme
  | [] => []
  | c :: rest =>
    if c = '#' then lexemes (afterComment rest)
    else if isBlank c then lexemes rest
    else ⟨Token.first c rest, c :: rest⟩ :: lexemes (Token.after c rest)
termination_by text => text.length
decreasing_by
  · exact Nat.lt_succ_of_le (length_afterComment_le rest)
  · exact Nat.lt_succ_self _
  · exact Nat.lt_succ_of_le (Token.length_after_le c rest)

theorem here_suffix_of_mem_lexemes {text : List Char} {l : Lexeme} (h : l ∈ lexemes text) :
    l.here <:+ text := by
  fun_induction lexemes text with
  | case1 => cases h
  | case2 rest ih =>
    exact ((ih h).trans (List.dropWhile_suffix _)).trans (List.suffix_cons _ _)
  | case3 c rest _ _ ih => exact (ih h).trans (List.suffix_cons _ _)
  | case4 c rest _ _ ih =>
    rcases List.mem_cons.mp h with rfl | h
    · exact List.suffix_rfl
    · exact ((ih h).trans (List.drop_suffix _ _)).trans (List.suffix_cons _ _)

/-- What a reader of tokens has not taken in yet, as text. -/
def remaining : List Lexeme → List Char
  | [] => []
  | l :: _ => l.here

end LoopBounds.Text
