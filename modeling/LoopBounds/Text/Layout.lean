import LoopBounds.Text.Gap
import LoopBounds.Text.Token

namespace LoopBounds.Text

/-- The first text is the second after a gap of blanks and comments. -/
inductive Gap : List Char → List Char → Prop
  | none (text) : Gap text text
  | blank {c text rest} : isBlank c → Gap text rest → Gap (c :: text) rest
  | comment {body text rest} : '\n' ∉ body → (text = [] ∨ text.head? = some '\n') →
      Gap text rest → Gap ('#' :: body ++ text) rest

def Token.IsProper : Token → Prop
  | numeral n => n.digits ≠ [] ∧ ∀ d ∈ n.digits, d.isDigit
  | param x => IsName x
  | var x => IsName x
  | stray _ => False
  | _ => True

/-- The text is made of the tokens in their order, with gaps around them that may be empty. -/
inductive Layout : List Char → List Token → Prop
  | done {text} : Gap text [] → Layout text []
  | token {text rest ts} (t : Token) : t.IsProper → Gap text (t.spelling ++ rest) →
      Layout rest ts → Layout text (t :: ts)

end LoopBounds.Text
