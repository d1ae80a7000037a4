namespace LoopBounds.Text

def isBlank (c : Char) : Bool :=
  c == ' ' || c == '\t' || c == '\r' || c == '\n'

/-- What follows a comment, which ends before the next line feed. -/
def afterComment (text : List Char) : List Char :=
  text.dropWhile (· != '\n')

theorem length_afterComment_le (text : List Char) : (afterComment text).length ≤ text.length :=
  (List.dropWhile_sublist _).length_le

end LoopBounds.Text
