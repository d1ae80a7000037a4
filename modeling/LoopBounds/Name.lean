namespace LoopBounds

def isNameChar (c : Char) : Bool :=
  c.isAlphanum || c == '_'

/-- The names that can be written: ASCII letters, digits and underscores, with a letter in front. -/
def IsName (x : String) : Prop :=
  x.toList.head?.any Char.isAlpha ∧ x.toList.all isNameChar

instance (x : String) : Decidable (IsName x) :=
  inferInstanceAs (Decidable (_ ∧ _))

end LoopBounds
