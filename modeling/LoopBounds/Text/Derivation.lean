import LoopBounds.Constraint
import LoopBounds.Text.Token

namespace LoopBounds.Text

mutual

/-- The tokens form a sum, difference, product or factor that stands for the expression. -/
inductive IsSum : List Token → Expr Numeral → Prop
  | product {ts e} : IsProduct ts e → IsSum ts e
  | add {ts us a b} : IsSum ts a → IsProduct us b →
      IsSum (ts ++ .arith .add :: us) (.binary .add a b)
  | subtract {ts us a b} : IsSum ts a → IsProduct us b →
      IsSum (ts ++ .arith .subtract :: us) (.binary .subtract a b)

inductive IsProduct : List Token → Expr Numeral → Prop
  | factor {ts e} : IsFactor ts e → IsProduct ts e
  | multiply {ts us a b} : IsProduct ts a → IsFactor us b →
      IsProduct (ts ++ .arith .multiply :: us) (.binary .multiply a b)

/-- Parentheses leave no trace in the expression. -/
inductive IsFactor : List Token → Expr Numeral → Prop
  | numeral (n) : IsFactor [.numeral n] (.const n)
  | param (x) : IsFactor [.param x] (.param x)
  | var (x) : IsFactor [.var x] (.var x)
  | parens {ts e} : IsSum ts e → IsFactor (.opening :: ts ++ [.closing]) e

end

inductive IsConstraint : List Token → Constraint Numeral → Prop
  | compare {ts us a b} (op) : IsSum ts a → IsSum us b →
      IsConstraint (ts ++ .compare op :: us) ⟨a, op, b⟩

end LoopBounds.Text
