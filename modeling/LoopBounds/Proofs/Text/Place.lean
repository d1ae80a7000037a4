import LoopBounds.Text.Report
import Mathlib.Data.List.Induction

namespace LoopBounds.Text

/-- Where a line of the text begins, the first line being the one with number zero. -/
def lineStart : List Char → Nat → Nat
  | _, 0 => 0
  | [], _ + 1 => 0
  | c :: text, n + 1 => lineStart text (if c = '\n' then n else n + 1) + 1

namespace Report

/-- The place that the line and column name, as the number of characters before it. -/
def offset (r : Report) (text : String) : Nat :=
  lineStart text.toList (r.line - 1) + (r.column - 1)

def before (r : Report) (text : String) : String :=
  .ofList (text.toList.take (r.offset text))

def after (r : Report) (text : String) : String :=
  .ofList (text.toList.drop (r.offset text))

end Report

theorem lastLine_append_singleton (text : List Char) (c : Char) :
    lastLine (text ++ [c]) = if c = '\n' then [] else lastLine text ++ [c] := by
  rw [lastLine, List.reverse_append, List.reverse_singleton, List.singleton_append]
  split
  next h => rw [List.takeWhile_cons_of_neg (by simpa using h), List.reverse_nil]
  next h => rw [List.takeWhile_cons_of_pos (by simpa using h), List.reverse_cons, lastLine]

theorem lineStart_newline (text rest : List Char) :
    lineStart (text ++ '\n' :: rest) (text.count '\n' + 1) = text.length + 1 := by
  induction text with
  | nil =>
    rw [List.count_nil, List.nil_append, lineStart, if_pos rfl, lineStart]
    rfl
  | cons c text ih =>
    rw [List.cons_append, lineStart, List.length_cons]
    split
    next h => rw [h, List.count_cons_self, ih]
    next h => rw [List.count_cons_of_ne h, ih]

/-- The lines before the last and what there is of the last make up the whole. -/
theorem lineStart_add_length_lastLine (text rest : List Char) :
    lineStart (text ++ rest) (text.count '\n') + (lastLine text).length = text.length := by
  induction text using List.reverseRecOn generalizing rest with
  | nil =>
    rw [List.count_nil, lineStart]
    rfl
  | append_singleton text c ih =>
    rw [lastLine_append_singleton, List.append_assoc, List.singleton_append, List.count_append,
      List.length_append, List.length_singleton]
    split
    next h => rw [h, List.count_singleton_self, lineStart_newline, List.length_nil, Nat.add_zero]
    next h =>
      rw [List.count_singleton, if_neg (by simpa using h), Nat.add_zero, List.length_append,
        List.length_singleton, ← Nat.add_assoc, ih]

section

variable {text : String} {before : List Char} {x : Refusal} (h : text.toList = before ++ x.here)

include h

theorem Refusal.offset_report : (x.report text.toList).offset text = before.length := by
  have hb : text.toList.take (text.toList.length - x.here.length) = before := by
    rw [h, List.length_append, Nat.add_sub_cancel, List.take_left]
  rw [Report.offset, report, hb, Nat.add_sub_cancel, Nat.add_sub_cancel, h]
  exact lineStart_add_length_lastLine before x.here

theorem Refusal.before_report : (x.report text.toList).before text = .ofList before := by
  rw [Report.before, offset_report h, h, List.take_left]

theorem Refusal.after_report : (x.report text.toList).after text = .ofList x.here := by
  rw [Report.after, offset_report h, h, List.drop_left]

end

end LoopBounds.Text
