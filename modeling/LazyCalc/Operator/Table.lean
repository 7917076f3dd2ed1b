import LazyCalc.Operator.Basic
namespace LazyCalc

structure Operator.Entry where
  operator : Operator
  doc : Option String

namespace Operator.Entry

def debugText (entry : Entry) : String :=
  let doc := match entry.doc with
    | some doc => "Some(" ++ quotedText doc ++ ")"
    | none => "None"
  "OperatorEntry \x7b arity: " ++ toString entry.operator.arity ++ ", doc: " ++ doc ++ " \x7d"

end Operator.Entry

/-- Every operator in a table has the table's limit. -/
structure Table where
  entries : List (String × Operator.Entry)
  limit : Nat

namespace Table

def empty (limit : Nat) : Table := ⟨[], limit⟩

def find? (table : Table) (name : String) : Option Operator.Entry :=
  table.entries.lookup name

def register (table : Table) (name : String) (operator : Operator) (doc : Option String) : Table :=
  let entry := (name, ⟨operator.withLimit table.limit, doc⟩)
  { table with entries := entry :: table.entries.filter fun e => e.1 != name }

def names (table : Table) : List String :=
  (table.entries.map (·.1)).mergeSort fun a b => !decide (b < a)

end Table

end LazyCalc
