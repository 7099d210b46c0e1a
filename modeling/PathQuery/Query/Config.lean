import PathQuery.Error
import PathQuery.Query.Filter
import PathQuery.Text.Blank

/-!
# Query/Config — how a query is answered

The choice of an engine, by name or otherwise, and of what is reported. Whether an engine may work
in parallel changes no answer.
-/

namespace PathQuery

/-- An engine. -/
inductive Algorithm where
  /-- Facts joined one at a time. -/
  | hellings
  /-- Facts multiplied as matrices. -/
  | matrix
  /-- Facts as paths of a product. -/
  | tensor
  deriving DecidableEq, Repr

namespace Algorithm

/-- The name of an engine. -/
def name : Algorithm → String
  | hellings => "hellings"
  | matrix => "matrix"
  | tensor => "tensor"

/-- A text in lower case, as far as its letters are ASCII ones. -/
def lowercase (s : String) : String := String.ofList (s.toList.map Char.toLower)

/-- The engine with a name; white space around it and capital letters do not matter. -/
def ofName? (s : String) : Except Error Algorithm :=
  let name := lowercase (Text.trim s)
  if name = "hellings" then .ok hellings
  else if name = "matrix" then .ok matrix
  else if name = "tensor" then .ok tensor
  else .error (.undefinedSymbol ("algorithm '" ++ name ++ "'"))

end Algorithm

/-- How a query is answered. -/
structure Config where
  algorithm : Algorithm
  selfPairs : SelfPairs
  parallel : Bool
  deriving DecidableEq, Repr

/-- An engine with all pairs reported and parallel work allowed. -/
def Config.ofAlgorithm (algorithm : Algorithm) : Config := ⟨algorithm, .keep, true⟩

/-- The worklist engine with all pairs reported and parallel work allowed. -/
instance : Inhabited Config := ⟨.ofAlgorithm .hellings⟩

end PathQuery
