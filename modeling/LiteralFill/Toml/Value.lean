/-!
The values of a settings document. A table keeps its entries in no particular order, and no key twice.
-/

namespace LiteralFill.Toml

/-- A value. What float it is, is not kept; a date is kept in one spelling. -/
inductive Value
  | string (text : String)
  | integer (value : Int)
  | float
  | boolean (value : Bool)
  | date (text : String)
  | array (items : List Value)
  | table (entries : List (String × Value))
  deriving Repr, Inhabited

end LiteralFill.Toml
