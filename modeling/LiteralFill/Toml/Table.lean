import LiteralFill.Toml.Value

/-!
Tables while they are put together. A table is declared by its own header, implied by the header of a
table inside it, or dotted, when a key with points leads into it. An implied table may be declared once,
later; a declared table is not entered by points, and nothing is ever given twice.
-/

namespace LiteralFill.Toml

/-- How a table came to be. -/
inductive TableKind
  | declared | implied | dotted
  deriving DecidableEq, Repr, Inhabited

/-- A table with members of some type. -/
structure Table (ν : Type) where
  kind : TableKind
  members : List (String × ν)
  deriving Repr, Inhabited

/-- What a key stands for: a value, a table, or a list of tables that have one header each. -/
inductive Node
  | value (v : Value)
  | table (t : Table Node)
  | tables (items : List (Table Node))
  deriving Inhabited

namespace Table

/-- A table without members. -/
def empty (kind : TableKind) : Table Node := ⟨kind, []⟩

/-- What a key stands for. -/
def get? (t : Table Node) (key : String) : Option Node := t.members.lookup key

/-- The table with a key that stands for something, whatever it stood for. -/
def put (t : Table Node) (key : String) (n : Node) : Table Node :=
  { t with members := (t.members.filter fun (other, _) => other != key) ++ [(key, n)] }

/-- Changes the table that a path leads to. Tables on the way come to be; of a list of tables the last one
is meant. A path of points does not enter declared tables. -/
def descend (points : Bool) (change : Table Node → Option (Table Node)) :
    List String → Table Node → Option (Table Node)
  | [], t => change t
  | key :: rest, t =>
    match t.get? key with
    | none =>
      (descend points change rest (empty (if points then .dotted else .implied))).map fun inner =>
        t.put key (.table inner)
    | some (.table inner) =>
      if points && inner.kind == .declared then none
      else (descend points change rest inner).map fun inner => t.put key (.table inner)
    | some (.tables items) =>
      match items.getLast? with
      | some last =>
        (descend points change rest last).map fun last =>
          t.put key (.tables (items.dropLast ++ [last]))
      | none => none
    | some (.value _) => none

/-- Gives a value to a key, which must be new. The table is the one that is open, or one that a path of
points made. -/
def addValue (path : List String) (v : Value) (t : Table Node) : Option (Table Node) :=
  match path.getLast? with
  | none => none
  | some key =>
    let outer := path.dropLast
    descend true (fun inner =>
      if (inner.kind == .dotted) == outer.isEmpty || (inner.get? key).isSome then none
      else some (inner.put key (.value v))) outer t

/-- Declares the table that a path leads to. -/
def declare (path : List String) (t : Table Node) : Option (Table Node) :=
  match path.getLast? with
  | none => none
  | some key =>
    descend false (fun outer =>
      match outer.get? key with
      | none => some (outer.put key (.table (empty .declared)))
      | some (.table inner) =>
        if inner.kind == .implied then some (outer.put key (.table { inner with kind := .declared }))
        else none
      | some _ => none) path.dropLast t

/-- Adds a table to the list of tables that a path leads to. -/
def declareItem (path : List String) (t : Table Node) : Option (Table Node) :=
  match path.getLast? with
  | none => none
  | some key =>
    descend false (fun outer =>
      match outer.get? key with
      | none => some (outer.put key (.tables [empty .declared]))
      | some (.tables items) => some (outer.put key (.tables (items ++ [empty .declared])))
      | some _ => none) path.dropLast t

end Table

/-! ## Values -/

mutual

/-- What is left of a node once it is complete. -/
def Node.toValue : Node → Value
  | .value v => v
  | .table ⟨_, members⟩ => .table (membersToValues members)
  | .tables items => .array (itemsToValues items)

/-- The entries of a complete table. -/
def membersToValues : List (String × Node) → List (String × Value)
  | [] => []
  | (key, n) :: rest => (key, n.toValue) :: membersToValues rest

/-- The tables of a complete list. -/
def itemsToValues : List (Table Node) → List Value
  | [] => []
  | ⟨_, members⟩ :: rest => .table (membersToValues members) :: itemsToValues rest

end

/-- The entries of a complete table. -/
def Table.entries (t : Table Node) : List (String × Value) := membersToValues t.members

/-- The entries that pairs of a path and a value make in a table of their own. -/
def entriesOfPairs (pairs : List (List String × Value)) : Option (List (String × Value)) :=
  let built := pairs.foldlM (fun t (path, v) => Table.addValue path v t) (Table.empty .declared)
  built.map Table.entries

end LiteralFill.Toml
