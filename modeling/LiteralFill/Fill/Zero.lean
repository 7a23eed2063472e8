import LiteralFill.Types.Qualifier

/-!
Zero values as a programmer would write them. Every type has one: at worst an empty composite literal.
A value is one line of text or, when nested structs are expanded, a literal with a line for each field.
-/

namespace LiteralFill

/-- A zero value. -/
inductive ZeroExpr
  | text (text : String)
  | composite (type : String) (fields : List (String × ZeroExpr))
  deriving Repr, Inhabited

/-- The types whose zero value is never expanded, by path and name. -/
def defaultWellKnown : List String :=
  ["time.Time", "sync.Mutex", "sync.RWMutex", "sync.WaitGroup", "sync.Once", "strings.Builder",
   "bytes.Buffer", "math/big.Int", "math/big.Float"]

/-- How zero values are written in a file of a package. -/
structure Synthesizer where
  qualifier : Qualifier
  packagePath : String
  wellKnown : List String
  /-- Nested structs are written with their fields. -/
  recurse : Bool
  /-- Longer arrays are written without their elements. -/
  maxElements : Option Nat

/-- An empty literal of a type. -/
def emptyLiteral (type : String) : String := type ++ "\x7b\x7d"

/-- A zero value on one line. -/
def ZeroExpr.oneLine : ZeroExpr → String
  | .text t => t
  | .composite type _ => emptyLiteral type

namespace Synthesizer

/-- The elements of an array of this length are written out. -/
def lists (z : Synthesizer) : Length → Option Nat
  | .known n => if 0 < n && (z.maxElements.map fun m => decide (n ≤ m)).getD true then some n else none
  | .symbolic _ => none

/-- A literal of an array type with the same element everywhere, or without elements. -/
def arrayLiteral (z : Synthesizer) (type : String) (length : Length) (element : String) : String :=
  match z.lists length with
  | some n => type ++ "\x7b" ++ ", ".intercalate (List.replicate n element) ++ "\x7d"
  | none => emptyLiteral type

mutual

/-- The zero value of a type and the names of types asked for on the way. `outer` is the declared type
that stands for this one, with its text; it is the type of the literal, if the value is one. `visiting`
holds the declared types being expanded. -/
def zero (z : Synthesizer) (recurse : Bool) (visiting : List TypeName)
    (outer : Option (TypeName × String)) : Ty → ZeroExpr × List TypeName
  | .primitive p => (.text p.zero, [])
  | .named n args t =>
    match outer with
    | some o => zero z recurse visiting (some o) t
    | none =>
      let shown := (Ty.named n args t).display z.qualifier
      let names := (Ty.named n args t).namesShown
      if z.wellKnown.contains n.qualified then (.text (emptyLiteral shown), names)
      else
        let (expr, more) := zero z recurse visiting (some (n, shown)) t
        (expr, names ++ more)
  | .pointer _ | .slice _ | .map .. | .chan .. | .func _ | .interface _ => (.text "nil", [])
  | .array length t =>
    let (shown, names) :=
      match outer with
      | some (_, shown) => (shown, [])
      | none => ((Ty.array length t).display z.qualifier, (Ty.array length t).namesShown)
    match z.lists length with
    | some _ =>
      let (element, more) := zero z false visiting none t
      (.text (z.arrayLiteral shown length element.oneLine), names ++ more)
    | none => (.text (emptyLiteral shown), names)
  | .struct fields =>
    match outer with
    | none =>
      (.text (emptyLiteral ((Ty.struct fields).display z.qualifier)), (Ty.struct fields).namesShown)
    | some (n, shown) =>
      if recurse && !visiting.contains n then
        match zeroFields z recurse (n :: visiting) (n.path == z.packagePath) fields with
        | ([], names) => (.text (emptyLiteral shown), names)
        | (values, names) => (.composite shown values, names)
      else (.text (emptyLiteral shown), [])
  | .param name => (.text ("*new(" ++ name ++ ")"), [])
  | .unseen n => (.text (emptyLiteral (showName z.qualifier n)), [n])

/-- The zero values of the fields that may be set, with their names. -/
def zeroFields (z : Synthesizer) (recurse : Bool) (visiting : List TypeName) (samePackage : Bool) :
    List (Field Ty) → List (String × ZeroExpr) × List TypeName
  | [] => ([], [])
  | ⟨name, t, _, _⟩ :: rest =>
    let (values, more) := zeroFields z recurse visiting samePackage rest
    if isExported name || samePackage then
      let (value, names) := zero z recurse visiting none t
      ((name, value) :: values, names ++ more)
    else (values, more)

end

/-- Below a declared name other names do not matter. -/
theorem zero_underlying (z : Synthesizer) {recurse : Bool} {visiting : List TypeName} (o : TypeName × String) :
    ∀ t : Ty, z.zero recurse visiting (some o) t = z.zero recurse visiting (some o) t.underlying
  | .named n args t => by
    rw [zero]
    exact zero_underlying z o t
  | .primitive _ | .pointer _ | .slice _ | .array .. | .map .. | .chan .. | .struct _ | .interface _ | .func _
  | .param _ | .unseen _ => rfl

/-- The zero value of a type and the import paths of the foreign types asked for. -/
def synthesize (z : Synthesizer) (t : Ty) : ZeroExpr × PathSet :=
  let (expr, names) := z.zero z.recurse [] none t
  (expr, PathSet.ofList ((names.filter (·.isForeignTo z.packagePath)).map (·.path)))

end Synthesizer

end LiteralFill
