import LiteralFill.Fill.Error
import LiteralFill.Fill.Resolve
import LiteralFill.Fill.Zero
import LiteralFill.Text.Distance

/-!
The elements of a literal set against the fields of its struct. A field that an element sets keeps the
text and the comments of the element; the others get a zero value, if they may be set. The result has a
key for every value and the order of the declaration.
-/

namespace LiteralFill

/-- The value of a field: a text of the source, or a zero value. -/
inductive MergedValue
  | source (text : String)
  | zero (expr : ZeroExpr)
  deriving Repr, Inhabited

/-- A field with its value and comments. -/
structure MergedEntry where
  name : String
  value : MergedValue
  leading : List String
  trailing : Option String
  userSupplied : Bool
  deriving Repr, Inhabited

/-- What a literal is to hold, and the imports its zero values ask for. -/
structure Merged where
  entries : List MergedEntry
  dangling : List String
  imports : PathSet
  deriving Repr, Inhabited

/-! ## Elements and fields -/

/-- The place of the field that a key names. -/
def fieldIndex (fields : List (Field Ty)) (key : Key) : Option Nat :=
  if key.isIdent then fields.findIdx? fun f => f.name == key.text else none

/-- The fields that keyed elements set, in the order of the elements. `seen` holds those set before. -/
def matchKeyed (fields : List (Field Ty)) (typeText : String) (seen : List (Nat × Element)) :
    List Element → Except FillError (List (Nat × Element))
  | [] => .ok seen
  | e :: rest =>
    match e.key with
    | none => matchKeyed fields typeText seen rest
    | some key =>
      match fieldIndex fields key with
      | none =>
        .error (.unknownField key.text typeText
          (suggestSimilar key.text (fields.map (·.name))) key.span)
      | some index =>
        if (seen.lookup index).isSome then .error (.duplicateField key.text key.span)
        else matchKeyed fields typeText (seen ++ [(index, e)]) rest

/-- The place of the field that each element sets. -/
def matchElements (fields : List (Field Ty)) (literal : CompositeLiteral) (typeText : String) :
    Except FillError (List (Nat × Element)) :=
  let elements := literal.elements
  let keyed := elements.countP (·.key.isSome)
  if 0 < keyed && keyed < elements.length then .error (.mixedElements typeText literal.span)
  else if keyed = 0 then
    match elements[fields.length]? with
    | some extra =>
      .error (.tooManyValues typeText fields.length elements.length extra.span)
    | none => .ok (elements.zipIdx.map fun (e, i) => (i, e))
  else matchKeyed fields typeText [] elements

/-! ## Entries -/

/-- A field that an element sets. -/
def suppliedEntry (file : SourceFile) (name : String) (e : Element) : MergedEntry :=
  ⟨name, .source (file.slice e.value), e.leading, e.trailing, true⟩

/-- A field with a zero value. -/
def zeroEntry (name : String) (expr : ZeroExpr) : MergedEntry :=
  ⟨name, .zero expr, [], none, false⟩

/-- The entries of the fields from the place `index` on. The cancel flag is read before each zero value;
there is no answer if it is up. -/
def mergeFields (file : SourceFile) (z : Synthesizer) (samePackage : Bool)
    (supplied : List (Nat × Element)) (index : Nat) :
    List (Field Ty) → Session → Option (List MergedEntry × PathSet) × Session
  | [], s => (some ([], []), s)
  | f :: rest, s =>
    match supplied.lookup index with
    | some e =>
      match mergeFields file z samePackage supplied (index + 1) rest s with
      | (some (entries, imports), s) =>
        (some (suppliedEntry file f.name e :: entries, imports), s)
      | (none, s) => (none, s)
    | none =>
      if f.exported || samePackage then
        match s.poll with
        | (true, s) => (none, s)
        | (false, s) =>
          let (expr, paths) := z.synthesize f.type
          match mergeFields file z samePackage supplied (index + 1) rest s with
          | (some (entries, imports), s) =>
            (some (zeroEntry f.name expr :: entries, PathSet.union paths imports), s)
          | (none, s) => (none, s)
      else mergeFields file z samePackage supplied (index + 1) rest s

/-- A literal set against the fields of its struct, or nothing if the cancel flag came up. -/
def merge (file : SourceFile) (literal : CompositeLiteral) (resolved : ResolvedStruct)
    (z : Synthesizer) (s : Session) : Except FillError (Option Merged) × Session :=
  match matchElements resolved.fields literal (file.slice literal.typeSpan) with
  | .error e => (.error e, s)
  | .ok supplied =>
    let samePackage := resolved.packagePath == z.packagePath
    match mergeFields file z samePackage supplied 0 resolved.fields s with
    | (some (entries, imports), s) => (.ok (some ⟨entries, literal.dangling, imports⟩), s)
    | (none, s) => (.ok none, s)

end LiteralFill
