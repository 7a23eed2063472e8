import LiteralFill.Fill.Session
import LiteralFill.Types.Qualifier

/-!
From the type that a literal is written with to the fields of the struct it stands for. A name is looked
up among the type arguments, the local types, the types of the file and of its package, the predeclared
types and the dot imports, in this order.

Only types whose values stand inside the literal are looked into. Behind a pointer, slice, map or channel
the zero value is `nil` whatever the element is, so a name there is only spelled. A declared type that is
met again inside itself is only spelled as well. An alias stands for another type and is expanded where
it is met; one that is met again in its own expansion would be expanded for ever, and resolution then has
no end.
-/

namespace LiteralFill

/-- A struct type ready to be filled. The package is the one that decides which fields may be set. -/
structure ResolvedStruct where
  type : Ty
  fields : List (Field Ty)
  packagePath : String
  deriving Inhabited

/-- A type with its fields, if it stands for a struct type. -/
def ResolvedStruct.ofType? (type : Ty) (packagePath : String) : Option ResolvedStruct :=
  type.structFields.map fun fields => ⟨type, fields, packagePath⟩

/-- Why a type cannot be filled. -/
inductive ResolveError
  | unresolved (name : String)
  | notAStruct (name underlying : String)
  | cancelled
  /-- An alias leads back to itself. -/
  | endless
  deriving DecidableEq, Repr, Inhabited

/-- The text of an error. -/
def ResolveError.message : ResolveError → String
  | unresolved name => "cannot resolve type `" ++ name ++ "`"
  | notAStruct name _ => "`" ++ name ++ "` is not a struct type"
  | cancelled => "cancelled"
  | endless => "an alias leads back to itself"

/-- Where the literal stands. The file at `path` is the one on disk that `file` takes the place of. -/
structure Scope where
  file : SourceFile
  path : Option Path
  packagePath : String
  offset : Nat
  deriving Inhabited

/-! ## Steps of resolution -/

/-- A step that may load packages and may stop. -/
def Resolution (α : Type) : Type := Session → Except ResolveError α × Session

namespace Resolution

/-- Answers without doing anything. -/
def give {α : Type} (a : α) : Resolution α := fun s => (.ok a, s)

/-- Stops. -/
def stop {α : Type} (e : ResolveError) : Resolution α := fun s => (.error e, s)

/-- One step after another. -/
def andThen {α β : Type} (r : Resolution α) (f : α → Resolution β) : Resolution β := fun s =>
  match r s with
  | (.ok a, s') => f a s'
  | (.error e, s') => (.error e, s')

instance : Monad Resolution where
  pure := give
  bind := andThen

/-- A step for each element of a list. -/
def forEach {α β : Type} (f : α → Resolution β) : List α → Resolution (List β)
  | [] => give []
  | a :: rest => do
    let b ← f a
    let bs ← forEach f rest
    give (b :: bs)

/-- Stops if the cancel flag is up. -/
def checkCancelled : Resolution Unit := fun s =>
  match s.poll with
  | (true, s') => (.error .cancelled, s')
  | (false, s') => (.ok (), s')

/-- The package of an import path. -/
def load (tree : FileTree) (path : String) : Resolution (Option Package) := do
  checkCancelled
  fun s =>
    let (package, db) := s.packages.load tree path
    (.ok package, { s with packages := db })

/-- The package in a directory. -/
def loadDir (tree : FileTree) (dir : Path) : Resolution (Option Package) := do
  checkCancelled
  fun s =>
    let (package, db) := s.packages.loadDir tree dir
    (.ok package, { s with packages := db })

/-- The first answer among the packages of some imports, which are loaded one after another. -/
def firstOf {α : Type} (tree : FileTree) (f : ImportSpec → Package → Option α) :
    List ImportSpec → Resolution (Option α)
  | [] => give none
  | i :: rest => do
    match (← load tree i.path).bind (f i) with
    | some a => give (some a)
    | none => firstOf tree f rest

end Resolution

open Resolution (give stop forEach)

/-! ## Names -/

/-- How a type is looked at: the literal's own type must be found, one inside it becomes unseen if it
cannot be, and one behind an indirection is only spelled. -/
inductive Mode
  | root | value | spelled
  deriving DecidableEq, Repr, Inhabited

/-- How the types inside a type are looked at. -/
def Mode.inner : Mode → Mode
  | root | value => value
  | spelled => spelled

/-- Which file a declaration stands in: the one being edited, or a file of the package that was read under
this import path. -/
inductive Origin
  | buffer
  | member (package : String) (dir file : Option String)
  deriving DecidableEq, Repr, Inhabited

/-- The names visible at a place. Local types are visible only where there is an offset. -/
structure Env where
  file : SourceFile
  origin : Origin
  package : Option Package
  skip : Option Path
  path : String
  name : String
  offset : Option Nat
  /-- The types that the type parameters stand for, later parameters first. -/
  arguments : List (String × Ty)
  /-- The declared types being looked into. -/
  visiting : List TypeName
  /-- The aliases being expanded since the last of those was entered, with the places where they are
  declared. -/
  expanding : List (Origin × TypeName × Nat)
  deriving Inhabited

/-- A declaration and the place it was found at. -/
structure Site where
  file : SourceFile
  origin : Origin
  package : Option Package
  decl : TypeDecl
  path : String
  name : String
  isLocal : Bool
  deriving Inhabited

/-- What a name stands for. -/
inductive Found
  | type (t : Ty)
  | declaration (site : Site)
  deriving Inhabited

/-- A type of a package. -/
def siteIn (p : Package) (name : String) (skip : Option Path) : Option Site :=
  match p.findType name skip with
  | some (index, decl) =>
    (p.files[index]?).map fun f =>
      ⟨f.source, .member p.path (p.dir.map (·.text)) (f.path.map (·.text)), some p, decl, p.path, p.name, false⟩
  | none => none

/-- A type that is known everywhere. -/
def predeclaredType (name : String) : Option Ty :=
  match Primitive.ofName? name with
  | some p => some (.primitive p)
  | none =>
    if name == "error" then some Ty.error
    else if name == "any" || name == "comparable" then some (.interface name)
    else none

namespace Env

/-- A declaration in the file of the environment. -/
def siteHere (env : Env) (decl : TypeDecl) (isLocal : Bool) : Found :=
  .declaration ⟨env.file, env.origin, none, decl, env.path, env.name, isLocal⟩

/-- What a name stands for without a look at other packages. -/
def lookupNear (env : Env) (name : String) : Option Found :=
  match env.arguments.lookup name with
  | some t => some (.type t)
  | none =>
    match env.offset.bind (env.file.localType name) with
    | some decl => some (env.siteHere decl true)
    | none =>
      match env.file.packageType name with
      | some decl => some (env.siteHere decl false)
      | none =>
        match env.package.bind (siteIn · name env.skip) with
        | some site => some (.declaration { site with path := env.path, name := env.name })
        | none => (predeclaredType name).map .type

/-- What a name stands for. -/
def lookup (tree : FileTree) (env : Env) (name : String) : Resolution (Option Found) :=
  match env.lookupNear name with
  | some found => give (some found)
  | none => do
    let site ← Resolution.firstOf tree (fun _ p => siteIn p name none)
      (env.file.imports.filter (·.isDot))
    give (site.map .declaration)

/-- The import path and the package name that a qualifier stands for. An import without an alias binds
the name of its package, which may not be the one its path suggests. -/
def importNamed (tree : FileTree) (env : Env) (qualifier : String) :
    Resolution (Option (String × String)) :=
  match env.file.importByName qualifier with
  | some i => give (some (i.path, i.defaultName))
  | none =>
    Resolution.firstOf tree
      (fun i p => if p.name == qualifier then some (i.path, p.name) else none)
      (env.file.imports.filter (·.alias?.isNone))

/-- The length of an array, with the value of a constant of the package if it is known. -/
def arrayLength (env : Env) : WrittenLength → Length
  | .number n => .known n
  | .ellipsis => .symbolic "..."
  | .expression text =>
    match (env.file.packageConst text).orElse fun _ => env.package.bind (·.findConst text) with
    | some n => .known n
    | none => .symbolic text

/-- The names visible inside a declaration, with the type arguments in the place of its parameters.
Parameters without an argument stand for themselves. -/
def inside (env : Env) (site : Site) (args : List Ty) : Env :=
  { env with
    file := site.file
    origin := site.origin
    package := site.package.orElse fun _ => env.package
    path := site.path
    name := site.name
    offset := if site.isLocal then env.offset else none
    arguments := (site.decl.params.zipIdx.map fun (param, i) =>
      (param, (args[i]?).getD (.param param))).reverse }

end Env

/-! ## Types -/

/-- A resolver of the types inside a type. -/
abbrev Inner := Env → TypeExpr → Mode → Resolution Ty

/-- A declared type that is not looked into. -/
def spell (inner : Inner) (env : Env) (n : TypeName) (args : List TypeExpr) : Resolution Ty :=
  if args.isEmpty then give (.unseen n)
  else do
    let args ← forEach (fun a => inner env a .spelled) args
    give (.named n args (.unseen n))

/-- A type argument. A name that stands for nothing is a type parameter of the function around the
literal. -/
def resolveArg (tree : FileTree) (inner : Inner) (env : Env) (arg : TypeExpr) : Resolution Ty :=
  match arg with
  | .name none name [] => do
    match ← env.lookup tree name with
    | none => give (.param name)
    | some _ => inner env arg .value
  | _ => inner env arg .value

/-- The type that a declaration gives to a name with these arguments. -/
def resolveDeclared (tree : FileTree) (inner : Inner) (env : Env) (site : Site)
    (args : List TypeExpr) : Resolution Ty := do
  let args ← forEach (resolveArg tree inner env) args
  let inside := env.inside site args
  let n : TypeName := ⟨site.path, site.name, site.decl.name⟩
  let place := (site.origin, n, site.decl.span.start)
  if site.decl.isAlias then
    if env.expanding.contains place then stop .endless
    else inner { inside with expanding := place :: env.expanding } site.decl.type .value
  else if env.visiting.contains n then give (.unseen n)
  else do
    let underlying ←
      inner { inside with visiting := n :: env.visiting, expanding := [] } site.decl.type .value
    give (.named n args underlying)

/-- A name without a qualifier. -/
def resolvePlain (tree : FileTree) (inner : Inner) (env : Env) (name : String)
    (args : List TypeExpr) (mode : Mode) : Resolution Ty := do
  match ← env.lookup tree name with
  | some (.type t) => give t
  | some (.declaration site) =>
    if mode = .spelled then spell inner env ⟨site.path, site.name, name⟩ args
    else resolveDeclared tree inner env site args
  | none =>
    if mode = .root then stop (.unresolved name)
    else spell inner env ⟨env.path, env.name, name⟩ args

/-- A name of another package. -/
def resolveQualified (tree : FileTree) (inner : Inner) (env : Env) (qualifier name : String)
    (args : List TypeExpr) (mode : Mode) : Resolution Ty := do
  let imported ← env.importNamed tree qualifier
  if imported.map (·.1) = some "unsafe" && name = "Pointer" then give (.primitive .pointer)
  else if mode = .spelled then
    match imported with
    | some (path, package) => spell inner env ⟨path, package, name⟩ args
    | none => spell inner env ⟨qualifier, qualifier, name⟩ args
  else do
    let site ←
      match imported with
      | some (path, _) => do give ((← Resolution.load tree path).bind (siteIn · name none))
      | none => give none
    match site with
    | some site => resolveDeclared tree inner env site args
    | none =>
      if mode = .root then stop (.unresolved (qualifier ++ "." ++ name))
      else spell inner env ⟨(imported.map (·.1)).getD qualifier, qualifier, name⟩ args

/-- The fields of one line of a struct type. -/
def fieldsOf {τ : Type} (d : FieldDecl TypeExpr) (t : τ) : List (Field τ) :=
  if d.isEmbedded then (d.embeddedName.map fun name => ⟨name, t, true, d.tag⟩).toList
  else d.names.map fun name => ⟨name, t, false, d.tag⟩

/-- A type, given the resolver of the types inside it. -/
def resolveForm (tree : FileTree) (inner : Inner) (env : Env) (type : TypeExpr) (mode : Mode) :
    Resolution Ty :=
  match type with
  | .name none name args => resolvePlain tree inner env name args mode
  | .name (some q) name args => resolveQualified tree inner env q name args mode
  | .pointer t => do give (.pointer (← inner env t .spelled))
  | .slice t => do give (.slice (← inner env t .spelled))
  | .array l t => do give (.array (env.arrayLength l) (← inner env t mode.inner))
  | .map k v => do
    let key ← inner env k .spelled
    let value ← inner env v .spelled
    give (.map key value)
  | .chan d t => do give (.chan d (← inner env t .spelled))
  | .func text => give (.func text)
  | .interface text => give (.interface text)
  | .struct decls => do
    let types ← forEach (fun d => inner env d.type mode.inner) decls
    give (.struct ((decls.zip types).flatMap fun (d, t) => fieldsOf d t))

/-- A type with at most `depth` types around one another. -/
def resolveWithin (tree : FileTree) : Nat → Inner
  | 0, _, _, _, s => (.error .endless, s)
  | depth + 1, env, type, mode, s => resolveForm tree (resolveWithin tree depth) env type mode s

/-! ## Literals -/

/-- The number of bytes of the files of a tree, and one more for each entry. -/
def FileTree.extent (tree : FileTree) : Nat :=
  (tree.entries.map fun (_, e) =>
    match e with
    | .file bytes => bytes.length + 1
    | .directory => 1).foldr (· + ·) 0

/-- How deep types can stand around one another in the files of a tree and one more file, unless an
alias leads back to itself. A declared type is entered once under each import path, an alias once between
two of them under each import path and file, and each stands in a text no shorter than it is deep. -/
def nestingBound (tree : FileTree) (file : SourceFile) : Nat :=
  Nat.pow (tree.extent + byteLength file.text + 4096) 32

/-- The names visible at a literal. -/
def Scope.env (scope : Scope) (package : Option Package) : Env :=
  { file := scope.file
    origin := .buffer
    package
    skip := scope.path
    path := scope.packagePath
    name := scope.file.package.getD ""
    offset := some scope.offset
    arguments := []
    visiting := []
    expanding := [] }

/-- The struct type that stands before a literal. -/
def resolveStruct (tree : FileTree) (scope : Scope) (type : TypeExpr) :
    Resolution ResolvedStruct := do
  let package ←
    match scope.path.bind (·.parent) with
    | some dir => Resolution.loadDir tree dir
    | none => give none
  let depth := nestingBound tree scope.file
  let resolved ← resolveWithin tree depth (scope.env package) type .root
  let packagePath :=
    match resolved with
    | .named n _ _ => n.path
    | _ => scope.packagePath
  match ResolvedStruct.ofType? resolved packagePath with
  | some r => give r
  | none =>
    let q := scope.file.qualifier scope.packagePath
    stop (.notAStruct (resolved.display q) (resolved.underlying.display q))

end LiteralFill
