import LiteralFill.Fill.Target

/-!
The arguments of the command. Four options take a value, in the same argument after an equals sign or in
the next one, and three take none; none may stand twice. A file is always needed, and either an offset or
a line. A value in an argument of its own does not begin with a dash, unless it is only that.
-/

namespace LiteralFill

/-- What the command is told to do. -/
structure Arguments where
  file : String
  /-- An offset or a line. -/
  target : Target
  /-- Texts that are not saved yet are read from the standard input. -/
  modified : Bool
  config : Option String
  recurse : Bool
  /-- The file is changed, too. -/
  write : Bool
  deriving DecidableEq, Repr, Inhabited

/-- How arguments are understood: as something to do, as a question about the command, or not at all. -/
inductive Invocation
  | run (arguments : Arguments)
  | information
  | misuse
  deriving DecidableEq, Repr, Inhabited

/-- The options that take a value. -/
inductive ValueOption
  | file | offset | line | config
  deriving DecidableEq, Repr, Inhabited

/-- The options that take none. -/
inductive FlagOption
  | modified | recurse | write
  deriving DecidableEq, Repr, Inhabited

namespace Arguments

/-- What was given so far. -/
structure Given where
  file : Option String
  offset : Option Nat
  line : Option Nat
  config : Option String
  flags : List FlagOption
  deriving DecidableEq, Repr, Inhabited

/-- Nothing. -/
def Given.nothing : Given := ⟨none, none, none, none, []⟩

/-! ## Options -/

/-- The option that takes a value and has this name. -/
def valueOption? : String → Option ValueOption
  | "file" => some .file
  | "offset" => some .offset
  | "line" => some .line
  | "config" => some .config
  | _ => none

/-- The option that takes no value and has this name. -/
def flagOption? : String → Option FlagOption
  | "modified" => some .modified
  | "recurse" => some .recurse
  | "write" => some .write
  | _ => none

/-- A value for something that has none yet. -/
def once {α : Type} (old : Option α) (new : Option α) : Option (Option α) :=
  if old.isSome then none else new.map some

/-- A path must have characters. -/
def path? (text : String) : Option String := if text.isEmpty then none else some text

/-- A number that fits in 64 bits. -/
def number? (text : String) : Option Nat := boundedNumber 10 text.toList

/-- What is given with one more value. -/
def Given.withValue (g : Given) (o : ValueOption) (text : String) : Option Given :=
  match o with
  | .file => (once g.file (path? text)).map fun file => { g with file }
  | .offset => (once g.offset (number? text)).map fun offset => { g with offset }
  | .line => (once g.line (number? text)).map fun line => { g with line }
  | .config => (once g.config (path? text)).map fun config => { g with config }

/-- What is given with one more option that takes no value. -/
def Given.withFlag (g : Given) (o : FlagOption) : Option Given :=
  if g.flags.contains o then none else some { g with flags := o :: g.flags }

/-- Everything that is needed is given, and nothing that excludes something else. -/
def Given.finish (g : Given) : Invocation :=
  let target :=
    match g.offset, g.line with
    | some n, none => some (Target.offset n)
    | none, some n => some (Target.line n)
    | _, _ => none
  match g.file, target with
  | some file, some target =>
    .run
      { file
        target
        modified := g.flags.contains .modified
        config := g.config
        recurse := g.flags.contains .recurse
        write := g.flags.contains .write }
  | _, _ => .misuse

/-! ## Reading -/

/-- The forms of an argument. -/
inductive Form
  /-- Two dashes and a name, perhaps with an equals sign and a value. -/
  | long (name : String) (value : Option String)
  /-- Two dashes alone, after which no options stand. -/
  | separator
  /-- A dash and letters. -/
  | short (letters : List Char)
  /-- Anything else. -/
  | plain
  deriving DecidableEq, Repr

/-- The form of an argument. -/
def formOf (argument : String) : Form :=
  match argument.toList with
  | ['-', '-'] => .separator
  | '-' :: '-' :: cs =>
    let name := String.ofList (cs.takeWhile (· != '='))
    match cs.dropWhile (· != '=') with
    | _ :: value => .long name (some (String.ofList value))
    | [] => .long name none
  | '-' :: c :: cs => .short (c :: cs)
  | _ => .plain

/-- Asks about the command instead of giving it something to do. -/
def asksAbout (name : String) : Bool := name == "help" || name == "version"

/-- A letter that asks about the command. -/
def letterAsksAbout (letters : List Char) : Bool :=
  match letters with
  | c :: _ => c == 'h' || c == 'V'
  | [] => false

/-- Reads arguments after those that were given before, unless something was given that must not be. -/
def readFrom : Option Given → List String → Invocation
  | none, _ => .misuse
  | some g, [] => g.finish
  | some g, argument :: rest =>
    match formOf argument with
    | .plain => .misuse
    | .separator => if rest.isEmpty then g.finish else .misuse
    | .short letters => if letterAsksAbout letters then .information else .misuse
    | .long name attached =>
      match valueOption? name, attached with
      | some o, some value => readFrom (g.withValue o value) rest
      | some o, none =>
        match rest with
        | value :: rest =>
          if formOf value = .plain then readFrom (g.withValue o value) rest else .misuse
        | [] => .misuse
      | none, some _ => .misuse
      | none, none =>
        match flagOption? name with
        | some o => readFrom (g.withFlag o) rest
        | none => if asksAbout name then .information else .misuse

/-- Reads the arguments of the command. -/
def read (arguments : List String) : Invocation := readFrom (some .nothing) arguments

end Arguments

end LiteralFill
