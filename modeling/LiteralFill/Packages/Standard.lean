/-!
The declarations of common packages of the standard library, for when their source cannot be found.
-/

namespace LiteralFill

/-- The package `time`. -/
def timeSource : List String :=
  ["// Declarations from package time that struct literals commonly mention.", "package time",
   "", "type Duration int64", "", "const (", "\tNanosecond  Duration = 1",
   "\tMicrosecond          = 1000 * Nanosecond", "\tMillisecond          = 1000 * Microsecond",
   "\tSecond               = 1000 * Millisecond", ")", "", "type Month int", "",
   "type Weekday int", "", "type Location struct \x7b", "\tname string", "\tzone []zone", "\x7d",
   "", "type zone struct \x7b", "\tname   string", "\toffset int", "\tisDST  bool", "\x7d", "",
   "type Time struct \x7b", "\twall uint64", "\text  int64", "\tloc  *Location", "\x7d", "",
   "type Timer struct \x7b", "\tC <-chan Time", "\tinitTimer bool", "\x7d", "",
   "type Ticker struct \x7b", "\tC <-chan Time", "\tinitTicker bool", "\x7d"]

/-- The package `sync`. -/
def syncSource : List String :=
  ["// Declarations from package sync that struct literals commonly mention.", "package sync",
   "", "type Mutex struct \x7b", "\tstate int32", "\tsema  uint32", "\x7d", "",
   "type RWMutex struct \x7b", "\tw           Mutex", "\twriterSem   uint32",
   "\treaderSem   uint32", "\treaderCount int32", "\treaderWait  int32", "\x7d", "",
   "type WaitGroup struct \x7b", "\tnoCopy noCopy", "\tstate  uint64", "\tsema   uint32", "\x7d",
   "", "type Once struct \x7b", "\tdone uint32", "\tm    Mutex", "\x7d", "",
   "type Map struct \x7b", "\tmu    Mutex", "\tdirty map[any]any", "\x7d", "",
   "type Pool struct \x7b", "\tnoCopy noCopy", "\tNew    func() any", "\x7d", "",
   "type Locker interface \x7b", "\tLock()", "\tUnlock()", "\x7d", "",
   "type noCopy struct\x7b\x7d"]

/-- The package `strings`. -/
def stringsSource : List String :=
  ["// Declarations from package strings that struct literals commonly mention.",
   "package strings", "", "type Builder struct \x7b", "\taddr *Builder", "\tbuf  []byte", "\x7d",
   "", "type Reader struct \x7b", "\ts        string", "\ti        int64", "\tprevRune int",
   "\x7d", "", "type Replacer struct \x7b", "\tr []string", "\x7d"]

/-- The package `bytes`. -/
def bytesSource : List String :=
  ["// Declarations from package bytes that struct literals commonly mention.", "package bytes",
   "", "type Buffer struct \x7b", "\tbuf      []byte", "\toff      int", "\tlastRead readOp",
   "\x7d", "", "type readOp int8", "", "type Reader struct \x7b", "\ts        []byte",
   "\ti        int64", "\tprevRune int", "\x7d"]

/-- The package `math/big`. -/
def bigSource : List String :=
  ["// Declarations from package math/big that struct literals commonly mention.", "package big",
   "", "type Word uint", "", "type nat []Word", "", "type Int struct \x7b", "\tneg bool",
   "\tabs nat", "\x7d", "", "type Rat struct \x7b", "\ta, b Int", "\x7d", "",
   "type RoundingMode byte", "", "type Accuracy int8", "", "type form byte", "",
   "type Float struct \x7b", "\tprec uint32", "\tmode RoundingMode", "\tacc  Accuracy",
   "\tform form", "\tneg  bool", "\tmant nat", "\texp  int32", "\x7d"]

/-- The text of lines that each end with a newline. -/
def joinLines (lines : List String) : String := String.join (lines.map (· ++ "\n"))

/-- The source of a package of the standard library. -/
def standardSource (path : String) : Option String :=
  match path with
  | "time" => some (joinLines timeSource)
  | "sync" => some (joinLines syncSource)
  | "strings" => some (joinLines stringsSource)
  | "bytes" => some (joinLines bytesSource)
  | "math/big" => some (joinLines bigSource)
  | _ => none

end LiteralFill
