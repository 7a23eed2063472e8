import LiteralFill.Main
import LiteralFill.Proofs.CommentsKept
import LiteralFill.Proofs.FuncBody
import LiteralFill.Proofs.Fill.Edits
import LiteralFill.Proofs.Fill.Visibility
import LiteralFill.Proofs.Headers
import LiteralFill.Proofs.Replacement
import LiteralFill.Proofs.Filled.Value
import LiteralFill.Proofs.Fill.Growth
import LiteralFill.Proofs.Fill.Lockstep
import LiteralFill.Proofs.Fill.Agreement
import LiteralFill.Proofs.Fill.Instances
import LiteralFill.Proofs.Fill.Endless
import LiteralFill.Proofs.Packages.Copies
import LiteralFill.Proofs.Fill.StaleCopy
import LiteralFill.Proofs.Bodies
import LiteralFill.Proofs.Scopes
import LiteralFill.Proofs.Fill.LocalNames
import LiteralFill.Proofs.Fill.Identity
import LiteralFill.Proofs.Fill.Cycles
import LiteralFill.Proofs.Fill.Termination
import LiteralFill.Proofs.Fill.Imports
import LiteralFill.Proofs.Packages.Overlay
import LiteralFill.Proofs.Fill.Families
import LiteralFill.Proofs.Fill.Renaming
import LiteralFill.Proofs.Fill.ImportNames
import LiteralFill.Proofs.Fill.Cancellation
import LiteralFill.Proofs.Fill.LineTarget
import LiteralFill.Proofs.Packages.Calls
import LiteralFill.Proofs.Packages.Writing
import LiteralFill.Proofs.Changes
import LiteralFill.Proofs.Fill.Again
import LiteralFill.Proofs.Fill.ReadBack
import LiteralFill.Proofs.Archive
import LiteralFill.Proofs.Lexing.Tiling
import LiteralFill.Proofs.Lexing.Semicolon
import LiteralFill.Proofs.Printed.Types
import LiteralFill.Proofs.Gaps
import LiteralFill.Proofs.Fill.Merging
import LiteralFill.Proofs.Fill.LiteralTypes
import LiteralFill.Proofs.Fill.Expansion
import LiteralFill.Proofs.Fill.NilValues
import LiteralFill.Proofs.Splicing
import LiteralFill.Proofs.Packages.Directories
import LiteralFill.Proofs.Layout.Padding
import LiteralFill.Proofs.Suggestion
import LiteralFill.Proofs.IntegerLiterals
import LiteralFill.Proofs.Packages.Ownership
import LiteralFill.Proofs.Packages.ModuleFiles
import LiteralFill.Proofs.Reading.Loops
import LiteralFill.Proofs.ElementGroups
import LiteralFill.Proofs.Spans
