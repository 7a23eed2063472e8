import LiteralFill.Fill.Request
import LiteralFill.Proofs.Fill.Growth

/-!
How a request is put together. A literal is merged once its type is resolved, the literals are filled one after
another, and what their edits amount to is the answer: each of these is one part after another, so what all parts
have in common holds of the whole.
-/

namespace LiteralFill

open Resolution (Grows)

/-! ## Fields -/

section

variable (file : SourceFile) (z : Synthesizer) (samePackage : Bool) (supplied : List (Nat × Element)) (index : Nat)
  (f : Field Ty) (rest : List (Field Ty))

/-- What is made of the entries of all other fields when one has its entry first. -/
def entryFirst (entry : MergedEntry) (paths : PathSet) (merged : Option (List MergedEntry × PathSet)) :
    Option (List MergedEntry × PathSet) :=
  merged.map fun (entries, imports) => (entry :: entries, PathSet.union paths imports)

/-- The entries from a field on that gets a zero value, once the cancel flag is read. -/
def mergeZero : Bool → Session → Option (List MergedEntry × PathSet) × Session
  | true, s => (none, s)
  | false, s =>
    (entryFirst (zeroEntry f.name (z.synthesize f.type).1) (z.synthesize f.type).2
      (mergeFields file z samePackage supplied (index + 1) rest s).1,
      (mergeFields file z samePackage supplied (index + 1) rest s).2)

variable {file z samePackage supplied index f rest}

theorem mergeFields_supplied {e : Element} (h : supplied.lookup index = some e) (s : Session) :
    mergeFields file z samePackage supplied index (f :: rest) s =
      ((mergeFields file z samePackage supplied (index + 1) rest s).1.map fun (entries, imports) =>
        (suppliedEntry file f.name e :: entries, imports),
        (mergeFields file z samePackage supplied (index + 1) rest s).2) := by
  rw [mergeFields, h]
  rcases mergeFields file z samePackage supplied (index + 1) rest s with ⟨_ | _, _⟩ <;> rfl

theorem mergeFields_zero (h : supplied.lookup index = none) (hset : (f.exported || samePackage) = true) (s : Session) :
    mergeFields file z samePackage supplied index (f :: rest) s =
      mergeZero file z samePackage supplied index f rest s.poll.1 s.poll.2 := by
  rw [mergeFields, h]
  simp only [hset, ↓reduceIte]
  rcases s.poll with ⟨_ | _, s⟩
  · dsimp only [mergeZero, entryFirst]
    rcases mergeFields file z samePackage supplied (index + 1) rest s with ⟨_ | _, _⟩ <;> rfl
  · rfl

theorem mergeFields_hidden (h : supplied.lookup index = none) (hset : (f.exported || samePackage) = false)
    (s : Session) : mergeFields file z samePackage supplied index (f :: rest) s =
      mergeFields file z samePackage supplied (index + 1) rest s := by
  rw [mergeFields, h]
  simp [hset]

end

/-! ## One literal -/

/-- The outcome of the fields of a literal, once they are merged. -/
def mergedWith (literal : CompositeLiteral) (found : Option (List MergedEntry × PathSet)) :
    Except FillError (Option Merged) :=
  .ok (found.map fun (entries, imports) => ⟨entries, literal.dangling, imports⟩)

theorem merge_of_matched {file : SourceFile} {literal : CompositeLiteral} {resolved : ResolvedStruct}
    {supplied : List (Nat × Element)}
    (h : matchElements resolved.fields literal (file.slice literal.typeSpan) = .ok supplied) (z : Synthesizer)
    (s : Session) : merge file literal resolved z s =
      (mergedWith literal (mergeFields file z (resolved.packagePath == z.packagePath) supplied 0 resolved.fields s).1,
        (mergeFields file z (resolved.packagePath == z.packagePath) supplied 0 resolved.fields s).2) := by
  rw [merge, h]
  dsimp only
  rcases mergeFields file z _ supplied 0 resolved.fields s with ⟨_ | _, _⟩ <;> rfl

variable (resolve : StructResolver) (r : FillRequest) (options : FillOptions)

/-- The outcome of a literal, once its elements are set against the fields. -/
def outcomeOfMerge (literal : CompositeLiteral) : Except FillError (Option Merged) → LiteralOutcome
  | .error e => .stopped (.failed e)
  | .ok none => .stopped .cancelled
  | .ok (some merged) =>
    .edited ⟨literal.braceSpan, render merged (String.ofList (indentAt r.file.text literal.lbrace)) options.layout⟩
      merged.imports

theorem fillResolved_eq (literal : CompositeLiteral) (resolved : ResolvedStruct) (s : Session) :
    fillResolved r options literal resolved s =
      (outcomeOfMerge r options literal (merge r.file literal resolved (options.synthesizer r) s).1,
        (merge r.file literal resolved (options.synthesizer r) s).2) := by
  unfold fillResolved
  rcases merge r.file literal resolved (options.synthesizer r) s with ⟨_ | _ | _, _⟩ <;> rfl

/-- What is made of a literal, once its type is looked for. -/
def fillFound (literal : CompositeLiteral) :
    Except ResolveError ResolvedStruct → Session → LiteralOutcome × Session
  | .error e, s => (onResolveError r literal e, s)
  | .ok resolved, s => fillResolved r options literal resolved s

/-- What is made of a literal, once the cancel flag is read. -/
def fillPolled (literal : CompositeLiteral) : Bool → Session → LiteralOutcome × Session
  | true, s => (.stopped .cancelled, s)
  | false, s => fillFound r options literal
      (resolve ⟨r.file, r.path, r.packagePath, literal.lbrace⟩ literal.type s).1
      (resolve ⟨r.file, r.path, r.packagePath, literal.lbrace⟩ literal.type s).2

theorem fillLiteral_eq (literal : CompositeLiteral) (s : Session) :
    fillLiteral resolve r options literal s = fillPolled resolve r options literal s.poll.1 s.poll.2 := by
  unfold fillLiteral
  rcases s.poll with ⟨_ | _, s⟩
  · dsimp only [fillPolled]
    rcases resolve _ literal.type s with ⟨_ | _, _⟩ <;> rfl
  · rfl

/-! ## All literals -/

/-- The outcome of literals behind one that has an edit. -/
def outcomeBehind (edit : TextEdit) (paths : PathSet) : LiteralsOutcome → LiteralsOutcome
  | .edited edits more => .edited (edit :: edits) (paths.union more)
  | .stopped outcome => .stopped outcome

/-- What is made of the outcome of a first literal, with the rest still to be filled. -/
def fillRest (rest : List CompositeLiteral) (outcome : LiteralOutcome) (s : Session) : LiteralsOutcome × Session :=
  match outcome with
  | .stopped outcome => (.stopped outcome, s)
  | .leftAlone => fillLiterals resolve r options rest s
  | .edited edit paths =>
    (outcomeBehind edit paths (fillLiterals resolve r options rest s).1, (fillLiterals resolve r options rest s).2)

theorem fillLiterals_cons (literal : CompositeLiteral) (rest : List CompositeLiteral) (s : Session) :
    fillLiterals resolve r options (literal :: rest) s =
      fillRest resolve r options rest (fillLiteral resolve r options literal s).1
        (fillLiteral resolve r options literal s).2 := by
  rw [fillLiterals]
  cases fillLiteral resolve r options literal s with
  | mk outcome s₁ =>
    cases outcome with
    | stopped outcome => rfl
    | leftAlone => rfl
    | edited edit paths =>
      dsimp only [fillRest]
      cases fillLiterals resolve r options rest s₁ with
      | mk outcome s₂ => cases outcome <;> rfl

/-! ## What is remembered -/

/-- A session with other packages and other imports asked for. -/
def Session.over (s : Session) (packages : PackageDb) (forwarded : List String) : Session :=
  { s with packages, forwarded }

section

variable (packages : PackageDb) (forwarded : List String)

theorem Session.poll_over (s : Session) :
    (s.over packages forwarded).poll = (s.poll.1, s.poll.2.over packages forwarded) := by
  obtain ⟨_, cancel, _⟩ := s
  cases cancel <;> rfl

/-- Merging reads the cancel flag, and does nothing else with a session. -/
theorem mergeFields_over (file : SourceFile) (z : Synthesizer) (samePackage : Bool)
    (supplied : List (Nat × Element)) (index : Nat) (fields : List (Field Ty)) (s : Session) :
    mergeFields file z samePackage supplied index fields (s.over packages forwarded) =
      ((mergeFields file z samePackage supplied index fields s).1,
        (mergeFields file z samePackage supplied index fields s).2.over packages forwarded) := by
  induction fields generalizing index s with
  | nil => rfl
  | cons f rest ih =>
    rw [mergeFields, mergeFields]
    cases supplied.lookup index with
    | some e =>
      rw [ih]
      cases mergeFields file z samePackage supplied (index + 1) rest s with
      | mk result s' => cases result <;> rfl
    | none =>
      dsimp only
      split
      · rw [Session.poll_over]
        cases s.poll with
        | mk up s₁ =>
          cases up with
          | true => rfl
          | false =>
            dsimp only
            rw [ih]
            cases mergeFields file z samePackage supplied (index + 1) rest s₁ with
            | mk result s' => cases result <;> rfl
      · exact ih ..

theorem fillResolved_over (r : FillRequest) (options : FillOptions) (literal : CompositeLiteral)
    (resolved : ResolvedStruct) (s : Session) :
    fillResolved r options literal resolved (s.over packages forwarded) =
      ((fillResolved r options literal resolved s).1,
        (fillResolved r options literal resolved s).2.over packages forwarded) := by
  unfold fillResolved merge
  cases matchElements resolved.fields literal (r.file.slice literal.typeSpan) with
  | error e => rfl
  | ok supplied =>
    dsimp only
    rw [mergeFields_over]
    cases mergeFields r.file (options.synthesizer r)
        (resolved.packagePath == (options.synthesizer r).packagePath) supplied 0 resolved.fields s with
    | mk result s' => cases result <;> rfl

end

theorem fillResolved_packages (r : FillRequest) (options : FillOptions) (literal : CompositeLiteral)
    (resolved : ResolvedStruct) (s : Session) :
    (fillResolved r options literal resolved s).2.packages = s.packages := by
  have h := fillResolved_over s.packages s.forwarded r options literal resolved s
  exact congrArg (·.2.packages) h

theorem fillFound_packages (r : FillRequest) (options : FillOptions) (literal : CompositeLiteral)
    (found : Except ResolveError ResolvedStruct) (s : Session) :
    (fillFound r options literal found s).2.packages = s.packages := by
  cases found with
  | error e => rfl
  | ok resolved => exact fillResolved_packages ..

section

variable {resolve : StructResolver} {P : PackageDb → Prop}
  (hresolve : ∀ scope type s, P s.packages → P (resolve scope type s).2.packages)
include hresolve

/-- What a resolver keeps of the packages that are remembered, a literal keeps as well. -/
theorem fillLiteral_keeps (r : FillRequest) (options : FillOptions) (literal : CompositeLiteral) {s : Session}
    (h : P s.packages) : P (fillLiteral resolve r options literal s).2.packages := by
  rw [← s.poll_packages] at h
  have hfound := hresolve ⟨r.file, r.path, r.packagePath, literal.lbrace⟩ literal.type s.poll.2 h
  rw [fillLiteral_eq]
  cases s.poll.1 with
  | true => exact h
  | false =>
    rw [fillPolled, fillFound_packages]
    exact hfound

theorem fillLiterals_keeps (r : FillRequest) (options : FillOptions) (literals : List CompositeLiteral) {s : Session}
    (h : P s.packages) : P (fillLiterals resolve r options literals s).2.packages := by
  induction literals generalizing s with
  | nil => exact h
  | cons literal rest ih =>
    have hfirst := fillLiteral_keeps hresolve r options literal h
    rw [fillLiterals_cons]
    generalize fillLiteral resolve r options literal s = first at hfirst ⊢
    rcases first with ⟨outcome, s₁⟩
    cases outcome with
    | stopped outcome => exact hfirst
    | leftAlone => exact ih hfirst
    | edited edit paths => exact ih hfirst

end

section

variable {resolve : StructResolver} (hresolve : ∀ scope type, Grows (resolve scope type))
include hresolve

theorem fillLiteral_packages (r : FillRequest) (options : FillOptions) (literal : CompositeLiteral) (s : Session) :
    s.packages.GrowsTo (fillLiteral resolve r options literal s).2.packages :=
  fillLiteral_keeps (P := s.packages.GrowsTo) (fun scope type s h => h.trans ((hresolve scope type).step s).packages)
    r options literal (.refl _)

theorem fillLiterals_packages (r : FillRequest) (options : FillOptions) (literals : List CompositeLiteral)
    (s : Session) : s.packages.GrowsTo (fillLiterals resolve r options literals s).2.packages :=
  fillLiterals_keeps (P := s.packages.GrowsTo) (fun scope type s h => h.trans ((hresolve scope type).step s).packages)
    r options literals (.refl _)

end

/-- What is remembered grows with the rest. -/
theorem fillRest_packages {resolve : StructResolver} (hresolve : ∀ scope type, Grows (resolve scope type))
    (r : FillRequest) (options : FillOptions) (rest : List CompositeLiteral) (outcome : LiteralOutcome) (s : Session) :
    s.packages.GrowsTo (fillRest resolve r options rest outcome s).2.packages := by
  cases outcome with
  | stopped outcome => exact .refl _
  | leftAlone => exact fillLiterals_packages hresolve r options rest s
  | edited edit paths => exact fillLiterals_packages hresolve r options rest s

/-! ## The answer -/

/-- The answer to a request whose literals end in a certain way. -/
def answerOf (r : FillRequest) : LiteralsOutcome → FillOutcome
  | .stopped outcome => outcome
  | .edited [] _ => .failed (.noLiteral (targetSpan r.file r.target))
  | .edited edits paths => .filled ⟨sortEdits edits, r.file.missingImports r.packagePath paths⟩

/-- The imports that a request asks for whose literals end in a certain way. -/
def askedFor (r : FillRequest) : LiteralsOutcome → List String
  | .edited (_ :: _) paths => r.file.missingImports r.packagePath paths
  | _ => []

theorem fill_eq {r : FillRequest} {literals : List CompositeLiteral} (h : locate r.file r.target = .ok literals)
    (resolve : StructResolver) (options : FillOptions) (s : Session) :
    fill resolve r options s = (answerOf r (fillLiterals resolve r options literals s).1,
      (askedFor r (fillLiterals resolve r options literals s).1).foldl Session.forward
        (fillLiterals resolve r options literals s).2) := by
  unfold fill
  rw [h]
  dsimp only
  rcases fillLiterals resolve r options literals s with ⟨⟨_ | _, _⟩ | _, _⟩ <;> rfl

/-- Asking for imports does not change what is remembered. -/
theorem Session.foldl_forward_packages (paths : List String) (s : Session) :
    (paths.foldl Session.forward s).packages = s.packages := by
  induction paths generalizing s with
  | nil => rfl
  | cons path rest ih => exact (ih (s.forward path)).trans rfl

theorem fill_of_locate {r : FillRequest} {literals : List CompositeLiteral} (h : locate r.file r.target = .ok literals)
    (resolve : StructResolver) (options : FillOptions) (s : Session) :
    (fill resolve r options s).1 = answerOf r (fillLiterals resolve r options literals s).1 ∧
      (fill resolve r options s).2.packages = (fillLiterals resolve r options literals s).2.packages := by
  rw [fill_eq h]
  exact ⟨rfl, Session.foldl_forward_packages _ _⟩

/-- What a resolver keeps of the packages that are remembered, a request keeps as well. -/
theorem fill_keeps {resolve : StructResolver} {P : PackageDb → Prop}
    (hresolve : ∀ scope type s, P s.packages → P (resolve scope type s).2.packages) (r : FillRequest)
    (options : FillOptions) {s : Session} (h : P s.packages) : P (fill resolve r options s).2.packages := by
  cases hlocate : locate r.file r.target with
  | error e =>
    unfold fill
    rw [hlocate]
    exact h
  | ok literals =>
    rw [(fill_of_locate hlocate resolve options s).2]
    exact fillLiterals_keeps hresolve r options literals h

end LiteralFill
