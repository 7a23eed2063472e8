import LiteralFill.Proofs.Outline

/-!
Problems once found stay found. Every reader adds to the problems it is given what it finds at tokens, and so does
every step of the pass over a file; a file without problems has none among its characters and brackets.
-/

namespace LiteralFill

open Reader

/-! ## Problems at tokens -/

namespace Lexed

/-- A problem found at a token, or behind the last one. -/
def IsReport (s : Lexed) (p : Diagnostic) : Prop := ∃ i message, p = ⟨.grammatical, s.spanAt i, message⟩

/-- What was found is kept, and what is added was found at tokens. -/
def Reports (s : Lexed) (before after : List Diagnostic) : Prop :=
  ∃ found, after = before ++ found ∧ ∀ p ∈ found, s.IsReport p

namespace Reports

variable {s : Lexed} {before between after : List Diagnostic}

theorem refl (s : Lexed) (ds : List Diagnostic) : s.Reports ds ds := ⟨[], (List.append_nil ds).symm, by simp⟩

theorem one (s : Lexed) (ds : List Diagnostic) (i : Nat) (message : String) :
    s.Reports ds (ds ++ [⟨.grammatical, s.spanAt i, message⟩]) :=
  ⟨_, rfl, by simpa using ⟨i, message, rfl⟩⟩

theorem trans (h : s.Reports before between) (h' : s.Reports between after) : s.Reports before after := by
  obtain ⟨found, rfl, hfound⟩ := h
  obtain ⟨more, rfl, hmore⟩ := h'
  refine ⟨found ++ more, List.append_assoc .., fun p hp => ?_⟩
  rcases List.mem_append.mp hp with hp | hp
  · exact hfound p hp
  · exact hmore p hp

theorem isPrefix (h : s.Reports before after) : before <+: after := by
  obtain ⟨found, rfl, -⟩ := h
  exact List.prefix_append before found

end Reports

end Lexed

/-! ## Readers -/

/-- The reader keeps the problems found before it and adds what it finds at tokens. -/
def KeepsReports {α : Type} (s : Lexed) (r : Reader α) : Prop := ∀ c, s.Reports c.diagnostics (r c).2.diagnostics

namespace KeepsReports

variable {α β : Type} {s : Lexed}

theorem bind {r : Reader α} {f : α → Reader β} (hr : KeepsReports s r) (hf : ∀ a, KeepsReports s (f a)) :
    KeepsReports s (r >>= f) := by
  intro c
  have hfirst := hr c
  rw [bind_apply]
  generalize r c = x at hfirst
  obtain ⟨result, d⟩ := x
  cases result with
  | none => exact hfirst
  | some a => exact hfirst.trans (hf a d)

theorem give (a : α) : KeepsReports s (Reader.give a) := fun _ => .refl s _

theorem fail : KeepsReports s (Reader.fail : Reader α) := fun _ => .refl s _

theorem index : KeepsReports s Reader.index := fun _ => .refl s _

theorem goTo (i : Nat) : KeepsReports s (Reader.goTo i) := fun _ => .refl s _

theorem skip (n : Nat) : KeepsReports s (Reader.skip n) := fun _ => .refl s _

theorem require (a : Option α) : KeepsReports s (Reader.require a) := fun _ => .refl s _

theorem peek : KeepsReports s (Reader.peek s) := fun _ => .refl s _

theorem peekAt (n : Nat) : KeepsReports s (Reader.peekAt s n) := fun _ => .refl s _

theorem optional {r : Reader α} (h : KeepsReports s r) : KeepsReports s r.optional := fun c => h c

theorem eat (k : TokenKind) : KeepsReports s (Reader.eat s k) := by
  intro c
  unfold Reader.eat
  split <;> exact .refl s _

theorem expect (k : TokenKind) : KeepsReports s (Reader.expect s k) := by
  intro c
  unfold Reader.expect
  split <;> exact .refl s _

theorem skipBrackets : KeepsReports s (Reader.skipBrackets s) := by
  intro c
  unfold Reader.skipBrackets
  split <;> exact .refl s _

theorem report (message : String) : KeepsReports s (Reader.report s message) := fun c => .one s _ c.index message

theorem recover (limit : Nat) : KeepsReports s (Reader.recover s limit) := fun _ => .refl s _

theorem ite {p : Prop} [Decidable p] {r r' : Reader α} (h : KeepsReports s r) (h' : KeepsReports s r') :
    KeepsReports s (if p then r else r') := by
  split
  · exact h
  · exact h'

end KeepsReports

/-! ## Types -/

section

variable {s : Lexed} {inner : Reader TypeExpr} (hinner : KeepsReports s inner)
include hinner

theorem readArgs_keepsReports (close fuel : Nat) (args : List TypeExpr) :
    KeepsReports s (readArgs s inner close fuel args) := by
  induction fuel generalizing args with
  | zero => exact .fail
  | succ fuel ih =>
    refine hinner.bind fun arg => (KeepsReports.eat _).bind fun comma => .ite (ih _) ?_
    exact KeepsReports.index.bind fun i => .ite ((KeepsReports.skip 1).bind fun _ => .give _) .fail

theorem readTypeArgs_keepsReports : KeepsReports s (readTypeArgs s inner) := by
  refine KeepsReports.index.bind fun start => .ite ?_ (.give _)
  split
  · exact .give _
  · refine (KeepsReports.skip 1).bind fun _ => (readArgs_keepsReports hinner _ _ _).optional.bind fun result => ?_
    cases result with
    | none => exact (KeepsReports.goTo start).bind fun _ => .give _
    | some args => exact .give _

omit hinner in
theorem readMoreNames_keepsReports (fuel : Nat) (names : List String) :
    KeepsReports s (readMoreNames s fuel names) := by
  induction fuel generalizing names with
  | zero => exact .give _
  | succ fuel ih =>
    refine KeepsReports.peek.bind fun comma => (KeepsReports.peekAt 1).bind fun name => .ite ?_ (.give _)
    exact KeepsReports.index.bind fun i => (KeepsReports.skip 2).bind fun _ => ih _

theorem readFieldHead_keepsReports (rbrace : Nat) : KeepsReports s (readFieldHead s inner rbrace) := by
  refine KeepsReports.index.bind fun i => ?_
  split
  · refine .ite (hinner.bind fun _ => .give _) ?_
    exact (KeepsReports.skip 1).bind fun _ => (readMoreNames_keepsReports _ _).bind fun _ =>
      hinner.bind fun _ => .give _
  · exact (KeepsReports.skip 1).bind fun _ => hinner.bind fun _ => .give _
  · exact .fail

omit hinner in
theorem readTag_keepsReports (rbrace : Nat) : KeepsReports s (readTag s rbrace) :=
  KeepsReports.index.bind fun _ => .ite ((KeepsReports.skip 1).bind fun _ => .give _) (.give _)

theorem readField_keepsReports (rbrace : Nat) : KeepsReports s (readField s inner rbrace) := by
  refine KeepsReports.index.bind fun first => (readFieldHead_keepsReports hinner rbrace).optional.bind fun head => ?_
  cases head with
  | none =>
    exact (KeepsReports.goTo first).bind fun _ => (KeepsReports.report _).bind fun _ =>
      (KeepsReports.goTo (first + 1)).bind fun _ => (KeepsReports.recover rbrace).bind fun _ => .give _
  | some head =>
    refine (readTag_keepsReports rbrace).bind fun tag => KeepsReports.index.bind fun last => .ite ?_ (.give _)
    refine (KeepsReports.eat _).bind fun semicolon => .ite (.give _) ?_
    exact (KeepsReports.report _).bind fun _ => (KeepsReports.recover rbrace).bind fun _ => .give _

theorem readFields_keepsReports (rbrace fuel : Nat) (fields : List (FieldDecl TypeExpr)) :
    KeepsReports s (readFields s inner rbrace fuel fields) := by
  induction fuel generalizing fields with
  | zero => exact .give _
  | succ fuel ih =>
    refine KeepsReports.index.bind fun i => .ite ?_ (.give _)
    refine (KeepsReports.eat _).bind fun semicolon => .ite (ih _) ?_
    refine (readField_keepsReports hinner rbrace).bind fun field => ?_
    cases field with
    | none => exact ih _
    | some field => exact ih _

theorem skipResult_keepsReports : KeepsReports s (skipResult s inner) := by
  refine KeepsReports.index.bind fun i => ?_
  split
  · exact KeepsReports.skipBrackets
  · refine .ite (hinner.optional.bind fun result => ?_) (.give _)
    cases result with
    | none => exact .goTo i
    | some type => exact .give _
  · exact .give _

theorem readForm_keepsReports : KeepsReports s (readForm s inner) := by
  refine KeepsReports.peek.bind fun kind => ?_
  split
  · refine KeepsReports.index.bind fun i => .ite ?_ ?_
    · exact (KeepsReports.skip 3).bind fun _ => (readTypeArgs_keepsReports hinner).bind fun _ => .give _
    · exact (KeepsReports.skip 1).bind fun _ => (readTypeArgs_keepsReports hinner).bind fun _ => .give _
  · exact (KeepsReports.skip 1).bind fun _ => hinner.bind fun _ => .give _
  · refine KeepsReports.index.bind fun i => .ite ((KeepsReports.skip 2).bind fun _ => hinner.bind fun _ => .give _) ?_
    exact (KeepsReports.require _).bind fun close => (KeepsReports.require _).bind fun length =>
      (KeepsReports.goTo _).bind fun _ => hinner.bind fun _ => .give _
  · exact (KeepsReports.skip 1).bind fun _ => (KeepsReports.expect _).bind fun _ => hinner.bind fun key =>
      (KeepsReports.expect _).bind fun _ => hinner.bind fun _ => .give _
  · exact (KeepsReports.skip 1).bind fun _ => (KeepsReports.eat _).bind fun _ => hinner.bind fun _ => .give _
  · exact (KeepsReports.peekAt 1).bind fun _ =>
      .ite ((KeepsReports.skip 2).bind fun _ => hinner.bind fun _ => .give _) .fail
  · refine KeepsReports.index.bind fun i => (KeepsReports.skip 1).bind fun _ => .ite ?_ .fail
    exact KeepsReports.skipBrackets.bind fun _ => (skipResult_keepsReports hinner).bind fun _ =>
      KeepsReports.index.bind fun j => .give _
  · refine KeepsReports.index.bind fun i => (KeepsReports.skip 1).bind fun _ => .ite ?_ .fail
    exact (KeepsReports.require _).bind fun rbrace => (KeepsReports.goTo _).bind fun _ =>
      (readFields_keepsReports hinner _ _ _).bind fun _ => (KeepsReports.goTo _).bind fun _ => .give _
  · refine KeepsReports.index.bind fun i => (KeepsReports.skip 1).bind fun _ => .ite ?_ .fail
    exact KeepsReports.skipBrackets.bind fun _ => KeepsReports.index.bind fun j => .give _
  · exact (KeepsReports.skip 1).bind fun _ => hinner.bind fun _ => (KeepsReports.expect _).bind fun _ => .give _
  · exact .fail

end

theorem readType_keepsReports (s : Lexed) : KeepsReports s (readType s) := by
  have hdepth : ∀ depth, KeepsReports s (readTypeWithin s depth) := by
    intro depth
    induction depth with
    | zero => exact fun _ => .refl s _
    | succ depth ih => exact readForm_keepsReports ih
  exact hdepth _

/-! ## Declarations -/

section

variable {s : Lexed} {α : Type}

theorem readGroup_keepsReports {spec : Nat → Reader (List α)} (hspec : ∀ limit, KeepsReports s (spec limit))
    (close fuel : Nat) (found : List α) : KeepsReports s (readGroup s spec close fuel found) := by
  induction fuel generalizing found with
  | zero => exact .give _
  | succ fuel ih =>
    refine KeepsReports.index.bind fun i => .ite ?_ (.give _)
    exact (KeepsReports.eat _).bind fun _ => .ite (ih _) ((hspec close).bind fun _ => ih _)

theorem readDeclarations_keepsReports {spec : Nat → Reader (List α)} (hspec : ∀ limit, KeepsReports s (spec limit)) :
    KeepsReports s (readDeclarations s spec) := by
  refine KeepsReports.index.bind fun i => (KeepsReports.skip 1).bind fun _ => .ite ?_ (hspec _)
  exact (KeepsReports.skip 1).bind fun _ => (readGroup_keepsReports hspec _ _ _).bind fun _ =>
    (KeepsReports.goTo _).bind fun _ => .give _

theorem orRecover_keepsReports (limit : Nat) {r : Reader α} (hr : KeepsReports s r) :
    KeepsReports s (orRecover s limit r) := by
  refine hr.optional.bind fun result => ?_
  cases result with
  | none => exact (KeepsReports.recover limit).bind fun _ => .give _
  | some a => exact .give _

theorem readImport_keepsReports (s : Lexed) : KeepsReports s (readImport s) := by
  have hpath : ∀ (first : Nat) (alias? : Option String),
      KeepsReports s (index >>= fun i =>
        if s.kindAt i = some .string || s.kindAt i = some .rawString then
          skip 1 >>= fun _ =>
            give (ImportSpec.mk alias? (String.ofList (unquote (s.nameAt i).toList)) ⟨s.startAt first, s.stopAt i⟩)
        else report s "expected import path" >>= fun _ => fail) := fun first alias? =>
    KeepsReports.index.bind fun i => .ite ((KeepsReports.skip 1).bind fun _ => .give _)
      ((KeepsReports.report _).bind fun _ => .fail)
  refine KeepsReports.index.bind fun first => ?_
  split
  · exact (KeepsReports.skip 1).bind fun _ => hpath first _
  · exact (KeepsReports.skip 1).bind fun _ => hpath first _
  · exact hpath first none

theorem readTypeSpec_keepsReports (s : Lexed) (scope : Option Span) : KeepsReports s (readTypeSpec s scope) := by
  have hparams : KeepsReports s (readParams s) :=
    KeepsReports.index.bind fun i => .ite ((KeepsReports.goTo _).bind fun _ => .give _) (.give _)
  refine KeepsReports.index.bind fun first => .ite ?_ ((KeepsReports.report _).bind fun _ => .fail)
  refine (KeepsReports.skip 1).bind fun _ => hparams.bind fun params => (KeepsReports.eat _).bind fun isAlias =>
    (readType_keepsReports s).optional.bind fun result => ?_
  cases result with
  | none => exact (KeepsReports.report _).bind fun _ => .fail
  | some type => exact KeepsReports.index.bind fun next => .give _

theorem readConstSpec_keepsReports (s : Lexed) (scope : Option Span) (limit : Nat) :
    KeepsReports s (readConstSpec s scope limit) := by
  have hnames : ∀ fuel names, KeepsReports s (readConstNames s fuel names) := by
    intro fuel
    induction fuel with
    | zero => exact fun _ => .give _
    | succ fuel ih =>
      exact fun names => KeepsReports.index.bind fun i => (KeepsReports.eat _).bind fun _ =>
        .ite ((KeepsReports.eat _).bind fun _ => .ite (ih _) (.give _)) (.give _)
  have hvalues : ∀ fuel values, KeepsReports s (readConstValues s limit fuel values) := by
    intro fuel
    induction fuel with
    | zero => exact fun _ => .give _
    | succ fuel ih =>
      exact fun values => KeepsReports.index.bind fun i => (KeepsReports.goTo _).bind fun _ =>
        (KeepsReports.eat _).bind fun _ => .ite (ih _) (.give _)
  refine KeepsReports.index.bind fun first => (hnames _ _).bind fun names => .ite ?_ ?_
  · exact (KeepsReports.report _).bind fun _ => (KeepsReports.recover limit).bind fun _ => .give _
  · refine KeepsReports.index.bind fun i => (KeepsReports.goTo _).bind fun _ => ?_
    refine (KeepsReports.eat _).bind fun assigned => .ite ?_ ?_
    · exact (hvalues _ _).bind fun _ => (KeepsReports.recover limit).bind fun _ => .give _
    · exact (KeepsReports.give _).bind fun _ => (KeepsReports.recover limit).bind fun _ => .give _

end

theorem readImports_keepsReports (s : Lexed) : KeepsReports s (readImports s) :=
  readDeclarations_keepsReports fun limit => orRecover_keepsReports limit (readImport_keepsReports s)

theorem readTypes_keepsReports (s : Lexed) (scope : Option Span) : KeepsReports s (readTypes s scope) :=
  readDeclarations_keepsReports fun limit => orRecover_keepsReports limit (readTypeSpec_keepsReports s scope)

theorem readConsts_keepsReports (s : Lexed) (scope : Option Span) : KeepsReports s (readConsts s scope) :=
  readDeclarations_keepsReports (readConstSpec_keepsReports s scope)

/-! ## The pass -/

namespace Outline

theorem stepPackage_keepsReports (s : Lexed) (o : Outline) : s.Reports o.diagnostics (stepPackage s o).diagnostics := by
  unfold stepPackage
  simp only
  split
  · exact .refl s _
  · exact .one s _ _ _

theorem stepOther_keepsReports (s : Lexed) (t : Token) (o : Outline) :
    s.Reports o.diagnostics (stepOther s t o).diagnostics := by
  have hbrace : (stepOpenBrace s o).diagnostics = o.diagnostics := by
    unfold stepOpenBrace
    cases o.headerHere with
    | none => rfl
    | some h => simp only; split <;> rfl
  have hclose : (stepCloseBrace s o).diagnostics = o.diagnostics := by
    unfold stepCloseBrace
    simp only
    split
    · split <;> rfl
    · rfl
  have hbody : (stepTypeBody s o).diagnostics = o.diagnostics := by
    unfold stepTypeBody
    simp only
    split <;> rfl
  obtain ⟨kind, start, text⟩ := t
  cases kind with
  | opener b =>
    cases b with
    | brace => exact hbrace ▸ Lexed.Reports.refl s _
    | _ => exact .refl s _
  | closer b =>
    cases b with
    | brace => exact hclose ▸ Lexed.Reports.refl s _
    | _ => exact .refl s _
  | keyword w =>
    cases w with
    | packageWord => exact stepPackage_keepsReports s o
    | importWord => exact readImports_keepsReports s ⟨o.index, o.diagnostics⟩
    | typeWord =>
      show s.Reports _ (if declaresType s o.index then stepTypes s o else o.advance).diagnostics
      split
      · exact readTypes_keepsReports s _ ⟨o.index, o.diagnostics⟩
      · exact .refl s _
    | constWord => exact readConsts_keepsReports s _ ⟨o.index, o.diagnostics⟩
    | structWord => exact hbody ▸ Lexed.Reports.refl s _
    | interfaceWord => exact hbody ▸ Lexed.Reports.refl s _
    | _ => exact .refl s _
  | _ => exact .refl s _

theorem step_keepsReports (s : Lexed) (t : Token) (o : Outline) : s.Reports o.diagnostics (step s t o).diagnostics := by
  rw [step_eq]
  split
  · rcases stepLiteral_eq s (stepOther s t) o with ⟨l, lbrace, rbrace, ds, h, he⟩ | ⟨-, he⟩
    · obtain ⟨type, hread, -⟩ := literalHere_eq_some.mp h
      have hkept := readType_keepsReports s ⟨o.index, o.diagnostics⟩
      rw [hread] at hkept
      rw [he]
      exact hkept
    · rw [he]
      exact stepOther_keepsReports s t o
  · exact stepOther_keepsReports s t o

theorem run_keepsReports (s : Lexed) (fuel : Nat) (o : Outline) :
    s.Reports o.diagnostics (run s fuel o).diagnostics := by
  induction fuel generalizing o with
  | zero => exact .refl s _
  | succ fuel ih =>
    rw [run]
    cases s.tokens[o.index]? with
    | none => exact .refl s _
    | some t => exact (step_keepsReports s t o).trans (ih _)

end Outline

/-- The problems of the characters and brackets are among those of the file. -/
theorem SourceFile.ofText_prefix (text : List Char) : (Lexed.ofText text).2 <+: (SourceFile.parse text).diagnostics :=
  (Outline.run_keepsReports _ _ (.start (Lexed.ofText text).2)).isPrefix

theorem SourceFile.ofText_eq_nil {text : List Char} (h : (SourceFile.parse text).diagnostics = []) :
    (Lexed.ofText text).2 = [] :=
  List.prefix_nil.mp (h ▸ SourceFile.ofText_prefix text)

end LiteralFill
