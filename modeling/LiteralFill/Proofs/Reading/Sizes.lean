import LiteralFill.Proofs.Outline
import Mathlib.Algebra.Order.Group.Nat

/-!
How much a file can declare. Readers are given as much fuel as there are tokens, and a text has at most two
tokens for each character and one more; so the declarations of a file, and the types around one another in each
of them, are bounded by its length.
-/

namespace LiteralFill

open Reader

/-! ## Depth -/

/-- The types that stand directly in a type. -/
def TypeExpr.parts : TypeExpr → List TypeExpr
  | .name _ _ args => args
  | .pointer t | .slice t | .array _ t | .chan _ t => [t]
  | .map k v => [k, v]
  | .struct decls => decls.map (·.type)
  | .func _ | .interface _ => []

/-- At most `n` types stand around one another. -/
def TypeExpr.Within : Nat → TypeExpr → Prop
  | 0, _ => False
  | n + 1, t => ∀ u ∈ t.parts, u.Within n

theorem TypeExpr.Within.mono {m n : Nat} (hmn : m ≤ n) {t : TypeExpr} (h : t.Within m) : t.Within n := by
  induction m generalizing n t with
  | zero => exact h.elim
  | succ m ih =>
    obtain ⟨n, rfl⟩ : ∃ k, n = k + 1 := ⟨n - 1, by omega⟩
    exact fun u hu => ih (by omega) (h u hu)

/-! ## Readers -/

namespace Reader

variable {α β : Type}

/-- Whatever the reader reads satisfies `P`. -/
def Yields (r : Reader α) (P : α → Prop) : Prop := ∀ c a, (r c).1 = some a → P a

namespace Yields

variable {P : α → Prop} {Q : β → Prop} {r : Reader α}

theorem give {a : α} (h : P a) : Yields (Reader.give a) P := by
  rintro c _ ⟨⟩
  exact h

theorem fail : Yields (Reader.fail : Reader α) P := by
  rintro c _ ⟨⟩

theorem trivial (r : Reader α) : Yields r fun _ => True := fun _ _ _ => True.intro

theorem bind {f : α → Reader β} (hr : Yields r P) (hf : ∀ a, P a → Yields (f a) Q) : Yields (r >>= f) Q := by
  intro c b hb
  rw [bind_apply] at hb
  cases hrun : r c with
  | mk result c' =>
    rw [hrun] at hb
    cases result with
    | none => cases hb
    | some a => exact hf a (hr c a (by rw [hrun])) c' b hb

/-- What is read first does not matter. -/
theorem after {f : α → Reader β} (hf : ∀ a, Yields (f a) Q) : Yields (r >>= f) Q :=
  (trivial r).bind fun a _ => hf a

theorem optional (hr : Yields r P) : Yields r.optional fun result => ∀ a ∈ result, P a := by
  intro c result hresult a ha
  obtain rfl : (r c).1 = result := Option.some.inj hresult
  exact hr c a ha

theorem weaken {P' : α → Prop} (hr : Yields r P) (h : ∀ a, P a → P' a) : Yields r P' :=
  fun c a ha => h a (hr c a ha)

end Yields

end Reader

/-! ## Types -/

section

variable {s : Lexed} {inner : Reader TypeExpr}

theorem readArgs_yields {P : TypeExpr → Prop} (hinner : inner.Yields P) (close fuel : Nat) {args : List TypeExpr}
    (hargs : ∀ t ∈ args, P t) : (readArgs s inner close fuel args).Yields fun args => ∀ t ∈ args, P t := by
  induction fuel generalizing args with
  | zero => exact .fail
  | succ fuel ih =>
    refine hinner.bind fun arg harg => .after fun comma => ?_
    have hmore : ∀ t ∈ args ++ [arg], P t := by
      intro t ht
      rcases List.mem_append.mp ht with ht | ht
      · exact hargs t ht
      · rwa [List.mem_singleton.mp ht]
    split
    · exact ih hmore
    · refine .after fun i => ?_
      split
      · exact .after fun _ => .give hmore
      · exact .fail

theorem readTypeArgs_yields {P : TypeExpr → Prop} (hinner : inner.Yields P) :
    (readTypeArgs s inner).Yields fun args => ∀ t ∈ args, P t := by
  refine .after fun start => ?_
  split
  · split
    · exact .give (by simp)
    · refine .after fun _ => (readArgs_yields hinner _ _ (by simp)).optional.bind fun result hresult => ?_
      cases result with
      | none => exact .after fun _ => .give (by simp)
      | some args => exact .give (hresult args rfl)
  · exact .give (by simp)

theorem readFields_yields {P : FieldDecl TypeExpr → Prop} {rbrace : Nat}
    (hfield : (readField s inner rbrace).Yields fun field => ∀ f ∈ field, P f) (fuel : Nat)
    {fields : List (FieldDecl TypeExpr)} (hfields : ∀ f ∈ fields, P f) :
    (readFields s inner rbrace fuel fields).Yields fun fields => ∀ f ∈ fields, P f := by
  induction fuel generalizing fields with
  | zero => exact .give hfields
  | succ fuel ih =>
    refine .after fun i => ?_
    split
    · refine .after fun semicolon => ?_
      split
      · exact ih hfields
      · refine hfield.bind fun field hfield => ?_
        cases field with
        | none => exact ih hfields
        | some field =>
          refine ih fun f hf => ?_
          rcases List.mem_append.mp hf with hf | hf
          · exact hfields f hf
          · rw [List.mem_singleton.mp hf]
            exact hfield field rfl
    · exact .give hfields

end

section

variable {s : Lexed} {inner : Reader TypeExpr} {n : Nat} (hinner : inner.Yields (·.Within n))
include hinner

theorem readFieldHead_within (rbrace : Nat) :
    (readFieldHead s inner rbrace).Yields fun head => head.2.Within (n + 1) := by
  have hmono {t : TypeExpr} (ht : t.Within n) : t.Within (n + 1) := ht.mono (Nat.le_succ n)
  refine .after fun i => ?_
  split
  · split
    · exact hinner.bind fun t ht => .give (hmono ht)
    · exact .after fun _ => .after fun names => hinner.bind fun t ht => .give (hmono ht)
  · refine .after fun _ => hinner.bind fun t ht => .give ?_
    simpa [TypeExpr.Within, TypeExpr.parts] using ht
  · exact .fail

theorem readField_within (rbrace : Nat) :
    (readField s inner rbrace).Yields fun field => ∀ f ∈ field, f.type.Within (n + 1) := by
  refine .after fun first => (readFieldHead_within hinner rbrace).optional.bind fun head hhead => ?_
  cases head with
  | none => exact .after fun _ => .after fun _ => .after fun _ => .after fun _ => .give (by simp)
  | some head =>
    have htype := hhead head rfl
    refine .after fun tag => .after fun last => ?_
    have hfield : ∀ f ∈ some (⟨head.1, head.2, tag, ⟨s.startAt first, s.stopBefore last⟩⟩ : FieldDecl TypeExpr),
        f.type.Within (n + 1) := by
      rintro _ ⟨⟩
      exact htype
    dsimp only
    split
    · refine .after fun semicolon => ?_
      split
      · exact .give hfield
      · exact .after fun _ => .after fun _ => .give hfield
    · exact .give hfield

/-- A type has at most two more types around one another than those that are read inside it. -/
theorem readForm_within : (readForm s inner).Yields (·.Within (n + 2)) := by
  have hone {t u : TypeExpr} (hparts : t.parts = [u]) (hu : u.Within n) : t.Within (n + 2) := by
    refine TypeExpr.Within.mono (Nat.le_succ (n + 1)) fun v hv => ?_
    rw [hparts] at hv
    rwa [List.mem_singleton.mp hv]
  have hnone {t : TypeExpr} (hparts : t.parts = []) : t.Within (n + 2) := by
    intro u hu
    rw [hparts] at hu
    cases hu
  have hname (q : Option String) (name : String) (args : List TypeExpr) (hargs : ∀ t ∈ args, t.Within n) :
      (TypeExpr.name q name args).Within (n + 2) := fun t ht => (hargs t ht).mono (Nat.le_succ n)
  refine .after fun kind => ?_
  split
  · refine .after fun i => ?_
    split
    · exact .after fun _ => (readTypeArgs_yields hinner).bind fun args hargs => .give (hname _ _ args hargs)
    · exact .after fun _ => (readTypeArgs_yields hinner).bind fun args hargs => .give (hname _ _ args hargs)
  · exact .after fun _ => hinner.bind fun t ht => .give (hone rfl ht)
  · refine .after fun i => ?_
    split
    · exact .after fun _ => hinner.bind fun t ht => .give (hone rfl ht)
    · exact .after fun _ => .after fun _ => .after fun _ => hinner.bind fun t ht => .give (hone rfl ht)
  · refine .after fun _ => .after fun _ => hinner.bind fun k hk => .after fun _ => hinner.bind fun v hv => .give ?_
    intro u hu
    rcases List.mem_cons.mp hu with rfl | hu
    · exact hk.mono (Nat.le_succ n)
    · rw [List.mem_singleton.mp hu]
      exact hv.mono (Nat.le_succ n)
  · exact .after fun _ => .after fun _ => hinner.bind fun t ht => .give (hone rfl ht)
  · refine .after fun _ => ?_
    split
    · exact .after fun _ => hinner.bind fun t ht => .give (hone rfl ht)
    · exact .fail
  · refine .after fun i => .after fun _ => ?_
    split
    · exact .after fun _ => .after fun _ => .after fun _ => .give (hnone rfl)
    · exact .fail
  · refine .after fun i => .after fun _ => ?_
    split
    · refine .after fun rbrace => .after fun _ => (readFields_yields (readField_within hinner _) _ (by simp)).bind
        fun fields hfields => .after fun _ => .give fun u hu => ?_
      obtain ⟨f, hf, rfl⟩ := List.mem_map.mp hu
      exact hfields f hf
    · exact .fail
  · refine .after fun i => .after fun _ => ?_
    split
    · exact .after fun _ => .after fun _ => .give (hnone rfl)
    · exact .fail
  · exact .after fun _ => hinner.bind fun t ht => .after fun _ => .give (ht.mono (by omega))
  · exact .fail

end

theorem readTypeWithin_within (s : Lexed) (depth : Nat) :
    Yields (readTypeWithin s depth) (·.Within (2 * depth)) := by
  induction depth with
  | zero => rintro c _ ⟨⟩
  | succ depth ih => exact readForm_within ih

theorem readType_within (s : Lexed) : (readType s).Yields (·.Within (2 * (s.size + 1))) :=
  readTypeWithin_within s (s.size + 1)

/-! ## Declarations -/

section

variable {α : Type} {P : α → Prop} {s : Lexed}

/-- What the rounds of a group preserve holds of all that they read. -/
theorem readGroup_yields {Q : Nat → List α → Prop} {spec : Nat → Reader (List α)}
    (hpass : ∀ n found, Q n found → Q (n + 1) found)
    (hspec : ∀ limit n found, Q n found → (spec limit).Yields fun more => Q (n + 1) (found ++ more)) (close fuel : Nat)
    {n : Nat} {found : List α} (hfound : Q n found) : (readGroup s spec close fuel found).Yields (Q (n + fuel)) := by
  induction fuel generalizing n found with
  | zero => exact .give hfound
  | succ fuel ih =>
    rw [← Nat.add_assoc, Nat.add_right_comm]
    refine .after fun i => ?_
    split
    · refine .after fun semicolon => ?_
      split
      · exact ih (hpass n found hfound)
      · exact (hspec close n found hfound).bind fun more hmore => ih hmore
    · have hend : ∀ k, Q (n + k) found := Nat.rec hfound fun k => hpass (n + k) found
      rw [Nat.add_right_comm]
      exact .give (hend (fuel + 1))

/-- A declaration has no more rounds than there are tokens, and one more. -/
theorem readDeclarations_yields (hm : s.IsMatched) {Q : Nat → List α → Prop} {spec : Nat → Reader (List α)}
    (hpass : ∀ n found, Q n found → Q (n + 1) found)
    (hspec : ∀ limit n found, Q n found → (spec limit).Yields fun more => Q (n + 1) (found ++ more)) (hnil : Q 0 []) :
    (readDeclarations s spec).Yields fun l => ∃ n ≤ s.size + 1, Q n l := by
  refine .after fun i => .after fun _ => ?_
  split
  · refine .after fun _ => (readGroup_yields hpass hspec _ _ hnil).bind fun found hfound => .after fun _ => .give ?_
    have hclose : (s.closerOf (i + 1)).getD s.size ≤ s.size := by
      cases hc : s.closerOf (i + 1) with
      | none => exact Nat.le_refl _
      | some close => exact Nat.le_of_lt (hm.closer_spec hc).2.1
    exact ⟨_, by omega, hfound⟩
  · exact (hspec s.size 0 [] hnil).weaken fun l hl => ⟨1, by omega, hl⟩

/-- What holds of all that the parts of a declaration declare holds of all that it declares. -/
theorem readDeclarations_all (hm : s.IsMatched) {spec : Nat → Reader (List α)}
    (hspec : ∀ limit, (spec limit).Yields fun l => ∀ a ∈ l, P a) :
    (readDeclarations s spec).Yields fun l => ∀ a ∈ l, P a := by
  have hrounds := readDeclarations_yields hm (Q := fun _ l => ∀ a ∈ l, P a) (fun _ _ h => h)
    (fun limit _ found hfound => (hspec limit).weaken fun more hmore => List.forall_mem_append.mpr ⟨hfound, hmore⟩)
    (by simp)
  refine hrounds.weaken ?_
  rintro l ⟨-, -, hl⟩
  exact hl

/-- A declaration whose parts declare one thing each declares no more things than it has rounds. -/
theorem readDeclarations_length (hm : s.IsMatched) {spec : Nat → Reader (List α)}
    (hspec : ∀ limit, (spec limit).Yields fun l => l.length ≤ 1) :
    (readDeclarations s spec).Yields fun l => l.length ≤ s.size + 1 := by
  have hround : ∀ limit n (found : List α), found.length ≤ n →
      (spec limit).Yields fun more => (found ++ more).length ≤ n + 1 := by
    refine fun limit n found hfound => (hspec limit).weaken fun more hmore => ?_
    rw [List.length_append]
    exact Nat.add_le_add hfound hmore
  refine (readDeclarations_yields hm (fun _ _ => Nat.le_succ_of_le) hround (Nat.le_refl 0)).weaken ?_
  rintro l ⟨n, hn, hl⟩
  exact Nat.le_trans hl hn

theorem orRecover_all {r : Reader α} (hr : r.Yields P) (limit : Nat) :
    (orRecover s limit r).Yields fun l => ∀ a ∈ l, P a := by
  refine hr.optional.bind fun result hresult => ?_
  cases result with
  | none => exact .after fun _ => .give (by simp)
  | some a => exact .give (by simpa using hresult a rfl)

theorem orRecover_length (r : Reader α) (limit : Nat) : (orRecover s limit r).Yields fun l => l.length ≤ 1 := by
  refine .after fun result => ?_
  cases result with
  | none => exact .after fun _ => .give (by simp)
  | some a => exact .give (Nat.le_refl 1)

theorem readTypeSpec_within (s : Lexed) (scope : Option Span) :
    (readTypeSpec s scope).Yields fun d => d.type.Within (2 * (s.size + 1)) := by
  refine .after fun first => ?_
  split
  · refine .after fun _ => .after fun params => .after fun isAlias =>
      (readType_within s).optional.bind fun type htype => ?_
    cases type with
    | none => exact .after fun _ => .fail
    | some type => exact .after fun next => .give (htype type rfl)
  · exact .after fun _ => .fail

end

/-! ## The pass -/

namespace Outline

variable {s : Lexed}

/-- The types that a step records. -/
def recordedTypes (s : Lexed) (t : Token) (o : Outline) : List TypeDecl :=
  if t.kind = .keyword .typeWord ∧ declaresType s o.index then
    (o.read (readTypes s (o.bodyAround (s.startAt o.index)))).1
  else []

/-- The imports that a step records. -/
def recordedImports (s : Lexed) (t : Token) (o : Outline) : List ImportSpec :=
  if t.kind = .keyword .importWord then (o.read (readImports s)).1 else []

/-- The constants that a step records. -/
def recordedConsts (s : Lexed) (t : Token) (o : Outline) : List ConstDecl :=
  if t.kind = .keyword .constWord then (o.read (readConsts s (o.bodyAround (s.startAt o.index)))).1 else []

/-- A step adds what a declaration at its token declares. -/
structure Records (s : Lexed) (t : Token) (o o' : Outline) : Prop where
  types : o'.types = o.types ++ recordedTypes s t o
  imports : o'.imports = o.imports ++ recordedImports s t o
  consts : o'.consts = o.consts ++ recordedConsts s t o

/-- At another token nothing is declared. -/
theorem records_of_same {t : Token} {o o' : Outline}
    (hk : t.kind ≠ .keyword .typeWord ∧ t.kind ≠ .keyword .importWord ∧ t.kind ≠ .keyword .constWord)
    (h : o'.types = o.types ∧ o'.imports = o.imports ∧ o'.consts = o.consts) : Records s t o o' := by
  constructor <;> simp [recordedTypes, recordedImports, recordedConsts, hk, h]

theorem stepOther_records (s : Lexed) (t : Token) (o : Outline) : Records s t o (stepOther s t o) := by
  obtain ⟨kind, start, text⟩ := t
  cases kind with
  | keyword w =>
    cases w with
    | importWord =>
      constructor <;> simp [stepOther, step, stepImports, recordedTypes, recordedImports, recordedConsts, read]
    | constWord =>
      constructor <;> simp [stepOther, step, stepConsts, recordedTypes, recordedImports, recordedConsts, read]
    | typeWord =>
      by_cases hd : declaresType s o.index
      · constructor <;>
          simp [stepOther, step, stepTypes, recordedTypes, recordedImports, recordedConsts, read, hd]
      · constructor <;> simp [stepOther, step, recordedTypes, recordedImports, recordedConsts, hd, advance]
    | packageWord =>
      refine records_of_same (by simp) ?_
      simp only [stepOther, step, stepPackage]
      split <;> exact ⟨rfl, rfl, rfl⟩
    | structWord | interfaceWord =>
      refine records_of_same (by simp) ?_
      simp only [stepOther, step, stepTypeBody]
      split <;> exact ⟨rfl, rfl, rfl⟩
    | _ => exact records_of_same (by simp) ⟨rfl, rfl, rfl⟩
  | opener b =>
    cases b with
    | brace =>
      refine records_of_same (by simp) ?_
      simp only [stepOther, step, stepOpenBrace]
      split
      · exact ⟨rfl, rfl, rfl⟩
      · split <;> exact ⟨rfl, rfl, rfl⟩
    | _ => exact records_of_same (by simp) ⟨rfl, rfl, rfl⟩
  | closer b =>
    cases b with
    | brace =>
      refine records_of_same (by simp) ?_
      simp only [stepOther, step, stepCloseBrace]
      split
      · split <;> exact ⟨rfl, rfl, rfl⟩
      · exact ⟨rfl, rfl, rfl⟩
    | _ => exact records_of_same (by simp) ⟨rfl, rfl, rfl⟩
  | _ => exact records_of_same (by simp) ⟨rfl, rfl, rfl⟩

theorem step_records (s : Lexed) (t : Token) (o : Outline) : Records s t o (step s t o) := by
  rw [step_eq]
  split
  · next hb =>
    unfold stepLiteral
    split
    · have hk : t.kind ≠ .keyword .typeWord ∧ t.kind ≠ .keyword .importWord ∧ t.kind ≠ .keyword .constWord := by
        refine ⟨?_, ?_, ?_⟩ <;>
        · intro hk
          rw [hk] at hb
          cases hb
      exact records_of_same hk ⟨rfl, rfl, rfl⟩
    · exact stepOther_records s t o
  · exact stepOther_records s t o

/-- What a reader of declarations gives the pass. -/
theorem read_of_yields {α : Type} {P : List α → Prop} {r : Reader (List α)} (hr : r.Yields P) (hnil : P [])
    (o : Outline) : P (o.read r).1 := by
  unfold read
  cases hrun : r ⟨o.index, o.diagnostics⟩ with
  | mk found c =>
    cases found with
    | none => exact hnil
    | some found => exact hr _ found (congrArg Prod.fst hrun)

theorem recordedTypes_of_yields {P : List TypeDecl → Prop} (hr : ∀ scope, (readTypes s scope).Yields P) (hnil : P [])
    (t : Token) (o : Outline) : P (recordedTypes s t o) := by
  unfold recordedTypes
  split
  · exact read_of_yields (hr _) hnil o
  · exact hnil

theorem recordedImports_of_yields {P : List ImportSpec → Prop} (hr : (readImports s).Yields P) (hnil : P [])
    (t : Token) (o : Outline) : P (recordedImports s t o) := by
  unfold recordedImports
  split
  · exact read_of_yields hr hnil o
  · exact hnil

/-- What holds of every type that can be declared holds of the types that a step records. -/
theorem recordedTypes_all (hm : s.IsMatched) {P : TypeDecl → Prop} (hr : ∀ scope, (readTypeSpec s scope).Yields P)
    (t : Token) (o : Outline) : ∀ d ∈ recordedTypes s t o, P d :=
  recordedTypes_of_yields (fun scope => readDeclarations_all hm (orRecover_all (hr scope))) (by simp) t o

theorem recordedImports_all (hm : s.IsMatched) {P : ImportSpec → Prop} (hr : (readImport s).Yields P) (t : Token)
    (o : Outline) : ∀ i ∈ recordedImports s t o, P i :=
  recordedImports_of_yields (readDeclarations_all hm (orRecover_all hr)) (by simp) t o

theorem recordedTypes_length (hm : s.IsMatched) (t : Token) (o : Outline) :
    (recordedTypes s t o).length ≤ s.size + 1 :=
  recordedTypes_of_yields (fun _ => readDeclarations_length hm (orRecover_length _)) (Nat.zero_le _) t o

theorem recordedImports_length (hm : s.IsMatched) (t : Token) (o : Outline) :
    (recordedImports s t o).length ≤ s.size + 1 :=
  recordedImports_of_yields (readDeclarations_length hm (orRecover_length _)) (Nat.zero_le _) t o

theorem recorded_within (s : Lexed) (t : Token) (o : Outline) :
    ∀ l ∈ recorded s t o, l.type.Within (2 * (s.size + 1)) := by
  intro l hl
  unfold recorded at hl
  split at hl
  · obtain ⟨e, he, rfl⟩ := Option.map_eq_some_iff.mp (Option.mem_toList.mp hl)
    obtain ⟨type, hread, -, -, -, hliteral⟩ := literalHere_eq_some.mp he
    rw [hliteral]
    exact readType_within s ⟨o.index, o.diagnostics⟩ type (by rw [hread])
  · cases hl

/-- What a pass has recorded after some steps is bounded by the number of steps. -/
structure Bounded (s : Lexed) (steps : Nat) (o : Outline) : Prop where
  types : o.types.length ≤ steps * (s.size + 1)
  imports : o.imports.length ≤ steps * (s.size + 1)
  declared : ∀ d ∈ o.types, d.type.Within (2 * (s.size + 1))
  literal : ∀ l ∈ o.literals, l.type.Within (2 * (s.size + 1))

theorem Bounded.step (hm : s.IsMatched) {steps : Nat} {o : Outline} (h : Bounded s steps o) (t : Token) :
    Bounded s (steps + 1) (step s t o) := by
  obtain ⟨htypes, himports, -⟩ := step_records s t o
  have hliterals := step_literals_eq s t o
  constructor
  · rw [htypes, List.length_append, Nat.succ_mul]
    exact Nat.add_le_add h.types (recordedTypes_length hm t o)
  · rw [himports, List.length_append, Nat.succ_mul]
    exact Nat.add_le_add h.imports (recordedImports_length hm t o)
  · intro d hd
    rcases List.mem_append.mp (htypes ▸ hd) with hd | hd
    · exact h.declared d hd
    · exact recordedTypes_all hm (readTypeSpec_within s) t o d hd
  · intro l hl
    rcases List.mem_append.mp (hliterals ▸ hl) with hl | hl
    · exact h.literal l hl
    · exact recorded_within s t o l hl

theorem Bounded.run (hm : s.IsMatched) {steps : Nat} {o : Outline} (h : Bounded s steps o) (fuel : Nat) :
    Bounded s (steps + fuel) (run s fuel o) := by
  induction fuel generalizing steps o with
  | zero => exact h
  | succ fuel ih =>
    unfold Outline.run
    split
    · rw [show steps + (fuel + 1) = steps + 1 + fuel by omega]
      exact ih (h.step hm _)
    · have hle : steps * (s.size + 1) ≤ (steps + (fuel + 1)) * (s.size + 1) := Nat.mul_le_mul_right _ (by omega)
      exact ⟨Nat.le_trans h.types hle, Nat.le_trans h.imports hle, h.declared, h.literal⟩

end Outline

/-! ## Files -/

/-- A file with at most `n` types and imports, and with at most `n` types around one another. -/
structure SourceFile.Bounded (n : Nat) (f : SourceFile) : Prop where
  types : f.types.length ≤ n
  imports : f.imports.length ≤ n
  declared : ∀ d ∈ f.types, d.type.Within n
  literal : ∀ l ∈ f.literals, l.type.Within n

theorem tokensFrom_length (offset : Nat) (pending : Bool) (ls : List Lexeme) :
    (tokensFrom offset pending ls).length ≤ 2 * ls.length + 1 := by
  induction ls generalizing offset pending with
  | nil =>
    unfold tokensFrom
    split <;> simp
  | cons l rest ih =>
    have hrest := ih (offset + byteLength l.text)
    obtain ⟨kind, text⟩ := l
    simp only [List.length_cons]
    have hskip (b : Bool) : (tokensFrom (offset + byteLength text) b rest).length ≤ 2 * (rest.length + 1) + 1 :=
      Nat.le_trans (hrest b) (by omega)
    have hone (t : Token) (b : Bool) :
        (t :: tokensFrom (offset + byteLength text) b rest).length ≤ 2 * (rest.length + 1) + 1 := by
      rw [List.length_cons]
      exact Nat.le_trans (Nat.succ_le_succ (hrest b)) (by omega)
    unfold tokensFrom
    cases kind with
    | newline | blockComment =>
      dsimp only
      split
      · exact hone ..
      · exact hskip _
    | blank | lineComment | byteOrderMark => exact hskip _
    | openComment | token => exact hone ..

theorem lexemesFrom_length (skip : Nat) (text : List Char) : (lexemesFrom skip text).length ≤ text.length := by
  induction text generalizing skip with
  | nil => cases skip <;> simp [lexemesFrom]
  | cons c rest ih =>
    cases skip with
    | zero =>
      simp only [lexemesFrom, List.length_cons]
      exact Nat.succ_le_succ (ih _)
    | succ skip => exact Nat.le_succ_of_le (ih skip)

/-- A parsed file is bounded by the length of its text. -/
theorem SourceFile.parse_bounded (text : List Char) :
    (SourceFile.parse text).Bounded ((2 * text.length + 2) ^ 2) := by
  let s := (Lexed.ofText text).1
  have hsize : s.size ≤ 2 * text.length + 1 := by
    have htokens := tokensFrom_length 0 false (lexemes text)
    have hlexemes := lexemesFrom_length 0 text
    show (tokenize text).1.toArray.size ≤ _
    rw [List.size_toArray]
    exact Nat.le_trans htokens (by unfold lexemes; omega)
  have hcount : s.size * (s.size + 1) ≤ (2 * text.length + 2) ^ 2 := by
    rw [Nat.pow_two]
    exact Nat.mul_le_mul (by omega) (by omega)
  have hdepth : 2 * (s.size + 1) ≤ (2 * text.length + 2) ^ 2 := by
    rw [Nat.pow_two]
    exact Nat.mul_le_mul (by omega) (by omega)
  have hstart : Outline.Bounded s 0 (Outline.start (Lexed.ofText text).2) := ⟨by simp [Outline.start],
    by simp [Outline.start], by simp [Outline.start], by simp [Outline.start]⟩
  have h := hstart.run (Lexed.isMatched_ofText text) s.size
  rw [Nat.zero_add] at h
  exact ⟨Nat.le_trans h.types hcount, Nat.le_trans h.imports hcount,
    fun d hd => (h.declared d hd).mono hdepth, fun l hl => (h.literal l hl).mono hdepth⟩

end LiteralFill
