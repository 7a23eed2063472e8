import LiteralFill.Fill.Request
import LiteralFill.Proofs.Fill.Growth

/-!
Who asks for imports. Resolution loads packages and reads the cancel flag, merging reads the cancel flag, and
neither of them asks for an import. A request asks for the imports of its output, in order, once all its
literals are filled.
-/

namespace LiteralFill

namespace Session

@[simp] theorem poll_forwarded (s : Session) : s.poll.2.forwarded = s.forwarded := s.growsTo_poll.forwarded

/-- Imports are asked for in the order of a list. -/
theorem foldl_forward_forwarded (paths : List String) (s : Session) :
    (paths.foldl forward s).forwarded = s.forwarded ++ paths := by
  induction paths generalizing s with
  | nil => simp
  | cons path rest ih => rw [List.foldl_cons, ih, forward, List.append_assoc, List.singleton_append]

end Session

/-! ## Resolution -/

namespace Resolution

variable {α : Type}

/-- A step that asks for no import, whether it answers or stops. -/
structure AsksNothing (r : Resolution α) : Prop where
  forwarded (s : Session) : (r s).2.forwarded = s.forwarded

theorem Grows.asksNothing {r : Resolution α} (h : r.Grows) : r.AsksNothing := ⟨fun s => (h.step s).forwarded⟩

end Resolution

open Resolution (AsksNothing)

/-- The resolver that reads the declarations asks for no import. -/
theorem asksNothing_resolveStruct (tree : FileTree) (scope : Scope) (type : TypeExpr) :
    AsksNothing (resolveStruct tree scope type) := (grows_resolveStruct tree scope type).asksNothing

/-! ## Filling -/

theorem mergeFields_forwarded (file : SourceFile) (z : Synthesizer) (samePackage : Bool)
    (supplied : List (Nat × Element)) (fields : List (Field Ty)) (index : Nat) (s : Session) :
    (mergeFields file z samePackage supplied index fields s).2.forwarded = s.forwarded := by
  induction fields generalizing index s with
  | nil => rfl
  | cons f rest ih =>
    have hpoll := s.poll_forwarded
    unfold mergeFields
    split
    · have hrest := ih (index + 1) s
      split <;> simp_all
    · split
      · cases hs : s.poll with
        | mk up s₁ =>
          rw [hs] at hpoll
          cases up with
          | true => exact hpoll
          | false =>
            have hrest := (ih (index + 1) s₁).trans hpoll
            dsimp only
            split <;> simp_all
      · exact ih ..

theorem merge_forwarded (file : SourceFile) (literal : CompositeLiteral) (resolved : ResolvedStruct)
    (z : Synthesizer) (s : Session) : (merge file literal resolved z s).2.forwarded = s.forwarded := by
  unfold merge
  split
  · rfl
  · next supplied _ =>
    have hfields := mergeFields_forwarded file z (resolved.packagePath == z.packagePath) supplied
      resolved.fields 0 s
    dsimp only
    split <;> simp_all

theorem fillResolved_forwarded (r : FillRequest) (options : FillOptions) (literal : CompositeLiteral)
    (resolved : ResolvedStruct) (s : Session) :
    (fillResolved r options literal resolved s).2.forwarded = s.forwarded := by
  have hmerge := merge_forwarded r.file literal resolved (options.synthesizer r) s
  unfold fillResolved
  split <;> simp_all

section

variable {resolve : StructResolver} (hresolve : ∀ scope type, AsksNothing (resolve scope type))
include hresolve

theorem fillLiteral_forwarded (r : FillRequest) (options : FillOptions) (literal : CompositeLiteral)
    (s : Session) : (fillLiteral resolve r options literal s).2.forwarded = s.forwarded := by
  have hpoll := s.poll_forwarded
  unfold fillLiteral
  cases hs : s.poll with
  | mk up s₁ =>
    rw [hs] at hpoll
    cases up with
    | true => exact hpoll
    | false =>
      have hasked :=
        ((hresolve ⟨r.file, r.path, r.packagePath, literal.lbrace⟩ literal.type).forwarded s₁).trans hpoll
      dsimp only
      split
      · simp_all
      · rw [fillResolved_forwarded]
        simp_all

theorem fillLiterals_forwarded (r : FillRequest) (options : FillOptions) (literals : List CompositeLiteral)
    (s : Session) : (fillLiterals resolve r options literals s).2.forwarded = s.forwarded := by
  induction literals generalizing s with
  | nil => rfl
  | cons literal rest ih =>
    have hliteral := fillLiteral_forwarded hresolve r options literal s
    rw [fillLiterals]
    cases hs : fillLiteral resolve r options literal s with
    | mk outcome s₁ =>
      rw [hs] at hliteral
      have hrest := (ih s₁).trans hliteral
      cases outcome with
      | stopped outcome => exact hliteral
      | leftAlone => exact hrest
      | edited edit paths =>
        dsimp only
        split <;> simp_all

end

end LiteralFill
