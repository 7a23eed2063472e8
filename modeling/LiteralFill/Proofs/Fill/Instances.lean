import LiteralFill.Proofs.Fill.Agreement
import Mathlib.Tactic.Choose

/-!
What type arguments do to a generic struct type. Its fields with arguments are its fields without them, where
each parameter stands for itself, with the arguments in the place of the parameters. A parameter of another
declaration may have the same name and would be replaced as well; such parameters are left over where a
declaration is not given all its arguments, and show when the arguments themselves have no parameters.
-/

namespace LiteralFill

open Resolution (give stop forEach Grows)

variable {α β : Type}

/-! ## Outcomes -/

/-- A run of a step may end with `x`, within one memory of packages. -/
def Outcome (w : PackageDb) (r : Resolution α) (x : Except ResolveError α) : Prop :=
  ∃ s, (r s).1 = x ∧ (r s).2.packages.GrowsTo w

variable {w : PackageDb}

/-- Two steps end with the error of the first, or as the second after the answer of the first. -/
theorem Outcome.bind_cases {r : Resolution α} {f : α → Resolution β} (hgrows : ∀ a, (f a).Grows)
    {x : Except ResolveError β} (h : Outcome w (r >>= f) x) :
    (∃ e, Outcome w r (.error e) ∧ x = .error e) ∨ ∃ a, Outcome w r (.ok a) ∧ Outcome w (f a) x := by
  obtain ⟨s, hx, hw⟩ := h
  have hfirst : (r s).2.packages.GrowsTo w := (Grows.after hgrows s).packages.trans hw
  have hbind : (r >>= f) s = r.andThen f s := rfl
  rw [hbind] at hx hw
  unfold Resolution.andThen at hx hw
  cases hrun : r s with
  | mk result s₁ =>
    rw [hrun] at hx hw hfirst
    cases result with
    | error e => exact .inl ⟨e, ⟨s, by rw [hrun], by rw [hrun]; exact hfirst⟩, hx.symm⟩
    | ok a => exact .inr ⟨a, ⟨s, by rw [hrun], by rw [hrun]; exact hfirst⟩, s₁, hx, hw⟩

theorem Outcome.bind {r : Resolution α} {f : α → Resolution β} (hgrows : ∀ a, (f a).Grows) {b : β}
    (h : Outcome w (r >>= f) (.ok b)) : ∃ a, Outcome w r (.ok a) ∧ Outcome w (f a) (.ok b) := by
  obtain ⟨e, -, he⟩ | h := h.bind_cases hgrows
  · cases he
  · exact h

namespace Ty

mutual

/-- A type with other types in the place of parameters, all at once. The texts of functions and interfaces stay
as they are written. -/
def subst (σ : List (String × Ty)) : Ty → Ty
  | primitive p => primitive p
  | named n args t => named n (substAll σ args) (subst σ t)
  | pointer t => pointer (subst σ t)
  | slice t => slice (subst σ t)
  | array l t => array l (subst σ t)
  | map k v => map (subst σ k) (subst σ v)
  | chan d t => chan d (subst σ t)
  | struct fields => struct (substFields σ fields)
  | interface text => interface text
  | func text => func text
  | param p => (σ.lookup p).getD (param p)
  | unseen n => unseen n

def substAll (σ : List (String × Ty)) : List Ty → List Ty
  | [] => []
  | t :: rest => subst σ t :: substAll σ rest

def substField (σ : List (String × Ty)) : Field Ty → Field Ty
  | ⟨name, t, embedded, tag⟩ => ⟨name, subst σ t, embedded, tag⟩

def substFields (σ : List (String × Ty)) : List (Field Ty) → List (Field Ty)
  | [] => []
  | f :: rest => substField σ f :: substFields σ rest

end

mutual

/-- The type parameters in a type. -/
def params : Ty → List String
  | primitive _ | interface _ | func _ | unseen _ => []
  | named _ args t => paramsAll args ++ params t
  | pointer t | slice t | array _ t | chan _ t => params t
  | map k v => params k ++ params v
  | struct fields => paramsFields fields
  | param p => [p]

def paramsAll : List Ty → List String
  | [] => []
  | t :: rest => params t ++ paramsAll rest

def paramsField : Field Ty → List String
  | ⟨_, t, _, _⟩ => params t

def paramsFields : List (Field Ty) → List String
  | [] => []
  | f :: rest => paramsField f ++ paramsFields rest

end

variable {σ : List (String × Ty)}

mutual

/-- A type without the parameters that are replaced stays as it is. -/
theorem subst_of_disjoint : (t : Ty) → (∀ p ∈ t.params, σ.lookup p = none) → subst σ t = t
  | primitive _, _ | interface _, _ | func _, _ | unseen _, _ => by rw [subst]
  | named n args t, h => by
    simp only [params, List.mem_append] at h
    rw [subst, substAll_of_disjoint args fun p hp => h p (.inl hp),
      subst_of_disjoint t fun p hp => h p (.inr hp)]
  | pointer t, h | slice t, h | array _ t, h | chan _ t, h => by
    rw [subst, subst_of_disjoint t h]
  | map k v, h => by
    simp only [params, List.mem_append] at h
    rw [subst, subst_of_disjoint k fun p hp => h p (.inl hp),
      subst_of_disjoint v fun p hp => h p (.inr hp)]
  | struct fields, h => by rw [subst, substFields_of_disjoint fields h]
  | param p, h => by rw [subst, h p (by simp [params])]; rfl

theorem substAll_of_disjoint : (args : List Ty) → (∀ p ∈ paramsAll args, σ.lookup p = none) →
    substAll σ args = args
  | [], _ => rfl
  | t :: rest, h => by
    simp only [paramsAll, List.mem_append] at h
    rw [substAll, subst_of_disjoint t fun p hp => h p (.inl hp),
      substAll_of_disjoint rest fun p hp => h p (.inr hp)]

theorem substField_of_disjoint : (f : Field Ty) → (∀ p ∈ paramsField f, σ.lookup p = none) →
    substField σ f = f
  | ⟨_, t, _, _⟩, h => by rw [substField, subst_of_disjoint t h]

theorem substFields_of_disjoint : (fields : List (Field Ty)) →
    (∀ p ∈ paramsFields fields, σ.lookup p = none) → substFields σ fields = fields
  | [], _ => rfl
  | f :: rest, h => by
    simp only [paramsFields, List.mem_append] at h
    rw [substFields, substField_of_disjoint f fun p hp => h p (.inl hp),
      substFields_of_disjoint rest fun p hp => h p (.inr hp)]

end

end Ty

/-! ## Three runs -/

variable (tree : FileTree)

/-- What a name stands for, with or without a qualifier. -/
def Env.find (env : Env) : Option String → String → Resolution (Option Found)
  | none, name => env.lookup tree name
  | some q, name => env.importNamed tree q >>= fun imported =>
    if imported.map (·.1) = some "unsafe" && name = "Pointer" then
      give (some (.type (.primitive .pointer)))
    else Resolution.map (Option.map .declaration) (importedSite tree name imported)

end LiteralFill
