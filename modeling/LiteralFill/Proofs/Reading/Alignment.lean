import LiteralFill.Proofs.Reading.Progress

/-!
Two texts that hold the same tokens at corresponding places. Between such places there may be braces
whose contents differ; a reader that only passes over them reads alike in both texts.
-/

namespace LiteralFill

open Reader

/-! ## Types at other positions -/

namespace TypeExpr

mutual

/-- A type with its positions changed. -/
def move (f : Nat → Nat) : TypeExpr → TypeExpr
  | .name q n args => .name q n (moveAll f args)
  | .pointer t => .pointer (move f t)
  | .slice t => .slice (move f t)
  | .array l t => .array l (move f t)
  | .map k v => .map (move f k) (move f v)
  | .chan d t => .chan d (move f t)
  | .func text => .func text
  | .struct fields => .struct (moveFields f fields)
  | .interface text => .interface text

def moveAll (f : Nat → Nat) : List TypeExpr → List TypeExpr
  | [] => []
  | t :: ts => move f t :: moveAll f ts

def moveFields (f : Nat → Nat) : List (FieldDecl TypeExpr) → List (FieldDecl TypeExpr)
  | [] => []
  | ⟨names, t, tag, span⟩ :: rest =>
    ⟨names, move f t, tag, ⟨f span.start, f span.stop⟩⟩ :: moveFields f rest

end

theorem moveAll_append (f : Nat → Nat) (ts us : List TypeExpr) :
    moveAll f (ts ++ us) = moveAll f ts ++ moveAll f us := by
  induction ts with
  | nil => rfl
  | cons t ts ih => simp [moveAll, ih]

theorem moveFields_append (f : Nat → Nat) (fs gs : List (FieldDecl TypeExpr)) :
    moveFields f (fs ++ gs) = moveFields f fs ++ moveFields f gs := by
  induction fs with
  | nil => rfl
  | cons g fs ih => simp [moveFields, ih]

mutual

theorem move_id : ∀ t : TypeExpr, t.move id = t
  | .name q n args => by rw [move, moveAll_id args]
  | .pointer t => by rw [move, move_id t]
  | .slice t => by rw [move, move_id t]
  | .array l t => by rw [move, move_id t]
  | .map k v => by rw [move, move_id k, move_id v]
  | .chan d t => by rw [move, move_id t]
  | .func text => by rw [move]
  | .struct fields => by rw [move, moveFields_id fields]
  | .interface text => by rw [move]

theorem moveAll_id : ∀ ts : List TypeExpr, moveAll id ts = ts
  | [] => by rw [moveAll]
  | t :: ts => by rw [moveAll, move_id t, moveAll_id ts]

theorem moveFields_id : ∀ fs : List (FieldDecl TypeExpr), moveFields id fs = fs
  | [] => by rw [moveFields]
  | ⟨names, t, tag, span⟩ :: rest => by rw [moveFields, move_id t, moveFields_id rest]; rfl

end

end TypeExpr

/-! ## Corresponding places -/

/-- The tokens of two texts correspond. `pairs` relates the indices of corresponding tokens; what stands
before an index of `exact` is the same in both texts, but for the positions, which `move` relates. Indices
of `lost` lie beyond a place where the tokens stop corresponding. -/
structure Alignment (s s' : Lexed) where
  pairs : Nat → Nat → Prop
  exact : Nat → Prop
  lost : Nat → Prop
  move : Nat → Nat
  token {i i' : Nat} : pairs i i' →
    s'.tokens[i']?.map (fun t => (t.kind, t.text)) = s.tokens[i]?.map (fun t => (t.kind, t.text))
  next {i i' : Nat} : pairs i i' → s.kindAt i ≠ some (.opener .brace) → pairs (i + 1) (i' + 1)
  enter {i i' : Nat} : pairs i i' → pairs (i + 1) (i' + 1) ∨ lost (i + 1)
  body {i i' : Nat} : pairs i i' → s.kindAt i = some (.keyword .structWord) →
    s.kindAt (i + 1) = some (.opener .brace) → pairs (i + 2) (i' + 2)
  close {i i' : Nat} : pairs i i' →
    s.closerOf i = none ∧ s'.closerOf i' = none ∨
      ∃ c c', s.closerOf i = some c ∧ s'.closerOf i' = some c' ∧ pairs c c'
  order {i i' j j' : Nat} : pairs i i' → pairs j j' → (i < j ↔ i' < j')
  size : pairs s.size s'.size
  before {i i' : Nat} : pairs i i' → s.kindAt i = some (.keyword .typeWord) →
    (i = 0 ↔ i' = 0) ∧ s'.kindAt (i' - 1) = s.kindAt (i - 1)
  exact_of_le {i j : Nat} : exact j → i ≤ j → exact i
  exact_sub {i i' j j' : Nat} : pairs i i' → pairs j j' → exact j → j' - i' = j - i
  slice {i i' j j' : Nat} : pairs i i' → pairs j j' → i < j → exact j →
    LiteralFill.slice s'.text ⟨s'.startAt i', s'.stopBefore j'⟩ =
      LiteralFill.slice s.text ⟨s.startAt i, s.stopBefore j⟩
  start {i i' j j' : Nat} : pairs i i' → pairs j j' → i < j → exact j →
    s'.startAt i' = move (s.startAt i)
  stop {i i' j j' : Nat} : pairs i i' → pairs j j' → i < j → exact j →
    s'.stopBefore j' = move (s.stopBefore j)
  lost_of_le {i j : Nat} : lost i → i ≤ j → lost j
  not_lost {i : Nat} : exact i → ¬ lost i

namespace Alignment

variable {s s' : Lexed} (A : Alignment s s') {i i' j j' : Nat}

theorem kind (h : A.pairs i i') : s'.kindAt i' = s.kindAt i := by
  have := congrArg (Option.map Prod.fst) (A.token h)
  simpa [Lexed.kindAt, Option.map_map, Function.comp_def] using this

theorem name (h : A.pairs i i') : s'.nameAt i' = s.nameAt i := by
  have := congrArg (fun o => (o.map fun e => String.ofList e.2).getD "") (A.token h)
  simpa [Lexed.nameAt, Token.name, Option.map_map, Function.comp_def] using this

theorem le (h : A.pairs i i') (h' : A.pairs j j') : i ≤ j ↔ i' ≤ j' := by
  have := A.order h' h
  omega

theorem eq (h : A.pairs i i') (h' : A.pairs j j') : i = j ↔ i' = j' := by
  have := A.order h' h
  have := A.order h h'
  omega

/-- The place after a token of a kind that is no opening brace. -/
theorem next_of_kind (h : A.pairs i i') {k : TokenKind} (hk : s.kindAt i = some k)
    (hb : k ≠ .opener .brace) : A.pairs (i + 1) (i' + 1) :=
  A.next h (by rw [hk]; simpa using hb)

theorem next_of_exact (h : A.pairs i i') (hx : A.exact (i + 1)) : A.pairs (i + 1) (i' + 1) :=
  (A.enter h).resolve_right (A.not_lost hx)

/-- The place after brackets. -/
theorem after_close (hm : s.IsMatched) (h : A.pairs i i') {c : Nat} (hc : s.closerOf i = some c) :
    ∃ c', s'.closerOf i' = some c' ∧ A.pairs c c' ∧ A.pairs (c + 1) (c' + 1) := by
  rcases A.close h with ⟨hn, -⟩ | ⟨d, c', hd, hc', hpair⟩
  · rw [hc] at hn
    cases hn
  · rw [hc] at hd
    cases hd
    obtain ⟨-, -, b, -, hk⟩ := hm.closer_spec hc
    exact ⟨c', hc', hpair, A.next_of_kind hpair hk (by simp)⟩

theorem close_none (h : A.pairs i i') (hc : s.closerOf i = none) : s'.closerOf i' = none := by
  rcases A.close h with ⟨-, hn⟩ | ⟨c, c', hs, -, -⟩
  · exact hn
  · rw [hc] at hs
    cases hs

theorem skipGroup (hm : s.IsMatched) (h : A.pairs i i') (hj : A.pairs j j') :
    A.pairs (s.skipGroup i j) (s'.skipGroup i' j') := by
  rw [Lexed.skipGroup, Lexed.skipGroup]
  cases hc : s.closerOf i with
  | none =>
    rw [A.close_none h hc]
    exact hj
  | some c =>
    obtain ⟨c', hc', -, hafter⟩ := A.after_close hm h hc
    rw [hc']
    exact hafter

/-- A text corresponds to itself. -/
def refl (s : Lexed) : Alignment s s where
  pairs i i' := i = i'
  exact _ := True
  lost _ := False
  move := id
  token := by
    rintro i _ rfl
    rfl
  next := by
    rintro i _ rfl -
    rfl
  enter := by
    rintro i _ rfl
    exact .inl rfl
  body := by
    rintro i _ rfl - -
    rfl
  close := by
    rintro i _ rfl
    cases s.closerOf i with
    | none => exact .inl ⟨rfl, rfl⟩
    | some c => exact .inr ⟨c, c, rfl, rfl, rfl⟩
  order := by
    rintro i _ j _ rfl rfl
    exact Iff.rfl
  size := rfl
  before := by
    rintro i _ rfl -
    exact ⟨Iff.rfl, rfl⟩
  exact_of_le _ _ := trivial
  exact_sub := by
    rintro i _ j _ rfl rfl -
    rfl
  slice := by
    rintro i _ j _ rfl rfl - -
    rfl
  start := by
    rintro i _ j _ rfl rfl - -
    rfl
  stop := by
    rintro i _ j _ rfl rfl - -
    rfl
  lost_of_le hl _ := hl
  not_lost _ hl := hl

end Alignment

/-! ## Readers in step -/

/-- Two readings that end at corresponding places, with related results or none. -/
inductive Alignment.Alike {s s' : Lexed} (A : Alignment s s') {α : Type} (R : Nat → α → α → Prop) :
    Option α × Cursor → Option α × Cursor → Prop
  | failed {c c' : Cursor} (h : A.pairs c.index c'.index) : A.Alike R (none, c) (none, c')
  | gave {c c' : Cursor} {a a' : α} (h : A.pairs c.index c'.index) (hr : R c.index a a') :
    A.Alike R (some a, c) (some a', c')

theorem Alignment.Alike.bind {s s' : Lexed} {A : Alignment s s'} {α β : Type}
    {R : Nat → α → α → Prop} {Q : Nat → β → β → Prop} {r r' : Reader α} {f f' : α → Reader β}
    {c c' : Cursor} (h : A.Alike R (r c) (r' c'))
    (hf : ∀ a a' d d', r c = (some a, d) → A.pairs d.index d'.index → R d.index a a' →
      A.Alike Q (f a d) (f' a' d')) :
    A.Alike Q ((r >>= f) c) ((r' >>= f') c') := by
  rw [bind_apply, bind_apply]
  generalize hr : r c = x at h
  generalize hr' : r' c' = x' at h
  cases h with
  | failed h => exact .failed h
  | gave h hR => exact hf _ _ _ _ hr h hR

/-- The same types up to positions, if all that was read stands where both texts are the same, and names at
the same places in any case. -/
def Alignment.sameType {s s' : Lexed} (A : Alignment s s') (j : Nat) (t t' : TypeExpr) : Prop :=
  t'.isName = t.isName ∧ (A.exact j → t' = t.move A.move)

/-- Readers of types that are alike at corresponding places after an index. -/
def Alignment.AlikeAfter {s s' : Lexed} (A : Alignment s s') (i : Nat)
    (inner inner' : Reader TypeExpr) : Prop :=
  ∀ c c', i < c.index → A.pairs c.index c'.index → A.Alike A.sameType (inner c) (inner' c')

theorem Alignment.Alike.map {s s' : Lexed} {A : Alignment s s'} {r r' : Reader TypeExpr}
    {f f' : TypeExpr → TypeExpr} {c c' : Cursor} (h : A.Alike A.sameType (r c) (r' c'))
    (hname : ∀ t t', (f' t').isName = (f t).isName)
    (hmove : ∀ t d, r c = (some t, d) → A.exact d.index →
      f' (t.move A.move) = (f t).move A.move) :
    A.Alike A.sameType ((r >>= fun t => give (f t)) c) ((r' >>= fun t => give (f' t)) c') := by
  refine h.bind fun t t' d d' hr hd ⟨_, ht⟩ => .gave hd ⟨hname t t', fun he => ?_⟩
  rw [ht he]
  exact hmove t d hr he

end LiteralFill
