import LiteralFill.Syntax.Outline

/-!
Brackets seen from where they open. The closer of an opener is found by a walk over the kinds of the tokens
after it, with the brackets opened since then on a stack: it is where the stack becomes empty. What stands
before the opener has no part in it, and neither has anything after the closer.
-/

namespace LiteralFill

def TokenKind.isBracket : TokenKind → Bool
  | .opener _ | .closer _ => true
  | _ => false

/-! ## The walk -/

/-- The open brackets after one more token, innermost first. -/
def nestStep (stack : List Bracket) : TokenKind → List Bracket
  | .opener b => b :: stack
  | .closer b => if stack.head? = some b then stack.tail else stack
  | _ => stack

/-- The open brackets after tokens of these kinds. -/
def nest (stack : List Bracket) (kinds : List TokenKind) : List Bracket := kinds.foldl nestStep stack

/-- The number of tokens before the one that closes the last of the open brackets. -/
def closerDistance (stack : List Bracket) : List TokenKind → Option Nat
  | [] => none
  | k :: ks =>
    if nestStep stack k = [] then some 0 else (closerDistance (nestStep stack k) ks).map (· + 1)

@[simp] theorem nest_nil (stack : List Bracket) : nest stack [] = stack := rfl

@[simp] theorem nest_cons (stack : List Bracket) (k : TokenKind) (ks : List TokenKind) :
    nest stack (k :: ks) = nest (nestStep stack k) ks := rfl

/-- A walk over two lists goes on in the second where it did not end in the first. -/
theorem closerDistance_append (stack : List Bracket) (ks ls : List TokenKind) :
    closerDistance stack (ks ++ ls) =
      (closerDistance stack ks).or
        ((closerDistance (nest stack ks) ls).map (· + ks.length)) := by
  induction ks generalizing stack with
  | nil => simp [closerDistance]
  | cons k ks ih =>
    simp only [List.cons_append, closerDistance, nest_cons, List.length_cons]
    by_cases h : nestStep stack k = []
    · simp [h]
    · simp only [h, ↓reduceIte, ih]
      cases closerDistance (nestStep stack k) ks with
      | some n => rfl
      | none =>
        cases closerDistance (nest (nestStep stack k) ks) ls with
        | none => rfl
        | some n => simp [Nat.add_assoc]

theorem closerDistance_lt {stack : List Bracket} {ks : List TokenKind} {n : Nat}
    (h : closerDistance stack ks = some n) : n < ks.length := by
  induction ks generalizing stack n with
  | nil => simp [closerDistance] at h
  | cons k ks ih =>
    simp only [closerDistance] at h
    by_cases he : nestStep stack k = []
    · simp only [he, ↓reduceIte, Option.some.injEq] at h
      simp only [List.length_cons]
      omega
    · simp only [he, ↓reduceIte, Option.map_eq_some_iff] at h
      obtain ⟨m, hm, rfl⟩ := h
      have := ih hm
      simp only [List.length_cons]
      omega

/-- Without the closer some bracket stays open. -/
theorem nest_ne_nil {stack : List Bracket} {ks : List TokenKind} (hs : stack ≠ [])
    (h : closerDistance stack ks = none) : nest stack ks ≠ [] := by
  induction ks generalizing stack with
  | nil => exact hs
  | cons k ks ih =>
    simp only [closerDistance] at h
    by_cases he : nestStep stack k = []
    · simp [he] at h
    · simp only [he, ↓reduceIte, Option.map_eq_none_iff] at h
      exact ih he h

/-- Brackets below the open ones of a stretch are left alone while it has open ones. -/
theorem nestStep_append {stack : List Bracket} (h : stack ≠ []) (below : List Bracket)
    (k : TokenKind) : nestStep (stack ++ below) k = nestStep stack k ++ below := by
  obtain ⟨a, s, rfl⟩ := List.exists_cons_of_ne_nil h
  cases k with
  | closer b =>
    simp only [nestStep, List.cons_append, List.head?_cons, List.tail_cons]
    by_cases hb : some a = some b
    · simp [hb]
    · simp [hb]
  | _ => rfl

/-- The walk finds the closers of the inner brackets first, and then goes on with the outer ones. -/
theorem closerDistance_inner (stack : List Bracket) {below : List Bracket} {ks : List TokenKind} {n : Nat}
    (hs : stack ≠ []) (hb : below ≠ []) (h : closerDistance (stack ++ below) ks = some n) :
    ∃ m < n, closerDistance stack ks = some m ∧ nest (stack ++ below) (ks.take (m + 1)) = below := by
  induction ks generalizing stack n with
  | nil => simp [closerDistance] at h
  | cons k ks ih =>
    simp only [closerDistance, nestStep_append hs] at h
    have hne : nestStep stack k ++ below ≠ [] := by simp [hb]
    simp only [hne, ↓reduceIte, Option.map_eq_some_iff] at h
    obtain ⟨n', hn', rfl⟩ := h
    by_cases he : nestStep stack k = []
    · refine ⟨0, by omega, by simp [closerDistance, he], ?_⟩
      simp [nestStep_append hs, he]
    · obtain ⟨m, hm, hm', hnest⟩ := ih _ he hn'
      refine ⟨m + 1, by omega, by simp [closerDistance, he, hm'], ?_⟩
      rw [List.take_succ_cons, nest_cons, nestStep_append hs, hnest]

/-- A stretch up to the closer of its brackets leaves those below it as they were. -/
theorem closerDistance_below (stack : List Bracket) {below : List Bracket} {ks : List TokenKind} {n : Nat}
    (hs : stack ≠ []) (hb : below ≠ []) (h : closerDistance stack ks = some n) :
    closerDistance (stack ++ below) (ks.take (n + 1)) = none ∧
      nest (stack ++ below) (ks.take (n + 1)) = below := by
  induction ks generalizing stack n with
  | nil => simp [closerDistance] at h
  | cons k ks ih =>
    have hne : nestStep stack k ++ below ≠ [] := by simp [hb]
    simp only [List.take_succ_cons, closerDistance, nest_cons, nestStep_append hs, hne, ↓reduceIte,
      Option.map_eq_none_iff]
    simp only [closerDistance] at h
    by_cases he : nestStep stack k = []
    · simp only [he, ↓reduceIte, Option.some.injEq] at h
      subst h
      simp [closerDistance, he]
    · simp only [he, ↓reduceIte, Option.map_eq_some_iff] at h
      obtain ⟨m, hm, rfl⟩ := h
      exact ih _ he hm

/-- Before the closer some bracket is open, and the closer is of the kind of the outermost. -/
theorem closerDistance_spec {stack : List Bracket} {ks : List TokenKind} {n : Nat}
    (hs : stack ≠ []) (h : closerDistance stack ks = some n) :
    (∀ m ≤ n, nest stack (ks.take m) ≠ []) ∧ nest stack (ks.take (n + 1)) = [] ∧
      ∃ b, stack.getLast? = some b ∧ ks[n]? = some (.closer b) := by
  induction ks generalizing stack n with
  | nil => simp [closerDistance] at h
  | cons k ks ih =>
    simp only [closerDistance] at h
    by_cases he : nestStep stack k = []
    · simp only [he, ↓reduceIte, Option.some.injEq] at h
      subst h
      refine ⟨?_, by simp [he], ?_⟩
      · intro m hm
        have : m = 0 := by omega
        subst this
        simpa using hs
      · obtain ⟨a, s, rfl⟩ := List.exists_cons_of_ne_nil hs
        cases k with
        | closer b =>
          by_cases hab : a = b
          · simp only [nestStep, List.head?_cons, hab, ↓reduceIte, List.tail_cons] at he
            exact ⟨b, by simp [he, hab], rfl⟩
          · simp [nestStep, hab] at he
        | _ => simp [nestStep] at he
    · simp only [he, ↓reduceIte, Option.map_eq_some_iff] at h
      obtain ⟨m, hm, rfl⟩ := h
      obtain ⟨h1, h2, b, h3, h4⟩ := ih he hm
      refine ⟨?_, by simpa using h2, b, ?_, by simpa using h4⟩
      · intro j hj
        cases j with
        | zero => simpa using hs
        | succ j => simpa using h1 j (by omega)
      · rw [← h3]
        obtain ⟨a, s, rfl⟩ := List.exists_cons_of_ne_nil hs
        cases k with
        | opener b' => simp [nestStep]
        | closer b' =>
          by_cases hab : a = b'
          · simp only [nestStep, List.head?_cons, hab, ↓reduceIte, List.tail_cons] at he ⊢
            obtain ⟨a', s', rfl⟩ := List.exists_cons_of_ne_nil he
            simp
          · simp [nestStep, hab]
        | _ => rfl

/-! ## The closers of a matching -/

namespace Matching

/-- The brackets of openers. -/
def brackets (waiting : List (Nat × Token)) : List Bracket :=
  waiting.filterMap fun e => match e.2.kind with
    | .opener b => some b
    | _ => none

theorem brackets_cons {i : Nat} {t : Token} {b : Bracket} (ht : t.kind = .opener b)
    (rest : List (Nat × Token)) : brackets ((i, t) :: rest) = b :: brackets rest := by
  simp [brackets, ht]

/-- What a step does: an opener waits, a closer takes the opener that waits innermost, and any other
token leaves both the waiting openers and the closers alone. -/
theorem step_cases (m : Matching) (index : Nat) (t : Token) :
    (∃ b, t.kind = .opener b ∧ m.step index t = { m with waiting := (index, t) :: m.waiting }) ∨
    (∃ b i u rest, t.kind = .closer b ∧ m.waiting = (i, u) :: rest ∧ u.kind = .opener b ∧
      m.step index t =
        { m with waiting := rest, closers := m.closers.setIfInBounds i (some index) }) ∨
    ((m.step index t).waiting = m.waiting ∧ (m.step index t).closers = m.closers ∧
      (∀ b, t.kind ≠ .opener b) ∧
      ∀ b, t.kind = .closer b → ∀ e ∈ m.waiting.head?, e.2.kind ≠ .opener b) := by
  cases hk : t.kind with
  | opener b => exact .inl ⟨b, rfl, by simp [step, hk]⟩
  | closer b =>
    right
    cases hw : m.waiting with
    | nil => exact .inr (by simp [step, hk, hw])
    | cons e rest =>
      obtain ⟨i, u⟩ := e
      by_cases hu : u.kind = .opener b
      · exact .inl ⟨b, i, u, rest, rfl, rfl, hu, by simp [step, hk, hw, hu]⟩
      · exact .inr (by simp [step, hk, hw, hu])
  | _ => exact .inr (.inr (by simp [step, hk]))

/-- What holds of a matching after the tokens before an index. -/
structure IsValid (m : Matching) (index : Nat) : Prop where
  openers : ∀ i t, (i, t) ∈ m.waiting → ∃ b, t.kind = .opener b
  before : ∀ e ∈ m.waiting, e.1 < index
  distinct : m.waiting.Pairwise fun e f => e.1 ≠ f.1

theorem IsValid.step {m : Matching} {index : Nat} (h : m.IsValid index) (t : Token) :
    (m.step index t).IsValid (index + 1) := by
  obtain ⟨ho, hb, hd⟩ := h
  have hlt : ∀ e ∈ m.waiting, e.1 < index + 1 := fun e he => Nat.lt_succ_of_lt (hb e he)
  rcases step_cases m index t with ⟨b, hk, hs⟩ | ⟨b, i, u, rest, -, hw, -, hs⟩ | ⟨hs, -⟩
  · rw [hs]
    refine ⟨?_, ?_, ?_⟩
    · intro i u he
      rcases List.mem_cons.mp he with he | he
      · obtain ⟨-, rfl⟩ := Prod.mk.inj he
        exact ⟨b, hk⟩
      · exact ho i u he
    · intro e he
      rcases List.mem_cons.mp he with rfl | he
      · exact Nat.lt_succ_self _
      · exact hlt e he
    · exact List.pairwise_cons.mpr ⟨fun e he => Nat.ne_of_gt (hb e he), hd⟩
  · rw [hw] at ho hlt hd
    rw [hs]
    exact ⟨fun i u he => ho i u (List.mem_cons_of_mem _ he),
      fun e he => hlt e (List.mem_cons_of_mem _ he), (List.pairwise_cons.mp hd).2⟩
  · exact ⟨hs ▸ ho, hs ▸ hlt, hs ▸ hd⟩

/-- The closer of an index that does not wait stays as it is. -/
theorem step_closers {m : Matching} {i : Nat} (index : Nat) (t : Token)
    (h : ∀ e ∈ m.waiting, e.1 ≠ i) : (m.step index t).closers[i]? = m.closers[i]? := by
  rcases step_cases m index t with ⟨b, -, hs⟩ | ⟨b, j, u, rest, -, hw, -, hs⟩ | ⟨-, hs, -⟩
  · rw [hs]
  · rw [hs]
    exact Array.getElem?_setIfInBounds_ne (h (j, u) (by simp [hw]))
  · rw [hs]

/-- What waits after a step waited before it, or is its token. -/
theorem mem_step_waiting {m : Matching} {index : Nat} {t : Token} {e : Nat × Token}
    (he : e ∈ (m.step index t).waiting) :
    e ∈ m.waiting ∨ e = (index, t) ∧ ∃ b, t.kind = .opener b := by
  rcases step_cases m index t with ⟨b, hk, hs⟩ | ⟨b, i, u, rest, -, hw, -, hs⟩ | ⟨hs, -⟩
  · rw [hs] at he
    rcases List.mem_cons.mp he with he | he
    · exact .inr ⟨he, b, hk⟩
    · exact .inl he
  · rw [hs] at he
    rw [hw]
    exact .inl (List.mem_cons_of_mem _ he)
  · rw [hs] at he
    exact .inl he

theorem run_closers_of_settled {m : Matching} {index i : Nat} (ts : List Token) (hi : i < index)
    (h : ∀ e ∈ m.waiting, e.1 ≠ i) : (m.run index ts).closers[i]? = m.closers[i]? := by
  induction ts generalizing m index with
  | nil => rfl
  | cons t ts ih =>
    rw [run, ih (Nat.lt_succ_of_lt hi), step_closers index t h]
    intro e he
    rcases mem_step_waiting he with he | ⟨rfl, -⟩
    · exact h e he
    · exact Nat.ne_of_gt hi

/-- A token that opens no bracket and closes not the innermost one leaves the brackets as they are. -/
theorem nestStep_of_unmatched {stack : List Bracket} {k : TokenKind} (hopen : ∀ b, k ≠ .opener b)
    (hclose : ∀ b, k = .closer b → stack.head? ≠ some b) : nestStep stack k = stack := by
  cases k with
  | opener b => exact absurd rfl (hopen b)
  | closer b => simp only [nestStep, hclose b rfl, ↓reduceIte]
  | _ => rfl

/-- At a token an opener that waits is closed, or it waits on below the brackets that are open then. -/
theorem step_of_waiting {m : Matching} {index i : Nat} {u : Token} {b : Bracket} {above rest : List (Nat × Token)}
    (t : Token) (hv : m.IsValid index) (hw : m.waiting = above ++ (i, u) :: rest) (hu : u.kind = .opener b)
    (hnone : m.closers[i]? = some none) :
    (nestStep (brackets above ++ [b]) t.kind = [] ∧ (m.step index t).closers[i]? = some (some index) ∧
      ∀ e ∈ (m.step index t).waiting, e.1 ≠ i) ∨
    ∃ above', nestStep (brackets above ++ [b]) t.kind = brackets above' ++ [b] ∧
      (m.step index t).waiting = above' ++ (i, u) :: rest ∧ (m.step index t).closers[i]? = some none := by
  rcases step_cases m index t with ⟨b', hk, hs⟩ | ⟨b', j, v, rest', hk, hw', hv', hs⟩ | ⟨hs, hs', hopen, hclose⟩
  · refine .inr ⟨(index, t) :: above, ?_, by rw [hs, hw]; rfl, by rw [hs]; exact hnone⟩
    rw [brackets_cons hk, hk]
    rfl
  · have hd := hv.distinct
    rw [hw', List.pairwise_cons] at hd
    rw [hs]
    cases above with
    | nil =>
      -- the opener itself is closed
      rw [List.nil_append, hw', List.cons.injEq, Prod.mk.injEq] at hw
      obtain ⟨⟨rfl, rfl⟩, rfl⟩ := hw
      cases hu.symm.trans hv'
      have hlt : j < m.closers.size := by
        rcases Nat.lt_or_ge j m.closers.size with h | h
        · exact h
        · simp [Array.getElem?_eq_none h] at hnone
      exact .inl ⟨by simp [brackets, nestStep, hk], by simp [hlt], fun e he => (hd.1 e he).symm⟩
    | cons e above =>
      -- an opener above it is closed
      rw [List.cons_append, hw', List.cons.injEq] at hw
      obtain ⟨rfl, rfl⟩ := hw
      have hji : j ≠ i := hd.1 (i, u) (by simp)
      refine .inr ⟨above, ?_, rfl, by simpa [Array.getElem?_setIfInBounds_ne hji] using hnone⟩
      rw [brackets_cons hv', hk]
      simp [nestStep]
  · refine .inr ⟨above, nestStep_of_unmatched hopen fun b' hk => ?_, by rw [hs, hw], by rw [hs', hnone]⟩
    have hno := hclose b' hk
    rw [hw] at hno
    cases above with
    | nil =>
      have := hno (i, u) (by simp)
      rw [hu] at this
      simpa [brackets] using this
    | cons e above =>
      obtain ⟨j, v⟩ := e
      obtain ⟨c, hc⟩ := hv.openers j v (by simp [hw])
      have := hno (j, v) (by simp)
      rw [hc] at this
      simpa [brackets_cons hc] using this

/-- The closer of an opener that waits is found by the walk over the rest of the tokens. -/
theorem run_closers_of_waiting {m : Matching} {index i : Nat} {u : Token} {b : Bracket}
    {above rest : List (Nat × Token)} (ts : List Token) (hv : m.IsValid index)
    (hw : m.waiting = above ++ (i, u) :: rest) (hu : u.kind = .opener b)
    (hnone : m.closers[i]? = some none) :
    (m.run index ts).closers[i]? =
      some ((closerDistance (brackets above ++ [b]) (ts.map (·.kind))).map (· + index)) := by
  induction ts generalizing m index above with
  | nil => simpa [run, closerDistance] using hnone
  | cons t ts ih =>
    simp only [run, List.map_cons, closerDistance]
    rcases step_of_waiting t hv hw hu hnone with ⟨hstack, hclosed, hsettled⟩ | ⟨above', hstack, hw', hnone'⟩
    · have hi : i < index + 1 := Nat.lt_succ_of_lt (hv.before (i, u) (by simp [hw]))
      rw [hstack, run_closers_of_settled ts hi hsettled, hclosed]
      simp
    · rw [hstack, if_neg (by simp), ih (hv.step t) hw' hnone', Option.map_map]
      congr 2
      funext n
      simp only [Function.comp_apply]
      omega

/-- The closers that a run finds for the tokens it passes, by the walk from each opener. -/
theorem run_closers {m : Matching} {index : Nat} {ts : List Token} (hv : m.IsValid index)
    (hfresh : ∀ j, index ≤ j → j < index + ts.length → m.closers[j]? = some none) {n : Nat}
    {t : Token} (ht : ts[n]? = some t) :
    (m.run index ts).closers[index + n]? =
      some (match t.kind with
        | .opener b =>
          (closerDistance [b] ((ts.drop (n + 1)).map (·.kind))).map (· + (index + n + 1))
        | _ => none) := by
  induction ts generalizing m index n with
  | nil => simp at ht
  | cons u ts ih =>
    have hstep : ∀ j, index ≤ j → j < index + (u :: ts).length →
        (m.step index u).closers[j]? = some none := by
      intro j hj hlt
      rw [step_closers index u fun e he => Nat.ne_of_lt (Nat.lt_of_lt_of_le (hv.before e he) hj)]
      exact hfresh j hj hlt
    cases n with
    | zero =>
      simp only [List.getElem?_cons_zero, Option.some.injEq] at ht
      subst ht
      have hnow := hstep index (Nat.le_refl _) (by simp)
      simp only [run, Nat.add_zero, List.drop_succ_cons, List.drop_zero]
      by_cases hopen : ∃ b, u.kind = .opener b
      · obtain ⟨b, hk⟩ := hopen
        have hw : (m.step index u).waiting = [] ++ (index, u) :: m.waiting := by simp [step, hk]
        rw [run_closers_of_waiting ts (hv.step u) hw hk hnow, hk]
        rfl
      · rw [run_closers_of_settled ts (Nat.lt_succ_self _), hnow]
        · cases hk : u.kind with
          | opener b => exact absurd ⟨b, hk⟩ hopen
          | _ => rfl
        · intro e he
          rcases mem_step_waiting he with he | ⟨-, he⟩
          · exact Nat.ne_of_lt (hv.before e he)
          · exact absurd he hopen
    | succ n =>
      have hrest := ih (hv.step u) (fun j hj hlt => hstep j (by omega) (by simp; omega)) ht
      rw [run, show index + (n + 1) = index + 1 + n by omega, hrest]
      simp only [List.drop_succ_cons]

theorem ofTokens_closers {ts : List Token} {n : Nat} {t : Token} (ht : ts[n]? = some t) :
    (ofTokens ts).closers[n]? =
      some (match t.kind with
        | .opener b => (closerDistance [b] ((ts.drop (n + 1)).map (·.kind))).map (· + (n + 1))
        | _ => none) := by
  have hv : (⟨[], Array.replicate ts.length none, []⟩ : Matching).IsValid 0 :=
    ⟨by simp, by simp, List.Pairwise.nil⟩
  have hfresh : ∀ j, 0 ≤ j → j < 0 + ts.length →
      (Array.replicate ts.length (none : Option Nat))[j]? = some none := by
    intro j _ hj
    simp only [Nat.zero_add] at hj
    simp [hj]
  have h := run_closers hv hfresh ht
  rw [Nat.zero_add] at h
  exact h

theorem run_closers_size (m : Matching) (index : Nat) (ts : List Token) :
    (m.run index ts).closers.size = m.closers.size := by
  induction ts generalizing m index with
  | nil => rfl
  | cons t ts ih =>
    rw [run, ih]
    rcases step_cases m index t with ⟨b, -, hs⟩ | ⟨b, j, u, rest, -, hw, -, hs⟩ | ⟨-, hs, -⟩
    · rw [hs]
    · rw [hs]
      exact Array.size_setIfInBounds
    · rw [hs]

end Matching

/-! ## Brackets in a text -/

namespace Lexed

/-- The kinds of the tokens from an index on. -/
def kindsFrom (s : Lexed) (i : Nat) : List TokenKind := (s.tokens.toList.drop i).map (·.kind)

/-- The closers are those that the walk finds. -/
def IsMatched (s : Lexed) : Prop :=
  ∀ i, s.closerOf i =
    match s.kindAt i with
    | some (.opener b) => (closerDistance [b] (s.kindsFrom (i + 1))).map (· + (i + 1))
    | _ => none

/-- Any list of tokens, with its brackets matched. -/
def ofTokens (text : List Char) (tokens : List Token) : Lexed :=
  ⟨text, tokens.toArray, (Matching.ofTokens tokens).closers⟩

theorem isMatched_ofTokens (text : List Char) (tokens : List Token) : (ofTokens text tokens).IsMatched := by
  intro i
  simp only [ofTokens, closerOf, kindAt, kindsFrom, List.getElem?_toArray]
  cases ht : tokens[i]? with
  | none =>
    have hsize : (Matching.ofTokens tokens).closers.size = tokens.length := by
      rw [Matching.ofTokens, Matching.run_closers_size, Array.size_replicate]
    have hle : tokens.length ≤ i := List.getElem?_eq_none_iff.mp ht
    rw [Array.getElem?_eq_none (by omega)]
    rfl
  | some t =>
    rw [Matching.ofTokens_closers ht]
    obtain ⟨kind, start, text⟩ := t
    cases kind <;> rfl

theorem isMatched_ofText (text : List Char) : (ofText text).1.IsMatched := isMatched_ofTokens text _

variable {s : Lexed} (h : s.IsMatched)
include h

theorem IsMatched.closerOf_of_opener {i : Nat} {b : Bracket} (hi : s.kindAt i = some (.opener b)) :
    s.closerOf i = (closerDistance [b] (s.kindsFrom (i + 1))).map (· + (i + 1)) := by
  rw [h i, hi]

theorem IsMatched.opener_of_closerOf {i c : Nat} (hc : s.closerOf i = some c) :
    ∃ b n, s.kindAt i = some (.opener b) ∧ closerDistance [b] (s.kindsFrom (i + 1)) = some n ∧
      c = n + (i + 1) := by
  rw [h i] at hc
  cases hk : s.kindAt i with
  | none => simp [hk] at hc
  | some k =>
    cases k with
    | opener b =>
      simp only [hk, Option.map_eq_some_iff] at hc
      obtain ⟨n, hn, rfl⟩ := hc
      exact ⟨b, n, rfl, hn, rfl⟩
    | _ => simp [hk] at hc

omit h in
theorem kindsFrom_getElem? (s : Lexed) (i n : Nat) : (s.kindsFrom i)[n]? = s.kindAt (i + n) := by
  simp [kindsFrom, kindAt]

omit h in
theorem kindAt_of_token {i : Nat} {t : Token} (ht : s.tokens[i]? = some t) :
    s.kindAt i = some t.kind := congrArg _ ht

omit h in
theorem kind_of_token {i : Nat} {t : Token} {k : TokenKind} (ht : s.tokens[i]? = some t)
    (hk : s.kindAt i = some k) : t.kind = k :=
  Option.some.inj ((kindAt_of_token ht).symm.trans hk)

omit h in
theorem kindAt_lt {i : Nat} {k : TokenKind} (hk : s.kindAt i = some k) : i < s.size := by
  rcases Nat.lt_or_ge i s.size with hlt | hge
  · exact hlt
  · rw [kindAt, Array.getElem?_eq_none hge] at hk
    simp at hk

/-- The closer of an opener stands after it and is of its kind. -/
theorem IsMatched.closer_spec {i c : Nat} (hc : s.closerOf i = some c) :
    i < c ∧ c < s.size ∧ ∃ b, s.kindAt i = some (.opener b) ∧ s.kindAt c = some (.closer b) := by
  obtain ⟨b, n, hk, hn, rfl⟩ := h.opener_of_closerOf hc
  obtain ⟨-, -, b', hb', hclose⟩ := closerDistance_spec (by simp) hn
  simp only [List.getLast?_singleton, Option.some.injEq] at hb'
  subst hb'
  rw [kindsFrom_getElem?] at hclose
  have hclose' : s.kindAt (n + (i + 1)) = some (.closer b) := by rw [← hclose]; congr 1; omega
  exact ⟨by omega, kindAt_lt hclose', b, hk, hclose'⟩

/-- Brackets are passed forward. -/
theorem IsMatched.lt_skipGroup {i otherwise : Nat} (hi : i < otherwise) :
    i < s.skipGroup i otherwise := by
  unfold Lexed.skipGroup
  cases hc : s.closerOf i with
  | none => exact hi
  | some c => exact Nat.lt_succ_of_lt (h.closer_spec hc).1

omit h in
theorem kindsFrom_eq_append (s : Lexed) {i j : Nat} (hij : i ≤ j) :
    s.kindsFrom i = (s.kindsFrom i).take (j - i) ++ s.kindsFrom j := by
  have hdrop : s.kindsFrom j = (s.kindsFrom i).drop (j - i) := by
    simp only [kindsFrom, ← List.map_drop, List.drop_drop]
    congr 2
    omega
  rw [hdrop, List.take_append_drop]

/-- An opener within brackets has its closer within them. -/
theorem IsMatched.inner {i j c : Nat} {b : Bracket} (hc : s.closerOf i = some c) (hij : i < j)
    (hjc : j < c) (hj : s.kindAt j = some (.opener b)) : ∃ d < c, s.closerOf j = some d := by
  obtain ⟨a, n, -, hn, rfl⟩ := h.opener_of_closerOf hc
  rw [kindsFrom_eq_append s (show i + 1 ≤ j by omega), closerDistance_append] at hn
  have hbefore : closerDistance [a] ((s.kindsFrom (i + 1)).take (j - (i + 1))) = none := by
    cases hd : closerDistance [a] ((s.kindsFrom (i + 1)).take (j - (i + 1))) with
    | none => rfl
    | some m =>
      have hlt := closerDistance_lt hd
      rw [hd, Option.some_or, Option.some.injEq] at hn
      rw [List.length_take] at hlt
      omega
  rw [hbefore, Option.none_or, Option.map_eq_some_iff] at hn
  obtain ⟨m, hm, hmn⟩ := hn
  have hlen : ((s.kindsFrom (i + 1)).take (j - (i + 1))).length = j - (i + 1) := by
    have hlt := kindAt_lt hj
    simp only [List.length_take, kindsFrom, List.length_map, List.length_drop, Array.length_toList]
    rw [size] at hlt
    omega
  rw [hlen] at hmn
  have hcons : s.kindsFrom j = .opener b :: s.kindsFrom (j + 1) := by
    have hget := kindsFrom_getElem? s j 0
    rw [Nat.add_zero, hj] at hget
    rw [kindsFrom_eq_append s (show j ≤ j + 1 by omega), Nat.add_sub_cancel_left]
    cases hs : s.kindsFrom j with
    | nil => simp [hs] at hget
    | cons k ks =>
      rw [hs] at hget
      simp only [List.getElem?_cons_zero, Option.some.injEq] at hget
      simp [hget]
  generalize hst : nest [a] ((s.kindsFrom (i + 1)).take (j - (i + 1))) = st at hm
  rw [hcons, closerDistance] at hm
  by_cases hnil : st = []
  · -- the brackets around are still open
    exact absurd hnil (hst ▸ nest_ne_nil (by simp) hbefore)
  · simp only [nestStep, List.cons_ne_nil, ↓reduceIte, Option.map_eq_some_iff] at hm
    obtain ⟨m', hm', rfl⟩ := hm
    obtain ⟨k, hk, hk', -⟩ := closerDistance_inner [b] (by simp) hnil hm'
    refine ⟨k + (j + 1), by omega, ?_⟩
    rw [h.closerOf_of_opener hj, hk']
    rfl

omit h in
theorem kindsFrom_cons {i : Nat} {k : TokenKind} (hk : s.kindAt i = some k) :
    s.kindsFrom i = k :: s.kindsFrom (i + 1) := by
  have hget := kindsFrom_getElem? s i 0
  rw [Nat.add_zero, hk] at hget
  rw [kindsFrom_eq_append s (show i ≤ i + 1 by omega), Nat.add_sub_cancel_left]
  cases hs : s.kindsFrom i with
  | nil => simp [hs] at hget
  | cons k' ks =>
    rw [hs] at hget
    simp only [List.getElem?_cons_zero, Option.some.injEq] at hget
    simp [hget]

/-- The index where the last of the open brackets is closed, by a walk from an index on. -/
def closeFrom (s : Lexed) (stack : List Bracket) (i : Nat) : Option Nat :=
  (closerDistance stack (s.kindsFrom i)).map (· + i)

omit h in
theorem closeFrom_step {stack : List Bracket} {i : Nat} {k : TokenKind} (hk : s.kindAt i = some k) :
    s.closeFrom stack i =
      if nestStep stack k = [] then some i else s.closeFrom (nestStep stack k) (i + 1) := by
  rw [closeFrom, kindsFrom_cons hk, closerDistance]
  by_cases he : nestStep stack k = []
  · simp [he]
  · simp only [he, ↓reduceIte, closeFrom, Option.map_map]
    congr 1
    funext n
    simp only [Function.comp_apply]
    omega

theorem IsMatched.closerOf_eq_closeFrom {i : Nat} {b : Bracket}
    (hi : s.kindAt i = some (.opener b)) : s.closerOf i = s.closeFrom [b] (i + 1) :=
  h.closerOf_of_opener hi

/-- A walk passes brackets that are closed. -/
theorem IsMatched.closeFrom_group {stack : List Bracket} (hs : stack ≠ []) {i c : Nat}
    (hc : s.closerOf i = some c) : s.closeFrom stack i = s.closeFrom stack (c + 1) := by
  obtain ⟨b, n, hk, hn, rfl⟩ := h.opener_of_closerOf hc
  obtain ⟨hnone, hnest⟩ := closerDistance_below [b] (by simp) hs hn
  have hlt := closerDistance_lt hn
  have htake : (s.kindsFrom (i + 1)).take (n + (i + 1) + 1 - (i + 1)) =
      (s.kindsFrom (i + 1)).take (n + 1) := by
    congr 1
    omega
  rw [closeFrom_step hk, if_neg (by simp [nestStep]), closeFrom, closeFrom,
    kindsFrom_eq_append s (show i + 1 ≤ n + (i + 1) + 1 by omega), htake, closerDistance_append]
  have hstack : nestStep stack (.opener b) = [b] ++ stack := rfl
  rw [hstack, hnone, hnest, Option.none_or, Option.map_map]
  congr 1
  funext m
  simp only [Function.comp_apply, List.length_take]
  omega

end Lexed

end LiteralFill
