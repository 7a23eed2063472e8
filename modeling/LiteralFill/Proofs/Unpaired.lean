import LiteralFill.Proofs.Paired

/-!
Brackets without a partner. Whatever brackets a list of tokens has, the pairs that are matched lie in one
another, and each bracket that is left over is one problem. There are no problems if and only if the brackets
are balanced.
-/

namespace LiteralFill

/-! ## What a run leaves over -/

namespace Matching

variable {ts : List Token} {m : Matching} {n : Nat} {t : Token}

/-- A closer that takes no opener is a stray one. -/
theorem step_stray_of_waiting (hw : (m.step n t).waiting = m.waiting) {b : Bracket} (hk : t.kind = .closer b) :
    (m.step n t).stray = m.stray ++ [t] := by
  cases hm : m.waiting with
  | nil => simp [step, hk, hm]
  | cons e rest =>
    by_cases hu : e.2.kind = .opener b
    · simp [step, hk, hm, hu] at hw
    · simp [step, hk, hm, hu]

theorem step_stray_of_other (h : ∀ b, t.kind ≠ .closer b) : (m.step n t).stray = m.stray := by
  cases hk : t.kind with
  | closer b => exact absurd hk (h b)
  | _ => simp [step, hk]

/-- After the tokens before an index every opener among them waits or is closed, and every closer among them
closes something or is a stray one. -/
structure Accounts (ts : List Token) (n : Nat) (m : Matching) : Prop where
  valid : m.IsValid n
  size : m.closers.size = ts.length
  waits : ∀ e ∈ m.waiting, ts[e.1]? = some e.2 ∧ m.closers[e.1]? = some none
  openers : ∀ i < n, ∀ b, ts[i]?.map (·.kind) = some (.opener b) →
    (∃ e ∈ m.waiting, e.1 = i) ∨ ∃ j, m.closers[i]? = some (some j)
  fresh : ∀ i, n ≤ i → i < ts.length → m.closers[i]? = some none
  closers : ∀ i j : Nat, m.closers[i]? = some (some j) → j < n
  strays : ∃ places : List Nat, places.Nodup ∧
    (∀ j, j ∈ places ↔
      j < n ∧ (∃ b, ts[j]?.map (·.kind) = some (.closer b)) ∧ ∀ i : Nat, m.closers[i]? ≠ some (some j)) ∧
    places.map (ts[·]?) = m.stray.map some

theorem accounts_start (ts : List Token) : Accounts ts 0 ⟨[], Array.replicate ts.length none, []⟩ where
  valid := ⟨by simp, by simp, .nil⟩
  size := by simp
  waits := by simp
  openers := by simp
  fresh i _ hi := by simp [hi]
  closers i j h := by
    rw [Array.getElem?_replicate] at h
    split at h <;> simp at h
  strays := ⟨[], .nil, by simp, rfl⟩

/-- A token that closes nothing is not among the closers so far. -/
theorem closer_before_succ (hn : ∀ b, ts[n]?.map (·.kind) ≠ some (.closer b)) (j : Nat) (P : Prop) :
    (j < n ∧ (∃ b, ts[j]?.map (·.kind) = some (.closer b)) ∧ P) ↔
      (j < n + 1 ∧ (∃ b, ts[j]?.map (·.kind) = some (.closer b)) ∧ P) := by
  refine and_congr_left fun ⟨⟨b, hb⟩, _⟩ => ⟨Nat.lt_succ_of_lt, fun hj => ?_⟩
  refine Nat.lt_of_le_of_ne (Nat.le_of_lt_succ hj) ?_
  rintro rfl
  exact hn b hb

/-- An opener waits. -/
theorem Accounts.opener (h : Accounts ts n m) (ht : ts[n]? = some t) {b : Bracket} (hk : t.kind = .opener b)
    (hs : m.step n t = { m with waiting := (n, t) :: m.waiting }) : Accounts ts (n + 1) (m.step n t) := by
  have hkind : ts[n]?.map (·.kind) = some t.kind := by rw [ht]; rfl
  have hlength : n < ts.length := (List.getElem?_eq_some_iff.mp ht).1
  have hv := h.valid.step t
  rw [hs] at hv ⊢
  obtain ⟨places, hnodup, hplaces, htokens⟩ := h.strays
  refine ⟨hv, h.size, ?_, ?_, fun i hi => h.fresh i (by omega), fun i j hj => Nat.lt_succ_of_lt (h.closers i j hj),
    places, hnodup, fun j => ?_, htokens⟩
  · intro e he
    rcases List.mem_cons.mp he with rfl | he
    · exact ⟨ht, h.fresh n (Nat.le_refl n) hlength⟩
    · exact h.waits e he
  · intro i hi b' hb'
    rcases Nat.lt_or_eq_of_le (Nat.le_of_lt_succ hi) with hi | rfl
    · exact (h.openers i hi b' hb').imp_left fun ⟨e, he, hei⟩ => ⟨e, List.mem_cons_of_mem _ he, hei⟩
    · exact .inl ⟨(i, t), List.mem_cons_self, rfl⟩
  · rw [hplaces]
    exact closer_before_succ (fun b' hb' => by rw [hkind, hk] at hb'; cases hb') j _

/-- Once an opener without a closer has got one, that closer closes something, and the others do as before. -/
theorem closes_nothing_set {closers : Array (Option Nat)} {i n j : Nat} (h : closers[i]? = some none) :
    (∀ o : Nat, (closers.setIfInBounds i (some n))[o]? ≠ some (some j)) ↔
      j ≠ n ∧ ∀ o : Nat, closers[o]? ≠ some (some j) := by
  have hset := Array.getElem?_setIfInBounds_self_of_lt (a := some n) (Array.getElem?_eq_some_iff.mp h).1
  constructor
  · refine fun hfree => ⟨?_, fun o ho => hfree o ?_⟩
    · rintro rfl
      exact hfree i hset
    · have hne : i ≠ o := by
        rintro rfl
        rw [h] at ho
        cases ho
      rw [Array.getElem?_setIfInBounds_ne hne, ho]
  · rintro ⟨hj, hfree⟩ o ho
    by_cases hne : i = o
    · subst hne
      rw [hset] at ho
      cases ho
      exact hj rfl
    · rw [Array.getElem?_setIfInBounds_ne hne] at ho
      exact hfree o ho

/-- A closer takes the opener that waits innermost. -/
theorem Accounts.closer (h : Accounts ts n m) (ht : ts[n]? = some t) {b : Bracket} {i : Nat} {u : Token}
    {rest : List (Nat × Token)} (hk : t.kind = .closer b) (hw : m.waiting = (i, u) :: rest)
    (hs : m.step n t = { m with waiting := rest, closers := m.closers.setIfInBounds i (some n) }) :
    Accounts ts (n + 1) (m.step n t) := by
  have hkind : ts[n]?.map (·.kind) = some t.kind := by rw [ht]; rfl
  have hv := h.valid.step t
  have hdistinct := h.valid.distinct
  rw [hw, List.pairwise_cons] at hdistinct
  have hi : i < n := h.valid.before (i, u) (by simp [hw])
  have hnone : m.closers[i]? = some none := (h.waits (i, u) (by simp [hw])).2
  have hset := Array.getElem?_setIfInBounds_self_of_lt (a := some n) (Array.getElem?_eq_some_iff.mp hnone).1
  rw [hs] at hv ⊢
  obtain ⟨places, hnodup, hplaces, htokens⟩ := h.strays
  refine ⟨hv, by simp [h.size], ?_, ?_, ?_, ?_, places, hnodup, fun j => ?_, htokens⟩
  · intro e he
    rw [Array.getElem?_setIfInBounds_ne (hdistinct.1 e he)]
    exact h.waits e (by simp [hw, he])
  · intro o ho b' hb'
    have hne : o ≠ n := by
      rintro rfl
      rw [hkind, hk] at hb'
      cases hb'
    by_cases hoi : i = o
    · exact .inr ⟨n, hoi ▸ hset⟩
    · rw [Array.getElem?_setIfInBounds_ne hoi]
      refine (h.openers o (by omega) b' hb').imp_left fun ⟨e, he, heo⟩ => ⟨e, ?_, heo⟩
      rw [hw] at he
      rcases List.mem_cons.mp he with rfl | he
      · exact absurd heo hoi
      · exact he
  · intro o ho hlt
    rw [Array.getElem?_setIfInBounds_ne (by omega)]
    exact h.fresh o (by omega) hlt
  · intro o j hj
    by_cases hoi : i = o
    · rw [← hoi, hset] at hj
      cases hj
      exact Nat.lt_succ_self _
    · rw [Array.getElem?_setIfInBounds_ne hoi] at hj
      exact Nat.lt_succ_of_lt (h.closers o j hj)
  · rw [hplaces, closes_nothing_set hnone]
    constructor
    · rintro ⟨hj, hcloser, hfree⟩
      exact ⟨Nat.lt_succ_of_lt hj, hcloser, Nat.ne_of_lt hj, hfree⟩
    · rintro ⟨hj, hcloser, hne, hfree⟩
      exact ⟨by omega, hcloser, hfree⟩

/-- Any other token leaves the pairs as they are. -/
theorem Accounts.other (h : Accounts ts n m) (ht : ts[n]? = some t) (hw : (m.step n t).waiting = m.waiting)
    (hc : (m.step n t).closers = m.closers) (hopen : ∀ b, t.kind ≠ .opener b) : Accounts ts (n + 1) (m.step n t) := by
  have hkind : ts[n]?.map (·.kind) = some t.kind := by rw [ht]; rfl
  obtain ⟨places, hnodup, hplaces, htokens⟩ := h.strays
  refine ⟨h.valid.step t, hc ▸ h.size, ?_, ?_, ?_, ?_, ?_⟩
  · rw [hw, hc]
    exact h.waits
  · rw [hw, hc]
    intro i hi b hb
    have hne : i ≠ n := by
      rintro rfl
      rw [hkind, Option.some.injEq] at hb
      exact hopen b hb
    exact h.openers i (by omega) b hb
  · rw [hc]
    exact fun i hi => h.fresh i (by omega)
  · rw [hc]
    exact fun i j hj => Nat.lt_succ_of_lt (h.closers i j hj)
  · rw [hc]
    by_cases hcloser : ∃ b, t.kind = .closer b
    · obtain ⟨b, hb⟩ := hcloser
      have hfree : ∀ i : Nat, m.closers[i]? ≠ some (some n) := fun i hi => Nat.lt_irrefl n (h.closers i n hi)
      refine ⟨places ++ [n], ?_, fun j => ?_, ?_⟩
      · refine List.nodup_append.mpr ⟨hnodup, List.pairwise_singleton _ n, fun j hj k hk => ?_⟩
        rw [List.mem_singleton.mp hk]
        exact Nat.ne_of_lt ((hplaces j).mp hj).1
      · rw [List.mem_append, hplaces, List.mem_singleton]
        constructor
        · rintro (⟨hj, hcloser', hfree'⟩ | rfl)
          · exact ⟨Nat.lt_succ_of_lt hj, hcloser', hfree'⟩
          · exact ⟨Nat.lt_succ_self j, ⟨b, by rw [hkind, hb]⟩, hfree⟩
        · rintro ⟨hj, hcloser', hfree'⟩
          rcases Nat.lt_or_eq_of_le (Nat.le_of_lt_succ hj) with hj | hj
          · exact .inl ⟨hj, hcloser', hfree'⟩
          · exact .inr hj
      · rw [step_stray_of_waiting hw hb, List.map_append, List.map_append, htokens]
        simp [ht]
    · refine ⟨places, hnodup, fun j => ?_, by rw [step_stray_of_other (not_exists.mp hcloser), htokens]⟩
      rw [hplaces]
      exact closer_before_succ (fun b hb => hcloser ⟨b, by simpa [hkind] using hb⟩) j _

theorem Accounts.step (h : Accounts ts n m) (ht : ts[n]? = some t) : Accounts ts (n + 1) (m.step n t) := by
  rcases step_cases m n t with ⟨b, hk, hs⟩ | ⟨b, i, u, rest, hk, hw, -, hs⟩ | ⟨hw, hc, hopen, -⟩
  · exact h.opener ht hk hs
  · exact h.closer ht hk hw hs
  · exact h.other ht hw hc hopen

theorem Accounts.run (h : Accounts ts n m) {rest : List Token} (hrest : ts.drop n = rest) (hn : n ≤ ts.length) :
    Accounts ts ts.length (m.run n rest) := by
  induction rest generalizing m n with
  | nil =>
    obtain rfl : n = ts.length := Nat.le_antisymm hn (List.drop_eq_nil_iff.mp hrest)
    exact h
  | cons t rest ih =>
    have ht : ts[n]? = some t := by rw [← List.head?_drop, hrest, List.head?_cons]
    exact ih (h.step ht) (by rw [← List.drop_drop, hrest, List.drop_one, List.tail_cons])
      (List.getElem?_eq_some_iff.mp ht).1

theorem accounts_ofTokens (ts : List Token) : Accounts ts ts.length (ofTokens ts) :=
  (accounts_start ts).run List.drop_zero (Nat.zero_le _)

/-! ## Balanced brackets -/

/-- Kinds that close open brackets, innermost first, with balanced ones before, between and behind the closers. -/
def Closes : List Bracket → List TokenKind → Prop
  | [], ks => IsBalanced ks
  | b :: stack, ks => ∃ inside rest, ks = inside ++ .closer b :: rest ∧ IsBalanced inside ∧ Closes stack rest

theorem Closes.single {k : TokenKind} (hk : k.isBracket = false) {stack : List Bracket} {ks : List TokenKind}
    (h : Closes stack ks) : Closes stack (k :: ks) := by
  cases stack with
  | nil => exact IsBalanced.single hk h
  | cons b stack =>
    obtain ⟨inside, rest, rfl, hinside, hrest⟩ := h
    exact ⟨k :: inside, rest, rfl, IsBalanced.single hk hinside, hrest⟩

theorem Closes.opener {b : Bracket} {stack : List Bracket} {ks : List TokenKind} (h : Closes (b :: stack) ks) :
    Closes stack (.opener b :: ks) := by
  obtain ⟨inside, rest, rfl, hinside, hrest⟩ := h
  cases stack with
  | nil => exact IsBalanced.group hinside hrest
  | cons b' stack =>
    obtain ⟨inside', rest', rfl, hinside', hrest'⟩ := hrest
    refine ⟨.opener b :: (inside ++ .closer b :: inside'), rest', ?_, .group hinside hinside', hrest'⟩
    simp only [List.cons_append, List.append_assoc]

theorem Closes.closer {b : Bracket} {stack : List Bracket} {ks : List TokenKind} (h : Closes stack ks) :
    Closes (b :: stack) (.closer b :: ks) := ⟨[], ks, rfl, .none, h⟩

/-- Tokens that leave nothing over close the brackets that were open before them. -/
theorem run_closes (hv : m.IsValid n) {rest : List Token} (hstray : (m.run n rest).stray = [])
    (hwaiting : (m.run n rest).waiting = []) : Closes (brackets m.waiting) (rest.map (·.kind)) := by
  induction rest generalizing m n with
  | nil =>
    rw [show m.waiting = [] from hwaiting]
    exact .none
  | cons t rest ih =>
    have hstep : (m.step n t).stray = [] := List.prefix_nil.mp (hstray ▸ run_stray (m.step n t) (n + 1) rest)
    have hrest := ih (hv.step t) hstray hwaiting
    rw [List.map_cons]
    cases hk : t.kind with
    | opener b =>
      have hw : (m.step n t).waiting = (n, t) :: m.waiting := by simp [step, hk]
      rw [hw, brackets_cons hk] at hrest
      exact hrest.opener
    | closer b =>
      obtain ⟨i, u, outer, hw, hs⟩ := step_closer hk hstep
      have hu : u.kind = .opener b := by
        by_contra hne
        simp [step, hk, hw, hne] at hstep
      rw [hs] at hrest
      rw [hw, brackets_cons hu]
      exact hrest.closer
    | _ =>
      have hw : (m.step n t).waiting = m.waiting := by simp [step, hk]
      rw [hw] at hrest
      exact hrest.single rfl

theorem run_append (m : Matching) (n : Nat) (ts us : List Token) :
    m.run n (ts ++ us) = (m.run n ts).run (n + ts.length) us := by
  induction ts generalizing m n with
  | nil => rfl
  | cons t ts ih =>
    rw [List.cons_append, run, run, ih, List.length_cons]
    congr 1
    omega

/-- Balanced brackets leave nothing over. -/
theorem run_balanced {ks : List TokenKind} (h : IsBalanced ks) {rest : List Token} (hrest : rest.map (·.kind) = ks)
    (m : Matching) (n : Nat) : (m.run n rest).waiting = m.waiting ∧ (m.run n rest).stray = m.stray := by
  induction h generalizing rest m n with
  | none =>
    rw [List.map_eq_nil_iff.mp hrest]
    exact ⟨rfl, rfl⟩
  | @single k ks hk _ ih =>
    obtain ⟨t, us, rfl, rfl, hus⟩ := List.map_eq_cons_iff.mp hrest
    have hstep : m.step n t = m := by
      cases hkind : t.kind with
      | opener b => simp [hkind, TokenKind.isBracket] at hk
      | closer b => simp [hkind, TokenKind.isBracket] at hk
      | _ => simp [step, hkind]
    rw [run, hstep]
    exact ih hus m (n + 1)
  | @group b inside ks _ _ ih ih' =>
    obtain ⟨t, us, rfl, hopen, hus⟩ := List.map_eq_cons_iff.mp hrest
    obtain ⟨vs, ws, rfl, hvs, hws⟩ := List.map_eq_append_iff.mp hus
    obtain ⟨u, ws, rfl, hclose, hws⟩ := List.map_eq_cons_iff.mp hws
    obtain ⟨hwaiting, hstray⟩ := ih hvs (m.step n t) (n + 1)
    have hfirst : (m.step n t).waiting = (n, t) :: m.waiting ∧ (m.step n t).stray = m.stray := by simp [step, hopen]
    rw [hfirst.1] at hwaiting
    rw [hfirst.2] at hstray
    rw [run, run_append, run]
    generalize (m.step n t).run (n + 1) vs = inner at hwaiting hstray
    have hlast := ih' hws (inner.step (n + 1 + vs.length) u) (n + 1 + vs.length + 1)
    have hpop : (inner.step (n + 1 + vs.length) u).waiting = m.waiting ∧
        (inner.step (n + 1 + vs.length) u).stray = m.stray := by simp [step, hclose, hwaiting, hopen, hstray]
    rw [hpop.1, hpop.2] at hlast
    exact hlast

/-- Nothing is left over if and only if the brackets are balanced. -/
theorem diagnostics_eq_nil_iff (ts : List Token) :
    (ofTokens ts).diagnostics = [] ↔ IsBalanced (ts.map (·.kind)) := by
  constructor
  · intro h
    obtain ⟨hstray, hwaiting⟩ := List.append_eq_nil_iff.mp h
    exact run_closes (accounts_start ts).valid (List.map_eq_nil_iff.mp hstray)
      (List.reverse_eq_nil_iff.mp (List.map_eq_nil_iff.mp hwaiting))
  · intro h
    obtain ⟨hwaiting, hstray⟩ := run_balanced h rfl ⟨[], Array.replicate ts.length none, []⟩ 0
    rw [diagnostics, ofTokens, hwaiting, hstray]
    rfl

end Matching

/-! ## Pairs and problems -/

namespace Lexed

/-- The brackets at two indices belong to each other and to no other, and what opens between them is closed
between them. -/
structure IsPair (s : Lexed) (i j : Nat) : Prop where
  lt : i < j
  kinds : ∃ b, s.kindAt i = some (.opener b) ∧ s.kindAt j = some (.closer b)
  only : ∀ o, s.closerOf o = some j → o = i
  nested : ∀ k b, i < k → k < j → s.kindAt k = some (.opener b) → ∃ c, s.closerOf k = some c ∧ k < c ∧ c < j

/-- A bracket that belongs to no pair. -/
structure IsUnpaired (s : Lexed) (i : Nat) : Prop where
  bracket : ∃ k, s.kindAt i = some k ∧ k.isBracket
  noCloser : s.closerOf i = none
  noOpener : ∀ o, s.closerOf o ≠ some i

/-- The problem at a bracket that belongs to no pair. -/
def bracketProblem (s : Lexed) (i : Nat) : Diagnostic :=
  ⟨.grammatical, s.spanAt i,
    match s.kindAt i with
    | some (.opener _) => "unclosed delimiter"
    | _ => "unbalanced delimiter"⟩

/-- A closer belongs to one opener only. -/
theorem IsMatched.closerOf_inj {s : Lexed} (hm : s.IsMatched) {i j c : Nat} (hi : s.closerOf i = some c)
    (hj : s.closerOf j = some c) : i = j := by
  have hno : ∀ {i j : Nat}, s.closerOf i = some c → s.closerOf j = some c → ¬ i < j := by
    intro i j hi hj hij
    obtain ⟨hlt, -, b, hopen, -⟩ := hm.closer_spec hj
    obtain ⟨d, hd, hd'⟩ := hm.inner hi hij hlt hopen
    rw [hj] at hd'
    cases hd'
    exact Nat.lt_irrefl c hd
  exact Nat.le_antisymm (Nat.le_of_not_lt (hno hj hi)) (Nat.le_of_not_lt (hno hi hj))

theorem IsMatched.isPair {s : Lexed} (hm : s.IsMatched) {i j : Nat} (h : s.closerOf i = some j) : s.IsPair i j where
  lt := (hm.closer_spec h).1
  kinds := (hm.closer_spec h).2.2
  only _ ho := hm.closerOf_inj ho h
  nested k b hik hkj hk := by
    obtain ⟨c, hc, hclose⟩ := hm.inner h hik hkj hk
    exact ⟨c, hclose, (hm.closer_spec hclose).1, hc⟩

section

variable (text : List Char) (ts : List Token)

theorem kindAt_ofTokens (i : Nat) : (ofTokens text ts).kindAt i = ts[i]?.map (·.kind) := by
  simp [ofTokens, kindAt]

theorem closerOf_eq_some {i j : Nat} :
    (ofTokens text ts).closerOf i = some j ↔ (Matching.ofTokens ts).closers[i]? = some (some j) := by
  rw [closerOf, ofTokens, Option.join_eq_some_iff]

/-- A bracket without a partner is a closer that takes no opener, or an opener that no closer takes. -/
theorem isUnpaired_iff {i : Nat} : (ofTokens text ts).IsUnpaired i ↔
    ((∃ b, (ofTokens text ts).kindAt i = some (.closer b)) ∧ ∀ o, (ofTokens text ts).closerOf o ≠ some i) ∨
      (∃ b, (ofTokens text ts).kindAt i = some (.opener b)) ∧ (ofTokens text ts).closerOf i = none := by
  have hm := isMatched_ofTokens text ts
  constructor
  · rintro ⟨⟨k, hk, hbracket⟩, hcloser, hopener⟩
    cases k with
    | opener b => exact .inr ⟨⟨b, hk⟩, hcloser⟩
    | closer b => exact .inl ⟨⟨b, hk⟩, hopener⟩
    | _ => cases hbracket
  · rintro (⟨⟨b, hk⟩, hopener⟩ | ⟨⟨b, hk⟩, hcloser⟩)
    · exact ⟨⟨_, hk, rfl⟩, hm.closerOf_closer hk, hopener⟩
    · refine ⟨⟨_, hk, rfl⟩, hcloser, fun o ho => ?_⟩
      obtain ⟨-, -, b', -, hclose⟩ := hm.closer_spec ho
      rw [hk] at hclose
      cases hclose

/-- What waits at the end are the openers that no closer takes. -/
theorem mem_waiting {i : Nat} : (∃ e ∈ (Matching.ofTokens ts).waiting, e.1 = i) ↔
    (∃ b, (ofTokens text ts).kindAt i = some (.opener b)) ∧ (ofTokens text ts).closerOf i = none := by
  have h := Matching.accounts_ofTokens ts
  constructor
  · rintro ⟨e, he, rfl⟩
    obtain ⟨htoken, hnone⟩ := h.waits e he
    obtain ⟨b, hb⟩ := h.valid.openers e.1 e.2 he
    exact ⟨⟨b, by rw [kindAt_ofTokens, htoken, Option.map_some, hb]⟩, by rw [closerOf, ofTokens, hnone]; rfl⟩
  · rintro ⟨⟨b, hk⟩, hcloser⟩
    have hlt : i < ts.length := by
      have := kindAt_lt hk
      simpa [ofTokens, size] using this
    rw [kindAt_ofTokens] at hk
    refine (h.openers i hlt b hk).resolve_right ?_
    rintro ⟨j, hj⟩
    rw [(closerOf_eq_some text ts).mpr hj] at hcloser
    cases hcloser

/-- The problems are those at the brackets that belong to no pair, one at each. -/
theorem diagnostics_unpaired : ∃ places : List Nat, places.Nodup ∧ (∀ i, i ∈ places ↔ (ofTokens text ts).IsUnpaired i) ∧
    (Matching.ofTokens ts).diagnostics = places.map (ofTokens text ts).bracketProblem := by
  have h := Matching.accounts_ofTokens ts
  obtain ⟨places, hnodup, hplaces, htokens⟩ := h.strays
  have hstray : ∀ j, j ∈ places ↔
      (∃ b, (ofTokens text ts).kindAt j = some (.closer b)) ∧ ∀ o, (ofTokens text ts).closerOf o ≠ some j := by
    intro j
    simp only [hplaces, kindAt_ofTokens, ne_eq, closerOf_eq_some]
    refine and_iff_right_of_imp fun ⟨⟨b, hb⟩, _⟩ => ?_
    obtain ⟨t, ht, -⟩ := Option.map_eq_some_iff.mp hb
    exact (List.getElem?_eq_some_iff.mp ht).1
  have hwaiting : ∀ i, i ∈ (Matching.ofTokens ts).waiting.reverse.map (·.1) ↔
      (∃ b, (ofTokens text ts).kindAt i = some (.opener b)) ∧ (ofTokens text ts).closerOf i = none := by
    intro i
    rw [← mem_waiting, List.mem_map]
    simp only [List.mem_reverse]
  refine ⟨places ++ (Matching.ofTokens ts).waiting.reverse.map (·.1), ?_, fun i => ?_, ?_⟩
  · refine List.nodup_append.mpr ⟨hnodup, ?_, ?_⟩
    · rw [List.map_reverse]
      exact List.pairwise_reverse.mpr (List.pairwise_map.mpr (h.valid.distinct.imp Ne.symm))
    · rintro j hj _ hi rfl
      obtain ⟨⟨b, hb⟩, -⟩ := (hstray j).mp hj
      obtain ⟨⟨b', hb'⟩, -⟩ := (hwaiting j).mp hi
      rw [hb] at hb'
      cases hb'
  · rw [List.mem_append, hstray, hwaiting, isUnpaired_iff]
  · rw [Matching.diagnostics, List.map_append, List.map_map]
    congr 1
    · -- a stray token stands at its place among the tokens
      let problem (t : Option Token) : Diagnostic :=
        ⟨.grammatical, (t.map (·.span)).getD (.empty (byteLength text)), "unbalanced delimiter"⟩
      have hmap := congrArg (List.map problem) htokens
      rw [List.map_map, List.map_map] at hmap
      refine hmap.symm.trans (List.map_congr_left fun j hj => ?_)
      obtain ⟨⟨b, hb⟩, -⟩ := (hstray j).mp hj
      rw [bracketProblem, hb]
      simp [problem, spanAt, ofTokens]
    · refine List.map_congr_left fun e he => ?_
      obtain ⟨⟨b, hb⟩, -⟩ := (hwaiting e.1).mp (List.mem_map_of_mem he)
      rw [Function.comp_apply, bracketProblem, hb, spanAt]
      simp [ofTokens, (h.waits e (List.mem_reverse.mp he)).1]

/-- The brackets of any list of tokens: the pairs that are matched lie in one another, each bracket that belongs
to no pair is one problem and nothing else is, and there are no problems if and only if the brackets are balanced.
Every opener then has its closer. -/
theorem ofTokens_isPair :
    (∀ i j, (ofTokens text ts).closerOf i = some j → (ofTokens text ts).IsPair i j) ∧
    (∃ places : List Nat, places.Nodup ∧ (∀ i, i ∈ places ↔ (ofTokens text ts).IsUnpaired i) ∧
      (Matching.ofTokens ts).diagnostics = places.map (ofTokens text ts).bracketProblem) ∧
    ((Matching.ofTokens ts).diagnostics = [] ↔ IsBalanced (ts.map (·.kind))) ∧
    ((Matching.ofTokens ts).diagnostics = [] →
      ∀ i b, (ofTokens text ts).kindAt i = some (.opener b) → ∃ j, (ofTokens text ts).closerOf i = some j) := by
  refine ⟨fun i j h => (isMatched_ofTokens text ts).isPair h, diagnostics_unpaired text ts,
    Matching.diagnostics_eq_nil_iff ts, fun hnone i b hopen => ?_⟩
  obtain ⟨places, -, hplaces, hproblems⟩ := diagnostics_unpaired text ts
  rw [hnone] at hproblems
  obtain rfl : places = [] := List.map_eq_nil_iff.mp hproblems.symm
  cases hc : (ofTokens text ts).closerOf i with
  | some j => exact ⟨j, rfl⟩
  | none => cases (hplaces i).mpr ((isUnpaired_iff text ts).mpr (.inr ⟨⟨b, hopen⟩, hc⟩))

end

end Lexed

end LiteralFill
