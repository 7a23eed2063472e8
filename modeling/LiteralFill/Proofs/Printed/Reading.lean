import LiteralFill.Proofs.Printed.Words
import LiteralFill.Proofs.Reading.Alignment

/-!
The words of a printable type are read as a type. It is the type that they were written for, up to the arrow after
the keyword of a channel type: such an arrow belongs to the keyword before it, also where it was written for the
receiving channel that is the element.
-/

namespace LiteralFill

open Reader
open TypeExpr (argLexemes moreLexemes bodyLexemes fieldLexemes moreFieldLexemes)

/-! ## What is read -/

namespace TypeExpr

/-- A channel type of which only the keyword was written before the words of its element. The arrow of a receiving
element makes it a sending one, and leaves the keyword of the element without its arrow. -/
def chanOf : TypeExpr → TypeExpr
  | .chan .receive t => .chan .send (chanOf t)
  | t => .chan .both t

mutual

/-- What the words of a type are read as. -/
def reading : TypeExpr → TypeExpr
  | .name p n args => .name p n (readingAll args)
  | .pointer t => .pointer (reading t)
  | .slice t => .slice (reading t)
  | .array l t => .array l (reading t)
  | .map k v => .map (reading k) (reading v)
  | .chan .both t => chanOf (reading t)
  | .chan .send t => .chan .send (reading t)
  | .chan .receive t => .chan .receive (reading t)
  | .func text => .func text
  | .struct fields => .struct (readingFields fields)
  | .interface text => .interface text

def readingAll : List TypeExpr → List TypeExpr
  | [] => []
  | t :: ts => reading t :: readingAll ts

def readingField : FieldDecl TypeExpr → FieldDecl TypeExpr
  | ⟨names, t, tag, span⟩ => ⟨names, reading t, tag, span⟩

def readingFields : List (FieldDecl TypeExpr) → List (FieldDecl TypeExpr)
  | [] => []
  | f :: rest => readingField f :: readingFields rest

end

theorem chanOf_of_ne {t : TypeExpr} (h : ∀ u, t ≠ .chan .receive u) : chanOf t = .chan .both t := by
  cases t with
  | chan d u =>
    cases d with
    | receive => exact absurd rfl (h u)
    | _ => rfl
  | _ => rfl

theorem chanOf_ne_receive (t u : TypeExpr) : chanOf t ≠ .chan .receive u := by
  cases t with
  | chan d v => cases d <;> nofun
  | _ => nofun

theorem reading_ne_receive {t : TypeExpr} (h : t.firstKind ≠ .arrow) (u : TypeExpr) :
    t.reading ≠ .chan .receive u := by
  cases t with
  | chan d v =>
    cases d with
    | both => exact chanOf_ne_receive v.reading u
    | send => nofun
    | receive => exact absurd rfl h
  | _ => nofun

theorem eq_receive_of_firstKind {t : TypeExpr} (h : t.firstKind = .arrow) : ∃ u, t = .chan .receive u := by
  cases t with
  | chan d u =>
    cases d with
    | receive => exact ⟨u, rfl⟩
    | _ => cases h
  | _ => cases h

end TypeExpr

/-- Puts a type at no place, as shapes are. -/
def noPlace : Nat → Nat := fun _ => 0

/-! ## What may follow -/

/-- Words that belong to no type before them. -/
def EndsType (ws : List Word) : Prop := ∀ w ∈ ws.head?, w.1 ≠ .dot ∧ w.1 ≠ .opener .square

theorem endsType_cons {w : Word} (ws : List Word) (h : w.1 ≠ .dot) (h' : w.1 ≠ .opener .square) :
    EndsType (w :: ws) := by
  rintro v ⟨⟩
  exact ⟨h, h'⟩

theorem EndsType.kindAt_ne {s : Lexed} {i : Nat} {ws : List Word} (h : EndsType ws) (hw : s.wordsFrom i = ws) :
    s.kindAt i ≠ some .dot ∧ s.kindAt i ≠ some (.opener .square) := by
  rw [Lexed.kindAt_eq_head, hw]
  cases ws with
  | nil => exact ⟨nofun, nofun⟩
  | cons w ws =>
    obtain ⟨h1, h2⟩ := h w rfl
    exact ⟨fun he => h1 (Option.some.inj he), fun he => h2 (Option.some.inj he)⟩

/-! ## Readers and words -/

/-- A reader reads a type from a token on, up to the last of its words. -/
def ReadsWords (r : Reader TypeExpr) (e : TypeExpr) (i : Nat) (ds : List Diagnostic) : Prop :=
  ∃ e', r ⟨i, ds⟩ = (some e', ⟨i + (words e.lexemes).length, ds⟩) ∧ e'.move noPlace = e.reading

/-- A reader that puts a type around the last type inside it. -/
theorem ReadsWords.around {inner r : Reader TypeExpr} {t e : TypeExpr} {f : TypeExpr → TypeExpr} {i j : Nat}
    {ds : List Diagnostic} (h : ReadsWords inner t j ds)
    (hr : r ⟨i, ds⟩ = (inner >>= fun u => give (f u)) ⟨j, ds⟩)
    (hf : ∀ u, u.move noPlace = t.reading → (f u).move noPlace = e.reading)
    (hstop : j + (words t.lexemes).length = i + (words e.lexemes).length) : ReadsWords r e i ds := by
  obtain ⟨u, hread, hmoved⟩ := h
  refine ⟨f u, ?_, hf u hmoved⟩
  rw [hr, bind_some hread, hstop]
  rfl

/-- A reader that reads back printable types of up to `n` words. -/
def ReadsBack (s : Lexed) (inner : Reader TypeExpr) (n : Nat) : Prop :=
  ∀ {e : TypeExpr} {i : Nat} {rest : List Word} (ds : List Diagnostic), e.IsPrintable →
    (words e.lexemes).length ≤ n → s.wordsFrom i = words e.lexemes ++ rest → EndsType rest →
    ReadsWords inner e i ds

section

variable {s : Lexed} (hm : s.IsMatched) {inner : Reader TypeExpr} {n : Nat} (hinner : ReadsBack s inner n)

/-! ## Names and their arguments -/

include hinner

theorem readArgs_words {a : TypeExpr} {more : List TypeExpr} (hargs : ∀ b ∈ a :: more, b.IsPrintable)
    (hlen : ∀ b ∈ a :: more, (words b.lexemes).length ≤ n) {fuel : Nat} (hfuel : more.length < fuel)
    (acc : List TypeExpr) {i : Nat} {text : String} {rest : List Word}
    (hw : s.wordsFrom i = words a.lexemes ++ (words (moreLexemes more) ++ (.closer .square, text) :: rest))
    (ds : List Diagnostic) :
    let close := i + (words a.lexemes).length + (words (moreLexemes more)).length
    ∃ args, readArgs s inner close fuel acc ⟨i, ds⟩ = (some (acc ++ args), ⟨close + 1, ds⟩) ∧
      TypeExpr.moveAll noPlace args = TypeExpr.readingAll (a :: more) := by
  intro close
  induction more generalizing a fuel acc i with
  | nil =>
    obtain ⟨fuel, rfl⟩ : ∃ f, fuel = f + 1 := ⟨fuel - 1, by omega⟩
    obtain ⟨e', hread, hbare⟩ := hinner ds (hargs a (by simp)) (hlen a (by simp)) hw
      (endsType_cons _ (by simp) (by simp))
    have hclose := Lexed.wordsFrom_cons (Lexed.wordsFrom_append (words a.lexemes) hw)
    refine ⟨[e'], ?_, by simp [TypeExpr.moveAll, TypeExpr.readingAll, hbare]⟩
    rw [readArgs, bind_some hread, eat_bind]
    simp [hclose.1, close, moreLexemes]
  | cons b more ih =>
    obtain ⟨fuel, rfl⟩ : ∃ f, fuel = f + 1 := ⟨fuel - 1, by omega⟩
    have hw' : s.wordsFrom i = words a.lexemes ++ (.comma, ",") ::
        (words b.lexemes ++ (words (moreLexemes more) ++ (.closer .square, text) :: rest)) := by
      simpa [moreLexemes] using hw
    obtain ⟨e', hread, hbare⟩ := hinner ds (hargs a (by simp)) (hlen a (by simp)) hw'
      (endsType_cons _ (by decide) (by decide))
    obtain ⟨hcomma, -, hnext⟩ := Lexed.wordsFrom_cons (Lexed.wordsFrom_append (words a.lexemes) hw')
    obtain ⟨args, hmore, hall⟩ := ih (fun c hc => hargs c (List.mem_cons_of_mem a hc))
      (fun c hc => hlen c (List.mem_cons_of_mem a hc)) (by simpa using hfuel) (acc ++ [e']) hnext
    have hclose : close = i + (words a.lexemes).length + 1 + (words b.lexemes).length +
        (words (moreLexemes more)).length := by
      simp only [close, moreLexemes, words_token, words_space, words_append, List.length_cons, List.length_append]
      omega
    refine ⟨e' :: args, ?_, by simp [TypeExpr.moveAll, TypeExpr.readingAll, hbare, hall]⟩
    rw [readArgs, bind_some hread, eat_bind]
    simp only [hcomma, ↓reduceIte, hclose]
    rw [hmore]
    simp

omit hinner

include hm

/-- The brackets around arguments belong together. -/
theorem closerOf_args {a : TypeExpr} {more : List TypeExpr} (hargs : ∀ b ∈ a :: more, b.IsPrintable) {i : Nat}
    {rest : List Word} (hw : s.wordsFrom i = words (argLexemes (a :: more)) ++ rest) :
    s.closerOf i = some (i + 1 + (words a.lexemes).length + (words (moreLexemes more)).length) := by
  have hbalanced := (hargs a (by simp)).areBalanced.append
    (areBalanced_more fun b (hb : b ∈ more) => (hargs b (by simp [hb])).areBalanced)
  have hw' : s.wordsFrom i = (.opener .square, "[") ::
      ((words a.lexemes ++ words (moreLexemes more)) ++ (.closer .square, "]") :: rest) := by
    simpa [argLexemes] using hw
  rw [hm.closerOf_words hbalanced hw', List.length_append, ← Nat.add_assoc]

include hinner

/-- The arguments of a name are read, if it has some. -/
theorem readTypeArgs_words {args : List TypeExpr} (hargs : ∀ a ∈ args, a.IsPrintable)
    (hlen : ∀ a ∈ args, (words a.lexemes).length ≤ n) {i : Nat} {rest : List Word}
    (hw : s.wordsFrom i = words (argLexemes args) ++ rest) (hrest : EndsType rest) (ds : List Diagnostic) :
    ∃ args', readTypeArgs s inner ⟨i, ds⟩ = (some args', ⟨i + (words (argLexemes args)).length, ds⟩) ∧
      TypeExpr.moveAll noPlace args' = TypeExpr.readingAll args := by
  cases args with
  | nil =>
    refine ⟨[], ?_, rfl⟩
    rw [readTypeArgs, index_bind]
    simp [(hrest.kindAt_ne hw).2, argLexemes]
  | cons a more =>
    have hw' : s.wordsFrom i = (.opener .square, "[") ::
        (words a.lexemes ++ (words (moreLexemes more) ++ (.closer .square, "]") :: rest)) := by
      simpa [argLexemes] using hw
    obtain ⟨hopen, -, hnext⟩ := Lexed.wordsFrom_cons hw'
    have ha := hargs a (by simp)
    have hsecond := ha.kindAt_ne hnext (k := .closer .square) rfl
    have hclose := closerOf_args hm hargs hw
    have hfuel : more.length < i + 1 + (words a.lexemes).length + (words (moreLexemes more)).length - i := by
      have := length_le_more more
      omega
    obtain ⟨args', hread, hall⟩ := readArgs_words hinner hargs hlen hfuel [] hnext ds
    refine ⟨args', ?_, hall⟩
    rw [readTypeArgs, index_bind, if_pos (by simp [hopen, hsecond])]
    simp only [hclose, skip_bind, optional_bind, hread, List.nil_append, give_apply]
    simp [argLexemes]
    omega

omit hm hinner in
/-- Behind a name comes no point. -/
theorem kindAt_ne_dot {args : List TypeExpr} {i : Nat} {rest : List Word}
    (hw : s.wordsFrom i = words (argLexemes args) ++ rest) (hrest : EndsType rest) : s.kindAt i ≠ some .dot := by
  cases args with
  | nil => exact (hrest.kindAt_ne hw).1
  | cons a args =>
    have hw' : s.wordsFrom i = (.opener .square, "[") :: (words a.lexemes ++
        (words (moreLexemes args) ++ (.closer .square, "]") :: rest)) := by
      simpa [argLexemes] using hw
    rw [(Lexed.wordsFrom_cons hw').1]
    nofun

theorem readNamed_words {package : Option String} {name : String} {args : List TypeExpr}
    (hargs : ∀ a ∈ args, a.IsPrintable) (hlen : ∀ a ∈ args, (words a.lexemes).length ≤ n) {i : Nat}
    {rest : List Word} (hw : s.wordsFrom i = words (TypeExpr.name package name args).lexemes ++ rest)
    (hrest : EndsType rest) (ds : List Diagnostic) :
    ReadsWords (readNamed s inner) (.name package name args) i ds := by
  cases package with
  | none =>
    have hw' : s.wordsFrom i = (.ident, name) :: (words (argLexemes args) ++ rest) := by
      simpa [TypeExpr.lexemes, nameLexemes] using hw
    obtain ⟨-, hname, hnext⟩ := Lexed.wordsFrom_cons hw'
    obtain ⟨args', hread, hall⟩ := readTypeArgs_words hm hinner hargs hlen hnext hrest ds
    refine ⟨.name none name args', ?_, by rw [TypeExpr.move, TypeExpr.reading, hall]⟩
    rw [readNamed, index_bind, if_neg (by simp [kindAt_ne_dot hnext hrest]), skip_bind, bind_some hread, hname]
    simp [TypeExpr.lexemes, nameLexemes]
    omega
  | some p =>
    have hw' : s.wordsFrom i = (.ident, p) :: (.dot, ".") :: (.ident, name) :: (words (argLexemes args) ++ rest) := by
      simpa [TypeExpr.lexemes, nameLexemes] using hw
    obtain ⟨-, hp, hdot⟩ := Lexed.wordsFrom_cons hw'
    obtain ⟨hdot, -, hident⟩ := Lexed.wordsFrom_cons hdot
    obtain ⟨hident, hname, hnext⟩ := Lexed.wordsFrom_cons hident
    obtain ⟨args', hread, hall⟩ := readTypeArgs_words hm hinner hargs hlen hnext hrest ds
    refine ⟨.name (some p) name args', ?_, by rw [TypeExpr.move, TypeExpr.reading, hall]⟩
    rw [readNamed, index_bind, if_pos (by simp [hdot, hident]), skip_bind, bind_some hread, hp, hname]
    simp [TypeExpr.lexemes, nameLexemes]
    omega

/-! ## Types around one another -/

theorem readSequence_array {k : Nat} {t : TypeExpr} (hk : k < wordBound) (ht : t.IsPrintable)
    (hlen : (words t.lexemes).length ≤ n) {i : Nat} {rest : List Word}
    (hw : s.wordsFrom i = words (TypeExpr.array (.number k) t).lexemes ++ rest) (hrest : EndsType rest)
    (ds : List Diagnostic) : ReadsWords (readSequence s inner) (.array (.number k) t) i ds := by
  have hw' : s.wordsFrom i = (.opener .square, "[") :: (.number, String.ofList (Nat.toDigits 10 k)) ::
      (.closer .square, "]") :: (words t.lexemes ++ rest) := by
    simpa [TypeExpr.lexemes, WrittenLength.lexemes] using hw
  obtain ⟨-, -, hnumber⟩ := Lexed.wordsFrom_cons hw'
  obtain ⟨hnumber, hdigits, hend⟩ := Lexed.wordsFrom_cons hnumber
  obtain ⟨-, -, hnext⟩ := Lexed.wordsFrom_cons hend
  have hnumbers : AreBalanced [(.number, String.ofList (Nat.toDigits 10 k))] := .cons rfl .nil
  have hclose : s.closerOf i = some (i + 2) := hm.closerOf_words hnumbers hw'
  have hlength : readLength s i (i + 2) = some (.number k) := by
    have hvalue := integerValue_toDigits hk
    simp [readLength, hnumber, hdigits, hvalue]
  have hr : readSequence s inner ⟨i, ds⟩ = (inner >>= fun u => give (.array (.number k) u)) ⟨i + 3, ds⟩ := by
    rw [readSequence, index_bind, if_neg (by simp [hnumber]), hclose, require_some_bind, hlength,
      require_some_bind, goTo_bind]
  refine (hinner ds ht hlen hnext hrest).around hr (fun u hu => by rw [TypeExpr.move, TypeExpr.reading, hu]) ?_
  simp [TypeExpr.lexemes, WrittenLength.lexemes]
  omega

omit hm

theorem readSequence_slice {t : TypeExpr} (ht : t.IsPrintable) (hlen : (words t.lexemes).length ≤ n) {i : Nat}
    {rest : List Word} (hw : s.wordsFrom i = words (TypeExpr.slice t).lexemes ++ rest) (hrest : EndsType rest)
    (ds : List Diagnostic) : ReadsWords (readSequence s inner) (.slice t) i ds := by
  have hw' : s.wordsFrom i = (.opener .square, "[") :: (.closer .square, "]") :: (words t.lexemes ++ rest) := by
    simpa [TypeExpr.lexemes] using hw
  obtain ⟨-, -, hclose⟩ := Lexed.wordsFrom_cons hw'
  obtain ⟨hclose, -, hnext⟩ := Lexed.wordsFrom_cons hclose
  have hr : readSequence s inner ⟨i, ds⟩ = (inner >>= fun u => give (.slice u)) ⟨i + 2, ds⟩ := by
    rw [readSequence, index_bind, if_pos hclose, skip_bind]
  refine (hinner ds ht hlen hnext hrest).around hr (fun u hu => by rw [TypeExpr.move, TypeExpr.reading, hu]) ?_
  simp [TypeExpr.lexemes]
  omega

theorem readForm_pointer {t : TypeExpr} (ht : t.IsPrintable) (hlen : (words t.lexemes).length ≤ n) {i : Nat}
    {rest : List Word} (hw : s.wordsFrom i = words (TypeExpr.pointer t).lexemes ++ rest) (hrest : EndsType rest)
    (ds : List Diagnostic) : ReadsWords (readForm s inner) (.pointer t) i ds := by
  have hw' : s.wordsFrom i = (.star, "*") :: (words t.lexemes ++ rest) := by
    simpa [TypeExpr.lexemes] using hw
  obtain ⟨hstar, -, hnext⟩ := Lexed.wordsFrom_cons hw'
  have hr : readForm s inner ⟨i, ds⟩ = (inner >>= fun u => give (.pointer u)) ⟨i + 1, ds⟩ := by
    simp only [readForm_eq, hstar]
  refine (hinner ds ht hlen hnext hrest).around hr (fun u hu => by rw [TypeExpr.move, TypeExpr.reading, hu]) ?_
  simp [TypeExpr.lexemes]
  omega

theorem readMap_words {k v : TypeExpr} (hk : k.IsPrintable) (hv : v.IsPrintable)
    (hlen : (words k.lexemes).length ≤ n) (hlen' : (words v.lexemes).length ≤ n) {i : Nat} {rest : List Word}
    (hw : s.wordsFrom i = words (TypeExpr.map k v).lexemes ++ rest) (hrest : EndsType rest) (ds : List Diagnostic) :
    ReadsWords (readMap s inner) (.map k v) i ds := by
  have hw' : s.wordsFrom i = (.keyword .mapWord, Keyword.text .mapWord) :: (.opener .square, "[") ::
      (words k.lexemes ++ (.closer .square, "]") :: (words v.lexemes ++ rest)) := by
    simpa [TypeExpr.lexemes] using hw
  obtain ⟨-, -, hopen⟩ := Lexed.wordsFrom_cons hw'
  obtain ⟨hopen, -, hkey⟩ := Lexed.wordsFrom_cons hopen
  obtain ⟨k', hreadk, hmovedk⟩ := hinner ds hk hlen hkey (endsType_cons _ (by decide) (by decide))
  obtain ⟨hclose, -, hvalue⟩ := Lexed.wordsFrom_cons (Lexed.wordsFrom_append _ hkey)
  have hr : readMap s inner ⟨i, ds⟩ =
      (inner >>= fun u => give (.map k' u)) ⟨i + 1 + 1 + (words k.lexemes).length + 1, ds⟩ := by
    rw [readMap, skip_bind, expect_bind, if_pos hopen, bind_some hreadk, expect_bind, if_pos hclose]
  refine (hinner ds hv hlen' hvalue hrest).around hr
    (fun u hu => by rw [TypeExpr.move, TypeExpr.reading, hmovedk, hu]) ?_
  simp [TypeExpr.lexemes]
  omega

/-! ## Channels -/

/-- The keyword of a channel type takes an arrow that stands behind it. What is left of a receiving channel are then
the words of a channel type without its arrow. -/
theorem readChan_receive {t : TypeExpr} (ht : t.IsPrintable)
    (hlen : (words (TypeExpr.chan .receive t).lexemes).length ≤ n) {i : Nat} {rest : List Word}
    (hw : s.wordsFrom i = words (TypeExpr.chan .both (.chan .receive t)).lexemes ++ rest) (hrest : EndsType rest)
    (ds : List Diagnostic) : ReadsWords (readChan s inner) (.chan .both (.chan .receive t)) i ds := by
  have hw' : s.wordsFrom i = (.keyword .chanWord, Keyword.text .chanWord) :: (.arrow, "<-") ::
      (words (TypeExpr.chan .both t).lexemes ++ rest) := by
    simpa [TypeExpr.lexemes, Direction.lexemes] using hw
  obtain ⟨-, -, harrow⟩ := Lexed.wordsFrom_cons hw'
  obtain ⟨harrow, -, hnext⟩ := Lexed.wordsFrom_cons harrow
  have hlen' : (words (TypeExpr.chan .both t).lexemes).length ≤ n := by
    simp [TypeExpr.lexemes, Direction.lexemes] at hlen ⊢
    omega
  have hr : readChan s inner ⟨i, ds⟩ = (inner >>= fun u => give (.chan .send u)) ⟨i + 1 + 1, ds⟩ := by
    rw [readChan, skip_bind, eat_bind, if_pos harrow]
    rfl
  refine (hinner ds (.chan ht) hlen' hnext hrest).around hr (fun u hu => by rw [TypeExpr.move, hu]; rfl) ?_
  simp [TypeExpr.lexemes, Direction.lexemes]
  omega

theorem readChan_both {t : TypeExpr} (ht : t.IsPrintable) (hlen : (words t.lexemes).length ≤ n) {i : Nat}
    {rest : List Word} (hw : s.wordsFrom i = words (TypeExpr.chan .both t).lexemes ++ rest) (hrest : EndsType rest)
    (ds : List Diagnostic) : ReadsWords (readChan s inner) (.chan .both t) i ds := by
  by_cases harrow : t.firstKind = .arrow
  · obtain ⟨u, rfl⟩ := TypeExpr.eq_receive_of_firstKind harrow
    cases ht with
    | chan hu => exact readChan_receive hinner hu hlen hw hrest ds
  · have hw' : s.wordsFrom i = (.keyword .chanWord, Keyword.text .chanWord) :: (words t.lexemes ++ rest) := by
      simpa [TypeExpr.lexemes, Direction.lexemes] using hw
    obtain ⟨-, -, hnext⟩ := Lexed.wordsFrom_cons hw'
    have hr : readChan s inner ⟨i, ds⟩ = (inner >>= fun u => give (.chan .both u)) ⟨i + 1, ds⟩ := by
      rw [readChan, skip_bind, eat_bind, ht.kindAt_eq hnext, if_neg (by simpa using harrow)]
      rfl
    refine (hinner ds ht hlen hnext hrest).around hr (fun u hu => ?_) ?_
    · rw [TypeExpr.move, hu, TypeExpr.reading, TypeExpr.chanOf_of_ne (TypeExpr.reading_ne_receive harrow)]
    · simp [TypeExpr.lexemes, Direction.lexemes]
      omega

theorem readChan_send {t : TypeExpr} (ht : t.IsPrintable) (hlen : (words t.lexemes).length ≤ n) {i : Nat}
    {rest : List Word} (hw : s.wordsFrom i = words (TypeExpr.chan .send t).lexemes ++ rest) (hrest : EndsType rest)
    (ds : List Diagnostic) : ReadsWords (readChan s inner) (.chan .send t) i ds := by
  have hw' : s.wordsFrom i = (.keyword .chanWord, Keyword.text .chanWord) :: (.arrow, "<-") ::
      (words t.lexemes ++ rest) := by
    simpa [TypeExpr.lexemes, Direction.lexemes] using hw
  obtain ⟨-, -, harrow⟩ := Lexed.wordsFrom_cons hw'
  obtain ⟨harrow, -, hnext⟩ := Lexed.wordsFrom_cons harrow
  have hr : readChan s inner ⟨i, ds⟩ = (inner >>= fun u => give (.chan .send u)) ⟨i + 1 + 1, ds⟩ := by
    rw [readChan, skip_bind, eat_bind, if_pos harrow]
    rfl
  refine (hinner ds ht hlen hnext hrest).around hr (fun u hu => by rw [TypeExpr.move, TypeExpr.reading, hu]) ?_
  simp [TypeExpr.lexemes, Direction.lexemes]
  omega

theorem readForm_receive {t : TypeExpr} (ht : t.IsPrintable) (hlen : (words t.lexemes).length ≤ n) {i : Nat}
    {rest : List Word} (hw : s.wordsFrom i = words (TypeExpr.chan .receive t).lexemes ++ rest)
    (hrest : EndsType rest) (ds : List Diagnostic) : ReadsWords (readForm s inner) (.chan .receive t) i ds := by
  have hw' : s.wordsFrom i = (.arrow, "<-") :: (.keyword .chanWord, Keyword.text .chanWord) ::
      (words t.lexemes ++ rest) := by
    simpa [TypeExpr.lexemes, Direction.lexemes] using hw
  obtain ⟨harrow, -, hchan⟩ := Lexed.wordsFrom_cons hw'
  obtain ⟨hchan, -, hnext⟩ := Lexed.wordsFrom_cons hchan
  have hr : readForm s inner ⟨i, ds⟩ = (inner >>= fun u => give (.chan .receive u)) ⟨i + 2, ds⟩ := by
    simp only [readForm_eq, harrow, hchan, ↓reduceIte]
  refine (hinner ds ht hlen hnext hrest).around hr (fun u hu => by rw [TypeExpr.move, TypeExpr.reading, hu]) ?_
  simp [TypeExpr.lexemes, Direction.lexemes]
  omega

end

end LiteralFill
