import LiteralFill.Proofs.Packages.Ancestors
import LiteralFill.Proofs.Packages.Directories
import Mathlib.Data.List.DropRight

/-!
The module that a directory belongs to. The nearest module file around it names the module on the first line that
begins with the word for it: the path stands there as it is, or in quotes of either kind, between blanks. The line is
read up to its end, so the path that is read is the one that is named exactly if no comment follows it on the line. With
a comment, the module that is registered leads no import path anywhere.
-/

namespace LiteralFill

/-! ## What stands around a text -/

section

variable {α : Type} {drop : α → Bool}

theorem rdropWhile_append_of_all (xs : List α) {ys : List α} (h : ∀ y ∈ ys, drop y = true) :
    (xs ++ ys).rdropWhile drop = xs.rdropWhile drop := by
  rw [List.rdropWhile, List.reverse_append, List.dropWhile_append_of_pos (by simpa using h)]
  rfl

/-- What stands before something that is kept is kept. -/
theorem rdropWhile_append_cons (xs : List α) {c : α} (hc : drop c = false) (ys : List α) :
    (xs ++ c :: ys).rdropWhile drop = xs ++ c :: ys.rdropWhile drop := by
  induction ys using List.reverseRecOn with
  | nil => exact List.rdropWhile_concat_neg drop xs c (by simp [hc])
  | append_singleton ys y ih =>
    rw [← List.cons_append, ← List.append_assoc]
    cases hy : drop y with
    | true => rw [List.rdropWhile_concat_pos drop _ y hy, List.rdropWhile_concat_pos drop _ y hy, ih]
    | false =>
      have hneg : ¬ drop y = true := by simp [hy]
      rw [List.rdropWhile_concat_neg drop _ y hneg, List.rdropWhile_concat_neg drop _ y hneg, List.append_assoc]
      rfl

/-- The same for several elements that are kept. -/
theorem rdropWhile_append_of_none (xs : List α) {kept : List α} (hne : kept ≠ []) (h : ∀ c ∈ kept, drop c = false)
    (ys : List α) : (xs ++ kept ++ ys).rdropWhile drop = xs ++ kept ++ ys.rdropWhile drop := by
  obtain ⟨before, c, rfl⟩ : ∃ before c, kept = before ++ [c] :=
    ⟨_, _, (List.dropLast_append_getLast hne).symm⟩
  have hlast := rdropWhile_append_cons (xs ++ before) (h c (by simp)) ys
  simpa using hlast

end

theorem trimEnd_eq_rdropWhile (cs : List Char) : trimEnd cs = cs.rdropWhile isBlank := by
  induction cs with
  | nil => rfl
  | cons c cs ih =>
    rw [trimEnd, ih, List.rdropWhile, List.rdropWhile, List.reverse_cons, List.dropWhile_append]
    cases hrest : List.dropWhile isBlank cs.reverse with
    | nil => by_cases hc : isBlank c = true <;> simp [hc]
    | cons d ds => cases hds : (d :: ds).reverse <;> simp_all

theorem trimStart_of_blanks {xs : List Char} (h : ∀ c ∈ xs, isBlank c = true) (ys : List Char) :
    trimStart (xs ++ ys) = trimStart ys :=
  List.dropWhile_append_of_pos h

/-- A text between blanks without blanks at its beginning. -/
theorem trim_of_kept {xs kept : List Char} (hxs : ∀ c ∈ xs, isBlank c = true) (hne : kept ≠ [])
    (hkept : ∀ c ∈ kept, isBlank c = false) (ys : List Char) : trim (xs ++ (kept ++ ys)) = kept ++ trimEnd ys := by
  have hstart : trimStart (xs ++ (kept ++ ys)) = kept ++ ys := by
    rw [trimStart_of_blanks hxs]
    cases kept with
    | nil => exact absurd rfl hne
    | cons c cs => exact List.dropWhile_cons_of_neg (by simp [hkept c (by simp)])
  rw [trim, hstart, trimEnd_eq_rdropWhile, trimEnd_eq_rdropWhile]
  exact rdropWhile_append_of_none [] hne hkept ys

theorem trim_append_blanks (xs : List Char) {ys : List Char} (h : ∀ c ∈ ys, isBlank c = true) :
    trim (xs ++ ys) = trim xs := by
  rw [trim, trim, trimStart, trimStart, List.dropWhile_append]
  split
  · next hxs => rw [List.isEmpty_iff.mp hxs, List.dropWhile_eq_nil_iff.mpr h]
  · rw [trimEnd_eq_rdropWhile, trimEnd_eq_rdropWhile, rdropWhile_append_of_all _ h]

/-! ## Lines -/

/-- The character before the end of a line may belong to the end. -/
inductive IsLineCut : List Char → List Char → Prop
  | whole (line : List Char) : IsLineCut line line
  | shorter (line : List Char) : IsLineCut (line ++ ['\r']) line

theorem linesOf_cons {c : Char} {cs : List Char} (hc : c ≠ '\n') (hreturn : c = '\r' → cs.head? ≠ some '\n') :
    linesOf (c :: cs) = match linesOf cs with
      | line :: rest => (c :: line) :: rest
      | [] => [[c]] := by
  have hinside : ∀ rest, c = '\r' → cs = '\n' :: rest → False := by
    rintro rest rfl rfl
    exact hreturn rfl rfl
  exact (linesOf.eq_3 c cs hinside).trans (if_neg hc)

/-- The first line of a text that goes on behind it. -/
theorem linesOf_append {line : List Char} (h : '\n' ∉ line) (rest : List Char) :
    ∃ cut, IsLineCut line cut ∧ linesOf (line ++ '\n' :: rest) = cut :: linesOf rest := by
  induction line with
  | nil => exact ⟨[], .whole [], by rw [List.nil_append, linesOf, if_pos rfl]; simp⟩
  | cons c line ih =>
    rw [List.mem_cons, not_or] at h
    by_cases hreturn : c = '\r' ∧ line = []
    · obtain ⟨rfl, rfl⟩ := hreturn
      exact ⟨[], .shorter [], rfl⟩
    · obtain ⟨cut, hcut, hlines⟩ := ih h.2
      have hstep : linesOf (c :: line ++ '\n' :: rest) = (c :: cut) :: linesOf rest := by
        rw [List.cons_append, linesOf_cons (Ne.symm h.1), hlines]
        rintro rfl
        cases line with
        | nil => exact absurd ⟨rfl, rfl⟩ hreturn
        | cons d line => simpa using fun hd : d = '\n' => h.2 (by simp [hd])
      refine ⟨c :: cut, ?_, hstep⟩
      cases hcut with
      | whole => exact .whole _
      | shorter => exact .shorter (c :: cut)

/-- The only line of a text. -/
theorem linesOf_line {line : List Char} (h : '\n' ∉ line) (hne : line ≠ []) : linesOf line = [line] := by
  induction line with
  | nil => exact absurd rfl hne
  | cons c line ih =>
    rw [List.mem_cons, not_or] at h
    rw [linesOf_cons (Ne.symm h.1) fun _ hhead => h.2 (List.mem_of_mem_head? hhead)]
    cases line with
    | nil => rfl
    | cons d line => rw [ih h.2 (List.cons_ne_nil _ _)]

theorem IsLineCut.modulePathOfLine {line cut : List Char} (h : IsLineCut line cut) :
    modulePathOfLine cut = modulePathOfLine line := by
  cases h with
  | whole => rfl
  | shorter =>
    have hreturn : ∀ c ∈ ['\r'], isBlank c = true := List.forall_mem_singleton.mpr (by decide)
    rw [LiteralFill.modulePathOfLine, LiteralFill.modulePathOfLine, trim_append_blanks cut hreturn]

/-! ## The line that names a module -/

/-- The word that the line begins with. -/
def moduleWord : List Char := "module".toList

theorem moduleWord_plain : ∀ c ∈ moduleWord, isBlank c = false := by
  have hplain : moduleWord.all (fun c => !isBlank c) = true := by decide
  simpa using hplain

theorem modulePathOfLine_eq (line : List Char) : modulePathOfLine line =
    if moduleWord.isPrefixOf (trim line) then
      if (((trim line).drop moduleWord.length).head?.map isBlank).getD false then
        if (trimQuotes (trim ((trim line).drop moduleWord.length))).isEmpty then none
        else some (String.ofList (trimQuotes (trim ((trim line).drop moduleWord.length))))
      else none
    else none := rfl

/-- The word and a blank at the beginning of a line. -/
theorem modulePathOfLine_of_blank {line rest : List Char} {c : Char} (h : trim line = moduleWord ++ c :: rest)
    (hc : isBlank c = true) : modulePathOfLine line =
      if trimQuotes (trim (c :: rest)) = [] then none else some (String.ofList (trimQuotes (trim (c :: rest)))) := by
  rw [modulePathOfLine_eq, h, if_pos (List.isPrefixOf_iff_prefix.mpr (List.prefix_append ..)), List.drop_left]
  simp [hc]

/-- A line that does not begin with them names no module. -/
theorem modulePathOfLine_eq_none {line : List Char}
    (h : ∀ c rest, trim line = moduleWord ++ c :: rest → isBlank c = false) : modulePathOfLine line = none := by
  rw [modulePathOfLine_eq]
  split
  · next hword =>
    obtain ⟨rest, hrest⟩ := List.isPrefixOf_iff_prefix.mp hword
    rw [← hrest, List.drop_left]
    cases rest with
    | nil => rfl
    | cons c rest => simp [h c rest hrest.symm]
  · rfl

/-- How a module path is written. -/
inductive PathStyle
  | bare | quoted | backquoted
  deriving DecidableEq, Repr

/-- What stands on both sides of the path. -/
def PathStyle.quote : PathStyle → List Char
  | bare => []
  | quoted => ['\x22']
  | backquoted => ['\x60']

theorem PathStyle.quote_facts (style : PathStyle) :
    ∀ c ∈ style.quote, isPathQuote c = true ∧ isBlank c = false ∧ c ≠ '\n' := by
  cases style <;> simp [quote] <;> decide

/-- A line that names a module, in its parts. -/
structure ModuleLine where
  indent : List Char
  gap : List Char
  style : PathStyle
  path : List Char
  trail : List Char
  comment : Option (List Char)
  blanks : ∀ c ∈ indent ++ gap ++ trail, isBlank c = true ∧ c ≠ '\n'
  gap_ne : gap ≠ []
  path_ne : path ≠ []
  path_plain : ∀ c ∈ path, isBlank c = false ∧ isPathQuote c = false
  comment_line : ∀ note ∈ comment, '\n' ∉ note

namespace ModuleLine

variable (l : ModuleLine)

/-- The path as it is written. -/
def written : List Char := l.style.quote ++ l.path ++ l.style.quote

/-- The comment as it is written, with the blanks before it. -/
def ending : List Char :=
  match l.comment with
  | none => l.trail
  | some note => l.trail ++ '/' :: '/' :: note

def text : List Char := l.indent ++ moduleWord ++ l.gap ++ l.written ++ l.ending

/-- What is read with the path: nothing, or if there is a comment, all from the end of the path to that of the comment,
without the blanks and then the quotes there. -/
def leftover : List Char :=
  match l.comment with
  | none => []
  | some note => l.style.quote ++ l.trail ++ '/' :: '/' :: (trimEnd note).rdropWhile isPathQuote

/-- The path that is named. -/
def named : String := String.ofList l.path

/-- The path that is read. -/
def taken : String := String.ofList (l.path ++ l.leftover)

theorem leftover_eq_nil_iff : l.leftover = [] ↔ l.comment = none := by
  unfold leftover
  cases l.comment <;> simp

/-- The path is read as it is named exactly if there is no comment. -/
theorem taken_eq_named_iff : l.taken = l.named ↔ l.comment = none := by
  rw [taken, named, String.ofList_inj, List.append_right_eq_self, leftover_eq_nil_iff]

theorem indent_blank : ∀ c ∈ l.indent, isBlank c = true := fun c hc => (l.blanks c (by simp [hc])).1

theorem gap_blank : ∀ c ∈ l.gap, isBlank c = true := fun c hc => (l.blanks c (by simp [hc])).1

theorem trail_blank : ∀ c ∈ l.trail, isBlank c = true := fun c hc => (l.blanks c (by simp [hc])).1

theorem written_ne : l.written ≠ [] := by simp [written, l.path_ne]

theorem written_plain : ∀ c ∈ l.written, isBlank c = false := by
  intro c hc
  rcases List.mem_append.mp hc with hc | hc
  · rcases List.mem_append.mp hc with hc | hc
    · exact (l.style.quote_facts c hc).2.1
    · exact (l.path_plain c hc).1
  · exact (l.style.quote_facts c hc).2.1

theorem newline_not_mem_text : '\n' ∉ l.text := by
  have hblanks : '\n' ∉ l.indent ++ l.gap ++ l.trail := fun h => (l.blanks _ h).2 rfl
  have hwritten : '\n' ∉ l.written := fun h => Bool.false_ne_true ((l.written_plain _ h).symm.trans (by decide))
  have hword : '\n' ∉ moduleWord := by decide
  have hending : '\n' ∉ l.ending := by
    have htrail : '\n' ∉ l.trail := fun h => hblanks (List.mem_append_right _ h)
    have hcomment := l.comment_line
    unfold ending
    cases hc : l.comment with
    | none => exact htrail
    | some note => simpa [htrail] using hcomment note hc
  simp_all [text]

theorem text_ne : l.text ≠ [] := by simp [text, written_ne]

/-! ### What is read -/

/-- The end of the line without the blanks behind it. -/
theorem trimEnd_ending : trimEnd l.ending =
    match l.comment with
    | none => []
    | some note => l.trail ++ '/' :: '/' :: trimEnd note := by
  simp only [trimEnd_eq_rdropWhile, ending]
  cases l.comment with
  | none => exact List.rdropWhile_eq_nil_iff.mpr l.trail_blank
  | some note =>
    have hslash : isBlank '/' = false := by decide
    rw [rdropWhile_append_cons _ hslash]
    exact congrArg (l.trail ++ '/' :: ·) (rdropWhile_append_cons [] hslash note)

theorem trimEnd_written (xs : List Char) :
    trimEnd (xs ++ l.written ++ l.ending) = xs ++ l.written ++ trimEnd l.ending := by
  rw [trimEnd_eq_rdropWhile, trimEnd_eq_rdropWhile]
  exact rdropWhile_append_of_none xs l.written_ne l.written_plain l.ending

theorem trim_text : trim l.text = moduleWord ++ (l.gap ++ l.written ++ trimEnd l.ending) := by
  have htext : l.text = l.indent ++ (moduleWord ++ (l.gap ++ l.written ++ l.ending)) := by simp [text]
  rw [htext, trim_of_kept l.indent_blank (by decide) moduleWord_plain, trimEnd_written]

theorem trim_gap : trim (l.gap ++ l.written ++ trimEnd l.ending) = l.written ++ trimEnd l.ending := by
  have hagain : trimEnd (trimEnd l.ending) = trimEnd l.ending := by
    simp only [trimEnd_eq_rdropWhile, List.rdropWhile_idempotent]
  rw [List.append_assoc, trim_of_kept l.gap_blank l.written_ne l.written_plain, hagain]

theorem trimQuotes_written : trimQuotes (l.written ++ trimEnd l.ending) = l.path ++ l.leftover := by
  have hquote : ∀ c ∈ l.style.quote, isPathQuote c = true := fun c hc => (l.style.quote_facts c hc).1
  have hpath : ∀ c ∈ l.path, isPathQuote c = false := fun c hc => (l.path_plain c hc).2
  have hstart (ys : List Char) : List.dropWhile isPathQuote (l.written ++ ys) = l.path ++ (l.style.quote ++ ys) := by
    rw [written, List.append_assoc, List.append_assoc, List.dropWhile_append_of_pos hquote]
    cases hp : l.path with
    | nil => exact absurd hp l.path_ne
    | cons c cs => exact List.dropWhile_cons_of_neg (by simp [hpath c (by simp [hp])])
  show (List.dropWhile isPathQuote (l.written ++ trimEnd l.ending)).rdropWhile isPathQuote = _
  rw [hstart, trimEnd_ending, leftover]
  cases l.comment with
  | none =>
    have hend := rdropWhile_append_of_none [] l.path_ne hpath l.style.quote
    rw [List.rdropWhile_eq_nil_iff.mpr hquote] at hend
    simpa using hend
  | some note =>
    have hslashes : ∀ c ∈ ['/', '/'], isPathQuote c = false := by simp [isPathQuote]
    have hend := rdropWhile_append_of_none (l.path ++ (l.style.quote ++ l.trail)) (by simp) hslashes (trimEnd note)
    simpa using hend

/-- What is read from the line. -/
theorem modulePathOfLine_text : modulePathOfLine l.text = some l.taken := by
  obtain ⟨c, gap, hgap⟩ := List.exists_cons_of_ne_nil l.gap_ne
  have hc : isBlank c = true := l.gap_blank c (by simp [hgap])
  have hrest : l.gap ++ l.written ++ trimEnd l.ending = c :: (gap ++ l.written ++ trimEnd l.ending) := by simp [hgap]
  have hread := modulePathOfLine_of_blank (hrest ▸ l.trim_text) hc
  rw [← hrest, trim_gap, trimQuotes_written, if_neg (by simp [l.path_ne])] at hread
  exact hread

end ModuleLine

/-! ## The lines before it -/

/-- A line that names no module: a blank one, a comment, or one with another word at the beginning. -/
inductive IsPassed : List Char → Prop
  | blank {line : List Char} (h : ∀ c ∈ line, isBlank c = true ∧ c ≠ '\n') : IsPassed line
  | comment {indent note : List Char} (h : ∀ c ∈ indent, isBlank c = true ∧ c ≠ '\n') (hnote : '\n' ∉ note) :
      IsPassed (indent ++ '/' :: '/' :: note)
  | other {indent word rest : List Char} (h : ∀ c ∈ indent, isBlank c = true ∧ c ≠ '\n') (hne : word ≠ [])
      (hword : ∀ c ∈ word, isBlank c = false) (hother : word ≠ moduleWord)
      (hend : ∀ c ∈ rest.head?, isBlank c = true) (hrest : '\n' ∉ rest) : IsPassed (indent ++ word ++ rest)

theorem IsPassed.newline_not_mem {line : List Char} (h : IsPassed line) : '\n' ∉ line := by
  have hblank {xs : List Char} (h : ∀ c ∈ xs, isBlank c = true ∧ c ≠ '\n') : '\n' ∉ xs := fun hmem => (h _ hmem).2 rfl
  cases h with
  | blank h => exact hblank h
  | comment h hnote => simpa [hnote] using hblank h
  | @other indent word rest h hne hword hother hend hrest =>
    have hplain : '\n' ∉ word := fun hmem => Bool.false_ne_true ((hword _ hmem).symm.trans (by decide))
    simpa [hplain, hrest] using hblank h

theorem IsPassed.modulePathOfLine {line : List Char} (h : IsPassed line) : modulePathOfLine line = none := by
  refine modulePathOfLine_eq_none fun c rest htrim => ?_
  cases h with
  | blank h =>
    have hnone := trim_append_blanks [] fun c hc => (h c hc).1
    rw [List.nil_append, htrim] at hnone
    cases hnone
  | @comment indent note h hnote =>
    have hslash : isBlank '/' = false := by decide
    have hslashes : trim (indent ++ (['/', '/'] ++ note)) = ['/', '/'] ++ trimEnd note :=
      trim_of_kept (fun c hc => (h c hc).1) (by simp) (by simp [hslash]) note
    cases hslashes.symm.trans htrim
  | @other indent word tail h hne hword hother hend hrest =>
    rw [List.append_assoc, trim_of_kept (fun c hc => (h c hc).1) hne hword] at htrim
    rcases List.append_eq_append_iff.mp htrim with ⟨more, hmore, htail⟩ | ⟨more, hmore, htail⟩
    · -- the word would end within the other one, with a blank behind it
      cases more with
      | nil => exact absurd (by simpa using hmore.symm) hother
      | cons d more =>
        have hd : isBlank d = true := by
          obtain ⟨blanks, hblanks⟩ := List.rdropWhile_prefix isBlank tail
          rw [← trimEnd_eq_rdropWhile, htail] at hblanks
          exact hend d (by simp [← hblanks])
        rw [moduleWord_plain d (by simp [hmore])] at hd
        cases hd
    · cases more with
      | nil => exact absurd (by simpa using hmore) hother
      | cons d more =>
        obtain ⟨rfl, -⟩ := List.cons.inj htail
        exact hword c (by simp [hmore])

/-- A text in which a line is the first one that names a module. -/
inductive ModuleLine.IsFirst (l : ModuleLine) : List Char → Prop
  | only : l.IsFirst l.text
  | before (rest : List Char) : l.IsFirst (l.text ++ '\n' :: rest)
  | after {line rest : List Char} (h : IsPassed line) (hrest : l.IsFirst rest) : l.IsFirst (line ++ '\n' :: rest)

/-- What is read from the text is what is read from that line. -/
theorem ModuleLine.IsFirst.findSome {l : ModuleLine} {text : List Char} (h : l.IsFirst text) :
    (linesOf text).findSome? modulePathOfLine = some l.taken := by
  induction h with
  | only => rw [linesOf_line l.newline_not_mem_text l.text_ne, List.findSome?_cons, l.modulePathOfLine_text]
  | before rest =>
    obtain ⟨cut, hcut, hlines⟩ := linesOf_append l.newline_not_mem_text rest
    rw [hlines, List.findSome?_cons, hcut.modulePathOfLine, l.modulePathOfLine_text]
  | after hline hrest ih =>
    obtain ⟨cut, hcut, hlines⟩ := linesOf_append hline.newline_not_mem _
    rw [hlines, List.findSome?_cons, hcut.modulePathOfLine, hline.modulePathOfLine, ih]

/-! ## The directory that is registered -/

namespace PackageDb

variable {tree : FileTree} {l : ModuleLine}

/-- The name of a module file. -/
theorem isName_moduleFile : Path.IsName "go.mod" := by decide

theorem nearestModule_of_file {d : Path} {text : String} (hfile : tree.readText (d.join "go.mod") = some text)
    (hfirst : l.IsFirst text.toList) {nearer : List Path}
    (hnearer : ∀ q ∈ nearer, tree.isFile (q.join "go.mod") = false) (outer : List Path) :
    nearestModule tree (nearer ++ d :: outer) = some ⟨l.taken, d⟩ := by
  induction nearer with
  | nil =>
    have hisfile : tree.isFile (d.join "go.mod") = true := by
      unfold FileTree.readText FileTree.readBytes at hfile
      unfold FileTree.isFile
      split at hfile <;> simp_all
    rw [List.nil_append, nearestModule]
    simp [hisfile, hfile, modulePath, hfirst.findSome]
  | cons q nearer ih =>
    rw [List.forall_mem_cons] at hnearer
    rw [List.cons_append, nearestModule]
    simp [hnearer.1, ih hnearer.2]

/-- The module path of a line with a comment is that of no import path and begins none. -/
theorem moduleDirFor_of_comment (h : l.comment ≠ none) {path : String} (hpath : IsImportPath path) (d : Path) :
    moduleDirFor path ⟨l.taken, d⟩ = none := by
  refine Option.eq_none_iff_forall_ne_some.mpr fun dir hdir => ?_
  have hprefix : l.taken.toList <+: path.toList :=
    ModuleDir.LeadsTo.path_prefix (moduleDirFor_eq_some.mp hdir)
  obtain ⟨note, hnote⟩ := Option.ne_none_iff_exists'.mp h
  -- the two slashes before the comment have an empty piece between them
  obtain ⟨before, after, hslashes⟩ : ∃ before after, path.toList = before ++ '/' :: ([] ++ '/' :: after) := by
    obtain ⟨rest, hrest⟩ := hprefix
    refine ⟨l.path ++ (l.style.quote ++ l.trail), (trimEnd note).rdropWhile isPathQuote ++ rest, ?_⟩
    simp [← hrest, ModuleLine.taken, ModuleLine.leftover, hnote]
  have hempty : "" ∈ (Path.mk path).segments := by
    rw [← String.ofList_toList (s := path), hslashes, Path.segments_append, Path.segments_append]
    exact List.mem_append_right _ (List.mem_append_left _ (by decide))
  exact (hpath "" hempty).1 rfl

/-- A directory whose module file names a module on its first line that does, and a path in it with no module file on
the way: from there the directory is registered for the path that is read on that line. It is the one that is named
exactly if no comment follows it; with a comment, the module leads no import path anywhere. -/
theorem discoverModule_moduleLine (tree : FileTree) (db : PackageDb) {dir start : Path} {text : String}
    {l : ModuleLine} (hfile : tree.readText (dir.join "go.mod") = some text) (hfirst : l.IsFirst text.toList)
    (hstart : start.IsIn dir)
    (hnearer : ∀ inner : Path, inner.IsIn dir → start.IsIn inner → inner.components ≠ dir.components →
      tree.isFile (inner.join "go.mod") = false) :
    ∃ d : Path, d.components = dir.components ∧
      db.discoverModule tree start = (some l.taken, db.addModule l.taken d) ∧
      (l.taken = l.named ↔ l.comment = none) ∧
      (l.comment ≠ none → ∀ path, IsImportPath path → moduleDirFor path ⟨l.taken, d⟩ = none) := by
  obtain ⟨nearer, d, outer, hancestors, hd, hinner⟩ := hstart.ancestors
  have hread : tree.readText (d.join "go.mod") = some text := by
    rw [FileTree.readText_join_of_components isName_moduleFile hd, hfile]
  have hpassed : ∀ q ∈ nearer, tree.isFile (q.join "go.mod") = false := fun q hq =>
    hnearer q (hinner q hq).1 (hinner q hq).2.1 (hinner q hq).2.2
  have hnearest : nearestModule tree start.ancestors = some ⟨l.taken, d⟩ := by
    rw [hancestors]
    exact nearestModule_of_file hread hfirst hpassed outer
  refine ⟨d, hd, ?_, l.taken_eq_named_iff, fun hcomment path hpath => moduleDirFor_of_comment hcomment hpath d⟩
  rw [discoverModule, hnearest]

/-- A line with a quoted path and a comment. -/
def commentedLine : ModuleLine where
  indent := ['\t']
  gap := [' ']
  style := .quoted
  path := ['m', '/', 'q']
  trail := [' ']
  comment := some [' ', 'c', '\r']
  blanks := by simp; decide
  gap_ne := by decide
  path_ne := by decide
  path_plain := by simp; decide
  comment_line := by decide

/-- A module file with that line. -/
def commentedText : String := "// app\n\n\tmodule \x22m/q\x22 // c\r\n\ngo 1.22\n"

/-- A directory with the file, and a directory in it. -/
def commentedTree : FileTree where
  entries := [(["w"], .directory), (["w", "go.mod"], .file (encodeText commentedText)), (["w", "d"], .directory)]
  current := []

/-- The comment is taken for a part of the module path. -/
theorem discoverModule_commentedLine :
    commentedTree.readText ((Path.mk "/w").join "go.mod") = some commentedText ∧
      commentedLine.IsFirst commentedText.toList ∧ commentedLine.named = "m/q" ∧
      ∃ d : Path, d.components = (Path.mk "/w").components ∧
        empty.discoverModule commentedTree ⟨"/w/d"⟩ = (some "m/q\x22 // c", empty.addModule "m/q\x22 // c" d) := by
  have hfile : commentedTree.readText ((Path.mk "/w").join "go.mod") = some commentedText := by decide +kernel
  have hfirst : commentedLine.IsFirst commentedText.toList := by
    have hlines : commentedText.toList =
        "// app".toList ++ '\n' :: ([] ++ '\n' :: (commentedLine.text ++ '\n' :: "\ngo 1.22\n".toList)) := by
      decide +kernel
    have hcomment : IsPassed "// app".toList := @IsPassed.comment [] " app".toList (by simp) (by decide)
    rw [hlines]
    exact .after hcomment (.after (.blank (by simp)) (.before _))
  have hstart : (Path.mk "/w/d").IsIn ⟨"/w"⟩ := ⟨by decide +kernel, by decide +kernel⟩
  have hnearer : ∀ inner : Path, inner.IsIn ⟨"/w"⟩ → (Path.mk "/w/d").IsIn inner →
      inner.components ≠ (Path.mk "/w").components → commentedTree.isFile (inner.join "go.mod") = false := by
    intro inner hin hout hne
    -- no directory is between the two
    have hlength : (Path.mk "/w/d").components.length = (Path.mk "/w").components.length + 1 := by decide +kernel
    have hlong : (Path.mk "/w").components.length < inner.components.length :=
      Nat.lt_of_le_of_ne hin.components.length_le fun heq => hne (hin.components.eq_of_length heq).symm
    have hinner : inner.components = (Path.mk "/w/d").components :=
      hout.components.eq_of_length (Nat.le_antisymm hout.components.length_le (hlength ▸ hlong))
    rw [FileTree.isFile_join_of_components isName_moduleFile hinner]
    decide +kernel
  obtain ⟨d, hd, hanswer, -⟩ := discoverModule_moduleLine commentedTree empty hfile hfirst hstart hnearer
  have htaken : commentedLine.taken = "m/q\x22 // c" := by decide +kernel
  exact ⟨hfile, hfirst, by decide +kernel, d, hd, htaken ▸ hanswer⟩

end PackageDb

end LiteralFill
