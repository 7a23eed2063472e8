import LiteralFill.Proofs.Fill.Sources
import Mathlib.Algebra.Order.BigOperators.Group.List
import Mathlib.Algebra.Order.Group.Nat
import Mathlib.Tactic.GCongr
import Mathlib.Tactic.Ring

/-!
How much resolution can meet. Files declare no more than their length allows, and only files of the tree, of the
library and the one that is edited are met; so the declared types and aliases that can be entered one inside the
other are no more than a power of the number of bytes of all of them.
-/

namespace LiteralFill

/-! ## Lengths of texts -/

theorem utf8Encode_size (cs : List Char) : cs.utf8Encode.size = byteLength cs := by
  induction cs with
  | nil => rfl
  | cons c rest ih =>
    rw [List.utf8Encode_cons, ByteArray.size_append, ih]
    simp [byteLength, List.utf8Encode]

theorem length_le_byteLength (cs : List Char) : cs.length ≤ byteLength cs := by
  induction cs with
  | nil => exact Nat.le_refl 0
  | cons c rest ih =>
    have := c.utf8Size_pos
    simp only [List.length_cons, byteLength]
    omega

theorem length_le_utf8ByteSize (text : String) : text.toList.length ≤ text.utf8ByteSize := calc
  text.toList.length ≤ byteLength text.toList := length_le_byteLength _
  _ = text.toByteArray.size := by rw [← utf8Encode_size, ← String.toByteArray_ofList, String.ofList_toList]

theorem length_decodeText {bytes : List UInt8} {text : String} (h : decodeText bytes = some text) :
    text.toList.length ≤ bytes.length := by
  refine Nat.le_trans (length_le_utf8ByteSize text) (Nat.le_of_eq ?_)
  unfold decodeText String.fromUTF8? at h
  split at h
  · cases h
    exact bytes.size_toArray
  · cases h

theorem utf8ByteSize_foldl_append (init : String) (texts : List String) :
    (texts.foldl (· ++ ·) init).utf8ByteSize = init.utf8ByteSize + (texts.map String.utf8ByteSize).sum := by
  induction texts generalizing init with
  | nil => rfl
  | cons text rest ih =>
    rw [List.foldl_cons, ih, String.utf8ByteSize_append, List.map_cons, List.sum_cons, Nat.add_assoc]

theorem utf8ByteSize_joinLines (lines : List String) :
    (joinLines lines).utf8ByteSize = (lines.map fun line => line.utf8ByteSize + 1).sum := by
  have hnewline : "\n".utf8ByteSize = 1 := rfl
  unfold joinLines String.join
  rw [utf8ByteSize_foldl_append, List.map_map]
  simp [Function.comp_def, hnewline]

/-! ## Files -/

theorem length_flatMap_le {α β : Type} {f : α → List β} {l : List α} {n : Nat} (h : ∀ a ∈ l, (f a).length ≤ n) :
    (l.flatMap f).length ≤ l.length * n := by
  have hsum := List.sum_le_card_nsmul (l.map fun a => (f a).length) n fun m hm => by
    obtain ⟨a, ha, rfl⟩ := List.mem_map.mp hm
    exact h a ha
  rwa [List.length_map, ← List.length_flatMap] at hsum

/-- A file that is parsed from a text with fewer than `size` characters. -/
def SourceFile.Fits (size : Nat) (f : SourceFile) : Prop := ∃ text, f = SourceFile.parse text ∧ text.length < size

theorem SourceFile.Fits.bounded {size : Nat} (hsize : 4 ≤ size) {f : SourceFile} (h : f.Fits size) :
    f.Bounded (size ^ 3) := by
  obtain ⟨text, rfl, hlength⟩ := h
  have hle : (2 * text.length + 2) ^ 2 ≤ size ^ 3 := calc
    (2 * text.length + 2) ^ 2 ≤ (2 * size) ^ 2 := Nat.pow_le_pow_left (by omega) 2
    _ = 4 * size ^ 2 := by rw [Nat.mul_pow]
    _ ≤ size * size ^ 2 := Nat.mul_le_mul_right _ hsize
    _ = size ^ 3 := by rw [Nat.pow_succ' (n := 2)]
  have hb := SourceFile.parse_bounded text
  exact ⟨hb.types.trans hle, hb.imports.trans hle, fun d hd => (hb.declared d hd).mono hle,
    fun l hl => (hb.literal l hl).mono hle⟩

namespace FileTree

variable (tree : FileTree)

theorem length_entries_le : tree.entries.length ≤ tree.extent := by
  unfold extent
  refine Nat.le_trans (List.length_map _).ge (List.length_le_sum_of_one_le _ fun n hn => ?_)
  obtain ⟨⟨place, e⟩, -, rfl⟩ := List.mem_map.mp hn
  cases e with
  | file bytes => exact Nat.le_add_left ..
  | directory => exact Nat.le_refl 1

theorem length_lt_of_mem {place : Place} {bytes : List UInt8} (h : (place, Entry.file bytes) ∈ tree.entries) :
    bytes.length < tree.extent := by
  unfold extent
  exact List.le_sum_of_mem (x := bytes.length + 1) (List.mem_map.mpr ⟨_, h, rfl⟩)

theorem sources_fit {f : SourceFile} (hf : f ∈ tree.sources) : f.Fits tree.extent := by
  obtain ⟨⟨place, e⟩, he, hsource⟩ := List.mem_filterMap.mp hf
  cases e with
  | directory => cases hsource
  | file bytes =>
    obtain ⟨text, htext, rfl⟩ := Option.map_eq_some_iff.mp hsource
    exact ⟨text.toList, rfl, Nat.lt_of_le_of_lt (length_decodeText htext) (tree.length_lt_of_mem he)⟩

end FileTree

theorem standardSources_fit {f : SourceFile} (hf : f ∈ standardSources) : f.Fits 4096 := by
  have hsizes : ∀ lines ∈ [timeSource, syncSource, stringsSource, bytesSource, bigSource],
      (lines.map fun line => line.utf8ByteSize + 1).sum < 4096 := by decide +kernel
  obtain ⟨lines, hlines, rfl⟩ := List.mem_map.mp hf
  refine ⟨_, rfl, Nat.lt_of_le_of_lt (length_le_utf8ByteSize _) ?_⟩
  rw [utf8ByteSize_joinLines]
  exact hsizes lines hlines

theorem SourceFile.Fits.mono {m n : Nat} (hmn : m ≤ n) {f : SourceFile} (h : f.Fits m) : f.Fits n :=
  h.imp fun _ ⟨hf, hlength⟩ => ⟨hf, Nat.lt_of_lt_of_le hlength hmn⟩

/-! ## What is met -/

namespace World

variable (v : World)

/-- The number of bytes that the depth of resolution is measured by. -/
def reach : Nat := v.tree.extent + byteLength v.scope.file.text + 4096

/-- A world whose files are parsed and whose packages are read from its tree. -/
structure Sound : Prop where
  file : ∃ text, v.scope.file = SourceFile.parse text
  beside : ∀ p ∈ v.beside, p.FromTree v.tree
  memory : v.memory.FromTree v.tree

namespace Sound

variable {v} (h : v.Sound)
include h

theorem packages {p : Package} (hp : p ∈ v.packages) : p.FromTree v.tree := by
  rcases List.mem_append.mp hp with hp | hp
  · exact h.beside p (Option.mem_toList.mp hp)
  · obtain ⟨path, -, hlookup⟩ := List.mem_filterMap.mp hp
    obtain ⟨l₁, l₂, hl, -⟩ := List.lookup_eq_some_iff.mp (Option.join_eq_some_iff.mp hlookup)
    exact h.memory.byPath (path, some p) (by simp [hl]) p rfl

theorem fits {f : SourceFile} (hf : f ∈ v.sources) : f.Fits v.reach := by
  rcases List.mem_cons.mp hf with rfl | hf
  · obtain ⟨text, htext⟩ := h.file
    refine ⟨text, htext, ?_⟩
    have hlength : text.length ≤ byteLength v.scope.file.text := by
      rw [htext]
      exact length_le_byteLength text
    unfold reach
    omega
  · rcases List.mem_append.mp hf with hf | hf
    · exact (v.tree.sources_fit hf).mono (by unfold reach; omega)
    · exact (standardSources_fit hf).mono (by unfold reach; omega)

theorem bounded {f : SourceFile} (hf : f ∈ v.sources) : f.Bounded (v.reach ^ 3) :=
  (h.fits hf).bounded (by unfold reach; omega)

omit h in
theorem length_sources : v.sources.length ≤ v.reach := by
  have hentries := v.tree.length_entries_le
  have hsources : v.tree.sources.length ≤ v.tree.entries.length := List.length_filterMap_le ..
  have hstandard : standardSources.length = 5 := rfl
  rw [sources, List.length_cons, List.length_append, reach]
  omega

theorem length_importPaths : v.importPaths.length ≤ v.reach ^ 4 := calc
  v.importPaths.length ≤ v.sources.length * v.reach ^ 3 :=
    length_flatMap_le fun f hf => (List.length_map _).le.trans (h.bounded hf).imports
  _ ≤ v.reach * v.reach ^ 3 := Nat.mul_le_mul_right _ length_sources
  _ = v.reach ^ 4 := by rw [Nat.pow_succ' (n := 3)]

theorem length_packages : v.packages.length ≤ v.reach ^ 4 + 1 := by
  have himports := h.length_importPaths
  have hbeside : v.beside.toList.length ≤ 1 := by cases v.beside <;> simp
  have hloaded : (v.importPaths.filterMap fun path => (v.memory.byPath.lookup path).join).length ≤
      v.importPaths.length := List.length_filterMap_le ..
  rw [World.packages, List.length_append]
  omega

theorem length_labels : v.labels.length ≤ v.reach ^ 4 + 2 := by
  have hpackages := h.length_packages
  rw [labels, List.length_cons, List.length_map]
  omega

theorem length_declarations : v.declarations.length ≤ (v.reach ^ 4 + 2) * v.reach ^ 4 := by
  have hbuffer : v.scope.file.types.length ≤ v.reach ^ 4 :=
    (h.bounded List.mem_cons_self).types.trans (Nat.pow_le_pow_right (by unfold reach; omega) (by omega))
  have hpackage : ∀ p ∈ v.packages, (p.files.flatMap fun f => f.source.types.map
      (Origin.member p.path (p.dir.map (·.text)) (f.path.map (·.text)), ·)).length ≤ v.reach ^ 4 := by
    intro p hp
    have hfiles : p.files.length ≤ v.reach :=
      (h.packages hp).files_length.trans (by have := v.tree.length_entries_le; unfold reach; omega)
    calc _ ≤ p.files.length * v.reach ^ 3 := length_flatMap_le fun f hf => (List.length_map _).le.trans
          (h.bounded (List.mem_cons_of_mem _ ((h.packages hp).mem_sources hf))).types
      _ ≤ v.reach * v.reach ^ 3 := Nat.mul_le_mul_right _ hfiles
      _ = v.reach ^ 4 := by rw [Nat.pow_succ' (n := 3)]
  have hmembers := (length_flatMap_le hpackage).trans (Nat.mul_le_mul_right _ h.length_packages)
  rw [declarations, List.length_append, List.length_map]
  calc _ ≤ v.reach ^ 4 + (v.reach ^ 4 + 1) * v.reach ^ 4 := Nat.add_le_add hbuffer hmembers
    _ = (v.reach ^ 4 + 2) * v.reach ^ 4 := by ring

theorem length_places : v.places.length ≤ v.reach ^ 13 := by
  have hfour : 2 ≤ v.reach ^ 4 := calc
    2 ≤ v.reach := by unfold reach; omega
    _ ≤ v.reach ^ 4 := Nat.le_self_pow (by omega) _
  calc v.places.length ≤ v.declarations.length * (v.reach ^ 4 + 2) :=
        length_flatMap_le fun d _ => (List.length_map _).le.trans h.length_labels
    _ ≤ (v.reach ^ 4 + 2) * v.reach ^ 4 * (v.reach ^ 4 + 2) := Nat.mul_le_mul_right _ h.length_declarations
    _ ≤ 2 * v.reach ^ 4 * v.reach ^ 4 * (2 * v.reach ^ 4) := by gcongr <;> omega
    _ = 4 * v.reach ^ 12 := by ring
    _ ≤ v.reach * v.reach ^ 12 := Nat.mul_le_mul_right _ (by unfold reach; omega)
    _ = v.reach ^ 13 := by rw [Nat.pow_succ' (n := 12)]

/-- There is room for a type inside each declaration that can be entered. -/
theorem depth_le : (v.places.length + 1) ^ 2 * v.reach ^ 3 ≤ nestingBound v.tree v.scope.file := by
  have hone : 1 ≤ v.reach ^ 13 := Nat.one_le_pow _ _ (by unfold reach; omega)
  calc (v.places.length + 1) ^ 2 * v.reach ^ 3 ≤ (2 * v.reach ^ 13) ^ 2 * v.reach ^ 3 := by
        gcongr
        have := h.length_places
        omega
    _ = 4 * v.reach ^ 29 := by ring
    _ ≤ v.reach ^ 3 * v.reach ^ 29 := by
        gcongr
        exact (show 4 ≤ v.reach by unfold reach; omega).trans (Nat.le_self_pow (by omega) _)
    _ = v.reach ^ 32 := by ring

end Sound

end World

end LiteralFill
