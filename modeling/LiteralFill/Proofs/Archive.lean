import LiteralFill.Archive
import LiteralFill.Proofs.Digits

/-!
Archives are read as they were written. Each entry is read whole, by its number of bytes, whatever its contents look
like, and the reading goes on behind it. So what is read of written entries and more behind them are these entries and
whatever is read of the rest, or the error that the rest gives.
-/

namespace LiteralFill

/-! ## Lines -/

/-- Of all characters only the one that ends a line has its byte. -/
theorem eq_of_newline_mem {c : Char} (h : newline ∈ String.utf8EncodeChar c) : c = '\n' := by
  have hbyte : ∀ n : Nat, newline = UInt8.ofNat n → n % 256 = 10 := by
    intro n hn
    have := congrArg UInt8.toNat hn
    rw [UInt8.toNat_ofNat'] at this
    exact this.symm
  have hvalue : c.val.toNat = 10 := by
    rw [String.utf8EncodeChar] at h
    split at h
    · have := hbyte _ (List.mem_singleton.mp h)
      omega
    · exfalso
      -- The bytes of a longer character are all above those of ASCII.
      split at h
      · simp only [List.mem_cons, List.not_mem_nil, or_false] at h
        rcases h with h | h <;> have := hbyte _ h <;> omega
      · split at h
        · simp only [List.mem_cons, List.not_mem_nil, or_false] at h
          rcases h with h | h | h <;> have := hbyte _ h <;> omega
        · simp only [List.mem_cons, List.not_mem_nil, or_false] at h
          rcases h with h | h | h | h <;> have := hbyte _ h <;> omega
  exact Char.toNat_inj.mp hvalue

theorem newline_not_mem_encodeText {text : String} (h : '\n' ∉ text.toList) : newline ∉ encodeText text := by
  rw [encodeText_eq, List.mem_flatMap]
  rintro ⟨c, hc, hbyte⟩
  exact h (eq_of_newline_mem hbyte ▸ hc)

theorem splitLine_append {line : List UInt8} (h : newline ∉ line) (rest : List UInt8) :
    splitLine (line ++ newline :: rest) = (line, rest) := by
  induction line with
  | nil => simp [splitLine]
  | cons b line ih =>
    rw [List.mem_cons, not_or] at h
    rw [List.cons_append, splitLine, if_neg (Ne.symm h.1), ih h.2]

theorem decodeLossy_encodeText (text : String) : decodeLossy (encodeText text) = text := by
  rw [decodeLossy, decodeText_encodeText]

/-! ## Sizes -/

theorem toList_toString (n : Nat) : (toString n).toList = Nat.toDigits 10 n := by
  rw [Nat.toString_eq_ofList_toDigits, String.toList_ofList]

theorem newline_not_mem_size (n : Nat) : newline ∉ encodeText (toString n) := by
  refine newline_not_mem_encodeText ?_
  rw [toList_toString]
  intro h
  exact absurd (isDigit_toDigits _ h) (by decide)

/-- A size is read as it is written. -/
theorem sizeOf?_toString {n : Nat} (h : n < wordBound) : sizeOf? (toString n) = some n := by
  have hblank : ∀ c ∈ Nat.toDigits 10 n, isBlank c = false := fun c hc => isBlank_of_isDigit (isDigit_toDigits c hc)
  rw [sizeOf?, toList_toString, trim_eq_self hblank, boundedNumber_toDigits h]

/-! ## Entries -/

/-- The name of an entry takes one line, and the bytes of its contents can be counted in 64 bits, as those of any text
in memory can. -/
structure ArchiveEntry.IsEncodable (e : ArchiveEntry) : Prop where
  name : '\n' ∉ e.name.toList
  size : e.contents.utf8ByteSize < wordBound

/-- An entry is read up to its last byte. -/
theorem readEntry_encode {e : ArchiveEntry} (h : e.IsEncodable) (rest : List UInt8) :
    readEntry (e.encode ++ rest) = .ok (e, rest) := by
  have hsplit : splitLine (e.encode ++ rest) = (encodeText e.name,
      encodeText (toString (encodeText e.contents).length) ++ newline :: (encodeText e.contents ++ rest)) := by
    rw [ArchiveEntry.encode, List.append_assoc, List.cons_append, List.append_assoc, List.cons_append]
    exact splitLine_append (newline_not_mem_encodeText h.name) _
  have hsize : (encodeText e.contents).length < wordBound := by
    rw [length_encodeText]
    exact h.size
  simp only [readEntry, hsplit, splitLine_append (newline_not_mem_size _), decodeLossy_encodeText, sizeOf?_toString hsize]
  simp [decodeText_encodeText]

theorem ArchiveEntry.encode_ne_nil (e : ArchiveEntry) : e.encode ≠ [] := by simp [encode]

theorem readArchive_of_readEntry {data rest : List UInt8} {e : ArchiveEntry} (hne : data ≠ [])
    (h : readEntry data = .ok (e, rest)) : readArchive data = (readArchive rest).map (e :: ·) := by
  rw [readArchive, dif_neg hne]
  split
  · next herror =>
    rw [h] at herror
    cases herror
  · next entry more hok =>
    rw [h] at hok
    cases hok
    cases readArchive rest <;> rfl

theorem readArchive_of_error {data : List UInt8} {error : ArchiveError} (hne : data ≠ [])
    (h : readEntry data = .error error) : readArchive data = .error error := by
  rw [readArchive, dif_neg hne]
  split
  · next herror =>
    rw [h] at herror
    cases herror
    rfl
  · next hok =>
    rw [h] at hok
    cases hok

/-! ## Archives -/

/-- The bytes of entries, one after the other. -/
def encodeArchive (entries : List ArchiveEntry) : List UInt8 := entries.flatMap (·.encode)

theorem readArchive_encodeArchive_append {entries : List ArchiveEntry} (h : ∀ e ∈ entries, e.IsEncodable)
    (tail : List UInt8) : readArchive (encodeArchive entries ++ tail) = (readArchive tail).map (entries ++ ·) := by
  induction entries with
  | nil =>
    show readArchive tail = _
    cases readArchive tail <;> rfl
  | cons e entries ih =>
    have hentry := readEntry_encode (h e List.mem_cons_self) (encodeArchive entries ++ tail)
    have hbytes : encodeArchive (e :: entries) ++ tail = e.encode ++ (encodeArchive entries ++ tail) :=
      List.append_assoc ..
    rw [hbytes, readArchive_of_readEntry (by simp [e.encode_ne_nil]) hentry,
      ih fun f hf => h f (List.mem_cons_of_mem e hf)]
    cases readArchive tail <;> rfl

/-- What is read of written entries with more bytes behind them: the error that these give, or the entries and then
those of the other bytes. -/
theorem readArchive_encodeArchive {entries : List ArchiveEntry} (h : ∀ e ∈ entries, e.IsEncodable)
    (tail : List UInt8) :
    (∀ error, readArchive tail = .error error → readArchive (encodeArchive entries ++ tail) = .error error) ∧
    (∀ more, readArchive tail = .ok more → readArchive (encodeArchive entries ++ tail) = .ok (entries ++ more)) ∧
    readArchive (encodeArchive entries) = .ok entries := by
  have hread := readArchive_encodeArchive_append h tail
  have hempty : readArchive [] = .ok [] := by rw [readArchive, dif_pos rfl]
  refine ⟨fun error herror => ?_, fun more hmore => ?_, ?_⟩
  · rw [hread, herror]
    rfl
  · rw [hread, hmore]
    rfl
  · have hwhole := readArchive_encodeArchive_append h []
    rw [List.append_nil, hempty] at hwhole
    rw [hwhole]
    simp [Except.map]

/-- Contents that look like an entry, an entry without a name, and the start of one more behind them. -/
theorem readArchive_encodeArchive_truncated :
    (∀ e ∈ [ArchiveEntry.mk "a.go" "b.go\n3\nxyz\n", ⟨"", "é\n9\n"⟩], e.IsEncodable) ∧
    readArchive (encodeArchive [⟨"a.go", "b.go\n3\nxyz\n"⟩, ⟨"", "é\n9\n"⟩] ++ [120, 10, 57, 10]) =
      .error (.truncated "x" 9 0) := by
  have h : ∀ e ∈ [ArchiveEntry.mk "a.go" "b.go\n3\nxyz\n", ⟨"", "é\n9\n"⟩], e.IsEncodable := by
    simp only [List.mem_cons, List.not_mem_nil, or_false, forall_eq_or_imp, forall_eq]
    exact ⟨⟨by decide, by decide⟩, ⟨by decide, by decide⟩⟩
  have htail : readArchive [120, 10, 57, 10] = .error (.truncated "x" 9 0) := readArchive_of_error (by simp) rfl
  exact ⟨h, (readArchive_encodeArchive h [120, 10, 57, 10]).1 _ htail⟩

end LiteralFill
