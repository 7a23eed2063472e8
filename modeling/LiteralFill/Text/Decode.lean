/-!
Reading bytes as UTF-8. `decodeText` accepts well-formed input only; `decodeLossy` puts the
replacement character in place of each longest run of bytes that begins a character but does not
finish it.
-/

namespace LiteralFill

/-- The text of a sequence of bytes, if it is well-formed UTF-8. -/
def decodeText (bytes : List UInt8) : Option String := String.fromUTF8? ⟨bytes.toArray⟩

/-- The bytes of a text. -/
def encodeText (text : String) : List UInt8 := text.toUTF8.toList

theorem toList_loop (bytes : ByteArray) (i : Nat) (r : List UInt8) :
    ByteArray.toList.loop bytes i r = r.reverse ++ bytes.data.toList.drop i := by
  have hsize : bytes.size = bytes.data.toList.length := rfl
  induction hleft : bytes.size - i generalizing i r with
  | zero => rw [ByteArray.toList.loop, if_neg (by omega), List.drop_eq_nil_of_le (by omega), List.append_nil]
  | succ n ih =>
    have hlt : i < bytes.data.toList.length := by omega
    have hbyte : bytes.get! i = bytes.data.toList[i] := by
      rw [ByteArray.get!, getElem!_pos bytes.data i hlt]
      rfl
    rw [ByteArray.toList.loop, if_pos (by omega), ih (i + 1) _ (by omega), List.reverse_cons, List.append_assoc,
      List.drop_eq_getElem_cons hlt, hbyte]
    rfl

/-- The bytes of a text are read as the text. -/
theorem decodeText_encodeText (text : String) : decodeText (encodeText text) = some text := by
  have hbytes : (⟨text.toUTF8.toList.toArray⟩ : ByteArray) = text.toUTF8 := by
    rw [ByteArray.toList, toList_loop]
    rfl
  unfold decodeText encodeText String.fromUTF8?
  rw [hbytes]
  exact dif_pos text.isValidUTF8

/-- The bytes of a text are those of its characters. -/
theorem encodeText_eq (text : String) : encodeText text = text.toList.flatMap String.utf8EncodeChar := by
  have hbytes : text.toUTF8 = (text.toList.flatMap String.utf8EncodeChar).toByteArray := String.utf8Encode_toList.symm
  rw [encodeText, hbytes, ByteArray.toList, toList_loop]
  simp

theorem length_encodeText (text : String) : (encodeText text).length = text.utf8ByteSize := by
  rw [encodeText, ByteArray.toList, toList_loop]
  simp [ByteArray.size_data]

/-- The number of bytes that follow a first byte, and the range of the first of them. -/
def followers (b : UInt8) : Option (Nat × UInt8 × UInt8) :=
  if b < 0x80 then some (0, 0, 0)
  else if 0xC2 ≤ b && b ≤ 0xDF then some (1, 0x80, 0xBF)
  else if b == 0xE0 then some (2, 0xA0, 0xBF)
  else if b == 0xED then some (2, 0x80, 0x9F)
  else if 0xE1 ≤ b && b ≤ 0xEF then some (2, 0x80, 0xBF)
  else if b == 0xF0 then some (3, 0x90, 0xBF)
  else if 0xF1 ≤ b && b ≤ 0xF3 then some (3, 0x80, 0xBF)
  else if b == 0xF4 then some (3, 0x80, 0x8F)
  else none

/-- How many of the next bytes continue a character that still wants `wanted` bytes. -/
def continued : Nat → UInt8 → UInt8 → List UInt8 → Nat
  | wanted + 1, low, high, b :: bs =>
    if low ≤ b && b ≤ high then continued wanted 0x80 0xBF bs + 1 else 0
  | _, _, _, _ => 0

/-- The number of bytes of the first character or ill-formed run of `b :: bs`, and whether they are
a character. -/
def firstRun (b : UInt8) (bs : List UInt8) : Nat × Bool :=
  match followers b with
  | none => (1, false)
  | some (wanted, low, high) =>
    let got := continued wanted low high bs
    (got + 1, got == wanted)

/-- Reads bytes one run at a time; `skip` bytes belong to the run before. -/
def decodeRuns : Nat → List UInt8 → List Char
  | _, [] => []
  | skip + 1, _ :: bs => decodeRuns skip bs
  | 0, b :: bs =>
    let (length, whole) := firstRun b bs
    let char :=
      if whole then ((decodeText (b :: bs.take (length - 1))).map String.toList).getD []
      else ['\uFFFD']
    char ++ decodeRuns (length - 1) bs

/-- The text of a sequence of bytes, with U+FFFD for what is not well-formed. -/
def decodeLossy (bytes : List UInt8) : String :=
  match decodeText bytes with
  | some text => text
  | none => String.ofList (decodeRuns 0 bytes)

end LiteralFill
