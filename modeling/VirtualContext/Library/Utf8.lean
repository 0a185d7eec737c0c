import Mathlib.Data.List.Basic

/-!
# UTF-8

Texts as bytes, and bytes as texts with a replacement character for what is no text.
-/

namespace VirtualContext.Library

/-- `text.encode()` -/
def encodeUtf8 (text : List Char) : List UInt8 := text.flatMap String.utf8EncodeChar

/-- A character that is not read to its end: the range of its next byte, the bytes that are
missing after that, and its bits so far. -/
structure PartialChar where
  low : Nat
  high : Nat
  missing : Nat
  bits : Nat

def replacementChar : Char := Char.ofNat 0xfffd

/-- The characters that end with a byte where a character starts, and the one it starts. -/
def startChar (b : UInt8) : List Char × Option PartialChar :=
  let n := b.toNat
  if n < 128 then ([Char.ofNat n], none)
  else if 194 ≤ n ∧ n ≤ 223 then ([], some ⟨128, 191, 0, n - 192⟩)
  else if n = 224 then ([], some ⟨160, 191, 1, 0⟩)
  else if n = 237 then ([], some ⟨128, 159, 1, 13⟩)
  else if 225 ≤ n ∧ n ≤ 239 then ([], some ⟨128, 191, 1, n - 224⟩)
  else if n = 240 then ([], some ⟨144, 191, 2, 0⟩)
  else if 241 ≤ n ∧ n ≤ 243 then ([], some ⟨128, 191, 2, n - 240⟩)
  else if n = 244 then ([], some ⟨128, 143, 2, 4⟩)
  else ([replacementChar], none)

def decodeFrom : Option PartialChar → List UInt8 → List Char
  | none, [] => []
  | some _, [] => [replacementChar]
  | none, b :: rest => (startChar b).1 ++ decodeFrom (startChar b).2 rest
  | some p, b :: rest =>
      if p.low ≤ b.toNat ∧ b.toNat ≤ p.high then
        let bits := p.bits * 64 + (b.toNat - 128)
        if p.missing = 0 then Char.ofNat bits :: decodeFrom none rest
        else decodeFrom (some ⟨128, 191, p.missing - 1, bits⟩) rest
      else
        -- a character that is cut off is replaced, and the byte is read anew
        replacementChar :: (startChar b).1 ++ decodeFrom (startChar b).2 rest

/-- `data.decode("utf-8", errors="replace")` -/
def decodeUtf8 (data : List UInt8) : List Char := decodeFrom none data

def IsAscii (text : List Char) : Prop := ∀ c ∈ text, c.toNat < 128

theorem IsAscii.append {front back : List Char} (hfront : IsAscii front)
    (hback : IsAscii back) : IsAscii (front ++ back) := by
  intro c hc
  rcases List.mem_append.mp hc with hc | hc
  · exact hfront c hc
  · exact hback c hc

theorem encodeUtf8_append (front back : List Char) :
    encodeUtf8 (front ++ back) = encodeUtf8 front ++ encodeUtf8 back :=
  List.flatMap_append

theorem encodeUtf8_ascii {text : List Char} (h : IsAscii text) :
    encodeUtf8 text = text.map fun c => UInt8.ofNat c.toNat := by
  induction text with
  | nil => rfl
  | cons c text ih =>
      have hc : c.toNat < 128 := h c List.mem_cons_self
      have hchar : String.utf8EncodeChar c = [UInt8.ofNat c.toNat] :=
        if_pos (Nat.le_of_lt_succ hc)
      rw [encodeUtf8, List.flatMap_cons, hchar, List.map_cons, List.singleton_append,
        ← ih fun other hother => h other (List.mem_cons_of_mem _ hother)]
      rfl

theorem toNat_ofNat_ascii {c : Char} (h : c.toNat < 128) :
    (UInt8.ofNat c.toNat).toNat = c.toNat := by
  rw [UInt8.toNat_ofNat']
  omega

/-- A text of ASCII characters is what its bytes are decoded to. -/
theorem decodeUtf8_encodeUtf8 {text : List Char} (h : IsAscii text) :
    decodeUtf8 (encodeUtf8 text) = text := by
  rw [encodeUtf8_ascii h, decodeUtf8]
  induction text with
  | nil => rfl
  | cons c text ih =>
      have hc : c.toNat < 128 := h c List.mem_cons_self
      have hstart : startChar (UInt8.ofNat c.toNat) = ([c], none) := by
        simp only [startChar, toNat_ofNat_ascii hc, if_pos hc, Char.ofNat_toNat]
      rw [List.map_cons, decodeFrom, hstart, List.singleton_append,
        ih fun other hother => h other (List.mem_cons_of_mem _ hother)]

/-- A byte below 128 stands for its own character only. -/
theorem mem_encodeUtf8 {text : List Char} (h : IsAscii text) {b : UInt8} :
    b ∈ encodeUtf8 text ↔ ∃ c ∈ text, c.toNat = b.toNat := by
  rw [encodeUtf8_ascii h, List.mem_map]
  refine exists_congr fun c => and_congr_right fun hc => ?_
  rw [← UInt8.toNat_inj, toNat_ofNat_ascii (h c hc)]

end VirtualContext.Library
