import VirtualContext.Library.Json
import VirtualContext.Library.Ordered
import Mathlib.Data.String.Basic

/-!
# Dumps of JSON

The text that `json.dumps` makes of a value, and the value with the keys of all
objects in order, as `sort_keys` has them.
-/

namespace VirtualContext.Library

/-! ## Strings -/

def hexDigit (n : Nat) : Char := "0123456789abcdef".toList.getD n '0'

def hexEscape (n : Nat) : List Char :=
  "\\u".toList ++ [n / 4096 % 16, n / 256 % 16, n / 16 % 16, n % 16].map hexDigit

/-- A character, with `ensure_ascii`. -/
def escapeChar (c : Char) : List Char :=
  match "\"\\\n\r\t\x08\x0c".toList.idxOf? c with
  | some i => '\\' :: ["\"\\nrtbf".toList.getD i ' ']
  | none =>
      if 32 ≤ c.toNat ∧ c.toNat ≤ 126 then [c]
      else if c.toNat < 65536 then hexEscape c.toNat
      else
        -- a surrogate pair
        hexEscape (55296 + (c.toNat - 65536) / 1024) ++
          hexEscape (56320 + (c.toNat - 65536) % 1024)

def dumpString (s : String) : List Char :=
  "\"".toList ++ s.toList.flatMap escapeChar ++ "\"".toList

def commaSeparated : List (List Char) → List Char
  | [] => []
  | [text] => text
  | text :: texts => text ++ ", ".toList ++ commaSeparated texts

/-! ## Printable characters -/

/-- A character of ASCII that is neither a control character nor `DEL`. -/
def IsPrintable (c : Char) : Prop := 32 ≤ c.toNat ∧ c.toNat < 127

instance (c : Char) : Decidable (IsPrintable c) := inferInstanceAs (Decidable (_ ∧ _))

theorem getD_mem_cons {α : Type} (xs : List α) (n : Nat) (a : α) : xs.getD n a ∈ a :: xs := by
  rw [List.getD_eq_getElem?_getD]
  cases h : xs[n]? with
  | none => exact List.mem_cons_self
  | some b => exact List.mem_cons_of_mem _ (List.mem_of_getElem? h)

theorem isPrintable_hexEscape (n : Nat) : ∀ c ∈ hexEscape n, IsPrintable c := by
  have hdigits : ∀ c ∈ '0' :: "0123456789abcdef".toList, IsPrintable c := by simp [IsPrintable]
  intro c hc
  rcases List.mem_append.mp hc with hc | hc
  · have hmarks : ∀ c ∈ "\\u".toList, IsPrintable c := by simp [IsPrintable]
    exact hmarks c hc
  · obtain ⟨digit, -, rfl⟩ := List.mem_map.mp hc
    exact hdigits _ (getD_mem_cons _ _ _)

theorem isPrintable_escapeChar (a : Char) : ∀ c ∈ escapeChar a, IsPrintable c := by
  intro c hc
  unfold escapeChar at hc
  split at hc
  · have hmarks : ∀ c ∈ '\\' :: ' ' :: "\"\\nrtbf".toList, IsPrintable c := by simp [IsPrintable]
    rcases List.mem_cons.mp hc with rfl | hc
    · exact hmarks _ List.mem_cons_self
    · rw [List.mem_singleton.mp hc]
      exact hmarks _ (List.mem_cons_of_mem _ (getD_mem_cons _ _ _))
  · split_ifs at hc with hplain
    · rw [List.mem_singleton.mp hc]
      exact ⟨hplain.1, Nat.lt_succ_of_le hplain.2⟩
    · exact isPrintable_hexEscape _ c hc
    · rcases List.mem_append.mp hc with hc | hc <;> exact isPrintable_hexEscape _ c hc

theorem isPrintable_dumpString (s : String) : ∀ c ∈ dumpString s, IsPrintable c := by
  have hquote : ∀ c ∈ "\"".toList, IsPrintable c := by simp [IsPrintable]
  intro c hc
  rcases List.mem_append.mp hc with hc | hc
  · rcases List.mem_append.mp hc with hc | hc
    · exact hquote c hc
    · obtain ⟨a, -, hc⟩ := List.mem_flatMap.mp hc
      exact isPrintable_escapeChar a c hc
  · exact hquote c hc

theorem isPrintable_commaSeparated {texts : List (List Char)}
    (h : ∀ text ∈ texts, ∀ c ∈ text, IsPrintable c) :
    ∀ c ∈ commaSeparated texts, IsPrintable c := by
  induction texts using commaSeparated.induct with
  | case1 => simp [commaSeparated]
  | case2 text => exact h text List.mem_cons_self
  | case3 text texts hne ih =>
      have hcomma : ∀ c ∈ ", ".toList, IsPrintable c := by simp [IsPrintable]
      intro c hc
      rw [commaSeparated] at hc
      · rcases List.mem_append.mp hc with hc | hc
        · rcases List.mem_append.mp hc with hc | hc
          · exact h text List.mem_cons_self c hc
          · exact hcomma c hc
        · exact ih (fun other hother => h other (List.mem_cons_of_mem _ hother)) c hc
      · exact hne

namespace Json

/-! ## Values -/

section

variable (floatRepr : ℚ → List Char)

mutual

/-- `json.dumps(value)`, where the `repr` of a float is a parameter. -/
def dumps : Json → List Char
  | .null => "null".toList
  | .bool value => if value then "true".toList else "false".toList
  | .int value => (toString value).toList
  | .float value => floatRepr value
  | .str s => dumpString s
  | .arr elements => "[".toList ++ commaSeparated (dumpsElements elements) ++ "]".toList
  | .obj entries => "\x7b".toList ++ commaSeparated (dumpsEntries entries) ++ "\x7d".toList

def dumpsElements : List Json → List (List Char)
  | [] => []
  | value :: rest => dumps value :: dumpsElements rest

def dumpsEntries : List (String × Json) → List (List Char)
  | [] => []
  | (key, value) :: rest =>
      (dumpString key ++ ": ".toList ++ dumps value) :: dumpsEntries rest

end

end

/-! ## Dumps without line breaks -/

theorem isPrintable_int (value : Int) : ∀ c ∈ (toString value).toList, IsPrintable c := by
  have hdigits (n : Nat) : ∀ c ∈ n.repr.toList, IsPrintable c := by
    intro c hc
    rw [Nat.toList_repr] at hc
    have hdigit := Nat.isDigit_of_mem_toDigits (by decide) (by decide) hc
    rw [Char.isDigit, Bool.and_eq_true, decide_eq_true_eq, decide_eq_true_eq] at hdigit
    have hlow := UInt32.le_iff_toNat_le.mp hdigit.1
    have hhigh := UInt32.le_iff_toNat_le.mp hdigit.2
    exact ⟨Nat.le_trans (by decide) hlow, Nat.lt_of_le_of_lt hhigh (by decide)⟩
  rw [Int.toString_eq_repr, Int.repr_eq_if]
  split_ifs
  · exact hdigits _
  · intro c hc
    rw [String.toList_append] at hc
    rcases List.mem_append.mp hc with hc | hc
    · have hsign : ∀ c ∈ "-".toList, IsPrintable c := by simp [IsPrintable]
      exact hsign c hc
    · exact hdigits _ c hc

section

variable {floatRepr : ℚ → List Char} (hfloat : ∀ value, ∀ c ∈ floatRepr value, IsPrintable c)

include hfloat

mutual

/-- No dump has a line break. -/
theorem isPrintable_dumps : ∀ value : Json, ∀ c ∈ value.dumps floatRepr, IsPrintable c
  | .null => by rw [dumps]; simp [IsPrintable]
  | .bool value => by rw [dumps]; cases value <;> simp [IsPrintable]
  | .int value => by rw [dumps]; exact isPrintable_int value
  | .float value => by rw [dumps]; exact hfloat value
  | .str s => by rw [dumps]; exact isPrintable_dumpString s
  | .arr elements => by
      have hbrackets : ∀ c ∈ "[".toList ++ "]".toList, IsPrintable c := by simp [IsPrintable]
      intro c hc
      simp only [dumps, List.mem_append] at hc
      rcases hc with (hc | hc) | hc
      · exact hbrackets c (List.mem_append_left _ hc)
      · exact isPrintable_commaSeparated (isPrintable_dumpsElements elements) c hc
      · exact hbrackets c (List.mem_append_right _ hc)
  | .obj entries => by
      have hbraces : ∀ c ∈ "\x7b".toList ++ "\x7d".toList, IsPrintable c := by simp [IsPrintable]
      intro c hc
      simp only [dumps, List.mem_append] at hc
      rcases hc with (hc | hc) | hc
      · exact hbraces c (List.mem_append_left _ hc)
      · exact isPrintable_commaSeparated (isPrintable_dumpsEntries entries) c hc
      · exact hbraces c (List.mem_append_right _ hc)

theorem isPrintable_dumpsElements : ∀ elements : List Json,
    ∀ text ∈ dumpsElements floatRepr elements, ∀ c ∈ text, IsPrintable c
  | [] => by simp [dumpsElements]
  | value :: rest => by
      rw [dumpsElements]
      exact List.forall_mem_cons.mpr
        ⟨isPrintable_dumps value, isPrintable_dumpsElements rest⟩

theorem isPrintable_dumpsEntries : ∀ entries : List (String × Json),
    ∀ text ∈ dumpsEntries floatRepr entries, ∀ c ∈ text, IsPrintable c
  | [] => by simp [dumpsEntries]
  | (key, value) :: rest => by
      have hcolon : ∀ c ∈ ": ".toList, IsPrintable c := by simp [IsPrintable]
      rw [dumpsEntries]
      refine List.forall_mem_cons.mpr ⟨fun c hc => ?_, isPrintable_dumpsEntries rest⟩
      rcases List.mem_append.mp hc with hc | hc
      · rcases List.mem_append.mp hc with hc | hc
        · exact isPrintable_dumpString key c hc
        · exact hcolon c hc
      · exact isPrintable_dumps value c hc

end

end

/-! ## Keys in order -/

mutual

def sortKeys : Json → Json
  | .arr elements => .arr (sortElements elements)
  | .obj entries => .obj (orderBy (·.1) (sortEntries entries))
  | .null => .null
  | .bool value => .bool value
  | .int value => .int value
  | .float value => .float value
  | .str s => .str s

def sortElements : List Json → List Json
  | [] => []
  | value :: rest => sortKeys value :: sortElements rest

def sortEntries : List (String × Json) → List (String × Json)
  | [] => []
  | (key, value) :: rest => (key, sortKeys value) :: sortEntries rest

end

end Json

end VirtualContext.Library
