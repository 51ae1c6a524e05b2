import Mathlib.Algebra.Group.Nat.Defs
import Hyperlisting.OsText
import Hyperlisting.Proofs.Lists

/-! Bytes and the text that is shown of them. The UTF-8 form of a text is shown as the text, so what
is shown tells a text from any other, and bytes that are no text from all texts. -/

namespace Hyperlisting
namespace OsText

variable {bytes rest : OsText} {beginning : Beginning} {n : Nat}

theorem textAfter_ascii (small : n < 0x80) :
    textAfter none (UInt8.ofNat n :: rest) = Char.ofNat n :: textAfter none rest := by
  have byteSized : n < 256 := by omega
  rw [textAfter, UInt8.toNat_ofNat_of_lt' byteSized, start, if_pos small]
  rfl

theorem textAfter_begin (begins : begin? n = some beginning) :
    textAfter none (UInt8.ofNat n :: rest) = textAfter (some beginning) rest := by
  have bounds : 0xC2 ≤ n ∧ n ≤ 0xF4 := by
    rw [begin?] at begins
    split at begins
    · cases begins
    · omega
  have byteSized : n < 256 := by omega
  rw [textAfter, UInt8.toNat_ofNat_of_lt' byteSized, start, if_neg (by omega), begins]
  rfl

section Within

variable (within : beginning.least ≤ n ∧ n ≤ beginning.greatest) (small : n < 256)

include within small

theorem textAfter_last (last : beginning.later = 0) :
    textAfter (some beginning) (UInt8.ofNat n :: rest) =
      Char.ofNat (beginning.value * 64 + (n - 0x80)) :: textAfter none rest := by
  rw [textAfter, UInt8.toNat_ofNat_of_lt' small, extend, if_pos within, last]
  rfl

theorem textAfter_more {later : Nat} (more : beginning.later = later + 1) :
    textAfter (some beginning) (UInt8.ofNat n :: rest) =
      textAfter (some ⟨beginning.value * 64 + (n - 0x80), later, 0x80, 0xBF⟩) rest := by
  rw [textAfter, UInt8.toNat_ofNat_of_lt' small, extend, if_pos within, more]
  rfl

end Within

theorem begin?_two (least : 0xC2 ≤ n) (greatest : n < 0xE0) :
    begin? n = some ⟨n - 0xC0, 0, 0x80, 0xBF⟩ := by
  rw [begin?, if_neg (by omega), if_pos greatest]

theorem begin?_three (least : 0xE0 ≤ n) (greatest : n < 0xF0) :
    begin? n = some ⟨n - 0xE0, 1, if n = 0xE0 then 0xA0 else 0x80,
      if n = 0xED then 0x9F else 0xBF⟩ := by
  rw [begin?, if_neg (by omega), if_neg (by omega), if_pos greatest]

theorem begin?_four (least : 0xF0 ≤ n) (greatest : n ≤ 0xF4) :
    begin? n = some ⟨n - 0xF0, 2, if n = 0xF0 then 0x90 else 0x80,
      if n = 0xF4 then 0x8F else 0xBF⟩ := by
  rw [begin?, if_neg (by omega), if_neg (by omega), if_neg (by omega)]

/-- By the number of bytes that a character has. -/
theorem text_utf8EncodeChar_append (c : Char) (rest : OsText) :
    text (String.utf8EncodeChar c ++ rest) = c :: text rest := by
  have valid : c.val.toNat < 0xD800 ∨ 0xDFFF < c.val.toNat ∧ c.val.toNat < 0x110000 := c.valid
  have shown {n : Nat} (same : n = c.val.toNat) : Char.ofNat n :: text rest = c :: text rest := by
    rw [same]
    exact congrArg (· :: text rest) (Char.ofNat_toNat c)
  rw [text, String.utf8EncodeChar]
  generalize c.val.toNat = n at valid shown ⊢
  split
  · exact (textAfter_ascii (by omega)).trans (shown rfl)
  split
  · refine (textAfter_begin (begin?_two (by omega) (by omega))).trans ?_
    refine (textAfter_last (by dsimp only; omega) (by omega) rfl).trans (shown ?_)
    dsimp only
    omega
  split
  · refine (textAfter_begin (begin?_three (by omega) (by omega))).trans ?_
    refine (textAfter_more (by dsimp only; split <;> split <;> omega) (by omega) rfl).trans ?_
    refine (textAfter_last (by dsimp only; omega) (by omega) rfl).trans (shown ?_)
    dsimp only
    omega
  · refine (textAfter_begin (begin?_four (by omega) (by omega))).trans ?_
    refine (textAfter_more (by dsimp only; split <;> split <;> omega) (by omega) rfl).trans ?_
    refine (textAfter_more (by dsimp only; omega) (by omega) rfl).trans ?_
    refine (textAfter_last (by dsimp only; omega) (by omega) rfl).trans (shown ?_)
    dsimp only
    omega

@[simp] theorem text_utf8 (s : Text) : text (Text.utf8 s) = s := by
  induction s with
  | nil => rfl
  | cons c s ih =>
    exact (text_utf8EncodeChar_append c (Text.utf8 s)).trans (congrArg (c :: ·) ih)

end OsText

namespace Text

variable {s t : Text}

theorem utf8_append (s t : Text) : utf8 (s ++ t) = s.utf8 ++ t.utf8 := List.flatMap_append

theorem utf8_injective : Function.Injective utf8 :=
  Function.LeftInverse.injective (g := OsText.text) OsText.text_utf8

/-- The bytes of a character past ASCII all have the highest bit. -/
theorem high_of_mem_utf8EncodeChar {c : Char} {byte : UInt8} (wide : 127 < c.toNat)
    (mem : byte ∈ String.utf8EncodeChar c) : 128 ≤ byte.toNat := by
  have wide : ¬ c.val.toNat ≤ 127 := Nat.not_le.mpr wide
  simp only [String.utf8EncodeChar, wide, if_false] at mem
  split at mem
  · simp only [List.mem_cons, List.not_mem_nil, or_false] at mem
    rcases mem with rfl | rfl <;> simp only [UInt8.toNat_ofNat'] <;> omega
  · split at mem
    all_goals
      simp only [List.mem_cons, List.not_mem_nil, or_false] at mem
      rcases mem with rfl | rfl | rfl | mem
      all_goals try subst mem
      all_goals simp only [UInt8.toNat_ofNat'] ; omega

/-- A byte without the highest bit is an ASCII character. -/
theorem mem_of_mem_utf8 {byte : UInt8} (small : byte.toNat < 0x80) (mem : byte ∈ s.utf8) :
    ∃ c ∈ s, c.toNat ≤ 127 ∧ byte = UInt8.ofNat c.toNat := by
  obtain ⟨c, within, mem⟩ := List.mem_flatMap.mp mem
  by_cases ascii : c.toNat ≤ 127
  · have oneByte : String.utf8EncodeChar c = [UInt8.ofNat c.toNat] := if_pos ascii
    exact ⟨c, within, ascii, List.mem_singleton.mp (oneByte ▸ mem)⟩
  · have high := high_of_mem_utf8EncodeChar (Nat.not_le.mp ascii) mem
    omega

/-- ASCII characters are one byte each. -/
theorem utf8_of_ascii (ascii : ∀ c ∈ s, c.toNat ≤ 127) :
    s.utf8 = s.map fun c => UInt8.ofNat c.toNat := by
  induction s with
  | nil => rfl
  | cons c s ih =>
    obtain ⟨first, later⟩ := List.forall_mem_cons.mp ascii
    have oneByte : String.utf8EncodeChar c = [UInt8.ofNat c.toNat] := if_pos first
    rw [utf8, List.flatMap_cons, oneByte, List.map_cons, ← ih later]
    rfl

end Text

namespace OsText

variable {bytes rest : OsText} {beginning : Beginning} {n : Nat}

/-- A byte that shows nothing begins something. -/
theorem isSome_start (hidden : (start n).1 = []) : (start n).2.isSome = true := by
  unfold start at hidden ⊢
  split at hidden
  · cases hidden
  · rename_i large
    rw [if_neg large]
    cases begins : begin? n with
    | some beginning => rfl
    | none => simp [begins] at hidden

theorem isSome_extend (hidden : (extend beginning n).1 = []) :
    (extend beginning n).2.isSome = true := by
  unfold extend at hidden ⊢
  split at hidden
  · rename_i within
    rw [if_pos within]
    cases later : beginning.later with
    | zero => simp [later] at hidden
    | succ => rfl
  · cases hidden

/-- Something is shown of a beginning, and of any bytes. -/
theorem textAfter_eq_nil_iff {begun : Option Beginning} :
    textAfter begun bytes = [] ↔ begun = none ∧ bytes = [] := by
  refine ⟨fun empty => ?_, by rintro ⟨rfl, rfl⟩; rfl⟩
  induction bytes generalizing begun with
  | nil =>
    cases begun with
    | none => exact ⟨rfl, rfl⟩
    | some beginning => cases empty
  | cons byte bytes ih =>
    cases begun with
    | none =>
      obtain ⟨hidden, later⟩ := List.append_eq_nil_iff.mp empty
      simpa [(ih later).1] using isSome_start hidden
    | some beginning =>
      obtain ⟨hidden, later⟩ := List.append_eq_nil_iff.mp empty
      simpa [(ih later).1] using isSome_extend hidden

theorem text_ne_nil (nonempty : bytes ≠ []) : text bytes ≠ [] :=
  fun empty => nonempty (textAfter_eq_nil_iff.mp empty).2

theorem toNat_charOfNat (valid : n.isValidChar) : (Char.ofNat n).toNat = n := by
  rw [Char.ofNat, dif_pos valid]
  rfl

namespace Beginning

variable (beginning : Beginning)

/-- The least number that can come of a beginning. -/
def first : Nat := (beginning.value * 64 + (beginning.least - 0x80)) * 64 ^ beginning.later

/-- The next number after those that can come of a beginning. -/
def past : Nat := (beginning.value * 64 + (beginning.greatest - 0x80) + 1) * 64 ^ beginning.later

/-- All that can come of a beginning are characters past ASCII. -/
structure Wide : Prop where
  least : 0x80 ≤ beginning.least
  greatest : beginning.greatest ≤ 0xBF
  large : 0x80 ≤ beginning.first
  valid : beginning.past ≤ 0xD800 ∨ 0xE000 ≤ beginning.first ∧ beginning.past ≤ 0x110000

end Beginning

theorem wide_begin? (begins : begin? n = some beginning) : beginning.Wide := by
  unfold begin? at begins
  split at begins
  · cases begins
  split at begins
  · obtain rfl := Option.some.inj begins
    refine ⟨?_, ?_, ?_, ?_⟩ <;> simp only [Beginning.first, Beginning.past] <;> omega
  split at begins
  all_goals
    obtain rfl := Option.some.inj begins
    refine ⟨?_, ?_, ?_, ?_⟩ <;> simp only [Beginning.first, Beginning.past] <;> split <;>
      (try split) <;> omega

section Within

variable (wide : beginning.Wide) (within : beginning.least ≤ n ∧ n ≤ beginning.greatest)

include wide within

theorem Beginning.Wide.next {later : Nat} (more : beginning.later = later + 1) :
    Beginning.Wide ⟨beginning.value * 64 + (n - 0x80), later, 0x80, 0xBF⟩ := by
  have next_first : Beginning.first ⟨beginning.value * 64 + (n - 0x80), later, 0x80, 0xBF⟩ =
      (beginning.value * 64 + (n - 0x80)) * 64 ^ beginning.later := by
    simp only [Beginning.first]
    rw [more, Nat.pow_succ', ← Nat.mul_assoc, Nat.sub_self, Nat.add_zero]
  have next_past : Beginning.past ⟨beginning.value * 64 + (n - 0x80), later, 0x80, 0xBF⟩ =
      (beginning.value * 64 + (n - 0x80) + 1) * 64 ^ beginning.later := by
    simp only [Beginning.past]
    rw [more, Nat.pow_succ', ← Nat.mul_assoc, Nat.succ_mul _ 64]
  have above : beginning.first ≤ (beginning.value * 64 + (n - 0x80)) * 64 ^ beginning.later :=
    Nat.mul_le_mul_right _ (by omega)
  have below : (beginning.value * 64 + (n - 0x80) + 1) * 64 ^ beginning.later ≤ beginning.past :=
    Nat.mul_le_mul_right _ (by omega)
  refine ⟨Nat.le_refl _, Nat.le_refl _, ?_, ?_⟩
  · rw [next_first]
    exact Nat.le_trans wide.large above
  · rw [next_first, next_past]
    exact wide.valid.imp (Nat.le_trans below)
      (And.imp (fun least => Nat.le_trans least above) (Nat.le_trans below))

theorem Beginning.Wide.last (last : beginning.later = 0) :
    127 < (Char.ofNat (beginning.value * 64 + (n - 0x80))).toNat := by
  obtain ⟨_, _, large, valid⟩ := wide
  rw [Beginning.past, Beginning.first, last, Nat.pow_zero, Nat.mul_one, Nat.mul_one] at valid
  rw [Beginning.first, last, Nat.pow_zero, Nat.mul_one] at large
  rw [toNat_charOfNat (by unfold Nat.isValidChar; omega)]
  omega

end Within

/-- A byte stands for an ASCII character, begins one past ASCII, or is shown replaced. -/
theorem start_cases (n : Nat) :
    (n < 0x80 ∧ start n = ([Char.ofNat n], none)) ∨
      (∃ beginning : Beginning, beginning.Wide ∧ start n = ([], some beginning)) ∨
      start n = ([replacement], none) := by
  unfold start
  split
  · exact .inl ⟨‹_›, rfl⟩
  · cases begins : begin? n with
    | some beginning => exact .inr (.inl ⟨_, wide_begin? begins, rfl⟩)
    | none => exact .inr (.inr rfl)

/-- After a beginning a byte goes on with it, completes a character past ASCII, or breaks it off. -/
theorem extend_cases (wide : beginning.Wide) (n : Nat) :
    (∃ next : Beginning, next.Wide ∧ extend beginning n = ([], some next)) ∨
      (∃ c : Char, 127 < c.toNat ∧ extend beginning n = ([c], none)) ∨
      extend beginning n = (replacement :: (start n).1, (start n).2) := by
  unfold extend
  split
  · rename_i within
    cases later : beginning.later with
    | succ later => exact .inl ⟨_, wide.next within later, rfl⟩
    | zero => exact .inr (.inl ⟨_, wide.last within later, rfl⟩)
  · exact .inr (.inr rfl)

theorem wide_start (n : Nat) : ∀ begun ∈ (start n).2, begun.Wide := by
  rcases start_cases n with ⟨_, alone⟩ | ⟨beginning, wide, begins⟩ | broken
  · simp [alone]
  · simpa [begins] using wide
  · simp [broken]

theorem wide_extend (wide : beginning.Wide) (n : Nat) :
    ∀ begun ∈ (extend beginning n).2, begun.Wide := by
  rcases extend_cases wide n with ⟨next, wide, goesOn⟩ | ⟨c, _, ends⟩ | breaks
  · simpa [goesOn] using wide
  · simp [ends]
  · rw [breaks]
    exact wide_start n

/-- Something past ASCII is shown of a beginning. -/
theorem exists_wide (wide : beginning.Wide) (bytes : OsText) :
    ∃ c ∈ textAfter (some beginning) bytes, 127 < c.toNat := by
  induction bytes generalizing beginning with
  | nil => exact ⟨replacement, List.mem_singleton_self _, by decide⟩
  | cons byte bytes ih =>
    rw [textAfter]
    rcases extend_cases wide byte.toNat with ⟨next, wide, goesOn⟩ | ⟨c, large, ends⟩ | breaks
    · rw [goesOn]
      exact ih wide
    · rw [ends]
      exact ⟨c, by simp, large⟩
    · rw [breaks]
      exact ⟨replacement, by simp, by decide⟩

theorem ofNat_toNat_charOfNat {byte : UInt8} (small : byte.toNat < 0x80) :
    UInt8.ofNat (Char.ofNat byte.toNat).toNat = byte := by
  rw [toNat_charOfNat (by unfold Nat.isValidChar; omega), UInt8.ofNat_toNat]

/-- Bytes of which only ASCII characters are shown are a text. -/
theorem isText_of_ascii (ascii : ∀ c ∈ text bytes, c.toNat ≤ 127) : IsText bytes := by
  rw [IsText, Text.utf8_of_ascii ascii]
  rw [text] at ascii ⊢
  induction bytes with
  | nil => rfl
  | cons byte bytes ih =>
    rw [textAfter] at ascii ⊢
    rcases start_cases byte.toNat with ⟨small, alone⟩ | ⟨beginning, wide, begins⟩ | broken
    · rw [alone] at ascii ⊢
      have later := ih (List.forall_mem_append.mp ascii).2
      rw [List.singleton_append, List.map_cons, ofNat_toNat_charOfNat small, later]
    · rw [begins] at ascii
      obtain ⟨c, mem, large⟩ := exists_wide wide bytes
      exact absurd (ascii c mem) (Nat.not_le.mpr large)
    · rw [broken] at ascii
      exact absurd (ascii replacement (by simp)) (by decide)

/-- An ASCII character that is shown is one of the bytes. -/
theorem mem_of_mem_textAfter {c : Char} {begun : Option Beginning}
    (wide : ∀ beginning ∈ begun, beginning.Wide) (ascii : c.toNat ≤ 127)
    (mem : c ∈ textAfter begun bytes) : UInt8.ofNat c.toNat ∈ bytes := by
  have started {byte : UInt8} {bytes : OsText}
      (ih : ∀ {begun}, (∀ beginning ∈ begun, beginning.Wide) → c ∈ textAfter begun bytes →
        UInt8.ofNat c.toNat ∈ bytes)
      (mem : c ∈ (start byte.toNat).1 ++ textAfter (start byte.toNat).2 bytes) :
      UInt8.ofNat c.toNat ∈ byte :: bytes := by
    rcases start_cases byte.toNat with ⟨small, alone⟩ | ⟨beginning, wide, begins⟩ | broken
    · rw [alone] at mem
      rcases List.mem_cons.mp mem with rfl | mem
      · rw [ofNat_toNat_charOfNat small]
        exact List.mem_cons_self
      · exact List.mem_cons_of_mem _ (ih (by simp) mem)
    · rw [begins] at mem
      exact List.mem_cons_of_mem _ (ih (by simpa using wide) mem)
    · rw [broken] at mem
      rcases List.mem_cons.mp mem with rfl | mem
      · exact absurd ascii (by decide)
      · exact List.mem_cons_of_mem _ (ih (by simp) mem)
  induction bytes generalizing begun with
  | nil =>
    cases begun with
    | none => cases mem
    | some beginning =>
      obtain rfl := List.mem_singleton.mp mem
      exact absurd ascii (by decide)
  | cons byte bytes ih =>
    cases begun with
    | none => exact started ih mem
    | some beginning =>
      rw [textAfter] at mem
      rcases extend_cases (wide _ rfl) byte.toNat with
        ⟨next, wide, goesOn⟩ | ⟨d, large, ends⟩ | breaks
      · rw [goesOn] at mem
        exact List.mem_cons_of_mem _ (ih (by simpa using wide) mem)
      · rw [ends] at mem
        rcases List.mem_cons.mp mem with rfl | mem
        · exact absurd ascii (Nat.not_le.mpr large)
        · exact List.mem_cons_of_mem _ (ih (by simp) mem)
      · rw [breaks, List.cons_append] at mem
        rcases List.mem_cons.mp mem with rfl | mem
        · exact absurd ascii (by decide)
        · exact started ih mem

/-- What comes before an ASCII character is shown apart from it and from what follows. -/
theorem textAfter_append_cons {byte : UInt8} {begun : Option Beginning} (small : byte.toNat < 0x80)
    (wide : ∀ beginning ∈ begun, beginning.Wide) :
    textAfter begun (bytes ++ byte :: rest) =
      textAfter begun bytes ++ Char.ofNat byte.toNat :: text rest := by
  have alone : start byte.toNat = ([Char.ofNat byte.toNat], none) := if_pos small
  induction bytes generalizing begun with
  | nil =>
    cases begun with
    | none =>
      change (start byte.toNat).1 ++ textAfter (start byte.toNat).2 rest = _
      rw [alone]
      rfl
    | some beginning =>
      have outside : ¬ (beginning.least ≤ byte.toNat ∧ byte.toNat ≤ beginning.greatest) := by
        have := (wide _ rfl).least
        omega
      change (extend beginning byte.toNat).1 ++ textAfter (extend beginning byte.toNat).2 rest = _
      rw [extend, if_neg outside, alone]
      rfl
  | cons first bytes ih =>
    cases begun with
    | none => rw [List.cons_append, textAfter, ih (wide_start _), textAfter, List.append_assoc]
    | some beginning =>
      rw [List.cons_append, textAfter, ih (wide_extend (wide _ rfl) _), textAfter,
        List.append_assoc]

theorem mem_of_mem_text {c : Char} (ascii : c.toNat ≤ 127) (mem : c ∈ text bytes) :
    UInt8.ofNat c.toNat ∈ bytes :=
  mem_of_mem_textAfter (by simp) ascii mem

/-- The text that is shown of some bytes, as bytes. -/
def shown (bytes : OsText) : OsText := (text bytes).utf8

/-- Bytes of which only ASCII is shown are as they are shown. -/
theorem isText_of_shown (ascii : ∀ byte ∈ shown bytes, byte.toNat < 0x80) : IsText bytes := by
  refine isText_of_ascii fun c mem => Nat.not_lt.mp fun wide => ?_
  obtain ⟨byte, rest, utf8⟩ := List.exists_cons_of_ne_nil (String.utf8EncodeChar_ne_nil (c := c))
  have first : byte ∈ String.utf8EncodeChar c := utf8 ▸ List.mem_cons_self
  have high := Text.high_of_mem_utf8EncodeChar wide first
  have small := ascii byte (List.mem_flatMap.mpr ⟨c, mem, first⟩)
  omega

theorem mem_of_mem_shown {byte : UInt8} (small : byte.toNat < 0x80) (mem : byte ∈ shown bytes) :
    byte ∈ bytes := by
  obtain ⟨c, within, ascii, rfl⟩ := Text.mem_of_mem_utf8 small mem
  exact mem_of_mem_text ascii within

theorem shown_append_cons {byte : UInt8} (small : byte.toNat < 0x80) :
    shown (bytes ++ byte :: rest) = shown bytes ++ byte :: shown rest := by
  have oneByte : Text.utf8 [Char.ofNat byte.toNat] = [byte] := by
    rw [Text.utf8_of_ascii, List.map_singleton, ofNat_toNat_charOfNat small]
    rw [List.forall_mem_singleton, toNat_charOfNat (by unfold Nat.isValidChar; omega)]
    omega
  rw [shown, text, textAfter_append_cons small (by simp), Text.utf8_append,
    ← List.singleton_append, Text.utf8_append, oneByte]
  rfl

theorem shown_intercalate {byte : UInt8} (small : byte.toNat < 0x80) (pieces : List OsText) :
    shown ([byte].intercalate pieces) = [byte].intercalate (pieces.map shown) := by
  induction pieces with
  | nil => rfl
  | cons piece pieces ih =>
    cases pieces with
    | nil => simp
    | cons next pieces =>
      rw [List.intercalate_cons_cons, List.map_cons, List.map_cons, List.intercalate_cons_cons,
        ← List.map_cons, ← ih, List.append_assoc, List.append_assoc, List.singleton_append,
        List.singleton_append, shown_append_cons small]

end OsText
end Hyperlisting
