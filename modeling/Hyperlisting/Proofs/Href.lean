import Mathlib.Data.List.Basic
import Hyperlisting.Href
import Hyperlisting.Proofs.OsText
import Hyperlisting.Proofs.Path.Way
import Hyperlisting.Proofs.Uri

/-! Links as references. A link writes the steps of its way as the segments of a path, escaped so
that none has a slash or ends the path, and then its place as the fragment. A colon is not escaped:
the first step of a way can be taken for a scheme. -/

namespace Hyperlisting

variable {c : Char} {s front rest marks scheme : Text} {page target : Path}
  {fragment : Option Text}

namespace Href

/-- A character that stands for itself in a link. -/
def isVerbatim (c : Char) : Bool := c.toNat ≤ 127 && isPlain (UInt8.ofNat c.toNat)

/-- Characters that are not escaped though no part of a reference has them. -/
def strays : Text := "[]^|".toList

theorem encode_append (s t : Text) : encode (s ++ t) = encode s ++ encode t := by
  rw [encode, Text.utf8_append, List.flatMap_append]
  rfl

theorem encode_cons (c : Char) (s : Text) : encode (c :: s) = encode [c] ++ encode s :=
  encode_append [c] s

theorem encode_verbatim (verbatim : isVerbatim c = true) : encode [c] = [c] := by
  simp only [isVerbatim, Bool.and_eq_true, decide_eq_true_eq] at verbatim
  obtain ⟨ascii, plain⟩ := verbatim
  have oneByte : String.utf8EncodeChar c = [UInt8.ofNat c.toNat] := if_pos ascii
  have back : (UInt8.ofNat c.toNat).toNat = c.toNat := Nat.mod_eq_of_lt (by omega)
  simp [encode, Text.utf8, oneByte, encodeByte, plain, back]

theorem not_isPlain_of_mem_utf8EncodeChar {byte : UInt8} (wide : 127 < c.toNat)
    (mem : byte ∈ String.utf8EncodeChar c) : isPlain byte = false := by
  have high := Text.high_of_mem_utf8EncodeChar wide mem
  have notAscii : ¬ byte < 0x7F := by
    rw [UInt8.lt_iff_toNat_lt]
    exact Nat.not_lt.mpr (Nat.le_trans (by decide) high)
  simp [isPlain, notAscii]

theorem encode_escaped (escaped : isVerbatim c = false) :
    encode [c] = (String.utf8EncodeChar c).flatMap percentByte := by
  have special : ∀ byte ∈ String.utf8EncodeChar c, isPlain byte = false := by
    intro byte mem
    by_cases ascii : c.toNat ≤ 127
    · have oneByte : String.utf8EncodeChar c = [UInt8.ofNat c.toNat] := if_pos ascii
      obtain rfl := List.mem_singleton.mp (oneByte ▸ mem)
      simpa [isVerbatim, ascii] using escaped
    · exact not_isPlain_of_mem_utf8EncodeChar (Nat.not_le.mp ascii) mem
  rw [encode, Text.utf8, List.flatMap_singleton]
  apply List.flatMap_congr
  intro byte mem
  rw [encodeByte, special byte mem]
  rfl

/-- What is escaped starts with a percent sign. -/
theorem exists_encode_escaped (escaped : isVerbatim c = false) :
    ∃ rest, encode [c] = '%' :: rest := by
  obtain ⟨byte, bytes, utf8⟩ := List.exists_cons_of_ne_nil (String.utf8EncodeChar_ne_nil (c := c))
  rw [encode_escaped escaped, utf8, List.flatMap_cons]
  exact ⟨_, rfl⟩

theorem percentByte_eq (byte : UInt8) : ∃ high low, percentByte byte = ['%', high, low] ∧
    Uri.isHexDigit high = true ∧ Uri.isHexDigit low = true := by
  have digits : ∀ n < 16, Uri.isHexDigit
      (if n < 10 then Char.ofNat (48 + n) else Char.ofNat (55 + n)) = true := by
    decide
  exact ⟨_, _, rfl, digits _ (by have := byte.toNat_lt; omega), digits _ (Nat.mod_lt _ (by decide))⟩

theorem cases_of_mem_encode (mem : c ∈ encode s) :
    c = '%' ∨ Uri.isHexDigit c = true ∨ isVerbatim c = true ∧ c ∈ s := by
  induction s with
  | nil => cases mem
  | cons first s ih =>
    rw [encode_cons] at mem
    rcases List.mem_append.mp mem with here | later
    · cases verbatim : isVerbatim first with
      | true =>
        rw [encode_verbatim verbatim] at here
        obtain rfl := List.mem_singleton.mp here
        exact .inr (.inr ⟨verbatim, List.mem_cons_self⟩)
      | false =>
        rw [encode_escaped verbatim] at here
        obtain ⟨byte, _, inEscape⟩ := List.mem_flatMap.mp here
        obtain ⟨high, low, same, highDigit, lowDigit⟩ := percentByte_eq byte
        rw [same] at inEscape
        rcases List.mem_cons.mp inEscape with percent | digit
        · exact .inl percent
        · simp only [List.mem_cons, List.not_mem_nil, or_false] at digit
          rcases digit with rfl | rfl
          · exact .inr (.inl highDigit)
          · exact .inr (.inl lowDigit)
    · exact (ih later).imp_right (.imp_right (.imp_right (List.mem_cons_of_mem _)))

theorem notMem_encode (mark : Char) (among : mark ∈ ['/', '?', '#']) (s : Text) :
    mark ∉ encode s := by
  intro mem
  obtain ⟨notPercent, notDigit, escaped⟩ :
      mark ≠ '%' ∧ Uri.isHexDigit mark = false ∧ isVerbatim mark = false := by
    simp only [List.mem_cons, List.not_mem_nil, or_false] at among
    rcases among with rfl | rfl | rfl <;> decide
  rcases cases_of_mem_encode mem with percent | digit | ⟨verbatim, _⟩
  · exact notPercent percent
  · simp [notDigit] at digit
  · simp [escaped] at verbatim

theorem encode_ne_nil (nonempty : s ≠ []) : encode s ≠ [] := by
  obtain ⟨c, s, rfl⟩ := List.exists_cons_of_ne_nil nonempty
  rw [encode_cons]
  cases verbatim : isVerbatim c with
  | true => simp [encode_verbatim verbatim]
  | false =>
    obtain ⟨rest, escape⟩ := exists_encode_escaped verbatim
    simp [escape]

/-- What a link starts with before any escape, the text starts with. -/
theorem exists_of_encode_eq_append (unescaped : '%' ∉ front) (same : encode s = front ++ rest) :
    ∃ more, s = front ++ more ∧ encode more = rest := by
  induction front generalizing s with
  | nil => exact ⟨s, rfl, same⟩
  | cons c front ih =>
    obtain ⟨notPercent, later⟩ := not_or.mp (mt List.mem_cons.mpr unescaped)
    cases s with
    | nil => cases same
    | cons first s =>
      rw [encode_cons] at same
      cases verbatim : isVerbatim first with
      | true =>
        rw [encode_verbatim verbatim] at same
        obtain ⟨more, rfl, encoded⟩ := ih later (List.cons.inj same).2
        exact ⟨more, by rw [(List.cons.inj same).1]; rfl, encoded⟩
      | false =>
        obtain ⟨_, escape⟩ := exists_encode_escaped verbatim
        rw [escape] at same
        exact absurd (List.cons.inj same).1 notPercent

theorem toNat_le_of_isAlphanum (alphanumeric : c.isAlphanum = true) : c.toNat ≤ 127 := by
  change (decide (c.val ≥ 'A'.val ∧ c.val ≤ 'Z'.val) ||
    c.val ≥ 'a'.val && c.val ≤ 'z'.val || c.val ≥ '0'.val && c.val ≤ '9'.val) = true at alphanumeric
  change c.val.toNat ≤ 127
  have z : 'z'.val.toNat = 122 := rfl
  have Z : 'Z'.val.toNat = 90 := rfl
  have nine : '9'.val.toNat = 57 := rfl
  simp only [Bool.or_eq_true, Bool.and_eq_true, decide_eq_true_eq, ge_iff_le,
    UInt32.le_iff_toNat_le] at alphanumeric
  omega

theorem isVerbatim_of_isSchemeChar (inScheme : Uri.isSchemeChar c = true) :
    isVerbatim c = true := by
  have ascii : ∀ n < 128,
      Uri.isSchemeChar (Char.ofNat n) = true → isVerbatim (Char.ofNat n) = true := by
    decide
  have marks : ∀ mark ∈ "+-.".toList, mark.toNat ≤ 127 := by simp
  have bound : c.toNat ≤ 127 := by
    simp only [Uri.isSchemeChar, Bool.or_eq_true, List.contains_eq_mem, decide_eq_true_eq]
      at inScheme
    exact inScheme.elim toNat_le_of_isAlphanum (marks c)
  rw [← Char.ofNat_toNat c] at inScheme ⊢
  exact ascii _ (Nat.lt_succ_of_le bound) inScheme

theorem encode_of_verbatim (verbatim : ∀ c ∈ s, isVerbatim c = true) : encode s = s := by
  induction s with
  | nil => rfl
  | cons c s ih =>
    obtain ⟨first, verbatim⟩ := List.forall_mem_cons.mp verbatim
    rw [encode_cons, encode_verbatim first, ih verbatim]
    rfl

/-- A link starts with a scheme exactly if its text does. -/
theorem exists_encode_eq_scheme_append (valid : Uri.isScheme scheme = true) :
    (∃ rest, encode s = scheme ++ ':' :: rest) ↔ ∃ more, s = scheme ++ ':' :: more := by
  constructor
  · rintro ⟨rest, same⟩
    have unescaped : '%' ∉ scheme ++ [':'] := by
      simp [Uri.notMem_of_isScheme valid '%' (by decide)]
    rw [← List.singleton_append, ← List.append_assoc] at same
    obtain ⟨more, rfl, _⟩ := exists_of_encode_eq_append unescaped same
    exact ⟨more, by simp⟩
  · rintro ⟨more, rfl⟩
    have plain : encode scheme = scheme :=
      encode_of_verbatim fun c mem => isVerbatim_of_isSchemeChar (Uri.isSchemeChar_of_mem valid mem)
    exact ⟨encode more, by rw [encode_append, encode_cons, plain]; rfl⟩

theorem colon_mem_encode_iff : ':' ∈ encode s ↔ ':' ∈ s := by
  constructor
  · intro mem
    rcases cases_of_mem_encode mem with percent | digit | ⟨_, mem⟩
    · exact absurd percent (by decide)
    · exact absurd digit (by decide)
    · exact mem
  · intro mem
    obtain ⟨front, rest, rfl⟩ := List.append_of_mem mem
    have colon : encode [':'] = [':'] := encode_verbatim (by decide)
    rw [encode_append, encode_cons, colon]
    simp

theorem isWritten_percentBytes_append (marks : Text) (bytes : List UInt8) (rest : Text) :
    Uri.isWritten marks (bytes.flatMap percentByte ++ rest) = Uri.isWritten marks rest := by
  induction bytes with
  | nil => rfl
  | cons byte bytes ih =>
    obtain ⟨high, low, same, highDigit, lowDigit⟩ := percentByte_eq byte
    rw [List.flatMap_cons, same, List.append_assoc]
    simp [Uri.isWritten, highDigit, lowDigit, ih]

theorem isSegmentChar_of_isVerbatim (verbatim : isVerbatim c = true) :
    c ≠ '%' ∧ c ∉ ['/', '?'] ∧ Uri.isSegmentChar c = !strays.contains c := by
  have ascii : ∀ n < 128, isVerbatim (Char.ofNat n) = true → Char.ofNat n ≠ '%' ∧
      Char.ofNat n ∉ ['/', '?'] ∧
      Uri.isSegmentChar (Char.ofNat n) = !strays.contains (Char.ofNat n) := by
    decide
  have bound : c.toNat ≤ 127 := by
    simp only [isVerbatim, Bool.and_eq_true, decide_eq_true_eq] at verbatim
    exact verbatim.1
  rw [← Char.ofNat_toNat c] at verbatim ⊢
  exact ascii _ (Nat.lt_succ_of_le bound) verbatim

/-- Escaped text is made of characters of segments but for the strays. -/
theorem isWritten_encode_append (among : marks ⊆ ['/', '?']) (s rest : Text) :
    Uri.isWritten marks (encode s ++ rest) =
      (s.all (!strays.contains ·) && Uri.isWritten marks rest) := by
  induction s with
  | nil => rfl
  | cons c s ih =>
    rw [encode_cons, List.append_assoc, List.all_cons, Bool.and_assoc, ← ih]
    cases verbatim : isVerbatim c with
    | true =>
      obtain ⟨notPercent, notMark, segment⟩ := isSegmentChar_of_isVerbatim verbatim
      have unmarked : marks.contains c = false := by
        simpa using fun mem => notMark (among mem)
      rw [encode_verbatim verbatim, List.singleton_append, Uri.isWritten_cons marks notPercent,
        segment, unmarked, Bool.or_false]
    | false =>
      have verbatims : strays.all isVerbatim = true := by decide
      have expected : strays.contains c = false := by
        simpa [verbatim] using mt (List.all_eq_true.mp verbatims c)
      rw [encode_escaped verbatim, isWritten_percentBytes_append, expected]
      rfl

/-- The steps that a link writes: the page's own name if it leads to the page itself, none if it
leads to a place there, and else up from the page's directory and down to the other page. -/
def way (page : Path) (destination : Destination) : List Path.Component :=
  if destination.page.sameAs page then
    if destination.fragment.isSome then [] else page.steps.getLast?.toList
  else
    let directory := page.steps.dropLast
    let common := Path.commonSteps directory destination.page.steps
    List.replicate (directory.length - common) .parent ++ destination.page.steps.drop common

/-- What is shown of the first step that a link writes. -/
def lead (page : Path) (destination : Destination) : Text :=
  ((way page destination).head?.map Path.Component.text).getD []

theorem goes_of_mem_way {destination : Destination} {step : Path.Component}
    (mem : step ∈ way page destination) : step.Goes := by
  unfold way at mem
  split at mem
  · split at mem
    · cases mem
    · have last := List.mem_of_getLast? (Option.mem_toList.mp mem)
      exact Path.goes_of_mem_steps last
  · rcases List.mem_append.mp mem with up | down
    · exact .inl (List.eq_of_mem_replicate up)
    · exact Path.goes_of_mem_steps (List.mem_of_mem_drop down)

theorem way_ne_nil (elsewhere : target.steps ≠ page.steps.dropLast)
    (other : target.sameAs page = false) (fragment : Option Text) :
    way page ⟨target, fragment⟩ ≠ [] := by
  intro stays
  rw [way, other, if_neg Bool.false_ne_true] at stays
  obtain ⟨up, down⟩ := List.append_eq_nil_iff.mp stays
  have shared := Path.take_commonSteps page.steps.dropLast target.steps
  rw [List.replicate_eq_nil_iff] at up
  rw [List.take_of_length_le (Nat.le_of_sub_eq_zero up),
    List.take_of_length_le (List.drop_eq_nil_iff.mp down)] at shared
  exact elsewhere shared.symm

theorem text_ne_nil {step : Path.Component} (goes : step.Goes) : step.text ≠ [] := by
  apply OsText.text_ne_nil
  rcases goes with rfl | ⟨name, rfl, fits⟩
  · exact List.cons_ne_nil _ _
  · rintro rfl
    cases fits.ofPiece

theorem intercalate_ne_nil {steps : List Path.Component} (goes : ∀ step ∈ steps, step.Goes)
    (nonempty : steps ≠ []) : ['/'].intercalate (steps.map (encode ·.text)) ≠ [] := by
  obtain ⟨step, rest, rfl⟩ := List.exists_cons_of_ne_nil nonempty
  rw [List.map_cons, Uri.intercalate_cons]
  apply List.append_ne_nil_of_left_ne_nil
  exact encode_ne_nil (text_ne_nil (goes step List.mem_cons_self))

/-- A link writes its way, and then its place. Only the page's directory has no way to it. -/
theorem relative_eq_intercalate (absolute : page.isAbsolute = true)
    (targetAbsolute : target.isAbsolute = true) (named : page.fileName?.isSome = true)
    (elsewhere : target.steps ≠ page.steps.dropLast) (fragment : Option Text) :
    relative page ⟨target, fragment⟩ =
      ['/'].intercalate ((way page ⟨target, fragment⟩).map (encode ·.text)) ++
        (fragment.map encode).elim [] ('#' :: ·) := by
  obtain ⟨name, named⟩ := Option.isSome_iff_exists.mp named
  obtain ⟨front, steps⟩ := Path.exists_steps_of_fileName? named
  cases same : target.sameAs page with
  | true =>
    simp only [relative, way, same, if_true]
    cases fragment with
    | some fragment => rfl
    | none => simp [named, steps, Path.Component.text, Path.Component.bytes]
  | false =>
    obtain ⟨directory, above⟩ := page.exists_parent? (by simp [steps])
    have between := Path.components_relativeTo
      ((Path.isAbsolute_parent? above).trans absolute) targetAbsolute
    rw [Path.steps_parent? above] at between
    have goes : ∀ step ∈ way page ⟨target, fragment⟩, step.Goes := fun _ => goes_of_mem_way
    have written : encodePath (target.relativeTo directory) =
        ['/'].intercalate ((way page ⟨target, fragment⟩).map (encode ·.text)) := by
      rw [encodePath, between, way, same, if_neg Bool.false_ne_true]
    have some : encodePath (target.relativeTo directory) ≠ [] := by
      rw [written]
      exact intercalate_ne_nil goes (way_ne_nil elsewhere same fragment)
    simp only [relative, same, Bool.false_eq_true, if_false, above, Option.getD_some]
    cases fragment with
    | some fragment => rw [written]; rfl
    | none => simpa [some] using written

/-- The strays among the steps of a way are what keeps it from being the path of a reference. -/
theorem isWritten_slashed (steps : List Path.Component) :
    Uri.isWritten ['/'] (Uri.slashed (steps.map (encode ·.text))) =
      steps.all fun step => step.text.all (!strays.contains ·) := by
  induction steps with
  | nil => rfl
  | cons step steps ih =>
    have among : ['/'] ⊆ ['/', '?'] := by decide
    have later := isWritten_encode_append among step.text
      (Uri.slashed (steps.map (encode ·.text)))
    rw [List.all_cons, ← ih, ← later, List.map_cons, Uri.slashed, List.flatMap_cons,
      List.cons_append, Uri.isWritten_cons _ (by decide)]
    rfl

theorem encode_lead (page : Path) (destination : Destination) :
    encode (lead page destination) ++
        Uri.slashed ((way page destination).tail.map (encode ·.text)) =
      ['/'].intercalate ((way page destination).map (encode ·.text)) := by
  unfold lead
  cases way page destination with
  | nil => rfl
  | cons step steps => rw [List.map_cons, Uri.intercalate_cons]; rfl

theorem isWritten_intercalate (steps : List Path.Component) :
    Uri.isWritten ['/'] (['/'].intercalate (steps.map (encode ·.text))) =
      steps.all fun step => step.text.all (!strays.contains ·) := by
  cases steps with
  | nil => rfl
  | cons step steps =>
    have among : ['/'] ⊆ ['/', '?'] := by decide
    rw [List.map_cons, Uri.intercalate_cons, isWritten_encode_append among, isWritten_slashed,
      List.all_cons]

theorem isWritten_encode (place : Text) :
    Uri.isWritten ['/', '?'] (encode place) = place.all (!strays.contains ·) := by
  have written := isWritten_encode_append (List.Subset.refl ['/', '?']) place []
  rwa [List.append_nil, Uri.isWritten, Bool.and_true] at written

/-- The directory of a page is above it, so a target that is not above the page is elsewhere. -/
theorem steps_ne_dropLast (absolute : page.isAbsolute = true)
    (targetAbsolute : target.isAbsolute = true) (named : page.fileName?.isSome = true)
    (outside : page.startsWith target = true → target.sameAs page = true) :
    target.steps ≠ page.steps.dropLast := by
  intro same
  obtain ⟨name, named⟩ := Option.isSome_iff_exists.mp named
  obtain ⟨front, steps⟩ := Path.exists_steps_of_fileName? named
  have starts : page.startsWith target = true := by
    rw [Path.startsWith_iff, Path.components_of_isAbsolute absolute,
      Path.components_of_isAbsolute targetAbsolute, same]
    exact (List.prefix_cons_inj _).mpr (List.dropLast_prefix _)
  have whole := Path.sameAs_iff.mp (outside starts)
  rw [Path.components_of_isAbsolute absolute, Path.components_of_isAbsolute targetAbsolute, same,
    steps, List.dropLast_concat] at whole
  simp at whole

/-- A link is cut before its place, and behind a scheme that its first step starts with. -/
theorem exists_split_relative (absolute : page.isAbsolute = true)
    (targetAbsolute : target.isAbsolute = true) (named : page.fileName?.isSome = true)
    (outside : page.startsWith target = true → target.sameAs page = true)
    (fragment : Option Text) :
    ∃ scheme path,
      Uri.split (relative page ⟨target, fragment⟩) =
          ⟨scheme, none, path, none, fragment.map encode⟩ ∧
        (scheme = none ∧
            path = encode (lead page ⟨target, fragment⟩) ++
              Uri.slashed ((way page ⟨target, fragment⟩).tail.map (encode ·.text)) ∧
            (∀ name more, Uri.isScheme name = true →
              lead page ⟨target, fragment⟩ ≠ name ++ ':' :: more) ∨
          ∃ name more, Uri.isScheme name = true ∧ scheme = some name ∧
            lead page ⟨target, fragment⟩ = name ++ ':' :: more ∧
            ['/'].intercalate ((way page ⟨target, fragment⟩).map (encode ·.text)) =
              name ++ ':' :: path) := by
  let segments := (way page ⟨target, fragment⟩).tail.map (encode ·.text)
  have plain : ∀ part ∈ encode (lead page ⟨target, fragment⟩) :: segments,
      '/' ∉ part ∧ '?' ∉ part ∧ '#' ∉ part := by
    have escaped (s : Text) : '/' ∉ encode s ∧ '?' ∉ encode s ∧ '#' ∉ encode s :=
      ⟨notMem_encode '/' (by decide) s, notMem_encode '?' (by decide) s,
        notMem_encode '#' (by decide) s⟩
    refine List.forall_mem_cons.mpr ⟨escaped _, ?_⟩
    rintro _ mem
    obtain ⟨step, _, rfl⟩ := List.mem_map.mp mem
    exact escaped _
  have nonempty : ∀ part ∈ segments, part ≠ [] := by
    rintro _ mem
    obtain ⟨step, inWay, rfl⟩ := List.mem_map.mp mem
    exact encode_ne_nil (text_ne_nil (goes_of_mem_way (List.mem_of_mem_tail inWay)))
  obtain ⟨scheme, path, cut, cases⟩ := Uri.split_segments plain nonempty (fragment.map encode)
  have elsewhere := steps_ne_dropLast absolute targetAbsolute named outside
  rw [encode_lead, ← relative_eq_intercalate absolute targetAbsolute named elsewhere] at cut
  refine ⟨scheme, path, cut, cases.imp ?_ ?_⟩
  · rintro ⟨none, whole, unschemed⟩
    refine ⟨none, whole, ?_⟩
    rintro name more valid starts
    obtain ⟨rest, same⟩ := (exists_encode_eq_scheme_append valid).mpr ⟨more, starts⟩
    exact unschemed name rest valid same
  · rintro ⟨name, rest, valid, some, same, rfl⟩
    obtain ⟨more, starts⟩ := (exists_encode_eq_scheme_append valid).mp ⟨rest, same⟩
    refine ⟨name, more, valid, some, starts, ?_⟩
    rw [← encode_lead, same, List.append_assoc, List.cons_append]

/-- A link has no authority and no query, whatever the names are. It has a scheme exactly if the
first step that it writes starts with one and a colon. It is made as a reference is exactly if that
step has a colon only behind a scheme, and nothing that is written has a stray character. -/
theorem split_relative (absolute : page.isAbsolute = true)
    (targetAbsolute : target.isAbsolute = true) (named : page.fileName?.isSome = true)
    (outside : page.startsWith target = true → target.sameAs page = true)
    (fragment : Option Text) (isAuthority : Text → Prop) :
    (Uri.split (relative page ⟨target, fragment⟩)).authority = none ∧
      (Uri.split (relative page ⟨target, fragment⟩)).query = none ∧
      ((Uri.split (relative page ⟨target, fragment⟩)).scheme = none ↔
        ∀ scheme more, Uri.isScheme scheme = true →
          lead page ⟨target, fragment⟩ ≠ scheme ++ ':' :: more) ∧
      ((Uri.split (relative page ⟨target, fragment⟩)).Conforms isAuthority ↔
        ((Uri.split (relative page ⟨target, fragment⟩)).scheme = none →
            ':' ∉ lead page ⟨target, fragment⟩) ∧
          (∀ step ∈ way page ⟨target, fragment⟩, ∀ c ∈ step.text, c ∉ strays) ∧
          ∀ place ∈ fragment, ∀ c ∈ place, c ∉ strays) := by
  obtain ⟨scheme, path, cut, cases⟩ :=
    exists_split_relative absolute targetAbsolute named outside fragment
  have writtenPath : Uri.isWritten ['/'] path = true ↔
      ∀ step ∈ way page ⟨target, fragment⟩, ∀ c ∈ step.text, c ∉ strays := by
    have whole := isWritten_intercalate (way page ⟨target, fragment⟩)
    have same : Uri.isWritten ['/'] path = Uri.isWritten ['/']
        (['/'].intercalate ((way page ⟨target, fragment⟩).map (encode ·.text))) := by
      rcases cases with ⟨_, rfl, _⟩ | ⟨name, more, valid, _, _, same⟩
      · rw [encode_lead]
      · rw [same, Uri.isWritten_append_scheme _ valid]
    rw [same, whole]
    simp
  have writtenPlace : (∀ place ∈ fragment.map encode, Uri.isWritten ['/', '?'] place = true) ↔
      ∀ place ∈ fragment, ∀ c ∈ place, c ∉ strays := by
    cases fragment <;> simp [isWritten_encode]
  have first : scheme = none → path.takeWhile (· ≠ '/') = encode (lead page ⟨target, fragment⟩) := by
    rcases cases with ⟨_, rfl, _⟩ | ⟨_, _, _, rfl, _⟩
    · intro _
      exact Uri.takeWhile_append_slashed (notMem_encode '/' (by decide) _)
    · simp
  rw [cut]
  refine ⟨rfl, rfl, ?_, ?_⟩
  · dsimp only
    rcases cases with ⟨rfl, _, unschemed⟩ | ⟨name, more, valid, rfl, starts, _⟩
    · exact iff_of_true rfl unschemed
    · exact iff_of_false (by simp) fun unschemed => unschemed name more valid starts
  · constructor
    · intro conforms
      refine ⟨fun none => ?_, writtenPath.mp conforms.path, writtenPlace.mp conforms.fragment⟩
      have clear := conforms.unambiguous none rfl
      rwa [first none, colon_mem_encode_iff] at clear
    · rintro ⟨clear, steps, place⟩
      exact {
        authority := by simp
        path := writtenPath.mpr steps
        query := by simp
        fragment := writtenPlace.mpr place
        unambiguous := fun none _ => by
          rw [first none, colon_mem_encode_iff]
          exact clear none }

theorem split_relative_otherDirectory :
    (Uri.split (relative ⟨"/out/pkg/a.py.html".toList⟩
        ⟨⟨"/out/lib/my util.py.html".toList⟩, some "helper-3".toList⟩)).scheme = none ∧
      (Uri.split (relative ⟨"/out/pkg/a.py.html".toList⟩
        ⟨⟨"/out/lib/my util.py.html".toList⟩, some "helper-3".toList⟩)).Conforms
          fun _ => False := by
  have absolute : (Path.mk "/out/pkg/a.py.html".toList).isAbsolute = true := rfl
  have targetAbsolute : (Path.mk "/out/lib/my util.py.html".toList).isAbsolute = true := rfl
  obtain ⟨_, _, scheme, conforms⟩ := split_relative absolute targetAbsolute (by decide +kernel)
    (by decide +kernel) (some "helper-3".toList) fun _ => False
  have unstrayed : (way ⟨"/out/pkg/a.py.html".toList⟩
      ⟨⟨"/out/lib/my util.py.html".toList⟩, some "helper-3".toList⟩).all
        (fun step => step.text.all (!strays.contains ·)) = true := by
    decide +kernel
  have up : lead ⟨"/out/pkg/a.py.html".toList⟩
      ⟨⟨"/out/lib/my util.py.html".toList⟩, some "helper-3".toList⟩ = "..".toList := by
    decide +kernel
  rw [up] at scheme conforms
  refine ⟨scheme.mpr ?_, conforms.mpr ⟨fun _ => by decide, by simpa using unstrayed, ?_⟩⟩
  case refine_2 => simp [strays]
  intro name more _ same
  have colon : ':' ∈ "..".toList := by simp [same]
  exact absurd colon (by decide)

/-- A page beside the linking one whose name starts like a scheme is taken for something else. -/
theorem scheme_relative_colon :
    (Path.mk "/out/x.py.html".toList).isAbsolute = true ∧
      (Path.mk "/out/a:b.py.html".toList).isAbsolute = true ∧
      .parent ∉ (Path.mk "/out/x.py.html".toList).components ∧
      .parent ∉ (Path.mk "/out/a:b.py.html".toList).components ∧
      (Path.mk "/out/x.py.html".toList).fileName?.isSome = true ∧
      (Path.mk "/out/a:b.py.html".toList).fileName?.isSome = true ∧
      (Path.mk "/out/x.py.html".toList).startsWith ⟨"/out/a:b.py.html".toList⟩ = false ∧
      (Path.mk "/out/a:b.py.html".toList).startsWith ⟨"/out/x.py.html".toList⟩ = false ∧
      relative ⟨"/out/x.py.html".toList⟩ ⟨⟨"/out/a:b.py.html".toList⟩, none⟩ =
        "a:b.py.html".toList ∧
      (Uri.split "a:b.py.html".toList).scheme = some "a".toList := by
  decide +kernel

end Href

end Hyperlisting
