import Hyperlisting.Declaration
import Hyperlisting.Markup.LineNumbers
import Hyperlisting.Proofs.Token.Order

/-! Where names are declared. A declaration stands at a name token of its file, and on one line a
name that is no keyword is declared at one token only, so an anchor tells declaration sites
apart. -/

namespace Hyperlisting

open Token

variable {source : Text} {tokens : List Token} {token name other : Token}

namespace Declaration

/-- What a token introduces, the first of its line, with the one that follows it. -/
inductive Introduction (token following : Token) : DeclarationKind → Token → Prop
  | function : token.text = "def".toList → following.kind = .name →
      Introduction token following .function following
  | classType : token.text = "class".toList → following.kind = .name →
      Introduction token following .classType following
  | assignment : token.place.column = 0 → isKeyword token.text = false →
      following.kind = .operator → following.text = "=".toList →
      Introduction token following .assignment token

/-- All that introduces a declaration, and all that it looks at. -/
theorem introduced?_eq_some_iff {next : Option Token} {kind : DeclarationKind} :
    introduced? token next = some (kind, name) ↔
      token.kind = .name ∧ token.place.startsLine = true ∧
        ∃ following, next = some following ∧ Introduction token following kind name := by
  constructor
  case mp =>
    intro introduced
    cases next with
    | none => cases introduced
    | some following =>
      unfold introduced? at introduced
      by_cases first : token.kind = .name ∧ token.place.startsLine = true
      · obtain ⟨isName, starts⟩ := first
        refine ⟨isName, starts, following, rfl, ?_⟩
        simp only [isName, starts, Option.bind_eq_bind, Option.bind_some, guard,
          decide_true, Bool.and_self, if_true, Option.pure_def] at introduced
        split at introduced
        · rename_i function
          simp only [Bool.and_eq_true, decide_eq_true_eq] at function
          obtain ⟨rfl, rfl⟩ := Prod.mk.inj (Option.some.inj introduced)
          exact .function function.1 function.2
        split at introduced
        · rename_i classType
          simp only [Bool.and_eq_true, decide_eq_true_eq] at classType
          obtain ⟨rfl, rfl⟩ := Prod.mk.inj (Option.some.inj introduced)
          exact .classType classType.1 classType.2
        split at introduced
        · rename_i assignment
          simp only [Bool.and_eq_true, decide_eq_true_eq, Bool.not_eq_true'] at assignment
          obtain ⟨⟨⟨column, ordinary⟩, operator⟩, equals⟩ := assignment
          obtain ⟨rfl, rfl⟩ := Prod.mk.inj (Option.some.inj introduced)
          exact .assignment column ordinary operator equals
        · cases introduced
      · have closed : (decide (token.kind = .name) && token.place.startsLine) = false := by
          simpa using first
        simp only [closed, guard, Option.bind_eq_bind, Option.bind_some,
          Bool.false_eq_true, if_false] at introduced
        cases introduced
  case mpr =>
    rintro ⟨isName, starts, following, rfl, introduction⟩
    simp only [introduced?, guard, isName, starts, Option.bind_eq_bind, Option.bind_some,
      decide_true, Bool.and_self, if_true, Option.pure_def]
    cases introduction with
    | function keyword named => rw [keyword, named]; rfl
    | classType keyword named => rw [keyword, named]; rfl
    | assignment column ordinary operator equals =>
      simp only [column, ordinary, operator, equals, reduceCtorEq, decide_true, decide_false,
        Bool.and_false, Bool.and_self, Bool.not_false, Bool.false_eq_true, if_false, if_true]

/-- A token that introduces a name starts its line, and the name is the token itself or stands
behind a keyword. -/
structure Introduces (token : Token) (next : Option Token) (name : Token) : Prop where
  startsLine : token.place.startsLine = true
  isName : name.kind = .name
  site : name = token ∨ next = some name ∧ isKeyword token.text = true

theorem introduces_of_introduced? {next : Option Token} {kind : DeclarationKind}
    (introduced : introduced? token next = some (kind, name)) : Introduces token next name := by
  obtain ⟨isName, starts, following, rfl, introduction⟩ := introduced?_eq_some_iff.mp introduced
  cases introduction with
  | function keyword named => exact ⟨starts, named, .inr ⟨rfl, by rw [keyword]; decide⟩⟩
  | classType keyword named => exact ⟨starts, named, .inr ⟨rfl, by rw [keyword]; decide⟩⟩
  | assignment => exact ⟨starts, isName, .inl rfl⟩

/-- Some token of the text introduces the name. -/
def Declares (tokens : List Token) (name : Token) : Prop :=
  ∃ earlier token later, tokens = earlier ++ token :: later ∧ Introduces token later.head? name

theorem Declares.cons (declares : Declares tokens name) (first : Token) :
    Declares (first :: tokens) name := by
  obtain ⟨earlier, token, later, rfl, introduces⟩ := declares
  exact ⟨first :: earlier, token, later, rfl, introduces⟩

theorem Declares.mem (declares : Declares tokens name) : name ∈ tokens := by
  obtain ⟨earlier, token, later, rfl, introduces⟩ := declares
  rcases introduces.site with rfl | ⟨next, _⟩
  · simp
  · have mem := List.mem_of_head? next
    simp [mem]

theorem Declares.isName (declares : Declares tokens name) : name.kind = .name := by
  obtain ⟨_, _, _, _, introduces⟩ := declares
  exact introduces.isName

/-- The declaration is of the name that the token is, on the token's line. -/
structure StandsAt (declaration : Declaration) (token : Token) : Prop where
  name : declaration.name = token.text
  line : declaration.line = token.place.line
  start : declaration.start = token.start

theorem StandsAt.anchor_eq {declaration : Declaration} (stands : declaration.StandsAt token) :
    declaration.anchor = anchorId token.text token.place.line := by
  rw [anchor, stands.name, stands.line]

theorem mem_collect {file : Path} {id : Nat} {scopes : List Scope} {declaration : Declaration}
    (mem : declaration ∈ collect file id scopes tokens) :
    declaration.file = file ∧ ∃ name, Declares tokens name ∧ declaration.StandsAt name := by
  fun_induction collect file id scopes tokens with
  | case1 => cases mem
  | case2 id scopes token tokens _ ih =>
    obtain ⟨sameFile, name, declares, stands⟩ := ih mem
    exact ⟨sameFile, name, declares.cons token, stands⟩
  | case3 id scopes token tokens kind name introduced indent outer inner ih =>
    rcases List.mem_cons.mp mem with rfl | mem
    · have introduces := introduces_of_introduced? introduced
      exact ⟨rfl, name, ⟨[], token, tokens, rfl, introduces⟩, rfl, rfl, rfl⟩
    · obtain ⟨sameFile, name, declares, stands⟩ := ih mem
      exact ⟨sameFile, name, declares.cons token, stands⟩

theorem mem_ofSource {file : Path} {first : Nat} {declaration : Declaration}
    (mem : declaration ∈ ofSource file source first) :
    declaration.file = file ∧
      ∃ name, Declares (tokenize source) name ∧ declaration.StandsAt name :=
  mem_collect mem

/-- A declaration has the range of its name. -/
theorem stop_eq_of_mem_collect {file : Path} {id : Nat} {scopes : List Scope}
    {declaration : Declaration} (mem : declaration ∈ collect file id scopes tokens) :
    declaration.stop = declaration.start + declaration.name.byteSize := by
  fun_induction collect file id scopes tokens with
  | case1 => cases mem
  | case2 _ _ _ _ _ ih => exact ih mem
  | case3 _ _ _ _ _ _ _ _ _ _ ih =>
    rcases List.mem_cons.mp mem with rfl | later
    · rfl
    · exact ih later

/-- The range of the declaration cuts its name out of the text. -/
def Cuts (declaration : Declaration) (source : Text) : Prop :=
  ∃ before rest, source = before ++ (declaration.name ++ rest) ∧
    declaration.start = before.byteSize ∧
    declaration.stop = (before ++ declaration.name).byteSize

/-- A declaration stands behind as many line ends as lines are before its own, and cuts out its
name. -/
theorem exists_place_of_mem_ofSource {file : Path} {first : Nat} {declaration : Declaration}
    (mem : declaration ∈ ofSource file source first) :
    IsName declaration.name ∧ ∃ before rest, source = before ++ (declaration.name ++ rest) ∧
      declaration.start = before.byteSize ∧
      declaration.stop = (before ++ declaration.name).byteSize ∧
      declaration.line = before.count '\n' + 1 := by
  obtain ⟨_, token, declares, stands⟩ := mem_ofSource mem
  have part := partOf_tokenize declares.mem
  refine ⟨stands.name ▸ part.isName declares.isName, ?_⟩
  obtain ⟨before, rest, split, place, _⟩ := part
  have start : declaration.start = before.byteSize := stands.start.trans (start_eq place)
  refine ⟨before, rest, stands.name ▸ split, start, ?_, ?_⟩
  · rw [stop_eq_of_mem_collect mem, start, Text.byteSize_append]
  · rw [stands.line, place, Place.line_after]

theorem cuts_of_mem_ofSource {file : Path} {first : Nat} {declaration : Declaration}
    (mem : declaration ∈ ofSource file source first) : declaration.Cuts source := by
  obtain ⟨_, before, rest, split, start, stop, _⟩ := exists_place_of_mem_ofSource mem
  exact ⟨before, rest, split, start, stop⟩

theorem Introduces.start_le (introduces : Introduces token tokens.head? name)
    (ordered : (token :: tokens).Pairwise Precedes) (mem : other ∈ tokens) :
    name.start ≤ other.start := by
  obtain ⟨fromToken, ordered⟩ := List.pairwise_cons.mp ordered
  rcases introduces.site with rfl | ⟨next, _⟩
  · exact Nat.le_trans (Nat.le_add_right ..) (fromToken other mem).stop_le_start
  · obtain ⟨rest, rfl⟩ := List.head?_eq_some_iff.mp next
    rcases List.mem_cons.mp mem with rfl | later
    · exact Nat.le_refl _
    · have first := (List.pairwise_cons.mp ordered).1 other later
      exact Nat.le_trans (Nat.le_add_right ..) first.stop_le_start

/-- Declarations stand in the order of their names, but not strictly: a name behind a keyword can
be the first of its own line, and then be declared there again. -/
theorem pairwise_start_collect {file : Path} {id : Nat} {scopes : List Scope}
    (ordered : tokens.Pairwise Precedes) :
    (collect file id scopes tokens).Pairwise (·.start ≤ ·.start) := by
  fun_induction collect file id scopes tokens with
  | case1 => exact .nil
  | case2 _ _ token tokens _ ih => exact ih (List.pairwise_cons.mp ordered).2
  | case3 id scopes token tokens kind name introduced indent outer inner ih =>
    refine List.pairwise_cons.mpr ⟨?_, ih (List.pairwise_cons.mp ordered).2⟩
    intro declaration mem
    obtain ⟨_, other, declares, stands⟩ := mem_collect mem
    rw [stands.start]
    exact (introduces_of_introduced? introduced).start_le ordered declares.mem

/-- What is around a declaration is an open scope from before, or a function or class that was
declared earlier among the same tokens. -/
theorem parent_of_getElem?_collect {file : Path} {id around : Nat} {scopes : List Scope}
    {declaration : Declaration} (i : Nat)
    (found : (collect file id scopes tokens)[i]? = some declaration)
    (nested : declaration.parent = some around) :
    around ∈ scopes.map Scope.id ∨
      id ≤ around ∧ around < id + i ∧
        ∃ outer, (collect file id scopes tokens)[around - id]? = some outer ∧
          outer.kind ≠ .assignment := by
  fun_induction collect file id scopes tokens generalizing i with
  | case1 => cases found
  | case2 _ _ _ _ _ ih => exact ih i found
  | case3 id scopes token tokens kind name introduced indent outer inner ih =>
    have kept : outer ⊆ scopes := List.dropWhile_subset _
    cases i with
    | zero =>
      obtain rfl := Option.some.inj found
      obtain ⟨scope, head, rfl⟩ := Option.map_eq_some_iff.mp nested
      exact .inl (List.mem_map_of_mem (kept (List.mem_of_head? head)))
    | succ i =>
      rcases ih i found with scope | ⟨least, less, earlier⟩
      · by_cases binds : kind = .assignment
        · simp only [inner, if_pos binds] at scope
          exact .inl (List.map_subset _ kept scope)
        · simp only [inner, if_neg binds, List.map_cons, List.mem_cons] at scope
          rcases scope with rfl | scope
          · exact .inr ⟨Nat.le_refl _, by omega, _, by rw [Nat.sub_self]; rfl, binds⟩
          · exact .inl (List.map_subset _ kept scope)
      · refine .inr ⟨by omega, by omega, ?_⟩
        rw [show around - id = around - (id + 1) + 1 by omega]
        exact earlier

/-- Behind a name that is no keyword no declared name of its line follows: what introduces that one
would have to start the line. -/
theorem not_precedes_of_declares (mem : name ∈ tokenize source) (isName : name.kind = .name)
    (ordinary : isKeyword name.text = false) (declares : Declares (tokenize source) other)
    (sameLine : name.place.line = other.place.line) : ¬ Precedes name other := by
  intro first
  have named := (partOf_tokenize mem).isName isName
  have otherMem := declares.mem
  obtain ⟨earlier, token, later, split, introduces⟩ := declares
  have starts := introduces.startsLine
  have notBefore : ¬ Precedes name token ∨ token.place.line ≠ name.place.line := by
    by_contra both
    obtain ⟨before, line⟩ := not_or.mp both
    have started := (not_not.mp before).not_startsLine named (not_not.mp line).symm
    simp [starts] at started
  rcases introduces.site with rfl | ⟨next, keyword⟩
  · exact notBefore.elim (absurd first) (absurd sameLine.symm)
  · obtain ⟨rest, rfl⟩ := List.head?_eq_some_iff.mp next
    have ordered := pairwise_tokenize source
    rw [split] at ordered mem
    obtain ⟨_, fromToken, across⟩ := List.pairwise_append.mp ordered
    obtain ⟨afterToken, fromOther⟩ := List.pairwise_cons.mp fromToken
    have nextOrdered := afterToken other List.mem_cons_self
    rcases List.mem_append.mp mem with before | mem
    · have precedes := across name before token List.mem_cons_self
      have line : token.place.line = name.place.line :=
        Nat.le_antisymm (sameLine ▸ nextOrdered.line_le) precedes.line_le
      exact notBefore.elim (absurd precedes) (absurd line)
    rcases List.mem_cons.mp mem with rfl | mem
    · simp [ordinary] at keyword
    rcases List.mem_cons.mp mem with rfl | after
    · exact precedes_irrefl otherMem first
    · have behind := (List.pairwise_cons.mp fromOther).1 name after
      have nameMem : name ∈ tokenize source := by simp [split, after]
      exact precedes_asymm nameMem otherMem first behind

/-- On one line a name that is no keyword is declared at one token only. -/
theorem eq_of_declares (declares : Declares (tokenize source) name)
    (declaresOther : Declares (tokenize source) other) (ordinary : isKeyword name.text = false)
    (sameText : name.text = other.text) (sameLine : name.place.line = other.place.line) :
    name = other := by
  by_contra different
  rcases precedes_or_precedes declares.mem declaresOther.mem different with first | second
  · exact not_precedes_of_declares declares.mem declares.isName ordinary declaresOther sameLine
      first
  · exact not_precedes_of_declares declaresOther.mem declaresOther.isName (sameText ▸ ordinary)
      declares sameLine.symm second

theorem dash_not_mem_ofNat (n : Nat) : '-' ∉ Text.ofNat n := by
  intro mem
  exact absurd (Text.isDigit_of_mem_ofNat mem) (by decide)

/-- Names have no dash, so the dash before the line ends the name. -/
theorem anchorId_injective {text text' : Text} {line line' : Nat} (dashless : '-' ∉ text)
    (same : anchorId text line = anchorId text' line') : text = text' ∧ line = line' := by
  unfold anchorId at same
  rw [List.append_assoc, List.append_assoc] at same
  obtain ⟨rfl, _, digits⟩ := (List.append_cons_inj_of_notMem dashless
    (dash_not_mem_ofNat line)).mp (List.append_cancel_left same)
  exact ⟨rfl, Text.ofNat_injective digits⟩

/-- No line has the id of a declaration. -/
theorem anchorId_ne_lineId (text : Text) (line number : Nat) :
    anchorId text line ≠ Markup.lineId number := by
  intro same
  have heads := congrArg List.head? same
  cases heads

end Declaration

end Hyperlisting
