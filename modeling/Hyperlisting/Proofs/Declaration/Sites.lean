import Mathlib.Data.List.Forall2
import Hyperlisting.Proofs.Declaration

/-! The sites at which something is declared, found from the tokens alone. The declarations of a text
are those of its sites, in the same order, and open scopes only decide what is around them. -/

namespace Hyperlisting.Declaration

open Token

variable {tokens : List Token} {token name : Token} {kind : DeclarationKind}

/-- A token that starts its line, what it declares and the token of the name. -/
structure Site where
  first : Token
  kind : DeclarationKind
  name : Token

namespace Site

/-- Bytes in front of the site on its line. -/
def indent (site : Site) : Nat := site.first.place.column

/-- The site is at the keyword of its kind, and that of an assignment at the name. -/
def IsLed (site : Site) : Prop :=
  match site.kind with
  | .function => site.first.text = "def".toList
  | .classType => site.first.text = "class".toList
  | .assignment => site.first = site.name

/-- The declaration is that of the site. -/
structure Records (site : Site) (declaration : Declaration) : Prop where
  isLed : site.IsLed
  kind : declaration.kind = site.kind
  name : declaration.StandsAt site.name

end Site

theorem isLed_of_introduced? {next : Option Token}
    (found : introduced? token next = some (kind, name)) : Site.IsLed ⟨token, kind, name⟩ := by
  obtain ⟨-, -, _, -, introduction⟩ := introduced?_eq_some_iff.mp found
  cases introduction with
  | function keyword => exact keyword
  | classType keyword => exact keyword
  | assignment => rfl

/-- The sites among some tokens, in order. -/
def sites : List Token → List Site
  | [] => []
  | token :: tokens =>
    match introduced? token tokens.head? with
    | none => sites tokens
    | some (kind, name) => ⟨token, kind, name⟩ :: sites tokens

theorem sites_of_introduced?_eq_none (none : introduced? token tokens.head? = none) :
    sites (token :: tokens) = sites tokens := by
  rw [sites, none]

theorem sites_of_introduced?_eq_some (found : introduced? token tokens.head? = some (kind, name)) :
    sites (token :: tokens) = ⟨token, kind, name⟩ :: sites tokens := by
  rw [sites, found]

theorem forall₂_collect (file : Path) (id : Nat) (scopes : List Scope) (tokens : List Token) :
    List.Forall₂ Site.Records (sites tokens) (collect file id scopes tokens) := by
  fun_induction collect file id scopes tokens with
  | case1 => exact .nil
  | case2 _ _ _ _ none ih => rwa [sites_of_introduced?_eq_none none]
  | case3 _ _ _ _ _ _ found _ _ _ ih =>
    rw [sites_of_introduced?_eq_some found]
    exact .cons ⟨isLed_of_introduced? found, rfl, rfl, rfl, rfl⟩ ih

/-- A site is told by its first token and the one behind that. -/
theorem mem_sites_iff {site : Site} : site ∈ sites tokens ↔ ∃ earlier later,
    tokens = earlier ++ site.first :: later ∧
      introduced? site.first later.head? = some (site.kind, site.name) := by
  induction tokens with
  | nil => simp [sites]
  | cons token tokens ih =>
    have further : (∃ earlier later, token :: tokens = earlier ++ site.first :: later ∧
        introduced? site.first later.head? = some (site.kind, site.name)) ↔
        (token = site.first ∧ introduced? token tokens.head? = some (site.kind, site.name)) ∨
          site ∈ sites tokens := by
      rw [ih]
      constructor
      case mp =>
        rintro ⟨_ | ⟨_, earlier⟩, later, split, found⟩
        · obtain ⟨rfl, rfl⟩ := List.cons.inj split
          exact .inl ⟨rfl, found⟩
        · obtain ⟨rfl, rfl⟩ := List.cons.inj split
          exact .inr ⟨earlier, later, rfl, found⟩
      case mpr =>
        rintro (⟨rfl, found⟩ | ⟨earlier, later, rfl, found⟩)
        · exact ⟨[], tokens, rfl, found⟩
        · exact ⟨token :: earlier, later, rfl, found⟩
    rw [further]
    cases found : introduced? token tokens.head? with
    | none =>
      rw [sites_of_introduced?_eq_none found]
      simp
    | some declared =>
      rw [sites_of_introduced?_eq_some found, List.mem_cons]
      refine or_congr_left ?_
      constructor
      · rintro rfl
        exact ⟨rfl, rfl⟩
      · rintro ⟨rfl, same⟩
        cases same
        rfl

/-- A declaration is found exactly if its site is. -/
theorem exists_mem_collect_iff {file : Path} {id : Nat} {scopes : List Scope}
    {p : Declaration → Prop} {q : Site → Prop}
    (same : ∀ site declaration, site.Records declaration → (p declaration ↔ q site)) :
    (∃ declaration ∈ collect file id scopes tokens, p declaration) ↔
      ∃ site ∈ sites tokens, q site := by
  have records := forall₂_collect file id scopes tokens
  generalize sites tokens = sites, collect file id scopes tokens = declarations at records
  induction records with
  | nil => simp
  | cons records _ ih => simp only [List.exists_mem_cons_iff, same _ _ records, ih]

end Hyperlisting.Declaration
