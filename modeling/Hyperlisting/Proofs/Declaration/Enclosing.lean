import Mathlib.Order.Bounds.Basic
import Hyperlisting.Proofs.Declaration.Sites
import Hyperlisting.Proofs.Lists
import Hyperlisting.Proofs.Text.Lines

/-! What is around a declaration: the nearest function or class in front of it that is indented less
and that nothing between the two has closed. The open scopes are a stack, and this says of all
declarations at once what the stack has for each when its turn comes. -/

namespace Hyperlisting.Declaration

open Token Text

variable {earlier later : List Site} {site : Site} {scopes : List Scope} {scope : Scope}
  {first i j : Nat} {source : Text}

/-- The site number `j` is a function or class in front of the site number `i`, and is indented less
than that site and than all between the two. -/
def Encloses (sites : List Site) (j i : Nat) : Prop :=
  ∃ outer inner, sites[j]? = some outer ∧ sites[i]? = some inner ∧ j < i ∧
    outer.kind ≠ .assignment ∧ outer.indent < inner.indent ∧
    ∀ k between, j < k → k < i → sites[k]? = some between → outer.indent < between.indent

/-- The parent of the site number `i` is the nearest one that encloses it, and there is none only if
none does. Declarations are numbered from `first` on. -/
structure Nearest (sites : List Site) (first i : Nat) (parent : Option Nat) : Prop where
  eq_some_iff : ∀ id, parent = some id ↔
    ∃ j, id = first + j ∧ IsGreatest {j | Encloses sites j i} j
  eq_none_iff : parent = none ↔ ∀ j, ¬ Encloses sites j i

/-- The site number `j` is a function or class, and is indented less than all that follow. -/
def IsOpen (sites : List Site) (j : Nat) (site : Site) : Prop :=
  sites[j]? = some site ∧ site.kind ≠ .assignment ∧
    ∀ k later, j < k → sites[k]? = some later → site.indent < later.indent

/-- The stack has the open sites and no others, innermost first. -/
structure Tracks (first : Nat) (earlier : List Site) (scopes : List Scope) : Prop where
  ordered : scopes.Pairwise fun inner outer => outer.indent < inner.indent ∧ outer.id < inner.id
  mem_iff : ∀ scope, scope ∈ scopes ↔
    ∃ j site, scope = ⟨site.indent, first + j⟩ ∧ IsOpen earlier j site

theorem tracks_nil (first : Nat) : Tracks first [] [] := by
  refine ⟨.nil, fun scope => ?_⟩
  simp [IsOpen]

/-- One site more closes what is not indented less, and is open itself unless it is an assignment. -/
theorem isOpen_concat_iff {other : Site} : IsOpen (earlier ++ [site]) j other ↔
    IsOpen earlier j other ∧ other.indent < site.indent ∨
      j = earlier.length ∧ other = site ∧ site.kind ≠ .assignment := by
  simp only [IsOpen, Lists.getElem?_concat_eq_some_iff]
  constructor
  case mp =>
    rintro ⟨found | ⟨rfl, rfl⟩, opens, follow⟩
    · have less := (List.getElem?_eq_some_iff.mp found).1
      exact .inl ⟨⟨found, opens, fun k later behind found => follow k later behind (.inl found)⟩,
        follow _ site less (.inr ⟨rfl, rfl⟩)⟩
    · exact .inr ⟨rfl, rfl, opens⟩
  case mpr =>
    rintro (⟨⟨found, opens, follow⟩, less⟩ | ⟨rfl, rfl, opens⟩)
    · refine ⟨.inl found, opens, ?_⟩
      rintro k later behind (found | ⟨rfl, rfl⟩)
      · exact follow k later behind found
      · exact less
    · refine ⟨.inr ⟨rfl, rfl⟩, opens, ?_⟩
      rintro k later behind (found | ⟨rfl, -⟩)
      · have less := (List.getElem?_eq_some_iff.mp found).1
        omega
      · exact absurd behind (Nat.lt_irrefl _)

/-- What is open when a site comes and is indented less than it encloses it. -/
theorem encloses_length_iff : Encloses (earlier ++ site :: later) j earlier.length ↔
    ∃ outer, IsOpen earlier j outer ∧ outer.indent < site.indent := by
  have here : (earlier ++ site :: later)[earlier.length]? = some site := by simp
  constructor
  case mp =>
    rintro ⟨outer, inner, found, innerFound, before, opens, less, follow⟩
    obtain rfl := Option.some.inj (here.symm.trans innerFound)
    rw [List.getElem?_append_left before] at found
    refine ⟨outer, ⟨found, opens, ?_⟩, less⟩
    intro k between behind found
    have inside := (List.getElem?_eq_some_iff.mp found).1
    exact follow k between behind inside (List.getElem?_append_left inside ▸ found)
  case mpr =>
    rintro ⟨outer, ⟨found, opens, follow⟩, less⟩
    have before := (List.getElem?_eq_some_iff.mp found).1
    refine ⟨outer, site, List.getElem?_append_left before ▸ found, here, before, opens, less, ?_⟩
    intro k between behind inside found
    exact follow k between behind (List.getElem?_append_left inside ▸ found)

/-- Of scopes that stand for the sites that enclose one, innermost first, the first is the nearest. -/
theorem nearest_of_mem_iff {sites : List Site}
    (ordered : scopes.Pairwise fun inner outer => outer.id < inner.id)
    (mem_iff : ∀ id, (∃ scope ∈ scopes, scope.id = id) ↔ ∃ j, id = first + j ∧ Encloses sites j i) :
    Nearest sites first i (scopes.head?.map Scope.id) := by
  cases scopes with
  | nil =>
    have none : ∀ j, ¬ Encloses sites j i := by
      intro j encloses
      obtain ⟨_, mem, _⟩ := (mem_iff (first + j)).mpr ⟨j, rfl, encloses⟩
      cases mem
    exact ⟨fun id => by simp [IsGreatest, none], by simp [none]⟩
  | cons innermost scopes =>
    obtain ⟨j, number, encloses⟩ := (mem_iff innermost.id).mp ⟨innermost, List.mem_cons_self, rfl⟩
    have greatest : IsGreatest {j | Encloses sites j i} j := by
      refine ⟨encloses, fun k other => ?_⟩
      obtain ⟨scope, mem, id⟩ := (mem_iff (first + k)).mpr ⟨k, rfl, other⟩
      rcases List.mem_cons.mp mem with rfl | mem
      · omega
      · have less := (List.pairwise_cons.mp ordered).1 scope mem
        omega
    constructor
    · intro id
      rw [List.head?_cons, Option.map_some, number, Option.some_inj]
      constructor
      · rintro rfl
        exact ⟨j, rfl, greatest⟩
      · rintro ⟨k, rfl, other⟩
        rw [greatest.unique other]
    · simp only [List.head?_cons, Option.map_some, reduceCtorEq, false_iff, not_forall, not_not]
      exact ⟨j, encloses⟩

namespace Tracks

variable (tracks : Tracks first earlier scopes)

include tracks

/-- Closing leaves the scopes that are indented less. -/
theorem dropWhile_eq_filter (indent : Nat) :
    scopes.dropWhile (indent ≤ ·.indent) = scopes.filter (·.indent < indent) := by
  have closes := Lists.dropWhile_eq_filter (p := fun scope : Scope => indent ≤ scope.indent)
    (tracks.ordered.imp fun {inner outer} ordered => by
      have := ordered.1
      simp only [decide_eq_true_eq]
      omega)
  rw [closes]
  refine List.filter_congr fun scope _ => ?_
  rw [← decide_not, decide_eq_decide]
  exact Nat.not_le

theorem mem_dropWhile_iff : scope ∈ scopes.dropWhile (site.indent ≤ ·.indent) ↔
    ∃ j outer, scope = ⟨outer.indent, first + j⟩ ∧ IsOpen earlier j outer ∧
      outer.indent < site.indent := by
  rw [tracks.dropWhile_eq_filter, List.mem_filter, tracks.mem_iff, decide_eq_true_eq]
  constructor
  · rintro ⟨⟨j, outer, rfl, isOpen⟩, less⟩
    exact ⟨j, outer, rfl, isOpen, less⟩
  · rintro ⟨j, outer, rfl, isOpen, less⟩
    exact ⟨⟨j, outer, rfl, isOpen⟩, less⟩

theorem step : Tracks first (earlier ++ [site])
    (if site.kind = .assignment then scopes.dropWhile (site.indent ≤ ·.indent)
      else ⟨site.indent, first + earlier.length⟩ :: scopes.dropWhile (site.indent ≤ ·.indent)) where
  ordered := by
    have kept := tracks.ordered.sublist (List.dropWhile_sublist (site.indent ≤ ·.indent))
    split
    · exact kept
    · refine List.pairwise_cons.mpr ⟨?_, kept⟩
      intro scope mem
      obtain ⟨j, outer, rfl, isOpen, less⟩ := tracks.mem_dropWhile_iff.mp mem
      have bound := (List.getElem?_eq_some_iff.mp isOpen.1).1
      exact ⟨less, by simpa using bound⟩
  mem_iff := by
    intro scope
    simp only [isOpen_concat_iff]
    split
    case isTrue binds =>
      rw [tracks.mem_dropWhile_iff]
      simp [binds]
    case isFalse opens =>
      rw [List.mem_cons, tracks.mem_dropWhile_iff]
      constructor
      · rintro (rfl | ⟨j, outer, rfl, isOpen, less⟩)
        · exact ⟨_, site, rfl, .inr ⟨rfl, rfl, opens⟩⟩
        · exact ⟨j, outer, rfl, .inl ⟨isOpen, less⟩⟩
      · rintro ⟨j, outer, rfl, ⟨isOpen, less⟩ | ⟨rfl, rfl, -⟩⟩
        · exact .inr ⟨j, outer, rfl, isOpen, less⟩
        · exact .inl rfl

/-- The first scope that stays open is that of the nearest site that encloses the next one. -/
theorem nearest : Nearest (earlier ++ site :: later) first earlier.length
    ((scopes.dropWhile (site.indent ≤ ·.indent)).head?.map Scope.id) := by
  have kept := tracks.ordered.sublist (List.dropWhile_sublist (site.indent ≤ ·.indent))
  apply nearest_of_mem_iff (kept.imp And.right)
  intro id
  simp only [tracks.mem_dropWhile_iff, encloses_length_iff]
  constructor
  · rintro ⟨_, ⟨j, outer, rfl, isOpen, less⟩, rfl⟩
    exact ⟨j, rfl, outer, isOpen, less⟩
  · rintro ⟨j, rfl, outer, isOpen, less⟩
    exact ⟨_, ⟨j, outer, rfl, isOpen, less⟩, rfl⟩

end Tracks

theorem nearest_collect {file : Path} {id : Nat} {tokens : List Token} {declaration : Declaration}
    (tracks : Tracks first earlier scopes) (next : id = first + earlier.length) (i : Nat)
    (found : (collect file id scopes tokens)[i]? = some declaration) :
    Nearest (earlier ++ sites tokens) first (earlier.length + i) declaration.parent := by
  fun_induction collect file id scopes tokens generalizing earlier i with
  | case1 => cases found
  | case2 _ _ _ _ none ih =>
    rw [sites_of_introduced?_eq_none none]
    exact ih tracks next i found
  | case3 id scopes token tokens kind name introduced indent outer inner =>
    rename_i ih
    rw [sites_of_introduced?_eq_some introduced]
    cases i with
    | zero =>
      obtain rfl := Option.some.inj found
      exact tracks.nearest
    | succ i =>
      have step : Tracks first (earlier ++ [⟨token, kind, name⟩]) inner := by
        have step : Tracks first (earlier ++ [⟨token, kind, name⟩]) _ := tracks.step
        rwa [← next] at step
      have nearest := ih step (by simp [next, Nat.add_assoc]) i found
      rw [List.append_assoc, List.length_append, List.length_singleton, Nat.add_assoc,
        Nat.add_comm 1 i] at nearest
      exact nearest

/-- Searching a table of line starts finds the line of the token, there is an entry for it, and the
token stands as far behind it as its column says. -/
structure FoundIn (starts : List Nat) (token : Token) : Prop where
  divides_iff : ∀ n, Divides starts token.start n ↔ n = token.place.line
  line_pos : 1 ≤ token.place.line
  column : ∃ start, starts[token.place.line - 1]? = some start ∧ start ≤ token.start ∧
    token.start - start = token.place.column

theorem foundIn_lineStarts {token : Token} (part : PartOf source token) :
    FoundIn (lineStarts source) token := by
  obtain ⟨before, rest, rfl, place, _⟩ := part
  have start := start_eq place
  obtain ⟨positive, lineStart, found, column⟩ := getElem?_lineStarts before (token.text ++ rest)
  rw [← place] at positive found column
  refine ⟨fun n => ?_, positive, lineStart, found, by omega, by omega⟩
  rw [start, place]
  exact divides_lineStarts_iff before (token.text ++ rest)

/-- The declarations of a text are those of its sites, in the same order, and the parent of each is
the nearest function or class that encloses it. The column of a token is what is between it and the
start of its line, and a search of the line starts finds both. -/
theorem nearest_ofSource (file : Path) (source : Text) (first : Nat) :
    List.Forall₂ Site.Records (sites (tokenize source)) (ofSource file source first) ∧
      (∀ i declaration, (ofSource file source first)[i]? = some declaration →
        Nearest (sites (tokenize source)) first i declaration.parent) ∧
      ∀ token ∈ tokenize source, FoundIn (lineStarts source) token := by
  refine ⟨forall₂_collect file first [] _, ?_, fun token mem =>
    foundIn_lineStarts (partOf_tokenize mem)⟩
  intro i declaration found
  have nearest := nearest_collect (tracks_nil first) rfl i found
  simpa using nearest

/-- A tab counts for one column, so what stands behind two blanks below the class is inside it, and an
assignment closes all. -/
example : (ofSource ⟨[]⟩ "def f():\n def g():\n\tclass A:\n  def h():\nx = 1\n def k():".toList 5).map
    (fun declaration => (declaration.name, declaration.parent)) =
    [("f".toList, none), ("g".toList, some 5), ("A".toList, some 5), ("h".toList, some 7),
      ("x".toList, none), ("k".toList, none)] := by
  decide +kernel

end Hyperlisting.Declaration
