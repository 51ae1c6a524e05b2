import Hyperlisting.CrossReference
import Hyperlisting.Highlight
import Hyperlisting.Proofs.Composition.Anchors
import Hyperlisting.Proofs.Index

/-! The runs of the producers that every listing has. Each lies over one token of its text, each
token is highlighted, and the anchors are those of the declaration sites. -/

namespace Hyperlisting

open Token

variable {source : Text} {token other : Token} {run : Run}

namespace Run

/-- The run has the range of a token. -/
def OverToken (source : Text) (run : Run) : Prop :=
  ∃ token ∈ tokenize source, run.start = token.start ∧ run.stop = token.stop

theorem OverToken.check_eq_ok (covers : run.OverToken source) : run.check source = .ok () := by
  obtain ⟨token, mem, start, stop⟩ := covers
  exact (partOf_tokenize mem).check_eq_ok start stop

theorem OverToken.start_lt_stop (covers : run.OverToken source) : run.start < run.stop := by
  obtain ⟨token, mem, start, stop⟩ := covers
  rw [start, stop]
  exact (partOf_tokenize mem).start_lt_stop

/-- Runs over tokens of one text that share a byte have one range. -/
theorem OverToken.eq_of_overlap {other : Run} (covers : run.OverToken source)
    (otherCovers : other.OverToken source) (before : run.start < other.stop)
    (after : other.start < run.stop) : run.start = other.start ∧ run.stop = other.stop := by
  obtain ⟨token, mem, start, stop⟩ := covers
  obtain ⟨otherToken, otherMem, otherStart, otherStop⟩ := otherCovers
  obtain rfl : token = otherToken :=
    Token.eq_of_overlap mem otherMem (by omega) (by omega)
  exact ⟨start.trans otherStart.symm, stop.trans otherStop.symm⟩

/-- A run that starts where an earlier one has ended does not repeat it. -/
theorem OverToken.not_repeats {later : Run} (covers : run.OverToken source)
    (before : run.stop ≤ later.start) : run.repeats later = false := by
  have nonempty := covers.start_lt_stop
  have different : run.start ≠ later.start := by omega
  simp [repeats, different]

end Run

namespace Highlight

theorem mem_runsFrom {previous : Option Text} {tokens : List Token}
    (mem : run ∈ runsFrom previous tokens) :
    ∃ token ∈ tokens, run.start = token.start ∧ run.stop = token.stop ∧
      ∃ previous, run.treatment = .style (className previous token) := by
  induction tokens generalizing previous with
  | nil => cases mem
  | cons token tokens ih =>
    rcases List.mem_cons.mp mem with rfl | mem
    · exact ⟨token, List.mem_cons_self, rfl, rfl, previous, rfl⟩
    · obtain ⟨token, inTokens, highlights⟩ := ih mem
      exact ⟨token, List.mem_cons_of_mem _ inTokens, highlights⟩

theorem map_range_runsFrom (previous : Option Text) (tokens : List Token) :
    (runsFrom previous tokens).map (fun run => (run.start, run.stop)) =
      tokens.map fun token => (token.start, token.stop) := by
  induction tokens generalizing previous with
  | nil => rfl
  | cons token tokens ih => simp [runsFrom, ih]

theorem className_ne_info (previous : Option Text) (token : Token) :
    className previous token ≠ "info".toList := by
  unfold className nameClass
  repeat' split
  all_goals decide

theorem overToken_of_mem_runs (mem : run ∈ runs source) : run.OverToken source := by
  obtain ⟨token, inTokens, start, stop, _⟩ := mem_runsFrom mem
  exact ⟨token, inTokens, start, stop⟩

/-- No highlight has the class of a name that is only told about. -/
theorem treatment_of_mem_runs (mem : run ∈ runs source) :
    ∃ className, run.treatment = .style className ∧ className ≠ "info".toList := by
  obtain ⟨token, _, _, _, previous, treatment⟩ := mem_runsFrom mem
  exact ⟨_, treatment, className_ne_info previous token⟩

/-- Each highlight ends before the next starts. -/
theorem pairwise_runs (source : Text) : (runs source).Pairwise (·.stop ≤ ·.start) := by
  have ordered : ((tokenize source).map fun token => (token.start, token.stop)).Pairwise
      fun range later => range.2 ≤ later.1 := by
    refine List.pairwise_map.mpr ((pairwise_tokenize source).imp ?_)
    exact fun first => first.stop_le_start
  rw [← map_range_runsFrom none] at ordered
  exact List.pairwise_map.mp ordered

end Highlight

namespace CrossReference

variable {index : Index} {layout : Layout} {file : Path} {declared : List Declaration}
  {declaration : Declaration}

/-- A name that is looked up. -/
structure IsIdentifier (token : Token) : Prop where
  isName : token.kind = .name
  not_keyword : isKeyword token.text = false
  not_constant : isConstant token.text = false

/-- The run of a token marks a declaration site, or refers to the declaration that the name
means. -/
theorem run?_cases (found : run? index layout file declared token = some run) :
    IsIdentifier token ∧
      ((∃ declaration, siteAt? declared token.start = some declaration ∧
          declaration.name = token.text ∧ run = destination token declaration) ∨
        ∃ declaration,
          resolve index token.text file (token.place.previous = some '.') = some declaration ∧
            run = reference layout token declaration) := by
  unfold run? at found
  split at found
  · cases found
  rename_i looked
  simp only [Bool.or_eq_true, decide_eq_true_eq, not_or, not_not, Bool.not_eq_true] at looked
  refine ⟨⟨looked.1.1, looked.1.2, looked.2⟩, ?_⟩
  split at found
  · rename_i declaration site
    obtain ⟨site, named⟩ := Option.filter_eq_some_iff.mp site
    exact .inl ⟨declaration, site, by simpa using named, (Option.some.inj found).symm⟩
  · obtain ⟨declaration, resolved, same⟩ := Option.map_eq_some_iff.mp found
    exact .inr ⟨declaration, resolved, same.symm⟩

theorem run?_eq_destination (identifier : IsIdentifier token)
    (site : siteAt? declared token.start = some declaration)
    (named : declaration.name = token.text) :
    run? index layout file declared token = some (destination token declaration) := by
  have kept : (siteAt? declared token.start).filter (·.name = token.text) = some declaration :=
    Option.filter_eq_some_iff.mpr ⟨site, by simpa using named⟩
  obtain ⟨isName, notKeyword, notConstant⟩ := identifier
  rw [run?, if_neg (by simp [isName, notKeyword, notConstant]), kept]

theorem range_of_run? (found : run? index layout file declared token = some run) :
    run.start = token.start ∧ run.stop = token.stop := by
  obtain ⟨_, ⟨declaration, _, _, rfl⟩ | ⟨declaration, _, rfl⟩⟩ := run?_cases found
  · exact ⟨rfl, rfl⟩
  · exact ⟨rfl, rfl⟩

theorem mem_runs : run ∈ runs index layout file source ↔
    ∃ token ∈ tokenize source,
      run? index layout file ((index.declarationsIn file).map Prod.snd) token = some run :=
  List.mem_filterMap

theorem overToken_of_mem_runs (mem : run ∈ runs index layout file source) :
    run.OverToken source := by
  obtain ⟨token, inTokens, found⟩ := mem_runs.mp mem
  exact ⟨token, inTokens, range_of_run? found⟩

theorem treatment_of_mem_runs (mem : run ∈ runs index layout file source) {className : Text}
    (styled : run.treatment = .style className) : className = "info".toList := by
  obtain ⟨token, _, found⟩ := mem_runs.mp mem
  obtain ⟨_, ⟨declaration, _, _, rfl⟩ | ⟨declaration, _, rfl⟩⟩ := run?_cases found
  · cases styled
  · unfold reference at styled
    cases paged : layout.pagePath declaration.file with
    | ok page => simp [paged] at styled
    | error failure => simpa [paged] using styled.symm

theorem id?_reference (layout : Layout) (token : Token) (declaration : Declaration) :
    (reference layout token declaration).id? = none := by
  unfold Run.id? reference
  cases layout.pagePath declaration.file <;> rfl

theorem exists_anchorId {id : Text}
    (mem : id ∈ (runs index layout file source).filterMap Run.id?) :
    ∃ text line, id = Declaration.anchorId text line := by
  obtain ⟨run, isRun, named⟩ := List.mem_filterMap.mp mem
  obtain ⟨token, _, found⟩ := mem_runs.mp isRun
  obtain ⟨_, ⟨declaration, _, _, rfl⟩ | ⟨declaration, _, rfl⟩⟩ := run?_cases found
  · exact ⟨_, _, (Option.some.inj named).symm⟩
  · rw [id?_reference] at named
    cases named

/-- Each cross reference ends before the next starts. -/
theorem pairwise_runs (index : Index) (layout : Layout) (file : Path) (source : Text) :
    (runs index layout file source).Pairwise (·.stop ≤ ·.start) := by
  refine List.pairwise_filterMap.mpr ((pairwise_tokenize source).imp ?_)
  intro token other first run found otherRun otherFound
  obtain ⟨_, stop⟩ := range_of_run? found
  obtain ⟨start, _⟩ := range_of_run? otherFound
  rw [stop, start]
  exact first.stop_le_start

theorem mem_lookup_of_resolve {name : Text} {attributeName : Bool}
    (resolved : resolve index name file attributeName = some declaration) :
    declaration ∈ index.lookup name := by
  simp only [resolve, Option.or_eq_some_iff] at resolved
  rcases resolved with (own | ⟨_, fitting⟩) | ⟨_, nested⟩
  · exact List.mem_of_find?_eq_some own
  · exact List.mem_of_find?_eq_some fitting
  · split at nested
    · cases nested
    · exact List.mem_of_find?_eq_some nested

/-- What a name means was declared under that name in a text that was added. -/
theorem exists_of_resolve {files : List (Path × Text)} {name : Text} {attributeName : Bool}
    (resolved : resolve (Index.ofFiles files) name file attributeName = some declaration) :
    declaration.name = name ∧
      declaration ∈
        ((Index.ofFiles files).declarationsIn declaration.file).map Prod.snd ∧
      ∃ text, (declaration.file, text) ∈ files ∧
        ∃ site, Declaration.Declares (tokenize text) site ∧ declaration.StandsAt site := by
  have views := Index.consistent_ofFiles files
  have found := mem_lookup_of_resolve resolved
  rw [views.lookup_eq, List.mem_filter] at found
  obtain ⟨inTable, named⟩ := found
  obtain ⟨⟨added, text⟩, inFiles, first, collected⟩ := Index.exists_of_mem_declarations inTable
  obtain ⟨rfl, site⟩ := Declaration.mem_ofSource collected
  refine ⟨by simpa using named, ?_, text, inFiles, site⟩
  rw [views.map_declarationsIn_eq, List.mem_filter]
  exact ⟨inTable, Path.sameAs_iff.mpr rfl⟩

theorem exists_of_link (mem : run ∈ runs index layout file source) {destination : Destination}
    (linked : run.treatment = .link destination) :
    ∃ token ∈ tokenize source, IsIdentifier token ∧ run.start = token.start ∧
      run.stop = token.stop ∧ ∃ declaration,
        resolve index token.text file (token.place.previous = some '.') = some declaration ∧
          layout.pagePath declaration.file = .ok destination.page ∧
          destination.fragment = some declaration.anchor := by
  obtain ⟨token, inTokens, found⟩ := mem_runs.mp mem
  obtain ⟨identifier, ⟨declaration, _, _, rfl⟩ | ⟨declaration, resolved, rfl⟩⟩ := run?_cases found
  · cases linked
  · refine ⟨token, inTokens, identifier, rfl, rfl, declaration, resolved, ?_⟩
    unfold reference at linked
    cases paged : layout.pagePath declaration.file with
    | error failure => simp [paged] at linked
    | ok page =>
      simp only [paged, Treatment.link.injEq] at linked
      exact linked ▸ ⟨rfl, rfl⟩

/-- The declarations are of the text: each stands at a token that declares its name. -/
def SitesIn (source : Text) (declared : List Declaration) : Prop :=
  ∀ declaration ∈ declared, ∃ name, Declaration.Declares (tokenize source) name ∧
    declaration.StandsAt name

theorem siteAt?_eq_some {offset : Nat} (site : siteAt? declared offset = some declaration) :
    declaration ∈ declared ∧ declaration.start = offset := by
  rw [siteAt?, List.findRev?_eq_find?_reverse] at site
  exact ⟨List.mem_reverse.mp (List.mem_of_find?_eq_some site), by simpa using List.find?_some site⟩

theorem exists_siteAt? (mem : declaration ∈ declared) :
    ∃ site, siteAt? declared declaration.start = some site := by
  rw [siteAt?, List.findRev?_eq_find?_reverse, ← Option.isSome_iff_exists, List.find?_isSome]
  exact ⟨declaration, List.mem_reverse.mpr mem, by simp⟩

/-- Of a file added once the index knows the declarations of its one text. -/
theorem sitesIn_of_unique {files : List (Path × Text)} {added : Path}
    (unique : files.filter (·.1.sameAs file) = [(added, source)]) :
    SitesIn source (((Index.ofFiles files).declarationsIn file).map Prod.snd) := by
  intro declaration mem
  obtain ⟨other, inFiles, sameFile, site⟩ := Index.exists_of_mem_declarationsIn mem
  have kept : other ∈ files.filter (·.1.sameAs file) := List.mem_filter.mpr ⟨inFiles, sameFile⟩
  rw [unique, List.mem_singleton] at kept
  rwa [kept] at site

/-- The site that starts where a token starts is the token. -/
theorem SitesIn.standsAt (sites : SitesIn source declared) (mem : token ∈ tokenize source)
    (site : siteAt? declared token.start = some declaration) :
    Declaration.Declares (tokenize source) token ∧ declaration.StandsAt token := by
  obtain ⟨inDeclared, start⟩ := siteAt?_eq_some site
  obtain ⟨name, declares, stands⟩ := sites declaration inDeclared
  obtain rfl : name = token :=
    Token.eq_of_start_eq declares.mem mem (stands.start.symm.trans start)
  exact ⟨declares, stands⟩

/-- Where a declaration of a text stands there is an anchor for it, unless its name is never looked
up. -/
theorem SitesIn.exists_anchor
    (sites : SitesIn source ((index.declarationsIn file).map Prod.snd))
    (mem : declaration ∈ (index.declarationsIn file).map Prod.snd)
    (stands : declaration.StandsAt token) (inTokens : token ∈ tokenize source)
    (identifier : IsIdentifier token) :
    ∃ run ∈ runs index layout file source, run.treatment = .anchor declaration.anchor ∧
      run.start = token.start ∧ run.stop = token.stop := by
  obtain ⟨site, found⟩ := exists_siteAt? mem
  rw [stands.start] at found
  obtain ⟨_, siteStands⟩ := sites.standsAt inTokens found
  have isDestination : run? index layout file _ token = some (destination token site) :=
    run?_eq_destination identifier found siteStands.name
  refine ⟨_, mem_runs.mpr ⟨token, inTokens, isDestination⟩, ?_, rfl, rfl⟩
  rw [stands.anchor_eq, ← siteStands.anchor_eq]
  rfl

/-- An anchor is the run of a declared name that is looked up, and its id tells the name and the
line. -/
theorem SitesIn.anchor_cases (sites : SitesIn source declared) (mem : token ∈ tokenize source)
    {id : Text} (found : run? index layout file declared token = some run)
    (named : run.id? = some id) :
    Declaration.Declares (tokenize source) token ∧ IsIdentifier token ∧
      id = Declaration.anchorId token.text token.place.line := by
  obtain ⟨identifier, ⟨declaration, site, _, rfl⟩ | ⟨declaration, _, rfl⟩⟩ := run?_cases found
  · obtain ⟨declares, stands⟩ := sites.standsAt mem site
    refine ⟨declares, identifier, ?_⟩
    rw [← stands.anchor_eq]
    exact (Option.some.inj named).symm
  · rw [id?_reference] at named
    cases named

/-- The anchors of a text that the index knows have distinct ids. -/
theorem SitesIn.nodup_ids
    (sites : SitesIn source ((index.declarationsIn file).map Prod.snd)) :
    ((runs index layout file source).filterMap Run.id?).Nodup := by
  rw [runs, List.filterMap_filterMap]
  refine List.pairwise_filterMap.mpr ?_
  refine (pairwise_tokenize source).imp_of_mem ?_
  rintro token other mem otherMem first id found _ otherFound rfl
  obtain ⟨run, isRun, named⟩ := Option.bind_eq_some_iff.mp found
  obtain ⟨otherRun, isOtherRun, otherNamed⟩ := Option.bind_eq_some_iff.mp otherFound
  obtain ⟨declares, identifier, idEq⟩ := sites.anchor_cases mem isRun named
  obtain ⟨otherDeclares, _, otherIdEq⟩ := sites.anchor_cases otherMem isOtherRun otherNamed
  have isName := (partOf_tokenize mem).isName declares.isName
  have dashless : '-' ∉ token.text := fun inName => (isName.ne_of_mem inName).2.2.2 rfl
  obtain ⟨sameText, sameLine⟩ :=
    Declaration.anchorId_injective dashless (idEq.symm.trans otherIdEq)
  obtain rfl := Declaration.eq_of_declares declares otherDeclares identifier.not_keyword sameText
    sameLine
  exact precedes_irrefl mem first

end CrossReference

end Hyperlisting
