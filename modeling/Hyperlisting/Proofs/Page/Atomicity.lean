import Hyperlisting.Proofs.FileTree.Replacement

/-! Writing a page is all or nothing. Either the place of the page holds the whole page, or the tree has
no new file; every other entry stays, and only directories above the page are added. The path of the
page leads to its place, unless it needs a link that stood there and has been replaced. So after any
pages have been written, one after the other, each place holds the last page that was written there,
or what it held before. -/

namespace Hyperlisting.Page

open FileTree Worker

variable {tree after : FileTree} {page : Page} {slot : Slot} {location : Location}
  {cause : SystemError}

def bytes (page : Page) : ByteArray := (String.ofList page.html).toUTF8

/-- The directories around a page, from the innermost out. -/
def surroundings (page : Page) : List Path := ancestry (directoryOf page.output)

/-- The tree with the directories around a page, or as many of them as can be made. -/
def prepared (page : Page) (tree : FileTree) : FileTree :=
  (outcome (makeNested page.surroundings tree)).2

/-- A page has been put where its path leads, and no other entry has changed. -/
structure Lands (page : Page) (tree : FileTree) (slot : Slot) (after : FileTree) : Prop where
  around : AddsDirectories page.surroundings tree (page.prepared tree)
  replaced : Replaced (page.prepared tree) page.output page.bytes slot after
  /-- The path of the page leads to it if its way to the directory of the page does not need what the
  page has replaced. -/
  leads : after.find page.output = .ok (.file page.bytes) ↔
    ((page.prepared tree).erase slot.location).slot? page.output = .ok (some slot)
  /-- Only a link can be needed. -/
  unlinked : (∀ target, tree.get? slot.location ≠ some (.link target)) →
    after.find page.output = .ok (.file page.bytes)

/-- How writing a page can end. -/
inductive AllOrNothing (page : Page) (tree : FileTree) :
    EStateM.Result SystemError FileTree Unit → Prop
  /-- The whole page is there. -/
  | all {after : FileTree} {slot : Slot} :
      page.Lands tree slot after → AllOrNothing page tree (.ok () after)
  /-- There are the directories around the page, or some of them, and nothing else is new. -/
  | nothing {after : FileTree} {cause : SystemError} :
      AddsDirectories page.surroundings tree after →
      (∀ location, after.get? location = (page.prepared tree).get? location) →
      AllOrNothing page tree (.error cause after)

theorem addsDirectories_prepared (page : Page) (tree : FileTree) :
    AddsDirectories page.surroundings tree (page.prepared tree) :=
  addsDirectories_makeNested page.surroundings tree

theorem lands (replaced : Replaced (page.prepared tree) page.output page.bytes slot after) :
    page.Lands tree slot after where
  around := page.addsDirectories_prepared tree
  replaced := replaced
  leads := replaced.find_iff
  unlinked unlinked := by
    refine replaced.find_of_unlinked fun target stands => ?_
    have around := page.addsDirectories_prepared tree
    cases was : tree.get? slot.location with
    | none => cases stands.symm.trans (around.added was (by simp [stands])).1
    | some entry => exact unlinked target (was.trans ((around.kept was).symm.trans stands))

theorem write_eq (page : Page) (tree : FileTree) :
    page.write tree =
      match makeNested page.surroundings tree with
      | .error cause around => .error cause around
      | .ok () around =>
        replaceFile (spelled (directoryOf page.output)) page.output page.bytes around := by
  change (FileTree.makeNested page.surroundings >>= _) tree = _
  rw [FileStep.bind_apply]
  cases makeNested page.surroundings tree <;> rfl

theorem allOrNothing_write (page : Page) (tree : FileTree) :
    page.AllOrNothing tree (page.write tree) := by
  have around := page.addsDirectories_prepared tree
  have replacing := replacing (spelled (directoryOf page.output)) page.output page.bytes
    (page.prepared tree)
  rw [write_eq]
  cases made : makeNested page.surroundings tree with
  | error cause failed =>
    have same : page.prepared tree = failed := by rw [prepared, made]; rfl
    rw [same] at around
    exact .nothing around fun _ => by rw [same]
  | ok value prepared =>
    have same : page.prepared tree = prepared := by rw [Page.prepared, made]; rfl
    dsimp only
    rw [← same]
    generalize replaceFile _ page.output page.bytes (page.prepared tree) = result at replacing
    cases replacing with
    | replaced replaced => exact .all (lands replaced)
    | unchanged current entries => exact .nothing (around.congr current entries) entries

theorem exists_lands (written : page.write tree = .ok () after) :
    ∃ slot, page.Lands tree slot after := by
  have wrote := page.allOrNothing_write tree
  rw [written] at wrote
  cases wrote with
  | all lands => exact ⟨_, lands⟩

theorem addsDirectories_of_error (written : page.write tree = .error cause after) :
    AddsDirectories page.surroundings tree after ∧
      ∀ location, after.get? location = (page.prepared tree).get? location := by
  have wrote := page.allOrNothing_write tree
  rw [written] at wrote
  cases wrote with
  | nothing adds entries => exact ⟨adds, entries⟩

/-- No page takes the place of a directory. -/
theorem write_blocked (found : (page.prepared tree).slot? page.output = .ok (some slot))
    (blocked : tree.get? slot.location = some .directory) :
    ∃ cause after, page.write tree = .error cause after ∧
      AddsDirectories page.surroundings tree after := by
  cases written : page.write tree with
  | error cause after => exact ⟨cause, after, rfl, (addsDirectories_of_error written).1⟩
  | ok value after =>
    obtain ⟨other, lands⟩ := exists_lands written
    have same := lands.replaced.found.symm.trans found
    rw [Option.some.inj (Except.ok.inj same)] at lands
    exact absurd (lands.around.kept blocked) lands.replaced.vacant

/-- A page to be written, and the bytes that the system takes for a file when it is. -/
structure Writing where
  page : Page
  room : Option Nat

/-- The pages of a list, each with the tree that it finds when they are written one after the other. -/
def attempts (tree : FileTree) : List Writing → List (Page × FileTree)
  | [] => []
  | ⟨page, room⟩ :: writings =>
    (page, { tree with room }) :: attempts (outcome (page.write { tree with room })).2 writings

/-- The tree after all pages of a list have been written or failed to be. -/
def writeAll (tree : FileTree) : List Writing → FileTree
  | [] => tree
  | ⟨page, room⟩ :: writings => writeAll (outcome (page.write { tree with room })).2 writings

/-- Writing a page succeeds and puts it at a location. -/
def LandsAt (location : Location) (attempt : Page × FileTree) : Prop :=
  ∃ after slot, attempt.1.write attempt.2 = .ok () after ∧ attempt.1.Lands attempt.2 slot after ∧
    slot.location = location

/-- What a location holds after pages have been written. -/
inductive Fate (tree : FileTree) (writings : List Writing) (location : Location) : Prop
  /-- The last page that was put there. -/
  | page {later : List (Page × FileTree)} {page : Page} {found : FileTree} :
      (page, found) :: later <:+ attempts tree writings → LandsAt location (page, found) →
      (∀ attempt ∈ later, ¬ LandsAt location attempt) → tree.get? location ≠ some .directory →
      (writeAll tree writings).get? location = some (.file page.bytes) → Fate tree writings location
  /-- What was there before, if no page was put there. -/
  | same : (∀ attempt ∈ attempts tree writings, ¬ LandsAt location attempt) →
      (writeAll tree writings).get? location = tree.get? location → Fate tree writings location
  /-- A directory around a page, where nothing was. -/
  | directory {page : Page} {found : FileTree} {path : Path} :
      (∀ attempt ∈ attempts tree writings, ¬ LandsAt location attempt) →
      tree.get? location = none → (writeAll tree writings).get? location = some .directory →
      (page, found) ∈ attempts tree writings → path ∈ page.surroundings →
      (page.prepared found).resolve path = .ok location → Fate tree writings location

theorem get?_of_landsAt (landsAt : LandsAt location (page, tree)) :
    tree.get? location ≠ some .directory ∧
      (outcome (page.write tree)).2.get? location = some (.file page.bytes) := by
  obtain ⟨after, slot, writes, lands, rfl⟩ := landsAt
  constructor
  · exact fun directory => lands.replaced.vacant (lands.around.kept directory)
  · rw [writes]
    exact (lands.replaced.entries _).trans (if_pos rfl)

/-- Apart from where the page is put, writing it adds directories around the page at most. -/
theorem get?_of_not_landsAt (elsewhere : ¬ LandsAt location (page, tree)) :
    (outcome (page.write tree)).2.get? location = tree.get? location ∨
      tree.get? location = none ∧
        (outcome (page.write tree)).2.get? location = some .directory ∧
        ∃ path ∈ page.surroundings, (page.prepared tree).resolve path = .ok location := by
  have around := page.addsDirectories_prepared tree
  have entry : (outcome (page.write tree)).2.get? location = (page.prepared tree).get? location := by
    cases written : page.write tree with
    | error cause after => exact (addsDirectories_of_error written).2 location
    | ok value after =>
      obtain ⟨slot, lands⟩ := exists_lands written
      refine (lands.replaced.entries location).trans (if_neg fun here => ?_)
      exact elsewhere ⟨after, slot, written, lands, here⟩
  rw [entry]
  cases was : tree.get? location with
  | some entry => exact .inl (around.kept was)
  | none =>
    by_cases added : (page.prepared tree).get? location = none
    · exact .inl added
    · exact .inr ⟨rfl, around.added was added⟩

/-- By induction on the list: what the first page leaves at a location is what the others find. -/
theorem fate (tree : FileTree) (writings : List Writing) (location : Location) :
    Fate tree writings location := by
  induction writings generalizing tree with
  | nil => exact .same (fun _ none => absurd none List.not_mem_nil) rfl
  | cons writing writings ih =>
    obtain ⟨page, room⟩ := writing
    have later := ih (outcome (page.write { tree with room })).2
    by_cases lands : LandsAt location (page, { tree with room })
    · obtain ⟨vacant, put⟩ := get?_of_landsAt lands
      cases later with
      | page ends landsLater last _ stands =>
        exact .page (ends.trans (List.suffix_cons ..)) landsLater last vacant stands
      | same none stands => exact .page (List.suffix_refl _) lands none vacant (stands.trans put)
      | directory _ absent => cases absent.symm.trans put
    · rcases get?_of_not_landsAt lands with same | ⟨absent, made, path, around, leads⟩
      · cases later with
        | page ends landsLater last vacant stands =>
          exact .page (ends.trans (List.suffix_cons ..)) landsLater last (same ▸ vacant) stands
        | same none stands =>
          exact .same (List.forall_mem_cons.mpr ⟨lands, none⟩) (stands.trans same)
        | directory none absent stands mem around leads =>
          exact .directory (List.forall_mem_cons.mpr ⟨lands, none⟩) (same.symm.trans absent) stands
            (List.mem_cons_of_mem _ mem) around leads
      · cases later with
        | page _ _ _ vacant _ => exact absurd made vacant
        | same none stands =>
          exact .directory (List.forall_mem_cons.mpr ⟨lands, none⟩) absent (stands.trans made)
            List.mem_cons_self around leads
        | directory _ absent => cases absent.symm.trans made

/-- Pages are written as a whole or not at all, in any tree and one after the other, whatever the
system takes of each. -/
theorem write_allOrNothing (tree : FileTree) (writings : List Writing) :
    (∀ attempt ∈ attempts tree writings,
      attempt.1.AllOrNothing attempt.2 (attempt.1.write attempt.2)) ∧
      ∀ location, Fate tree writings location :=
  ⟨fun attempt _ => attempt.1.allOrNothing_write attempt.2, fate tree writings⟩

def emptyTree : FileTree :=
  .ofEntries ["R".toList] [(["R".toList], Entry.directory)]

/-- A page, one below the first, one where the directory of the first is, and one in the place of the
first that is cut off after a byte. -/
def blockedPages : List Writing :=
  [⟨⟨⟨"/R/a.py".toList⟩, ⟨"out/a.html".toList⟩, "x".toList⟩, none⟩,
    ⟨⟨⟨"/R/b.py".toList⟩, ⟨"out/a.html/b.html".toList⟩, "y".toList⟩, none⟩,
    ⟨⟨⟨"/R/c.py".toList⟩, ⟨"/R/out".toList⟩, "z".toList⟩, none⟩,
    ⟨⟨⟨"/R/a.py".toList⟩, ⟨"out/a.html".toList⟩, "yz".toList⟩, some 1⟩]

theorem write_allOrNothing_blockedPages :
    (attempts emptyTree blockedPages).map
        (fun attempt => (outcome (attempt.1.write attempt.2)).1.toOption.isSome) =
        [true, false, false, false] ∧
      (writeAll emptyTree blockedPages).readText ⟨"out/a.html".toList⟩ = .ok "x".toList ∧
      (∀ attempt ∈ attempts emptyTree blockedPages,
        attempt.1.AllOrNothing attempt.2 (attempt.1.write attempt.2)) ∧
      Fate emptyTree blockedPages ["R".toList, "out".toList, "a.html".toList] := by
  obtain ⟨each, fates⟩ := write_allOrNothing emptyTree blockedPages
  exact ⟨by decide +kernel, by decide +kernel, each, fates _⟩

/-- A link in a directory, to that directory. -/
def loopTree : FileTree :=
  .ofEntries ["R".toList] [(["R".toList], Entry.directory),
    (["R".toList, "out".toList], Entry.directory),
    (["R".toList, "out".toList, "l".toList], Entry.link ⟨"/R/out".toList⟩)]

/-- A page whose path goes through the link to the place of the link replaces it, and then its path
leads through the page. -/
theorem not_find_loop :
    ∃ after, (Page.mk ⟨"/R/l.py".toList⟩ ⟨"/R/out/l/l".toList⟩ "x".toList).write loopTree =
        .ok () after ∧
      after.find ⟨"/R/out/l/l".toList⟩ = .error .notDirectory ∧
      after.get? ["R".toList, "out".toList, "l".toList] =
        some (.file (String.ofList "x".toList).toUTF8) := by
  let written := (Page.mk ⟨"/R/l.py".toList⟩ ⟨"/R/out/l/l".toList⟩ "x".toList).write loopTree
  have succeeds : (outcome written).1.toOption = some () := by
    decide +kernel
  have resolves : (outcome written).2.resolve ⟨"/R/out/l/l".toList⟩ = .error .notDirectory := by
    decide +kernel
  have finds : (outcome written).2.find ⟨"/R/out/l/l".toList⟩ = .error .notDirectory := by
    rw [find, resolves]
    rfl
  have holds : (outcome written).2.get? ["R".toList, "out".toList, "l".toList] =
      some (.file (String.ofList "x".toList).toUTF8) := by
    have reads : (outcome written).2.readBytes ⟨"/R/out/l".toList⟩ =
        .ok (String.ofList "x".toList).toUTF8 := by
      decide +kernel
    have lands : (outcome written).2.resolve ⟨"/R/out/l".toList⟩ =
        .ok ["R".toList, "out".toList, "l".toList] := by
      decide +kernel
    obtain ⟨location, resolved, stands⟩ := find_eq_ok_iff.mp (readBytes_eq_ok_iff.mp reads)
    obtain rfl := Except.ok.inj (lands.symm.trans resolved)
    exact stands
  cases ends : written with
  | ok value after =>
    rw [ends] at finds holds
    exact ⟨after, ends, finds, holds⟩
  | error cause after =>
    rw [ends] at succeeds
    cases succeeds

end Hyperlisting.Page
