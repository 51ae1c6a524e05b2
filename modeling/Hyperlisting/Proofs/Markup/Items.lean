import Hyperlisting.Proofs.Markup.Reading

/-! Reading the items of lists. Each item is told by the items that are open around it and by its
own text, which ends where a list or an item begins or ends. Texts that read on their own read the
same in front of others. -/

namespace Hyperlisting.Markup

variable {text more shown opening closing : Text} {found others : List Mark}

def Mark.print : Mark → Text
  | tag text => text
  | character c => [c]

/-- A list or an item begins or ends. -/
def Mark.ofList : Mark → Bool
  | tag text => tagName text = "ul".toList || tagName text = "li".toList
  | character _ => false

/-- What stands in front of the next tag of a list or of an item. -/
def ownText (marks : List Mark) : Text := (marks.takeWhile (!·.ofList)).flatMap Mark.print

/-- The numbers of the items among the open tags, outermost first. -/
def openItems (opened : List (Option Nat)) : List Nat := (opened.filterMap id).reverse

@[simp] theorem openItems_some (number : Nat) (opened : List (Option Nat)) :
    openItems (some number :: opened) = openItems opened ++ [number] :=
  List.reverse_cons

/-- The items among some marks, in order: the numbers of those that are open around each, outermost
first, and its own text. Items are numbered from `number` on; of the open tags, innermost first,
those of items are known by their numbers. -/
def itemsFrom : (number : Nat) → (opened : List (Option Nat)) → List Mark → List (List Nat × Text)
  | _, _, [] => []
  | number, opened, .character _ :: marks => itemsFrom number opened marks
  | number, opened, .tag text :: marks =>
    if isClosing text then itemsFrom number opened.tail marks
    else if tagName text = "li".toList then
      (openItems opened, ownText marks) ::
        itemsFrom (number + 1) (some number :: opened) marks
    else itemsFrom number (none :: opened) marks

def listItems (document : Text) : List (List Nat × Text) :=
  ((marks document).map (itemsFrom 0 [])).getD []

/-- A text reads as some marks, whatever follows. -/
def Reads (text : Text) (found : List Mark) : Prop :=
  ∀ rest, marks (text ++ rest) = (marks rest).map (found ++ ·)

theorem Reads.nil : Reads [] [] := fun rest => by simp

theorem Reads.append (reads : Reads text found) (moreReads : Reads more others) :
    Reads (text ++ more) (found ++ others) := by
  intro rest
  rw [List.append_assoc, reads, moreReads, Option.map_map]
  congr 1
  funext marks
  exact (List.append_assoc ..).symm

theorem Reads.characters (free : '<' ∉ shown) : Reads shown (shown.map .character) :=
  fun _ => marks_characters fun _ mem => ne_of_mem_of_not_mem mem free

/-- What can stand between the brackets of a tag. -/
def Bracketless (text : Text) : Prop := '<' ∉ text ∧ '>' ∉ text

instance (text : Text) : Decidable (Bracketless text) := inferInstanceAs (Decidable (_ ∧ _))

theorem Bracketless.append (free : Bracketless text) (moreFree : Bracketless more) :
    Bracketless (text ++ more) :=
  ⟨List.not_mem_append free.1 moreFree.1, List.not_mem_append free.2 moreFree.2⟩

theorem bracketless_escape (text : Text) : Bracketless (escape text) := by
  have clear (c : Char) (mem : c ∈ escape text) : c ≠ '<' ∧ c ≠ '>' := by
    obtain ⟨d, -, mem⟩ := List.mem_flatMap.mp mem
    obtain ⟨less, greater, -⟩ := ne_of_mem_escapeChar mem
    exact ⟨less, greater⟩
  exact ⟨fun mem => (clear _ mem).1 rfl, fun mem => (clear _ mem).2 rfl⟩

theorem Reads.tag {inside : Text} (free : Bracketless inside) :
    Reads ('<' :: (inside ++ ['>'])) [.tag ('<' :: (inside ++ ['>']))] :=
  fun _ => marks_tag fun _ mem =>
    ⟨ne_of_mem_of_not_mem mem free.1, ne_of_mem_of_not_mem mem free.2⟩

theorem Reads.marks_eq (reads : Reads text found) : marks text = some found := by
  have whole := reads []
  rw [List.append_nil] at whole
  rw [whole]
  simp [marks, marksFrom]

/-- Reading loses nothing. -/
theorem flatMap_print_of_marksFrom {begun : Option Text}
    (reads : marksFrom begun text = some found) :
    found.flatMap Mark.print = begun.getD [] ++ text := by
  induction text generalizing begun found with
  | nil =>
    cases begun with
    | none =>
      cases reads
      rfl
    | some tag => cases reads
  | cons c text ih =>
    cases begun with
    | none =>
      rw [marksFrom] at reads
      split at reads
      case isTrue bracket => rw [ih reads, bracket]; rfl
      case isFalse =>
        obtain ⟨later, after, rfl⟩ := Option.map_eq_some_iff.mp reads
        rw [List.flatMap_cons, ih after]
        rfl
    | some tag =>
      rw [marksFrom] at reads
      split at reads
      case isTrue => cases reads
      split at reads
      case isTrue bracket =>
        obtain ⟨later, after, rfl⟩ := Option.map_eq_some_iff.mp reads
        rw [List.flatMap_cons, ih after, bracket]
        simp [Mark.print]
      case isFalse =>
        rw [ih reads]
        simp

/-- A tag and the one that closes it, each read as what it is. -/
structure TagPair (opening closing : Text) : Prop where
  opens : Reads opening [.tag opening]
  closes : Reads closing [.tag closing]
  isOpening : isClosing opening = false
  isClosing : isClosing closing = true
  named : tagName closing = tagName opening

/-- A tag with some text between its brackets, and the closing tag of a name. -/
theorem TagPair.of_named {inside name : Text} (free : Bracketless inside) (nameFree : Bracketless name)
    (opens : Markup.isClosing ('<' :: (inside ++ ['>'])) = false)
    (named : tagName ('<' :: (['/'] ++ name ++ ['>'])) = tagName ('<' :: (inside ++ ['>']))) :
    TagPair ('<' :: (inside ++ ['>'])) ('<' :: (['/'] ++ name ++ ['>'])) where
  opens := .tag free
  closes := .tag (Bracketless.append (by decide) nameFree)
  isOpening := opens
  isClosing := rfl
  named := named

theorem Reads.element (reads : Reads text found) (pair : TagPair opening closing) :
    Reads (opening ++ (text ++ closing)) (.tag opening :: (found ++ [.tag closing])) :=
  pair.opens.append (reads.append pair.closes)

/-- Marks that close what they open and nothing else, whatever is open before. -/
def Balanced (found : List Mark) : Prop :=
  ∀ opened, ∃ shown, ∀ rest,
    follow opened (found ++ rest) = (follow opened rest).map (shown ++ ·)

theorem balanced_characters (shown : Text) : Balanced (shown.map .character) :=
  fun opened => ⟨_, follow_characters opened shown⟩

theorem Balanced.append (balanced : Balanced found) (othersBalanced : Balanced others) :
    Balanced (found ++ others) := by
  intro opened
  obtain ⟨shown, followed⟩ := balanced opened
  obtain ⟨more, followedMore⟩ := othersBalanced opened
  refine ⟨shown ++ more, fun rest => ?_⟩
  rw [List.append_assoc, followed, followedMore, Option.map_map]
  congr 1
  funext rest
  exact (List.append_assoc ..).symm

theorem Balanced.element (balanced : Balanced found) (pair : TagPair opening closing) :
    Balanced (.tag opening :: (found ++ [.tag closing])) := by
  intro opened
  obtain ⟨shown, followed⟩ := balanced (opening :: opened)
  refine ⟨shown, fun rest => ?_⟩
  have closed : follow (opening :: opened) (.tag closing :: rest) = follow opened rest := by
    simp [follow, pair.isClosing, pair.named]
  rw [List.cons_append, List.append_assoc, List.singleton_append]
  simp only [follow, pair.isOpening, if_neg Bool.false_ne_true]
  rw [followed, closed]

theorem Balanced.exists_reading (balanced : Balanced found) (reads : Reads text found) :
    ∃ shown, reading text = some shown := by
  obtain ⟨shown, followed⟩ := balanced []
  have whole := followed []
  rw [List.append_nil] at whole
  exact ⟨shown ++ [], by rw [reading, reads.marks_eq, Option.bind_some, whole]; rfl⟩

section Tags

variable {number : Nat} {opened : List (Option Nat)} {rest : List Mark}

theorem TagPair.itemsFrom_item (pair : TagPair opening closing)
    (item : tagName opening = "li".toList) :
    itemsFrom number opened (.tag opening :: rest) =
      (openItems opened, ownText rest) ::
        itemsFrom (number + 1) (some number :: opened) rest := by
  rw [itemsFrom, pair.isOpening, if_neg Bool.false_ne_true, if_pos item]

theorem TagPair.itemsFrom_other (pair : TagPair opening closing)
    (other : tagName opening ≠ "li".toList) :
    itemsFrom number opened (.tag opening :: rest) = itemsFrom number (none :: opened) rest := by
  rw [itemsFrom, pair.isOpening, if_neg Bool.false_ne_true, if_neg other]

theorem TagPair.itemsFrom_closing (pair : TagPair opening closing) (innermost : Option Nat) :
    itemsFrom number (innermost :: opened) (.tag closing :: rest) =
      itemsFrom number opened rest := by
  rw [itemsFrom, if_pos pair.isClosing, List.tail_cons]

end Tags

/-- A text reads as marks that leave nothing open, and has no lists. -/
structure Listless (text : Text) (found : List Mark) : Prop where
  reads : Reads text found
  balanced : Balanced found
  plain : ∀ mark ∈ found, mark.ofList = false
  itemless : ∀ number opened rest,
    itemsFrom number opened (found ++ rest) = itemsFrom number opened rest

namespace Listless

theorem nil : Listless [] [] :=
  ⟨.nil, balanced_characters [], fun _ none => absurd none List.not_mem_nil, fun _ _ _ => rfl⟩

theorem characters (free : '<' ∉ shown) : Listless shown (shown.map .character) where
  reads := .characters free
  balanced := balanced_characters shown
  plain := List.forall_mem_map.mpr fun _ _ => rfl
  itemless number opened rest := by
    clear free
    induction shown with
    | nil => rfl
    | cons c shown ih => exact ih

theorem append (listless : Listless text found) (moreListless : Listless more others) :
    Listless (text ++ more) (found ++ others) where
  reads := listless.reads.append moreListless.reads
  balanced := listless.balanced.append moreListless.balanced
  plain := List.forall_mem_append.mpr ⟨listless.plain, moreListless.plain⟩
  itemless number opened rest := by
    rw [List.append_assoc, listless.itemless, moreListless.itemless]

theorem element (listless : Listless text found) (pair : TagPair opening closing)
    (other : (Mark.tag opening).ofList = false) :
    Listless (opening ++ (text ++ closing)) (.tag opening :: (found ++ [.tag closing])) where
  reads := listless.reads.element pair
  balanced := listless.balanced.element pair
  plain := by
    have closes : (Mark.tag closing).ofList = false := by rw [Mark.ofList, pair.named]; exact other
    refine List.forall_mem_cons.mpr ⟨other, List.forall_mem_append.mpr ⟨listless.plain, ?_⟩⟩
    exact List.forall_mem_singleton.mpr closes
  itemless number opened rest := by
    have notItem : tagName opening ≠ "li".toList := by
      simp only [Mark.ofList, Bool.or_eq_false_iff, decide_eq_false_iff_not] at other
      exact other.2
    rw [List.cons_append, pair.itemsFrom_other notItem, List.append_assoc, listless.itemless,
      List.singleton_append, pair.itemsFrom_closing]

/-- The own text of an item reaches to a tag of a list. -/
theorem ownText_append (listless : Listless text found) {mark : Mark}
    (ends : mark.ofList = true) (rest : List Mark) : ownText (found ++ mark :: rest) = text := by
  have passes : ∀ mark ∈ found, (!mark.ofList) = true :=
    fun mark mem => by simp [listless.plain mark mem]
  rw [ownText, List.takeWhile_append_of_pos passes, List.takeWhile_cons_of_neg (by simp [ends]),
    List.append_nil, flatMap_print_of_marksFrom listless.reads.marks_eq]
  rfl

end Listless

end Hyperlisting.Markup
