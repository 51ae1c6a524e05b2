import Hyperlisting.Text
import Hyperlisting.Text.Place
import Hyperlisting.Unicode.Ranges
import Hyperlisting.Unicode.DecimalDigit
import Hyperlisting.Unicode.Word
import Hyperlisting.Unicode.GraphemeExtend
import Hyperlisting.Unicode.Printable
import Hyperlisting.Path
import Hyperlisting.Href
import Hyperlisting.Run
import Hyperlisting.Composition
import Hyperlisting.Composition.Sweep
import Hyperlisting.Composition.Markup
import Hyperlisting.Markup.Escape
import Hyperlisting.Markup.Element
import Hyperlisting.Markup.LineNumbers
import Hyperlisting.Template
import Hyperlisting.Page
import Hyperlisting.Page.Document
import Hyperlisting.Token
import Hyperlisting.Token.Scan
import Hyperlisting.Highlight
import Hyperlisting.Declaration
import Hyperlisting.Index
import Hyperlisting.CrossReference
import Hyperlisting.Outline
import Hyperlisting.SystemError
import Hyperlisting.FileTree
import Hyperlisting.FileTree.Lookup
import Hyperlisting.FileTree.Search
import Hyperlisting.FileTree.Change
import Hyperlisting.Duration
import Hyperlisting.Log.Escape
import Hyperlisting.Log
import Hyperlisting.Site.Progress
import Hyperlisting.Site.Job
import Hyperlisting.Site.Batch
import Hyperlisting.Site.Generation
import Hyperlisting.CommandLine.Arguments
import Hyperlisting.CommandLine
import Hyperlisting.Proofs.Lists
import Hyperlisting.Proofs.Text
import Hyperlisting.Proofs.Path
import Hyperlisting.Proofs.Path.Way
import Hyperlisting.Proofs.Uri
import Hyperlisting.Proofs.Href
import Hyperlisting.Proofs.Href.Arrival
import Hyperlisting.Proofs.Composition.Cuts
import Hyperlisting.Proofs.Composition.Table
import Hyperlisting.Proofs.Composition.Sweep
import Hyperlisting.Proofs.Composition.Partition
import Hyperlisting.Proofs.Composition.Intervals
import Hyperlisting.Proofs.Markup.Escape
import Hyperlisting.Proofs.Markup.Reading
import Hyperlisting.Proofs.Markup.Numbering
import Hyperlisting.Proofs.Markup.Stripping
import Hyperlisting.Proofs.Markup.Attributes
import Hyperlisting.Proofs.Markup.Lines
import Hyperlisting.Proofs.Markup.Surroundings
import Hyperlisting.Proofs.Markup.Items
import Hyperlisting.Proofs.Composition.Pieces
import Hyperlisting.Proofs.Composition.WellNested
import Hyperlisting.Proofs.Composition.Fidelity
import Hyperlisting.Proofs.Composition.Faults
import Hyperlisting.Proofs.Composition.Openings
import Hyperlisting.Proofs.Composition.Anchors
import Hyperlisting.Proofs.Composition.Lines
import Hyperlisting.Proofs.Composition.Surroundings
import Hyperlisting.Proofs.Composition.Skeleton
import Hyperlisting.Proofs.Composition.Tiling
import Hyperlisting.Proofs.Composition.Contents
import Hyperlisting.Proofs.Composition.Reordering
import Hyperlisting.Proofs.Composition.Refinement
import Hyperlisting.Proofs.Composition.OpeningTag
import Hyperlisting.Proofs.Unicode
import Hyperlisting.Proofs.Token.Scan
import Hyperlisting.Proofs.Token.Order
import Hyperlisting.Proofs.Token.Start
import Hyperlisting.Proofs.Token.Coverage
import Hyperlisting.Proofs.Token.Locality
import Hyperlisting.Proofs.Token.Following
import Hyperlisting.Proofs.Token.Quotes
import Hyperlisting.Proofs.Text.Lines
import Hyperlisting.Proofs.Declaration
import Hyperlisting.Proofs.Declaration.Sites
import Hyperlisting.Proofs.Declaration.Enclosing
import Hyperlisting.Proofs.Declaration.Assignment
import Hyperlisting.Proofs.Index
import Hyperlisting.Proofs.Index.Table
import Hyperlisting.Proofs.Declaration.Forest
import Hyperlisting.Proofs.Producers
import Hyperlisting.Proofs.CrossReference
import Hyperlisting.Proofs.Composition.DeclarationLines
import Hyperlisting.Proofs.Template
import Hyperlisting.Proofs.Page
import Hyperlisting.Proofs.Page.Assembly
import Hyperlisting.Proofs.Page.Mirroring
import Hyperlisting.Proofs.FileTree.Walk
import Hyperlisting.Proofs.FileTree.Search
import Hyperlisting.Proofs.Listing
import Hyperlisting.Proofs.Outline
import Hyperlisting.Proofs.Outline.Levels
import Hyperlisting.Proofs.Outline.Nesting
import Hyperlisting.Proofs.Site.Generation
import Hyperlisting.Proofs.Site.Rendering
import Hyperlisting.Proofs.Site.Indexing
import Hyperlisting.Proofs.Site.Recovery
import Hyperlisting.Proofs.Site.Relocation
import Hyperlisting.Proofs.FileTree.Change
import Hyperlisting.Proofs.FileTree.Reading
import Hyperlisting.Proofs.FileTree.Temporary
import Hyperlisting.Proofs.FileTree.Plain
import Hyperlisting.Proofs.FileTree.Finding
import Hyperlisting.Proofs.FileTree.Persistence
import Hyperlisting.Proofs.FileTree.Nested
import Hyperlisting.Proofs.FileTree.Replacement
import Hyperlisting.Proofs.Page.Atomicity
import Hyperlisting.Proofs.FileTree.Soundness
import Hyperlisting.Proofs.Site.Footprint
import Hyperlisting.Proofs.Site.Independence
import Hyperlisting.Proofs.Site.Turns
import Hyperlisting.Proofs.Site.Stopping
import Hyperlisting.Proofs.Site.Interleaving
import Hyperlisting.Proofs.Site.Republishing
import Hyperlisting.Proofs.Site.Regeneration
