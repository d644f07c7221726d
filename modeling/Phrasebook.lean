import Phrasebook.Batch
import Phrasebook.CallSite
import Phrasebook.Expr.Parse
import Phrasebook.FileOptions.Docblock
import Phrasebook.Proofs.AxisCollection
import Phrasebook.Proofs.Signature
import Phrasebook.Proofs.Subexpression
import Phrasebook.Proofs.FragmentTokens
import Phrasebook.Proofs.Acceptance
import Phrasebook.Proofs.FullTable
import Phrasebook.Proofs.Levels
import Phrasebook.Proofs.Wordings
import Phrasebook.Proofs.Arguments
import Phrasebook.Proofs.EvaluationOrder
import Phrasebook.Proofs.Descriptors
import Phrasebook.Proofs.RuntimeNames
import Phrasebook.Proofs.Pieces
import Phrasebook.Proofs.Placeholders
import Phrasebook.Proofs.FragmentAliases
import Phrasebook.Proofs.RuntimeLookup
import Phrasebook.Proofs.Syntax.Spelling
import Phrasebook.Proofs.Syntax.Grammar
import Phrasebook.Proofs.Syntax.Soundness
import Phrasebook.Proofs.Syntax.Completeness
import Phrasebook.Proofs.Syntax.Parsing
import Phrasebook.Proofs.Syntax.Writing
import Phrasebook.Proofs.Syntax.Flattening
import Phrasebook.Proofs.Syntax.RoundTrip
import Phrasebook.Proofs.Syntax.ErrorPlaces
import Phrasebook.Proofs.Json
import Phrasebook.Proofs.PayloadText
import Phrasebook.Proofs.Recasting
import Phrasebook.Proofs.Retelling
import Phrasebook.Proofs.Form
import Phrasebook.Proofs.CutTexts
import Phrasebook.Proofs.Wrapping
import Phrasebook.Proofs.Batch
import Phrasebook.Proofs.AxisPartition
import Phrasebook.Proofs.Meaning
import Phrasebook.Proofs.FileOptions.Notation
import Phrasebook.Proofs.FileOptions.Margins
import Phrasebook.Proofs.FileOptions.FirstTag
import Phrasebook.Proofs.Sentence
import Phrasebook.Proofs.CallOptions
import Phrasebook.Proofs.OwnAxes
import Phrasebook.Proofs.EnumRange
import Phrasebook.Proofs.Suggestions
import Phrasebook.Proofs.HeededOptions
import Phrasebook.Proofs.Insertion
import Phrasebook.Proofs.Register
import Phrasebook.Proofs.Syntax.Progress
