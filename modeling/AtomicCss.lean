import AtomicCss.Text
import AtomicCss.Text.Blank
import AtomicCss.Text.Alphanumeric
import AtomicCss.Text.Scan
import AtomicCss.Text.Bracket
import AtomicCss.Order
import AtomicCss.Value
import AtomicCss.Value.Lexeme
import AtomicCss.Value.Walk
import AtomicCss.Value.Spacing
import AtomicCss.Number.Numeral
import AtomicCss.Number.Binary64
import AtomicCss.Number.Shortest
import AtomicCss.Arbitrary
import AtomicCss.Arbitrary.Math
import AtomicCss.Variant
import AtomicCss.Variant.Grammar
import AtomicCss.Candidate
import AtomicCss.Candidate.Grammar
import AtomicCss.DataType
import AtomicCss.DataType.Keywords
import AtomicCss.DataType.Recognition
import AtomicCss.Css
import AtomicCss.Css.Printer
import AtomicCss.Css.Identifier
import AtomicCss.Theme
import AtomicCss.Theme.Source
import AtomicCss.Theme.Default
import AtomicCss.Step
import AtomicCss.Step.Relation
import AtomicCss.Css.Nesting
import AtomicCss.Registration
import AtomicCss.Variants
import AtomicCss.Opacity
import AtomicCss.Negative
import AtomicCss.Utility
import AtomicCss.DesignSystem
import AtomicCss.DesignSystem.Resolution
import AtomicCss.Standard.Utilities
import AtomicCss.Standard.Variants
import AtomicCss.DesignSystem.Builder
import AtomicCss.Migration.ThemeCall
import AtomicCss.Migration.Stylesheet
import AtomicCss.Migration.BareValue
import AtomicCss.Migration.Template
import AtomicCss.Toml
import AtomicCss.Toml.Scalar
import AtomicCss.Toml.Quoted
import AtomicCss.Toml.Document
import AtomicCss.Config
import AtomicCss.Proofs.Text.Track
import AtomicCss.Proofs.Text.Segments
import AtomicCss.Proofs.Text.Closing
import AtomicCss.Proofs.Text.Cut
import AtomicCss.Proofs.Text.Name
import AtomicCss.Proofs.Text.Trim
import AtomicCss.Proofs.Text.Dangling
import AtomicCss.Proofs.Text.Pieces
import AtomicCss.Proofs.Text.Replacement
import AtomicCss.Proofs.Text.Splitting
import AtomicCss.Proofs.Text.Quoted
import AtomicCss.Proofs.Value.Tree
import AtomicCss.Proofs.Value.SpacingWalk
import AtomicCss.Proofs.Value.Compaction
import AtomicCss.Proofs.Value.Calls
import AtomicCss.Proofs.Value.Squeeze
import AtomicCss.Proofs.Value.Pruning
import AtomicCss.Proofs.Value.Deletion
import AtomicCss.Proofs.Value.Runs
import AtomicCss.Proofs.Value.RoundTrip
import AtomicCss.Proofs.Arbitrary.Respelling
import AtomicCss.Proofs.Arbitrary.Rereading
import AtomicCss.Proofs.Arbitrary.Hint
import AtomicCss.Proofs.Arbitrary.Spacing
import AtomicCss.Proofs.Arbitrary.Recompaction
import AtomicCss.Proofs.Arbitrary.Legibility
import AtomicCss.Proofs.Arbitrary.Lossless
import AtomicCss.Proofs.Arbitrary.Inert
import AtomicCss.Proofs.Arbitrary.OperatorSpaces
import AtomicCss.Proofs.Arbitrary.Mathematics
import AtomicCss.Proofs.Arbitrary.MathSpacing
import AtomicCss.Proofs.Arbitrary.Insertion
import AtomicCss.Proofs.Variant.Spelling
import AtomicCss.Proofs.Variant.Printing
import AtomicCss.Proofs.Variant.Selector
import AtomicCss.Proofs.Variant.SelectorRoundTrip
import AtomicCss.Proofs.Candidate.Spelling
import AtomicCss.Proofs.Candidate.Pieces
import AtomicCss.Proofs.Candidate.Printing
import AtomicCss.Proofs.Candidate.Canonical
import AtomicCss.Proofs.Candidate.RoundTrip
import AtomicCss.Proofs.Candidate.Reprinting
import AtomicCss.Proofs.Candidate.Hints
import AtomicCss.Proofs.Candidate.Brackets
import AtomicCss.Proofs.Candidate.Named
import AtomicCss.Proofs.Candidate.Regular
import AtomicCss.Proofs.Candidate.Prefix
import AtomicCss.Proofs.Migration.CallWalk
import AtomicCss.Proofs.Migration.ThemeCall
import AtomicCss.Proofs.Migration.Promotion
import AtomicCss.Proofs.Migration.ThemeEdges
import AtomicCss.Proofs.Migration.NamedValue
import AtomicCss.Proofs.Migration.Idempotence
import AtomicCss.Proofs.Migration.Parts
import AtomicCss.Proofs.Migration.ValuePromotion
import AtomicCss.Proofs.Migration.Acceptance
import AtomicCss.Proofs.Migration.Meaning
import AtomicCss.Proofs.DesignSystem.Soundness
import AtomicCss.Proofs.DesignSystem.OfferOrder
import AtomicCss.Proofs.Css.Nesting
import AtomicCss.Proofs.Css.Trails
import AtomicCss.Proofs.Migration.Template
import AtomicCss.Proofs.Variants.Application
import AtomicCss.Proofs.Value.Rewriting
import AtomicCss.Proofs.Value.Walk
import AtomicCss.Proofs.Theme.OrderedMap
import AtomicCss.Proofs.Value.Parentheses
import AtomicCss.Proofs.Value.Exchange
import AtomicCss.Proofs.Value.Marks
import AtomicCss.Proofs.Migration.CallReplacement
import AtomicCss.Proofs.Migration.Stylesheet
import AtomicCss.Proofs.DesignSystem.StaticReach
import AtomicCss.Proofs.DesignSystem.Rejection
import AtomicCss.Proofs.Variants.StaticReach
import AtomicCss.Proofs.Variants.NestedRules
import AtomicCss.Proofs.Variants.QuotedStrings
import AtomicCss.Proofs.Css.Identifier
import AtomicCss.Proofs.Css.Condition
import AtomicCss.Proofs.Step.Relation
import AtomicCss.Proofs.Step.Folding
import AtomicCss.Proofs.Step.Distribution
import AtomicCss.Proofs.Step.Negation
import AtomicCss.Proofs.Negative.Literal
import AtomicCss.Proofs.Negative.Expression
import AtomicCss.Proofs.Negative.SignFlip
import AtomicCss.Proofs.Migration.CallScan
import AtomicCss.Proofs.Migration.Continuation
import AtomicCss.Proofs.Migration.Comments
import AtomicCss.Proofs.Migration.CommentInertness
import AtomicCss.Proofs.Migration.Rereading
import AtomicCss.Proofs.Migration.PendingCalls
import AtomicCss.Proofs.Migration.KeyPaths
import AtomicCss.Proofs.Theme.Blocks
import AtomicCss.Proofs.Theme.QuotedValues
import AtomicCss.Proofs.Theme.TopLevel
import AtomicCss.Proofs.Theme.Lookup
import AtomicCss.Proofs.DesignSystem.Breakpoints
import AtomicCss.Proofs.DesignSystem.NamedOpacity
import AtomicCss.Proofs.DesignSystem.Fractions
import AtomicCss.Proofs.DesignSystem.LiteralTypes
import AtomicCss.Proofs.DataType.Calls
import AtomicCss.Proofs.DataType.Families
import AtomicCss.Proofs.DataType.Positions
import AtomicCss.Proofs.DataType.Ratios
import AtomicCss.Proofs.DataType.Canonical
import AtomicCss.Proofs.DataType.Units
