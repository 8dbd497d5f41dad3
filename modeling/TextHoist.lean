import TextHoist.Command.Files
import TextHoist.Command.Options
import TextHoist.Command.Run
import TextHoist.Edit.Hoist
import TextHoist.Edit.Patch
import TextHoist.Editor.Host
import TextHoist.Editor.Recorder
import TextHoist.Editor.Request
import TextHoist.Editor.Session
import TextHoist.Main
import TextHoist.Markup.Dialect
import TextHoist.Markup.Leaf
import TextHoist.Markup.Lexeme
import TextHoist.Markup.Node
import TextHoist.Markup.Path
import TextHoist.Markup.Reading
import TextHoist.Markup.Reference
import TextHoist.Markup.Tag
import TextHoist.Markup.Writing
import TextHoist.Source.Cursor
import TextHoist.Source.Error
import TextHoist.Source.Limits
import TextHoist.Source.Position
import TextHoist.Text.Characters
import TextHoist.Text.Bytes
import TextHoist.Proofs.Source.Lookup
import TextHoist.Proofs.Markup.References
import TextHoist.Proofs.Markup.Names
import TextHoist.Proofs.Markup.Grammar
import TextHoist.Proofs.Markup.Contents
import TextHoist.Proofs.Markup.ReadTag
import TextHoist.Proofs.Markup.ReadLeaf
import TextHoist.Proofs.Markup.Turns
import TextHoist.Proofs.Markup.Acceptance
import TextHoist.Proofs.Markup.Productions
import TextHoist.Proofs.Markup.Bounds
import TextHoist.Proofs.Markup.Escape
import TextHoist.Proofs.Markup.Written
import TextHoist.Proofs.Markup.RoundTrip
import TextHoist.Proofs.Edit.Refinement
import TextHoist.Proofs.Editor.History
import TextHoist.Proofs.Markup.Caret
import TextHoist.Proofs.Editor.Repeat
import TextHoist.Proofs.Editor.Availability
import TextHoist.Proofs.Markup.Slices
import TextHoist.Proofs.Markup.Deepest
import TextHoist.Proofs.Edit.Rejection
import TextHoist.Proofs.Editor.Applicability
import TextHoist.Proofs.Edit.Independence
import TextHoist.Proofs.Editor.Saving
import TextHoist.Proofs.Command.Arguments
import TextHoist.Proofs.Command.Outcome
import TextHoist.Proofs.Command.Frame
import TextHoist.Proofs.Markup.Repeats
import TextHoist.Proofs.Editor.Reopening
import TextHoist.Proofs.Text.Boundary
import TextHoist.Proofs.Edit.Inversion
import TextHoist.Proofs.Source.Counting
import TextHoist.Proofs.Markup.Faults
import TextHoist.Proofs.Markup.Reports
