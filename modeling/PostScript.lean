import PostScript.BinaryToken
import PostScript.ByteOrder
import PostScript.Bytes
import PostScript.Dictionary.Basic
import PostScript.Dictionary.Stack
import PostScript.Environment
import PostScript.Error
import PostScript.Name.Basic
import PostScript.Name.SystemNames
import PostScript.Name.Table
import PostScript.NumberArray
import PostScript.Numeric.Arithmetic
import PostScript.Numeric.Digits
import PostScript.Numeric.FixedPoint
import PostScript.Numeric.Ieee
import PostScript.Numeric.Literal
import PostScript.Numeric.Number
import PostScript.Numeric.Power
import PostScript.Numeric.Real
import PostScript.Object.Basic
import PostScript.Object.Recipe
import PostScript.Scanner.Lexeme
import PostScript.Scanner.Program
import PostScript.Scanner.Settings
import PostScript.Sequence.Format
import PostScript.Sequence.Header
import PostScript.Sequence.Reading
import PostScript.Sequence.Writing
import PostScript.Source.Any
import PostScript.Source.Basic
import PostScript.Source.Reader
import PostScript.Source.Scanned
import PostScript.Source.Stream
import PostScript.StringBody.Base85
import PostScript.StringBody.Hexadecimal
import PostScript.StringBody.Parenthesised
import PostScript.Utf8
import PostScript.Workspace.Action
import PostScript.Workspace.Basic
import PostScript.Workspace.Command
import PostScript.Workspace.Session
import PostScript.Proofs.Name.Entries
import PostScript.Proofs.Name.WellFormed
import PostScript.Proofs.Name.Initial
import PostScript.Proofs.Numeric.FixedPoint
import PostScript.Proofs.Object.Names
import PostScript.Proofs.Sequence.Header
import PostScript.Proofs.Sequence.Layout
import PostScript.Proofs.Run
import PostScript.Proofs.Sequence.RoundTrip
import PostScript.Proofs.Workspace.Reads
import PostScript.Proofs.Sequence.Names
import PostScript.Proofs.Scanner.Names
import PostScript.Proofs.Dictionary.Cells
import PostScript.Proofs.Workspace.Step
import PostScript.Proofs.Workspace.Parts
import PostScript.Proofs.Workspace.Commands
import PostScript.Proofs.Workspace.Identity
import PostScript.Proofs.Dictionary.Hints
import PostScript.Proofs.Workspace.Hints
import PostScript.Proofs.Sequence.Trace
import PostScript.Proofs.Sequence.Locality
import PostScript.Proofs.Sequence.Zones
import PostScript.Proofs.Environment.Sealed
import PostScript.Proofs.Object.Parts
import PostScript.Proofs.Numeric.Finite
import PostScript.Proofs.Sequence.Values
import PostScript.Proofs.Sequence.Budget
import PostScript.Proofs.Name.Lengths
import PostScript.Proofs.Sequence.Encodable
import PostScript.Proofs.Sequence.Puts
import PostScript.Proofs.Sequence.Written
import PostScript.Proofs.BinaryToken.Decoded
import PostScript.Proofs.BinaryToken.Rewriting
import PostScript.Proofs.Scanner.Blanks
import PostScript.Proofs.StringBody.Base85
import PostScript.Proofs.StringBody.Parenthesised
import PostScript.Proofs.Name.Growth
import PostScript.Proofs.Numeric.Numerals
import PostScript.Proofs.Scanner.Rendering
import PostScript.Proofs.Scanner.Rendered
import PostScript.Proofs.BinaryToken.Extent
import PostScript.Proofs.BinaryToken.Agreement
import PostScript.Proofs.Scanner.Concatenation
import PostScript.Proofs.Source.Plan
import PostScript.Proofs.Source.Tracking
import PostScript.Proofs.StringBody.Tracking
import PostScript.Proofs.Scanner.Tracking
import PostScript.Proofs.Name.Levels
import PostScript.Proofs.Workspace.Quiet
import PostScript.Proofs.Workspace.SaveLevels
import PostScript.Proofs.Source.Trail
import PostScript.Proofs.StringBody.Trails
import PostScript.Proofs.Source.Lines
import PostScript.Proofs.Source.Delivery
import PostScript.Proofs.Scanner.Trails
import PostScript.Proofs.Scanner.Delivery
import PostScript.Proofs.Scanner.Lines
import PostScript.Proofs.Scanner.Resumption
import PostScript.Proofs.Numeric.Spelled
import PostScript.Proofs.Object.Bare
import PostScript.Proofs.Scanner.Manner
import PostScript.Proofs.Scanner.Spelled
import PostScript.Proofs.Scanner.Transcoding
import PostScript.Proofs.Sequence.Secrecy
import PostScript.Proofs.Scanner.Progress
import PostScript.Proofs.Scanner.Bodies
import PostScript.Proofs.Echo
import PostScript.Proofs.Environment.Wrapped
import PostScript.Proofs.BinaryToken.Echoes
import PostScript.Proofs.Scanner.Echoes
import PostScript.Proofs.Scanner.Placement
import PostScript.Proofs.Numeric.Nearest
import PostScript.Proofs.Numeric.Exact
import PostScript.Proofs.Numeric.Unique
import PostScript.Proofs.Numeric.Leading
import PostScript.Proofs.NumberArray.Layout
import PostScript.Proofs.NumberArray.Canonical
import PostScript.Proofs.NumberArray.Quantised
import PostScript.Proofs.NumberArray.Tokens
import PostScript.Proofs.NumberArray.Rewriting
import PostScript.Proofs.ByteOrder
import PostScript.Proofs.StringBody.Encoding
import PostScript.Proofs.StringBody.Faults
import PostScript.Proofs.StringBody.Unclosed
import PostScript.Proofs.Numeric.Decimals
import PostScript.Proofs.Numeric.Radix
import PostScript.Proofs.Numeric.Overflow
import PostScript.Proofs.Numeric.Rounded
import PostScript.Proofs.Scanner.Words
import PostScript.Proofs.Scanner.Literals
import PostScript.Proofs.Name.Forgetting
import PostScript.Proofs.Workspace.Forgetting
import PostScript.Proofs.Sequence.Single
import PostScript.Proofs.Scanner.Immediate
import PostScript.Proofs.Alongside
import PostScript.Proofs.Sequence.Peers
import PostScript.Proofs.Scanner.Peers
import PostScript.Proofs.Scanner.Failures
import PostScript.Proofs.Sequence.HeaderForms
import PostScript.Proofs.Numeric.Held
import PostScript.Proofs.Numeric.LeastScale
import PostScript.Proofs.StringBody.Stray
import PostScript.Proofs.Scanner.Brackets
import PostScript.Proofs.StringBody.Sizes
import PostScript.Proofs.Scanner.Limited
import PostScript.Proofs.Scanner.Depth
import PostScript.Proofs.Numeric.Arithmetic
import PostScript.Proofs.Numeric.Neighbours
import PostScript.Proofs.Numeric.Extension
import PostScript.Proofs.Numeric.Recovery
