import MathScript.Proofs.Abreast
import MathScript.Proofs.Acceptance
import MathScript.Proofs.Acts
import MathScript.Proofs.Adjoining
import MathScript.Proofs.Aiming
import MathScript.Proofs.Alternatives
import MathScript.Proofs.Aside
import MathScript.Proofs.Availability
import MathScript.Proofs.Balance
import MathScript.Proofs.Beside
import MathScript.Proofs.Built
import MathScript.Proofs.Calls
import MathScript.Proofs.Charge
import MathScript.Proofs.Christening
import MathScript.Proofs.Climbing
import MathScript.Proofs.Composing
import MathScript.Proofs.Compounds
import MathScript.Proofs.Control
import MathScript.Proofs.Copies
import MathScript.Proofs.Course
import MathScript.Proofs.Curtail
import MathScript.Proofs.Cutoff
import MathScript.Proofs.Declarations
import MathScript.Proofs.Diary
import MathScript.Proofs.Erase
import MathScript.Proofs.Estate
import MathScript.Proofs.Exchanges
import MathScript.Proofs.Expressions
import MathScript.Proofs.Extents
import MathScript.Proofs.Finishing
import MathScript.Proofs.Fitting
import MathScript.Proofs.Flow
import MathScript.Proofs.Folded
import MathScript.Proofs.Folding
import MathScript.Proofs.Follows
import MathScript.Proofs.Formula
import MathScript.Proofs.Frames
import MathScript.Proofs.Gaps
import MathScript.Proofs.Generics
import MathScript.Proofs.Genuine
import MathScript.Proofs.Glances
import MathScript.Proofs.Handovers
import MathScript.Proofs.History
import MathScript.Proofs.Holding
import MathScript.Proofs.Hosting
import MathScript.Proofs.Hygiene
import MathScript.Proofs.Inlays
import MathScript.Proofs.Inlining
import MathScript.Proofs.Inside
import MathScript.Proofs.Isolation
import MathScript.Proofs.Kindred
import MathScript.Proofs.Kinds
import MathScript.Proofs.Layout
import MathScript.Proofs.Lengths
import MathScript.Proofs.Likeness
import MathScript.Proofs.Limits
import MathScript.Proofs.Locals
import MathScript.Proofs.Locations
import MathScript.Proofs.Lockstep
import MathScript.Proofs.LoopForms
import MathScript.Proofs.Loops
import MathScript.Proofs.Magnitude
import MathScript.Proofs.Marks
import MathScript.Proofs.Matching
import MathScript.Proofs.Meaning
import MathScript.Proofs.Mentions
import MathScript.Proofs.Mirror
import MathScript.Proofs.Names
import MathScript.Proofs.Nesting
import MathScript.Proofs.Nodes
import MathScript.Proofs.Numerals
import MathScript.Proofs.Observing
import MathScript.Proofs.Offers
import MathScript.Proofs.Onward
import MathScript.Proofs.Outcomes
import MathScript.Proofs.Overlay
import MathScript.Proofs.Ownership
import MathScript.Proofs.Pages
import MathScript.Proofs.Parts
import MathScript.Proofs.Passage
import MathScript.Proofs.Passing
import MathScript.Proofs.Placed
import MathScript.Proofs.Products
import MathScript.Proofs.Programs
import MathScript.Proofs.Ranges
import MathScript.Proofs.ReadOnly
import MathScript.Proofs.Reading
import MathScript.Proofs.Record
import MathScript.Proofs.Recursion
import MathScript.Proofs.References
import MathScript.Proofs.Registering
import MathScript.Proofs.Registry
import MathScript.Proofs.Renaming
import MathScript.Proofs.Reports
import MathScript.Proofs.Resolved
import MathScript.Proofs.Retelling
import MathScript.Proofs.Rotations
import MathScript.Proofs.Rounds
import MathScript.Proofs.Routines
import MathScript.Proofs.Scanning
import MathScript.Proofs.Scans
import MathScript.Proofs.Sequence
import MathScript.Proofs.Series
import MathScript.Proofs.Shapes
import MathScript.Proofs.Shift
import MathScript.Proofs.Signals
import MathScript.Proofs.Slots
import MathScript.Proofs.Soundness
import MathScript.Proofs.Spans
import MathScript.Proofs.Spelling
import MathScript.Proofs.Spread
import MathScript.Proofs.Stack
import MathScript.Proofs.Statements
import MathScript.Proofs.StaticKinds
import MathScript.Proofs.Steady
import MathScript.Proofs.Steered
import MathScript.Proofs.Steps
import MathScript.Proofs.Successor
import MathScript.Proofs.Telling
import MathScript.Proofs.Tokens
import MathScript.Proofs.Tracks
import MathScript.Proofs.Trades
import MathScript.Proofs.Truncating
import MathScript.Proofs.Twins
import MathScript.Proofs.Unfolding
import MathScript.Proofs.Uptake
import MathScript.Proofs.Variables
import MathScript.Proofs.Versions
import MathScript.Proofs.Walk
import MathScript.Proofs.Withdrawal
import MathScript.Proofs.Yields
import MathScript.Session
import MathScript.Stock
import MathScript.VectorOps
