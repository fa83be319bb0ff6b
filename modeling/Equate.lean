import Equate.Main
import Equate.CommandLine.Basic
import Equate.CommandLine.Directory
import Equate.Emission.Equality
import Equate.Emission.Enumeration
import Equate.Plan
import Equate.Contract.Check
import Equate.Enumeration.Check
import Equate.Declaration.Reader
import Equate.Options
import Equate.Declaration.Basic
import Equate.Diagnostic.Text
import Equate.Diagnostic.Json
import Equate.Diagnostic.History
import Equate.Sequence.Element
import Equate.Node.Reader
import Equate.Node.Printer
import Equate.Node.Equality
import Equate.Node.Hash
import Equate.Proofs.Node.Equality
import Equate.Proofs.Node.SameValue
import Equate.Proofs.Node.Hash
import Equate.Proofs.Sequence.Classes
import Equate.Proofs.Sequence.Equality
import Equate.Proofs.Sequence.Element
import Equate.Proofs.Sequence.Hash
import Equate.Proofs.Sequence.Candidates
import Equate.Proofs.Plan.Equality
import Equate.Proofs.Node.Outline
import Equate.Proofs.Declaration.Relocation
import Equate.Proofs.Declaration.Sketch
import Equate.Proofs.Declaration.Outline
import Equate.Proofs.Declaration.Quotes
import Equate.Proofs.Diagnostic.Report
import Equate.Proofs.Compile.Form
import Equate.Proofs.Compile.Session
import Equate.Proofs.Compile.Key
import Equate.Proofs.Compile.Pool
import Equate.Proofs.Compile.Schedule
import Equate.Proofs.Enumeration.Check
import Equate.Proofs.Grouping
import Equate.Proofs.Contract.Rules
import Equate.Proofs.Contract.Report
import Equate.Proofs.Contract.Acceptance
import Equate.Proofs.Contract.Entries
import Equate.Proofs.Node.Unmarked
import Equate.Proofs.Node.Lexeme
import Equate.Proofs.Node.Legible
import Equate.Proofs.Node.RoundTrip
import Equate.Proofs.Node.Context
import Equate.Proofs.Node.Integer
import Equate.Proofs.Node.Spans
import Equate.Proofs.Node.Tiling
import Equate.Proofs.Node.Insertion
import Equate.Proofs.Compile.Results
import Equate.Proofs.Compile.Runs
import Equate.Proofs.Compile.Synthesis
import Equate.Proofs.Compile.Change
import Equate.Proofs.Compile.Origin
import Equate.Proofs.Compile.Hints
import Equate.Proofs.Contract.Relocation
import Equate.Proofs.Compile.Places
import Equate.Proofs.Compile.Names
import Equate.Proofs.Compile.Identifiers
import Equate.Proofs.Emission.Tables
import Equate.Proofs.Emission.Evaluation
import Equate.Proofs.Plan.Collections
import Equate.Proofs.Plan.Participation
import Equate.Proofs.Plan.Linking
import Equate.Proofs.Plan.Calls
import Equate.Proofs.Plan.Reordering
import Equate.Proofs.Plan.LastWord
import Equate.Proofs.Compile.Tally
import Equate.Proofs.Compile.Statistics
import Equate.Proofs.Json.Reader
import Equate.Proofs.Diagnostic.Json
import Equate.Proofs.Compile.Ineligible
import Equate.Proofs.Compile.Duplicates
import Equate.Proofs.Declaration.Completeness
import Equate.Proofs.Declaration.WellFormed
import Equate.Proofs.Declaration.Reordering
import Equate.Proofs.Enumeration.Lookup
import Equate.Proofs.Declaration.Strategy
import Equate.Proofs.Declaration.TypeForm
import Equate.Proofs.Diagnostic.History
import Equate.Proofs.Compile.Reports
import Equate.Proofs.Compile.Attribution
import Equate.Proofs.Node.Progress
