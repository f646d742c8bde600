import PackedForest.Chart
import PackedForest.CommandLine.Options
import PackedForest.CommandLine.Session
import PackedForest.Count
import PackedForest.Decimal.Format
import PackedForest.Decimal.Reader
import PackedForest.Decimal.Shortest
import PackedForest.Derivation
import PackedForest.Derivation.Tree
import PackedForest.Fault
import PackedForest.Features
import PackedForest.Features.Reader
import PackedForest.Grammar
import PackedForest.Graph.Basic
import PackedForest.Graph.Display
import PackedForest.Graph.Fragment
import PackedForest.Graph.Json
import PackedForest.Graph.Record
import PackedForest.Json.Ignored
import PackedForest.Json.Numeral
import PackedForest.Json.Reader
import PackedForest.Json.Shape
import PackedForest.Json.Text
import PackedForest.Json.Writer
import PackedForest.Labels
import PackedForest.Main
import PackedForest.Parser.Forest
import PackedForest.Parser.Match
import PackedForest.Parser.Settings
import PackedForest.Proofs.Derivation.Layout
import PackedForest.Proofs.Derivation.Reading
import PackedForest.Proofs.Forest.Entries
import PackedForest.Proofs.Forest.Keys
import PackedForest.Proofs.Forest.Sharing
import PackedForest.Proofs.Forest.Twins
import PackedForest.Proofs.Grammar.Indexing
import PackedForest.Proofs.Graph.Arena
import PackedForest.Proofs.Graph.Built
import PackedForest.Proofs.Graph.Counting
import PackedForest.Proofs.Graph.Enumeration
import PackedForest.Proofs.Graph.Ranked
import PackedForest.Proofs.Graph.Replay
import PackedForest.Proofs.Graph.Unfolding
import PackedForest.Proofs.Parser.Acyclic
import PackedForest.Proofs.Parser.Analyses
import PackedForest.Proofs.Parser.Choices
import PackedForest.Proofs.Parser.Edges
import PackedForest.Proofs.Parser.Filling
import PackedForest.Proofs.Parser.Limits
import PackedForest.Proofs.Parser.Loading
import PackedForest.Proofs.Parser.Locality
import PackedForest.Proofs.Parser.Match
import PackedForest.Proofs.Parser.Numbering
import PackedForest.Proofs.Parser.Packing
import PackedForest.Proofs.Parser.Recognition
import PackedForest.Proofs.Parser.Trees
import PackedForest.Proofs.Parser.Unaries
import PackedForest.Proofs.Reachability
import PackedForest.Proofs.Rule.Naming
import PackedForest.Proofs.Rule.Shape
import PackedForest.Proofs.Rule.Use
import PackedForest.Proofs.Span.Cut
import PackedForest.Proofs.Span.Window
import PackedForest.Proofs.Trie.Freezing
import PackedForest.Proofs.Trie.Hops
import PackedForest.Proofs.Trie.Index
import PackedForest.Proofs.Trie.Listing
import PackedForest.Proofs.Trie.Lookup
import PackedForest.Proofs.Unary.Closure
import PackedForest.Proofs.Unary.Expansion
import PackedForest.Proofs.Unary.Rounds
import PackedForest.Proofs.Vocabulary
import PackedForest.Reachability
import PackedForest.Rule
import PackedForest.Rule.Path
import PackedForest.Rule.Reader
import PackedForest.Rule.Table
import PackedForest.RuleTree
import PackedForest.Selections
import PackedForest.Span
import PackedForest.Text.Blank
import PackedForest.Text.CodePoints
import PackedForest.Text.Columns
import PackedForest.Text.Digit
import PackedForest.Text.Lines
import PackedForest.Text.Printable
import PackedForest.Text.Quoted
import PackedForest.Tree
import PackedForest.Trie
import PackedForest.Unary
import PackedForest.Vocabulary
import PackedForest.Proofs.Graph.Lockstep
import PackedForest.Proofs.Derivation.Moving
import PackedForest.Proofs.Parser.Window
import PackedForest.Proofs.Forest.Renumbering
import PackedForest.Proofs.Parser.Rearranging
import PackedForest.Proofs.Span.Compositions
import PackedForest.Proofs.Parser.Size
import PackedForest.Proofs.Json.Runs
import PackedForest.Proofs.Json.Integers
import PackedForest.Proofs.Json.Floats
import PackedForest.Proofs.Json.Strings
import PackedForest.Proofs.Json.Shapes
import PackedForest.Proofs.Graph.Checking
import PackedForest.Proofs.Graph.RoundTrip
import PackedForest.Proofs.Graph.Agreement
import PackedForest.Proofs.Parser.Contents
import PackedForest.Proofs.Parser.RoundTrip
import PackedForest.Proofs.Trie.Numbering
import PackedForest.Proofs.Graph.Showing
import PackedForest.Proofs.Parser.Room
import PackedForest.Proofs.Parser.Checked
import PackedForest.Proofs.Parser.Faultless
import PackedForest.Proofs.Features
import PackedForest.Proofs.Renaming.Basic
import PackedForest.Proofs.Renaming.Graph
import PackedForest.Proofs.Renaming.Derivations
import PackedForest.Proofs.Renaming.Forest
import PackedForest.Proofs.Renaming.Sentences
import PackedForest.Proofs.Text.Words
import PackedForest.Proofs.Text.Columns
import PackedForest.Proofs.Decimal.Plain
import PackedForest.Proofs.Rule.Tokens
import PackedForest.Proofs.Rule.Spelling
import PackedForest.Proofs.Rule.Acceptance
import PackedForest.Proofs.Rule.Writing
import PackedForest.Proofs.Rule.Rereading
import PackedForest.Proofs.Rule.Reloading
import PackedForest.Proofs.Graph.Admission
import PackedForest.Proofs.Graph.Editing
import PackedForest.Proofs.Rule.Labelling
import PackedForest.Proofs.Graph.Checked
import PackedForest.Proofs.Graph.Tally
import PackedForest.Proofs.Derivation.Building
import PackedForest.Proofs.Graph.Simple
import PackedForest.Proofs.Graph.Cycles
import PackedForest.Proofs.Graph.Bounded
import PackedForest.Proofs.Unary.Distance
import PackedForest.Proofs.Parser.Relaxing
import PackedForest.Proofs.Trie.Halving
import PackedForest.Proofs.Trie.Gathering
import PackedForest.Proofs.Vocabulary.Requests
import PackedForest.Proofs.CommandLine.Sessions
