import PegTree.Text.Basic
import PegTree.Text.Input
import PegTree.Text.CodeTable
import PegTree.Text.LowerCase
import PegTree.Text.CharProperty
import PegTree.Text.CaseFold
import PegTree.Text.Escaped
import PegTree.Text.Numeral
import PegTree.Pattern.CharClass
import PegTree.Pattern.Regex
import PegTree.Pattern.Reading
import PegTree.Pattern.Basic
import PegTree.Options
import PegTree.Error
import PegTree.Matcher
import PegTree.Tree.Basic
import PegTree.Tree.Lookup
import PegTree.Tree.Delete
import PegTree.Tree.Simplify
import PegTree.Expr.Basic
import PegTree.Expr.Equality
import PegTree.Expr.Placeholder
import PegTree.Cursor
import PegTree.Eval.Basic
import PegTree.Eval.Leaf
import PegTree.Eval.Compound
import PegTree.Grammar.Basic
import PegTree.Eval.Call
import PegTree.Session
import PegTree.Abnf.Error
import PegTree.Abnf.Layout
import PegTree.Abnf.Numerals
import PegTree.Abnf.Grammar
import PegTree.Abnf.Definitions
import PegTree.Abnf.Compile
import PegTree.Abnf.Register
import PegTree.Proofs.Span
import PegTree.Proofs.Closing
import PegTree.Proofs.Obtainable
import PegTree.Proofs.Thinned
import PegTree.Proofs.Derivation
import PegTree.Proofs.Triple
import PegTree.Proofs.Evaluation
import PegTree.Proofs.History
import PegTree.Proofs.Refinement
import PegTree.Proofs.Stack
import PegTree.Proofs.Termination
import PegTree.Proofs.Cursors
import PegTree.Proofs.Lockstep
import PegTree.Proofs.Assertions
import PegTree.Proofs.Pruning
import PegTree.Proofs.LeftRecursion
import PegTree.Proofs.Caching
import PegTree.Proofs.DepthLimit
import PegTree.Proofs.Trees
import PegTree.Proofs.Adequacy
import PegTree.Proofs.Matching
import PegTree.Proofs.PegSemantics
import PegTree.Proofs.Answers
import PegTree.Proofs.Cleaning
import PegTree.Proofs.Splicing
import PegTree.Proofs.Safety
import PegTree.Proofs.Translation
import PegTree.Proofs.Patterns
import PegTree.Proofs.Ranges
import PegTree.Proofs.Abnf.Rules
import PegTree.Proofs.Abnf.Tree
import PegTree.Proofs.Abnf.Shape
import PegTree.Proofs.Abnf.Syntax
import PegTree.Proofs.Reads
import PegTree.Proofs.Abnf.Decoding
import PegTree.Proofs.Abnf.Tokens
import PegTree.Proofs.Abnf.Phrases
import PegTree.Proofs.Abnf.Layout
import PegTree.Proofs.Abnf.Meaning
import PegTree.Proofs.Abnf.RoundTrip
import PegTree.Proofs.Carries
import PegTree.Proofs.Abnf.Passage
import PegTree.Proofs.Abnf.Walk
import PegTree.Proofs.Abnf.Operator
import PegTree.Proofs.Abnf.Spacing
import PegTree.Proofs.Abnf.Blocks
import PegTree.Proofs.Yield
import PegTree.Proofs.Abnf.Naming
import PegTree.Proofs.Abnf.Registration
import PegTree.Proofs.Declaring
import PegTree.Proofs.Registry
import PegTree.Proofs.Abnf.Lines
import PegTree.Proofs.Reordering
import PegTree.Proofs.Simplification
import PegTree.Proofs.Grouping
import PegTree.Proofs.Abnf.Store
import PegTree.Proofs.Placeholders
import PegTree.Proofs.Abnf.Resolution
import PegTree.Proofs.Repetition
import PegTree.Proofs.Abnf.Normalization
import PegTree.Proofs.Abnf.Numerals
import PegTree.Proofs.Abnf.Terminals
import PegTree.Proofs.Deletion
import PegTree.Proofs.Reentry
import PegTree.Proofs.Caseless
import PegTree.Proofs.LineColumn
