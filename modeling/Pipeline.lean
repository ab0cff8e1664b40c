import Pipeline.Cli.Args
import Pipeline.Cli.Run
import Pipeline.Data.Datum
import Pipeline.Data.NameMap
import Pipeline.Decl.Basic
import Pipeline.Decl.Signature
import Pipeline.Document.Basic
import Pipeline.Document.Reader
import Pipeline.Eval.Basic
import Pipeline.Eval.Evaluate
import Pipeline.Expr.Basic
import Pipeline.Expr.Parser
import Pipeline.Fault.Diagnostic
import Pipeline.Fault.Evaluation
import Pipeline.Fault.Noted
import Pipeline.Fault.Reading
import Pipeline.File.Basic
import Pipeline.File.Path
import Pipeline.File.Tree
import Pipeline.Graph.Basic
import Pipeline.Graph.Cycle
import Pipeline.Graph.Order
import Pipeline.Json.Basic
import Pipeline.Json.Reader
import Pipeline.Log.Event
import Pipeline.Main
import Pipeline.Method.Resolve
import Pipeline.Obligation.Basic
import Pipeline.Obligation.Resolve
import Pipeline.Plan.Basic
import Pipeline.Plan.Bind
import Pipeline.Plan.FieldValue
import Pipeline.Proofs.Data.Insertion
import Pipeline.Proofs.Data.NameMap
import Pipeline.Proofs.Data.Path
import Pipeline.Proofs.Decl.Signature
import Pipeline.Proofs.Decl.Terms
import Pipeline.Proofs.Document.Reader
import Pipeline.Proofs.Eval.BuiltIns
import Pipeline.Proofs.Eval.Chaining
import Pipeline.Proofs.Eval.Deferral
import Pipeline.Proofs.Eval.Equality
import Pipeline.Proofs.Eval.FreeNames
import Pipeline.Proofs.Eval.Integers
import Pipeline.Proofs.Eval.Kinds
import Pipeline.Proofs.Eval.LeftOver
import Pipeline.Proofs.Eval.Membership
import Pipeline.Proofs.Eval.Outcome
import Pipeline.Proofs.Eval.Parameters
import Pipeline.Proofs.Eval.Parts
import Pipeline.Proofs.Eval.Renumbering
import Pipeline.Proofs.Eval.Retyping
import Pipeline.Proofs.Eval.SelfType
import Pipeline.Proofs.Expr.Flat
import Pipeline.Proofs.Expr.Grouping
import Pipeline.Proofs.Expr.Relocation
import Pipeline.Proofs.Expr.Sources
import Pipeline.Proofs.Fault.Noted
import Pipeline.Proofs.File.Path
import Pipeline.Proofs.File.Tree
import Pipeline.Proofs.Graph.Acyclic
import Pipeline.Proofs.Graph.Basic
import Pipeline.Proofs.Graph.Cycles
import Pipeline.Proofs.Graph.Order
import Pipeline.Proofs.Graph.Search
import Pipeline.Proofs.Induction
import Pipeline.Proofs.Method.Bounds
import Pipeline.Proofs.Method.Provenance
import Pipeline.Proofs.Method.Qualification
import Pipeline.Proofs.Method.Renumbering
import Pipeline.Proofs.Method.Tiers
import Pipeline.Proofs.Obligation.Constness
import Pipeline.Proofs.Obligation.Derivation
import Pipeline.Proofs.Obligation.Reach
import Pipeline.Proofs.Obligation.Renumbering
import Pipeline.Proofs.Obligation.Specialization
import Pipeline.Proofs.Obligation.Wrappers
import Pipeline.Proofs.Plan.Abort
import Pipeline.Proofs.Plan.Bindings
import Pipeline.Proofs.Plan.Bound
import Pipeline.Proofs.Plan.Complete
import Pipeline.Proofs.Plan.Fields
import Pipeline.Proofs.Plan.Flow
import Pipeline.Proofs.Plan.Independence
import Pipeline.Proofs.Plan.Progress
import Pipeline.Proofs.Plan.References
import Pipeline.Proofs.Plan.Respelling
import Pipeline.Proofs.Plan.Synonyms
import Pipeline.Proofs.Provider.Closure
import Pipeline.Proofs.Provider.Imports
import Pipeline.Proofs.Provider.Listing
import Pipeline.Proofs.Schema.Abort
import Pipeline.Proofs.Schema.Accept
import Pipeline.Proofs.Schema.Admission
import Pipeline.Proofs.Schema.Conformance
import Pipeline.Proofs.Schema.Conversion
import Pipeline.Proofs.Schema.Defaults
import Pipeline.Proofs.Schema.Faults
import Pipeline.Proofs.Schema.Findings
import Pipeline.Proofs.Schema.Inhabitation
import Pipeline.Proofs.Schema.Optional
import Pipeline.Proofs.Schema.References
import Pipeline.Proofs.Schema.Renumbering
import Pipeline.Proofs.Schema.Reporting
import Pipeline.Proofs.Schema.Revalidation
import Pipeline.Proofs.Schema.Sources
import Pipeline.Proofs.Scope.Binding
import Pipeline.Proofs.Scope.Imports
import Pipeline.Proofs.Scope.Invariants
import Pipeline.Proofs.Scope.Resolution
import Pipeline.Proofs.Scope.Steps
import Pipeline.Proofs.Scope.Strengths
import Pipeline.Proofs.Store.Aliases
import Pipeline.Proofs.Store.Canonical
import Pipeline.Proofs.Store.Completed
import Pipeline.Proofs.Store.Completion
import Pipeline.Proofs.Store.Declarations
import Pipeline.Proofs.Store.Distinct
import Pipeline.Proofs.Store.Expansion
import Pipeline.Proofs.Store.Impls
import Pipeline.Proofs.Store.Index
import Pipeline.Proofs.Store.Load
import Pipeline.Proofs.Store.Names
import Pipeline.Proofs.Store.Prelude
import Pipeline.Proofs.Store.PreludeImpls
import Pipeline.Proofs.Store.Reading
import Pipeline.Proofs.Store.Registration
import Pipeline.Proofs.Store.Signatures
import Pipeline.Proofs.Store.Telling
import Pipeline.Proofs.Store.WellFormed
import Pipeline.Proofs.Token.Echoes
import Pipeline.Proofs.Token.Lexing
import Pipeline.Proofs.Token.Moves
import Pipeline.Proofs.Token.Reading
import Pipeline.Proofs.Token.Slices
import Pipeline.Proofs.Ty.Consistency
import Pipeline.Proofs.Ty.Exactness
import Pipeline.Proofs.Ty.Fits
import Pipeline.Proofs.Ty.Matching
import Pipeline.Proofs.Ty.Merging
import Pipeline.Proofs.Ty.Occurrences
import Pipeline.Proofs.Ty.Openness
import Pipeline.Proofs.Ty.Parameters
import Pipeline.Proofs.Ty.Readers
import Pipeline.Proofs.Ty.Renaming
import Pipeline.Proofs.Ty.Spelling
import Pipeline.Proofs.Ty.Substitution
import Pipeline.Proofs.Ty.Tokens
import Pipeline.Proofs.Ty.Vocabulary
import Pipeline.Proofs.Value.Approximation
import Pipeline.Proofs.Value.Parts
import Pipeline.Provider.Basic
import Pipeline.Provider.Collect
import Pipeline.Provider.Directory
import Pipeline.Provider.Memory
import Pipeline.Schema.Accept
import Pipeline.Schema.Basic
import Pipeline.Schema.Conform
import Pipeline.Schema.Validate
import Pipeline.Scope.Basic
import Pipeline.Scope.Resolve
import Pipeline.Settings.Basic
import Pipeline.Store.Basic
import Pipeline.Store.Completion
import Pipeline.Store.Declared
import Pipeline.Store.Imports
import Pipeline.Store.Load
import Pipeline.Store.Names
import Pipeline.Store.Prelude
import Pipeline.Store.Written
import Pipeline.Text.Basic
import Pipeline.Text.Decimal
import Pipeline.Text.Quoted
import Pipeline.Text.Path
import Pipeline.Token.Basic
import Pipeline.Token.Cursor
import Pipeline.Token.Lexer
import Pipeline.Toml.Basic
import Pipeline.Toml.Quoted
import Pipeline.Toml.Reader
import Pipeline.Ty.Basic
import Pipeline.Ty.Unify
import Pipeline.Ty.Written
import Pipeline.Value.Basic
import Pipeline.Value.Equal
import Pipeline.Value.Operation
import Pipeline.Yaml.Writer
import Pipeline.Yaml.Node.OfTokens
import Pipeline.Yaml.Plain
import Pipeline.Yaml.Read
import Pipeline.Yaml.Token.Basic
import Pipeline.Yaml.Token.Lexer
import Pipeline.Yaml.Token.Scalar
import Pipeline.Yaml.Token.Tag
