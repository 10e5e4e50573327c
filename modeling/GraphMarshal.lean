import GraphMarshal.Binding
import GraphMarshal.Calendar.Date
import GraphMarshal.Calendar.Instant
import GraphMarshal.Calendar.Reader
import GraphMarshal.Config
import GraphMarshal.Datatype
import GraphMarshal.Distinct
import GraphMarshal.Engine.Candidates
import GraphMarshal.Engine.Follow
import GraphMarshal.Engine.Identity
import GraphMarshal.Engine.Read
import GraphMarshal.Engine.Registry
import GraphMarshal.Engine.State
import GraphMarshal.Engine.Write
import GraphMarshal.Error
import GraphMarshal.Graph
import GraphMarshal.Graph.Collection
import GraphMarshal.Heap
import GraphMarshal.Instance
import GraphMarshal.Json
import GraphMarshal.Json.Reader
import GraphMarshal.Kind
import GraphMarshal.Literal
import GraphMarshal.Namespaces
import GraphMarshal.Number.Digits
import GraphMarshal.Number.Floating
import GraphMarshal.Number.Integer
import GraphMarshal.Number.Shortest
import GraphMarshal.Resource
import GraphMarshal.Schema
import GraphMarshal.Schema.Lineage
import GraphMarshal.Source
import GraphMarshal.Source.Dialect
import GraphMarshal.Source.Memory
import GraphMarshal.Table
import GraphMarshal.Term
import GraphMarshal.Term.Json
import GraphMarshal.Text.Blank
import GraphMarshal.Text.Percent
import GraphMarshal.Text.Split
import GraphMarshal.Text.Uri
import GraphMarshal.Triple
import GraphMarshal.Value
import GraphMarshal.Value.Convert
import GraphMarshal.Vocabulary
import GraphMarshal.Proofs.Contract
import GraphMarshal.Proofs.Reading
import GraphMarshal.Proofs.Budgets
import GraphMarshal.Proofs.Growth
import GraphMarshal.Proofs.Construction
import GraphMarshal.Proofs.Termination
import GraphMarshal.Proofs.References
import GraphMarshal.Proofs.Shape
import GraphMarshal.Proofs.Codec
import GraphMarshal.Proofs.Description
import GraphMarshal.Proofs.Copies
import GraphMarshal.Proofs.Fields
import GraphMarshal.Proofs.Copying
import GraphMarshal.Proofs.Identification
import GraphMarshal.Proofs.Encoding
import GraphMarshal.Proofs.Sheets
import GraphMarshal.Proofs.Writing
import GraphMarshal.Proofs.Soundness
import GraphMarshal.Proofs.Operations
import GraphMarshal.Proofs.Awaiting
import GraphMarshal.Proofs.Outcome
import GraphMarshal.Proofs.Decoding
import GraphMarshal.Proofs.Origins
import GraphMarshal.Proofs.Permanence
import GraphMarshal.Proofs.Naming
import GraphMarshal.Proofs.Showing
import GraphMarshal.Proofs.RoundTrip
import GraphMarshal.Proofs.Walking
import GraphMarshal.Proofs.RecordGraphs
import GraphMarshal.Proofs.Aftermath
import GraphMarshal.Proofs.Typing
import GraphMarshal.Proofs.Failures
import GraphMarshal.Proofs.Leniency
import GraphMarshal.Proofs.StandIns
import GraphMarshal.Proofs.Pairing
import GraphMarshal.Proofs.Following
import GraphMarshal.Proofs.Strictness
import GraphMarshal.Proofs.Resolution
import GraphMarshal.Proofs.Prefixes
import GraphMarshal.Proofs.Rendering
import GraphMarshal.Proofs.Returning
import GraphMarshal.Proofs.Classes
import GraphMarshal.Proofs.Languages
import GraphMarshal.Proofs.Tagging
import GraphMarshal.Proofs.Closure
import GraphMarshal.Proofs.Deferral
import GraphMarshal.Proofs.Blame
import GraphMarshal.Proofs.Refinement
import GraphMarshal.Proofs.Literals
import GraphMarshal.Proofs.Relevance
import GraphMarshal.Proofs.Chains
import GraphMarshal.Proofs.Fetching
import GraphMarshal.Proofs.Specificity
import GraphMarshal.Proofs.Overriding
import GraphMarshal.Proofs.Numerals
import GraphMarshal.Proofs.Selection
import GraphMarshal.Proofs.Scalars
import GraphMarshal.Proofs.Dates
import GraphMarshal.Proofs.Instants
import GraphMarshal.Proofs.Minting
import GraphMarshal.Proofs.Atomicity
import GraphMarshal.Proofs.Conduct
import GraphMarshal.Proofs.Repetition
import GraphMarshal.Proofs.Containment
import GraphMarshal.Proofs.Order
import GraphMarshal.Proofs.Deduplication
import GraphMarshal.Proofs.Registration
import GraphMarshal.Proofs.Interchange
import GraphMarshal.Proofs.Comparing
import GraphMarshal.Proofs.Properties
import GraphMarshal.Proofs.Courses
import GraphMarshal.Proofs.Searching
