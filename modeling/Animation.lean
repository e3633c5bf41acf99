import Animation.Main
import Animation.Scene.Act
import Animation.Proofs.Compiler.Outcome
import Animation.Proofs.Expression.Evaluation
import Animation.Proofs.Element.Places
import Animation.Proofs.Element.Resolution
import Animation.Proofs.Document.Declaration
import Animation.Proofs.Document.Acceptance
import Animation.Proofs.Scene.Refusal
import Animation.Proofs.Program.Frame
import Animation.Proofs.Store
import Animation.Proofs.Store.Answers
import Animation.Proofs.Program.Footprint
import Animation.Proofs.World.Interleaving
import Animation.Proofs.Element.Writing
import Animation.Proofs.Element.Respelling
import Animation.Proofs.Document.Loading
import Animation.Proofs.Scene.Loading
import Animation.Proofs.Compiler.FirstFault
import Animation.Proofs.Compiler.Likeness
import Animation.Proofs.Closed
import Animation.Proofs.Document.StartingValue
import Animation.Proofs.Scene.Closed
import Animation.Proofs.Scene.Rebinding
import Animation.Proofs.Scene.LastWriter
import Animation.Proofs.Store.Traces
import Animation.Proofs.Expression.Footprint
import Animation.Proofs.Expression.Dependence
import Animation.Proofs.Scene.Frame
import Animation.Proofs.Document.Nesting
import Animation.Proofs.CommandLine.Commands
import Animation.Proofs.Expression.Branches
import Animation.Proofs.Expression.Straightening
import Animation.Proofs.Element.Relevance
import Animation.Proofs.Compiler.Counter
import Animation.Proofs.Expression.Selection
import Animation.Proofs.Expression.Logic
import Animation.Proofs.Scene.Passes
import Animation.Proofs.Expression.Modulo
import Animation.Proofs.Expression.Poison
import Animation.Proofs.CommandLine.Overriding
import Animation.Proofs.Document.Exactness
