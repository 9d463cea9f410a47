import Classlet.Syntax.Program
import Classlet.Ir.Listing
import Classlet.Compilation
import Classlet.Json.Printer
import Classlet.Codec.Symbols
import Classlet.Codec.Ir
import Classlet.Codec.Settings
import Classlet.Proofs.Ir.VarTable
import Classlet.Proofs.Semantics.Machine
import Classlet.Proofs.Semantics.Source
import Classlet.Proofs.Syntax.Replace
import Classlet.Proofs.Syntax.Reading
import Classlet.Proofs.Syntax.Building
import Classlet.Proofs.Lowering.Names
import Classlet.Proofs.Lowering.Types
import Classlet.Proofs.Lowering.Fragments
import Classlet.Proofs.Lowering.Expressions
import Classlet.Proofs.Lowering.Labels
import Classlet.Proofs.Lowering.Statements
import Classlet.Proofs.Lowering.Meaning
import Classlet.Proofs.Optimize.Knowledge
import Classlet.Proofs.Optimize.Sameness
import Classlet.Proofs.Syntax.Edited
import Classlet.Proofs.Optimize.Folding
import Classlet.Proofs.Optimize.Substitution
import Classlet.Proofs.Optimize.Propagation
import Classlet.Proofs.Optimize.Methods
import Classlet.Proofs.Symbols.Declarations
import Classlet.Proofs.Registers.Execution
import Classlet.Proofs.Optimize.Acceptance
import Classlet.Proofs.Lowering.Bodies
import Classlet.Proofs.Lowering.Agreement
import Classlet.Proofs.Optimize.Fixpoint
import Classlet.Proofs.Analysis.Resolution
import Classlet.Proofs.Lowering.Accepted
import Classlet.Proofs.Lowering.Calls
import Classlet.Proofs.Lowering.Assignments
import Classlet.Proofs.Compilation.Causes
import Classlet.Proofs.Analysis.FailFast
import Classlet.Proofs.Analysis.Policies
import Classlet.Proofs.Compilation.Results
import Classlet.Proofs.Syntax.Links
import Classlet.Proofs.Syntax.Parentheses
import Classlet.Proofs.Optimize.NormalForm
import Classlet.Proofs.Optimize.Parentheses
import Classlet.Proofs.Symbols.Messages
import Classlet.Proofs.Analysis.Parentheses
import Classlet.Proofs.Lowering.Parentheses
import Classlet.Proofs.Compilation.Parentheses
import Classlet.Proofs.Lowering.ControlFlow
import Classlet.Proofs.Lowering.Temporaries
import Classlet.Proofs.Registers.Edges
import Classlet.Proofs.Registers.Greedy
import Classlet.Proofs.Registers.Classes
import Classlet.Proofs.Lowering.Interfaces
import Classlet.Proofs.Compilation.Methods
import Classlet.Proofs.Syntax.Rewriting
import Classlet.Proofs.Symbols.Dependence
import Classlet.Proofs.Optimize.Rewriting
import Classlet.Proofs.Analysis.Further
import Classlet.Proofs.Lowering.Classes
import Classlet.Proofs.Compilation.Classes
import Classlet.Proofs.Syntax.Forest
import Classlet.Proofs.Syntax.Copying
import Classlet.Proofs.Syntax.Copies
import Classlet.Proofs.Syntax.Splicing
import Classlet.Proofs.Syntax.Operations
import Classlet.Proofs.Optimize.Collapsing
import Classlet.Proofs.Optimize.Reads
import Classlet.Proofs.Optimize.Constants
import Classlet.Proofs.Lowering.Constants
import Classlet.Proofs.Registers.Independence
import Classlet.Proofs.Syntax.Positions
import Classlet.Proofs.Symbols.Places
import Classlet.Proofs.Compilation.Repetitions
import Classlet.Proofs.Analysis.Visits
import Classlet.Proofs.Analysis.Order
