import StaticResolution.Fingerprint
import StaticResolution.Outcome
import StaticResolution.Declarations
import StaticResolution.ClassTable
import StaticResolution.Layout
import StaticResolution.Lookup
import StaticResolution.Conversion
import StaticResolution.Overload
import StaticResolution.InheritanceGraph
import StaticResolution.Registry
import StaticResolution.Statement
import StaticResolution.Analyzer
import StaticResolution.Proofs.Outcome
import StaticResolution.Proofs.Preorder
import StaticResolution.Proofs.Fingerprint
import StaticResolution.Proofs.FunctionTable
import StaticResolution.Proofs.ClassTable.Register
import StaticResolution.Proofs.ClassTable.Batch
import StaticResolution.Proofs.ClassTable.Refinement
import StaticResolution.Proofs.ClassTable.Inheritance
import StaticResolution.Proofs.Layout.Expansion
import StaticResolution.Proofs.Layout.Subobjects
import StaticResolution.Proofs.Layout.Within
import StaticResolution.Proofs.Layout.Copies
import StaticResolution.Proofs.Layout.Depth
import StaticResolution.Proofs.Layout.Parts
import StaticResolution.Proofs.Layout.Memo
import StaticResolution.Proofs.Conversion
import StaticResolution.Proofs.Lookup.Sites
import StaticResolution.Proofs.Lookup.Dominance
import StaticResolution.Proofs.Lookup.Qualified
import StaticResolution.Proofs.Lookup.BaseOrder
import StaticResolution.Proofs.Lookup.Stability
import StaticResolution.Proofs.Lookup.BottomUp
import StaticResolution.Proofs.Lookup.SoleDeclarer
import StaticResolution.Proofs.Overload.Selection
import StaticResolution.Proofs.Overload.Ranking
import StaticResolution.Proofs.Overload.Viability
import StaticResolution.Proofs.Overload.Enrichment
import StaticResolution.Proofs.Session.Run
import StaticResolution.Proofs.Session.Coherence
import StaticResolution.Proofs.Session.MemberCall
import StaticResolution.Proofs.InheritanceGraph.Refinement
import StaticResolution.Proofs.InheritanceGraph.Cycles
import StaticResolution.Proofs.InheritanceGraph.Ancestry
import StaticResolution.Proofs.InheritanceGraph.Layout
import StaticResolution.Proofs.InheritanceGraph.Queries
import StaticResolution.Proofs.Registry.Refinement
import StaticResolution.Proofs.Registry.Functions
import StaticResolution.Proofs.Statement
