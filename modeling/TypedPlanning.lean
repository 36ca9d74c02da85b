import TypedPlanning.Problem
import TypedPlanning.Proofs.Delta
import TypedPlanning.Proofs.Evaluation
import TypedPlanning.Proofs.Fallible
import TypedPlanning.Proofs.Objects
import TypedPlanning.Proofs.Satisfaction
import TypedPlanning.Proofs.Change
import TypedPlanning.Proofs.Calls
import TypedPlanning.Proofs.Closing
import TypedPlanning.Proofs.PlanRuns
import TypedPlanning.Proofs.Construction
import TypedPlanning.Proofs.Provenance
import TypedPlanning.Proofs.TextStates
import TypedPlanning.Proofs.Hierarchy
import TypedPlanning.Proofs.Preservation
import TypedPlanning.Proofs.Checking
import TypedPlanning.Proofs.CheckedDefinitions
import TypedPlanning.Proofs.Sweeps
import TypedPlanning.Proofs.Transactions
import TypedPlanning.Proofs.LeastClosure
import TypedPlanning.Proofs.Typing
import TypedPlanning.Proofs.TypedFacts
import TypedPlanning.Proofs.Ancestors
import TypedPlanning.Proofs.Listings
import TypedPlanning.Proofs.Enumeration
import TypedPlanning.Proofs.Saturation
import TypedPlanning.Proofs.RuleOrder
import TypedPlanning.Proofs.StepLaw
import TypedPlanning.Proofs.DerivedFacts
import TypedPlanning.Proofs.Refusals
import TypedPlanning.Proofs.Layouts
import TypedPlanning.Proofs.Rendering
import TypedPlanning.Proofs.ReadingBack
import TypedPlanning.Proofs.DeclaredTypes
import TypedPlanning.Proofs.ObjectOrder
import TypedPlanning.Proofs.DeclarationOrder
import TypedPlanning.Proofs.Truth
import TypedPlanning.Proofs.Simultaneity
import TypedPlanning.Proofs.ToldChanges
import TypedPlanning.Proofs.FactLayouts
import TypedPlanning.Proofs.PlanLayouts
import TypedPlanning.Proofs.Supertypes
import TypedPlanning.Proofs.IndexedObjects
import TypedPlanning.Proofs.Indices
import TypedPlanning.Proofs.Leftmost
import TypedPlanning.Proofs.Offences
import TypedPlanning.Proofs.CallPieces
import TypedPlanning.Proofs.InPlace
import TypedPlanning.Proofs.Bindings
import TypedPlanning.Proofs.Verbosity
import TypedPlanning.Proofs.Separators
import TypedPlanning.Proofs.InsertedItems
