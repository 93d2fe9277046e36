import Overloading.Fault.Report
import Overloading.Main
import Overloading.Proofs.Derivation
import Overloading.Proofs.Saturation
import Overloading.Stages
import Overloading.Proofs.Prediction
import Overloading.Proofs.Parsing
import Overloading.Proofs.SignatureGrammar
import Overloading.Proofs.SignatureTrees
import Overloading.Proofs.Substitution
import Overloading.Proofs.Unification
import Overloading.Proofs.CallPlans
import Overloading.Proofs.Resumption
import Overloading.Proofs.Sessions
import Overloading.Proofs.TypeReading
import Overloading.Proofs.CallForms
import Overloading.Proofs.AdmissionFaults
import Overloading.Proofs.CatalogRuns
import Overloading.Proofs.Lookup
import Overloading.Proofs.LinearRuns
import Overloading.Proofs.Delivery
import Overloading.Proofs.Dispatching
import Overloading.Proofs.Promotion
import Overloading.Proofs.IntegerArithmetic
import Overloading.Proofs.OperatorCalls
import Overloading.Proofs.Driving
import Overloading.Proofs.CatalogEdits
import Overloading.Proofs.CatalogInvariants
import Overloading.Proofs.Extensions
import Overloading.Proofs.StoreRuns
import Overloading.Proofs.LeastSets
import Overloading.Proofs.Descent
import Overloading.Proofs.Demands
import Overloading.Proofs.Instantiation
import Overloading.Proofs.PlainDeclarations
import Overloading.Proofs.ExplicitArguments
import Overloading.Proofs.Generality
import Overloading.Proofs.WellPlanned
import Overloading.Proofs.OverflowPolicies
import Overloading.Proofs.ConstReferences
import Overloading.Proofs.CastOrders
import Overloading.Proofs.Navigation
import Overloading.Proofs.TypeIdentity
import Overloading.Proofs.PassBounds
import Overloading.Proofs.SententialForms
import Overloading.Proofs.PredictiveGrammars
import Overloading.Proofs.Sequencing
import Overloading.Proofs.Collecting
import Overloading.Proofs.CommonKinds
import Overloading.Proofs.RepeatedWildcards
import Overloading.Proofs.Halting
import Overloading.Proofs.Addresses
import Overloading.Proofs.PointerWalks
import Overloading.Proofs.OwnedStorage
import Overloading.Proofs.Copies
import Overloading.Proofs.CallEncoding
import Overloading.Proofs.ConcreteTypes
import Overloading.Proofs.Preparation
import Overloading.Proofs.TemplateSignatures
import Overloading.Proofs.DefaultConstructors
import Overloading.Proofs.DefaultValues
import Overloading.Proofs.Residues
import Overloading.Proofs.OperatorEntries
import Overloading.Proofs.ConstructorCalls
import Overloading.Proofs.SearchDepth
