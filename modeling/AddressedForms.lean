import AddressedForms.Denotator.Default
import AddressedForms.Denotator.Edit
import AddressedForms.Denotator.Fingerprint
import AddressedForms.Denotator.Outline
import AddressedForms.Document.Manuscript
import AddressedForms.Document.Reader
import AddressedForms.Form.Outline
import AddressedForms.Proofs.Form.Bisimulation
import AddressedForms.Proofs.Form.Reachable
import AddressedForms.Proofs.DepthFirst
import AddressedForms.Proofs.Number.Fraction
import AddressedForms.Proofs.Number.Decimal
import AddressedForms.Proofs.Address.Proper
import AddressedForms.Proofs.Table
import AddressedForms.Proofs.Document.Node
import AddressedForms.Proofs.Document.LeafNodes
import AddressedForms.Proofs.Denotator.Nodes
import AddressedForms.Proofs.Document.Resolution
import AddressedForms.Proofs.Document.Manuscript
import AddressedForms.Proofs.Document.FormNodes
import AddressedForms.Proofs.Document.DenotatorNodes
import AddressedForms.Proofs.Document.Definitions
import AddressedForms.Proofs.Document.LeafResolution
import AddressedForms.Proofs.Document.FormExtension
import AddressedForms.Proofs.Document.FormPlan
import AddressedForms.Proofs.Document.BuiltForms
import AddressedForms.Proofs.Document.FormRoundTrip
import AddressedForms.Proofs.Denotator.Equality
import AddressedForms.Proofs.Denotator.Construct
import AddressedForms.Proofs.Document.Assembly
import AddressedForms.Proofs.Document.DenotatorReading
import AddressedForms.Proofs.Document.DenotatorRoundTrip
import AddressedForms.Proofs.Denotator.Recovery
import AddressedForms.Proofs.Document.AddressRoundTrip
import AddressedForms.Proofs.Denotator.Operations
import AddressedForms.Proofs.Repository.Growth
import AddressedForms.Proofs.Repository.Sorted
import AddressedForms.Proofs.Document.DocumentOrder
import AddressedForms.Proofs.Circles
import AddressedForms.Proofs.Document.Settling
import AddressedForms.Proofs.Document.Congruence
import AddressedForms.Proofs.Document.Sources
import AddressedForms.Proofs.Document.Honest
import AddressedForms.Proofs.Document.Meetings
import AddressedForms.Proofs.Document.Circularity
import AddressedForms.Proofs.Document.Assembled
import AddressedForms.Proofs.Document.BuiltDefinitions
import AddressedForms.Proofs.Repository.Registration
import AddressedForms.Proofs.Document.LeavesInRange
import AddressedForms.Proofs.Document.Soundness
import AddressedForms.Proofs.Document.CleanDocuments
import AddressedForms.Proofs.Document.CleanForms
import AddressedForms.Proofs.Document.Completeness
import AddressedForms.Proofs.Document.ErrorLimit
import AddressedForms.Proofs.Document.ReaderRuns
import AddressedForms.Proofs.Form.Coincide
import AddressedForms.Proofs.Document.CoincidingForms
import AddressedForms.Proofs.Document.CoincidingReadings
import AddressedForms.Proofs.Document.Capture
import AddressedForms.Proofs.Repository.Holding
import AddressedForms.Proofs.Repository.Idempotence
import AddressedForms.Proofs.Address.Composition
import AddressedForms.Proofs.Denotator.Naturality
import AddressedForms.Proofs.Document.LeafRoundTrip
import AddressedForms.Proofs.PostOrder
import AddressedForms.Proofs.Document.DefinedNames
import AddressedForms.Proofs.Document.Attempts
import AddressedForms.Proofs.Document.ProperModules
import AddressedForms.Proofs.Document.WholeForms
import AddressedForms.Proofs.Document.RefusedRequests
import AddressedForms.Proofs.Hash.Canonical
import AddressedForms.Proofs.Denotator.Fingerprint
import AddressedForms.Proofs.Denotator.Content
import AddressedForms.Proofs.Denotator.Sharing
import AddressedForms.Proofs.Denotator.Copies
import AddressedForms.Proofs.Repository.Copies
import AddressedForms.Proofs.Address.Division
import AddressedForms.Proofs.Document.SurvivingForms
import AddressedForms.Proofs.Document.RejectedForms
import AddressedForms.Proofs.Json.Strings
import AddressedForms.Proofs.Json.Layout
import AddressedForms.Proofs.Cbor.Items
import AddressedForms.Proofs.Document.Renderings
import AddressedForms.Proofs.Address.Coherence
import AddressedForms.Proofs.Denotator.Constancy
import AddressedForms.Proofs.Denotator.Default
import AddressedForms.Proofs.SearchStack
import AddressedForms.Proofs.Form.DependencyOrder
import AddressedForms.Proofs.Denotator.Members
import AddressedForms.Proofs.Denotator.Grafts
import AddressedForms.Proofs.Denotator.Replacement
import AddressedForms.Proofs.Denotator.LeafMaps
import AddressedForms.Proofs.Number.Numeral
import AddressedForms.Proofs.Form.Registry
import AddressedForms.Proofs.Repository.Standing
import AddressedForms.Proofs.Repository.Labels
import AddressedForms.Proofs.Address.Residues
import AddressedForms.Proofs.Form.Fingerprint
import AddressedForms.Proofs.Denotator.Labels
import AddressedForms.Proofs.Document.DefinitionOrder
