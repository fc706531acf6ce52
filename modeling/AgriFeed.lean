import AgriFeed.Foundation.Machine
import AgriFeed.Foundation.SignedInt
import AgriFeed.Foundation.Windows
import AgriFeed.Oracle.Admin
import AgriFeed.Oracle.Contract
import AgriFeed.Oracle.Interface
import AgriFeed.Oracle.Transition
import AgriFeed.Foundation.OrderStatistics
import AgriFeed.Oracle.Median
import AgriFeed.Oracle.Invariants
import AgriFeed.Oracle.Quorum
import AgriFeed.Oracle.Finalization
import AgriFeed.Oracle.Batches
import AgriFeed.Oracle.Records
import AgriFeed.Oracle.Nodes
import AgriFeed.Foundation.TokenLedger
import AgriFeed.Pricefloor.Agreement
import AgriFeed.Pricefloor.Contract
import AgriFeed.Pricefloor.Transition
import AgriFeed.Pricefloor.Invariants
import AgriFeed.Pricefloor.Escrow
import AgriFeed.Foundation.Interleaving
import AgriFeed.Pricefloor.Cancellation
import AgriFeed.Pricefloor.Settlement
import AgriFeed.Deployment
import AgriFeed.Foundation.Lockstep
import AgriFeed.Foundation.Retention
import AgriFeed.Oracle.History
import AgriFeed.Deployment.Pricing
import AgriFeed.Oracle.Locality
import AgriFeed.Oracle.Reordering
import AgriFeed.Oracle.Authority
import AgriFeed.Oracle.Isolation
import AgriFeed.Pricefloor.Authority
import AgriFeed.Oracle.EventStream
import AgriFeed.Oracle.WellFormed
import AgriFeed.Oracle.Robustness
import AgriFeed.Pricefloor.Payouts
import AgriFeed.Foundation.Since
import AgriFeed.Oracle.NodeSet
import AgriFeed.Oracle.Duplicates
import AgriFeed.Oracle.Lookup
import AgriFeed.Foundation.Fleet
import AgriFeed.Pricefloor.Market
import AgriFeed.Oracle.PriceFeed
import AgriFeed.Oracle.Refinement
import AgriFeed.Deployment.Protection
import AgriFeed.Foundation.Tenure
import AgriFeed.Oracle.Lifetimes
import AgriFeed.Pricefloor.Lifetimes
import AgriFeed.Oracle.Recovery
import AgriFeed.Oracle.Finality
import AgriFeed.Pricefloor.PriceFloor
import AgriFeed.Pricefloor.Refinement
import AgriFeed.Oracle.Failures
import AgriFeed.Pricefloor.Failures
import AgriFeed.Deployment.Composition
import AgriFeed.Oracle.Ordering
import AgriFeed.Oracle.Backlog
import AgriFeed.Pricefloor.EventLog
import AgriFeed.Oracle.Perturbation
import AgriFeed.Deployment.Sensitivity
import AgriFeed.Oracle.Reporting
import AgriFeed.Deployment.Liveness
