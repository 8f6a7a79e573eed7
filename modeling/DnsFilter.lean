import DnsFilter.Cache.Basic
import DnsFilter.Cache.Clock
import DnsFilter.Config.Files
import DnsFilter.Config.PolicyFile
import DnsFilter.Calls
import DnsFilter.Coverage.Pass
import DnsFilter.Decision
import DnsFilter.Jobs
import DnsFilter.Main
import DnsFilter.Name.Pattern
import DnsFilter.Precedence
import DnsFilter.Startup
import DnsFilter.Store
import DnsFilter.Toml.Edit
import DnsFilter.Proofs.Name.Labels
import DnsFilter.Proofs.Rule.Accepted
import DnsFilter.Proofs.Store.Reachable
import DnsFilter.Proofs.Store.Refusal
import DnsFilter.Proofs.Rule.Discovery
import DnsFilter.Proofs.Decision.Verdict
import DnsFilter.Proofs.Cache.Entries
import DnsFilter.Proofs.Cache.Sound
import DnsFilter.Proofs.Cache.Storing
import DnsFilter.Proofs.Cache.Run
import DnsFilter.Proofs.Cache.Sweeping
import DnsFilter.Proofs.Cache.Recency
import DnsFilter.Proofs.Coverage.Pass
import DnsFilter.Proofs.Store.Calls
import DnsFilter.Proofs.Coverage.Plan
import DnsFilter.Proofs.Coverage.Roots
import DnsFilter.Proofs.Decision.Alike
import DnsFilter.Proofs.Store.Domains
import DnsFilter.Proofs.Store.Reload
import DnsFilter.Proofs.Coverage.Capacity
import DnsFilter.Proofs.Startup.Seeded
import DnsFilter.Proofs.Startup.Room
import DnsFilter.Proofs.Stats.Retention
import DnsFilter.Proofs.Jobs.Passes
import DnsFilter.Proofs.Cache.Displacement
import DnsFilter.Proofs.Cache.Balance
import DnsFilter.Proofs.Cache.Queue
import DnsFilter.Proofs.Toml.Spacing
import DnsFilter.Proofs.Toml.Quotation
import DnsFilter.Proofs.Toml.Atoms
import DnsFilter.Proofs.Toml.QuoteForms
import DnsFilter.Proofs.Toml.Keys
import DnsFilter.Proofs.Toml.Values
import DnsFilter.Proofs.Toml.Bare
import DnsFilter.Proofs.Toml.Documents
import DnsFilter.Proofs.Config.RoundTrip
import DnsFilter.Proofs.Toml.Trees
import DnsFilter.Proofs.Toml.Statements
import DnsFilter.Proofs.Toml.Grouping
import DnsFilter.Proofs.Toml.Rereading
import DnsFilter.Proofs.Toml.Printing
import DnsFilter.Proofs.Toml.Listing
import DnsFilter.Proofs.Toml.Fields
import DnsFilter.Proofs.Toml.Editing
import DnsFilter.Proofs.Toml.Outline
import DnsFilter.Proofs.Toml.Writing
import DnsFilter.Proofs.Toml.Drafts
import DnsFilter.Proofs.Config.PolicyFile
import DnsFilter.Proofs.Precedence.Winner
import DnsFilter.Proofs.Coverage.Allowed
import DnsFilter.Proofs.Coverage.Counts
import DnsFilter.Proofs.Coverage.Repeated
import DnsFilter.Proofs.Name.Normal
import DnsFilter.Proofs.Coverage.Checks
import DnsFilter.Proofs.Coverage.Batch
import DnsFilter.Proofs.Store.Updates
import DnsFilter.Proofs.Decision.Cleanup
import DnsFilter.Proofs.Decision.Spelling
import DnsFilter.Proofs.Startup.Listed
import DnsFilter.Proofs.Time.Order
import DnsFilter.Proofs.Lookup
import DnsFilter.Proofs.Stats.History
import DnsFilter.Proofs.Text.Bytes
import DnsFilter.Proofs.Stats.Ranking
import DnsFilter.Proofs.Decision.Counting
import DnsFilter.Proofs.Coverage.PolicyChange
import DnsFilter.Proofs.Jobs.Seconds
import DnsFilter.Proofs.Jobs.Cancelling
import DnsFilter.Proofs.Jobs.History
import DnsFilter.Proofs.Jobs.Timetable
import DnsFilter.Proofs.Rule.Suffixes
import DnsFilter.Proofs.RecordType.Reading
