import LockGrid.Config
import LockGrid.Bytes
import LockGrid.Frame
import LockGrid.State
import LockGrid.Loops
import LockGrid.Chan
import LockGrid.Schedule
import LockGrid.CatchUp
import LockGrid.Sec
import LockGrid.Neigh
import LockGrid.Route
import LockGrid.Disc
import LockGrid.Queue
import LockGrid.Link
import LockGrid.Join
import LockGrid.Sched
import LockGrid.Core
import LockGrid.Run
import LockGrid.Table
import LockGrid.Vault
import LockGrid.Handshake
import LockGrid.Refine
import LockGrid.Plain
import LockGrid.Provenance
import LockGrid.Ledger
import LockGrid.Nonces
import LockGrid.Fallback
import LockGrid.Upkeep
import LockGrid.LongTerm
import LockGrid.Fragments
import LockGrid.Slots
import LockGrid.Exchange
import LockGrid.Turns
import LockGrid.Lattice
import LockGrid.Window
import LockGrid.Aside
import LockGrid.Accounts
import LockGrid.Release
import LockGrid.Selection
import LockGrid.Parents
import LockGrid.Channel
import LockGrid.Advert
import LockGrid.Overheard
import LockGrid.Inflation
import LockGrid.Collapse
import LockGrid.Adoption
import LockGrid.Settlement
import LockGrid.Air
import LockGrid.Origin
import LockGrid.Splicing
import LockGrid.Completion
import LockGrid.Links
import LockGrid.Calls
import LockGrid.Subrates
import LockGrid.Uplinks
import LockGrid.Entries
import LockGrid.Contest
import LockGrid.Choice
import LockGrid.Notices
import LockGrid.Succession
import LockGrid.Instants
import LockGrid.Announce
import LockGrid.Freshness
import LockGrid.Stores
import LockGrid.Incumbent
import LockGrid.Pushes
import LockGrid.Retell
import LockGrid.Replay
import LockGrid.Freight
import LockGrid.Leases
import LockGrid.Backlog
import LockGrid.Budget
import LockGrid.Deadline
import LockGrid.Sendoff
import LockGrid.Gossip
import LockGrid.Replies
import LockGrid.News
import LockGrid.Words
import LockGrid.Hopping
import LockGrid.Blacklist
import LockGrid.Ring
import LockGrid.Duplicates
import LockGrid.Transfers
import LockGrid.Tuned
import LockGrid.Traces
import LockGrid.Charts
import LockGrid.Promises
import LockGrid.Evidence
import LockGrid.Delivery
import LockGrid.Numbering
import LockGrid.Initiative
import LockGrid.Metric
import LockGrid.Dwell
import LockGrid.Contention
import LockGrid.Nrf
import LockGrid.Provision
import LockGrid.Handles
import LockGrid.Leaks
import LockGrid.Arbiter
import LockGrid.Commands
import LockGrid.Driver
import LockGrid.Requests
import LockGrid.Stack
import LockGrid.Inevitable
import LockGrid.Ending
import LockGrid.Reserve
import LockGrid.Relaxation
import LockGrid.Convergence
import LockGrid.Power
import LockGrid.Energy
import LockGrid.Cargo
import LockGrid.Letters
import LockGrid.Traffic
