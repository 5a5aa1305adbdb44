import RecordStore.Contents
import RecordStore.Main
import RecordStore.Proofs.Lines
import RecordStore.Proofs.Patches
import RecordStore.Proofs.Words
import RecordStore.Proofs.Tokens
import RecordStore.Proofs.Fields
import RecordStore.Proofs.Search
import RecordStore.Proofs.Tail
import RecordStore.Proofs.Slots
import RecordStore.Proofs.Solitude
import RecordStore.Proofs.Lookup
import RecordStore.Proofs.Image
import RecordStore.Proofs.Edits
import RecordStore.Proofs.Handles
import RecordStore.Proofs.Locks
import RecordStore.Proofs.Lookups
import RecordStore.Proofs.Appends
import RecordStore.Proofs.Stretches
import RecordStore.Proofs.Writes
import RecordStore.Proofs.Reads
import RecordStore.Proofs.Openings
import RecordStore.Proofs.Runs
import RecordStore.Proofs.Sequential
import RecordStore.Proofs.Linear
import RecordStore.Proofs.Exclusion
import RecordStore.Proofs.Sessions
import RecordStore.Proofs.Outcomes
import RecordStore.Proofs.Bare
import RecordStore.Proofs.Failures
import RecordStore.Proofs.Tracking
import RecordStore.Proofs.Effects
import RecordStore.Proofs.Reopenings
import RecordStore.Proofs.Turns
import RecordStore.Proofs.Recovery
import RecordStore.Proofs.Copies
import RecordStore.Proofs.Cuts
import RecordStore.Proofs.Made
import RecordStore.Proofs.Crashes
import RecordStore.Proofs.Fragments
import RecordStore.Proofs.Facing
import RecordStore.Proofs.Quiet
import RecordStore.Proofs.Replacing
import RecordStore.Proofs.Sealing
import RecordStore.Proofs.Torn
import RecordStore.Proofs.Endurance
import RecordStore.Proofs.Conduct
import RecordStore.Proofs.Holding
import RecordStore.Proofs.Lasting
import RecordStore.Proofs.Waiting
import RecordStore.Proofs.Tallies
import RecordStore.Proofs.Resorting
import RecordStore.Proofs.Counting
import RecordStore.Proofs.Paths
import RecordStore.Proofs.Trims
import RecordStore.Proofs.Disks
import RecordStore.Proofs.Glances
import RecordStore.Proofs.Boundaries
import RecordStore.Proofs.Sequence
import RecordStore.Proofs.Regions
import RecordStore.Proofs.Endings
import RecordStore.Proofs.Leftovers
import RecordStore.Proofs.Pace
import RecordStore.Proofs.Imprints
import RecordStore.Proofs.Licences
import RecordStore.Proofs.Custody
import RecordStore.Proofs.Promises
import RecordStore.Proofs.Rewriting
import RecordStore.Proofs.Sorting
import RecordStore.Proofs.Exposure
import RecordStore.Proofs.Sparing
import RecordStore.Proofs.Presence
import RecordStore.Proofs.Staleness
import RecordStore.Proofs.RoundTrips
import RecordStore.Proofs.Escapes
import RecordStore.Proofs.Offsets
import RecordStore.Proofs.Stamping
import RecordStore.Proofs.Untouched
import RecordStore.Proofs.Spellings
import RecordStore.Proofs.Values
import RecordStore.Proofs.Accesses
import RecordStore.Proofs.Walks
import RecordStore.Proofs.Visits
import RecordStore.Proofs.Commands
import RecordStore.Proofs.Batches
import RecordStore.Proofs.Forward
import RecordStore.Proofs.Mappings
