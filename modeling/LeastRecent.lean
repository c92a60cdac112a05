import LeastRecent.Cache.Shared
import LeastRecent.Chain.Session
import LeastRecent.Datum.Key
import LeastRecent.Index.Session
import LeastRecent.Limbo.Session
import LeastRecent.Proofs.Chain.Fields
import LeastRecent.Proofs.Chain.Layout
import LeastRecent.Proofs.Chain.Counting
import LeastRecent.Proofs.Chain.Sound
import LeastRecent.Proofs.Chain.Walks
import LeastRecent.Proofs.Interleave.Runs
import LeastRecent.Proofs.Chain.Tombstones
import LeastRecent.Proofs.Chain.Refinement
import LeastRecent.Proofs.Cache.Custody
import LeastRecent.Proofs.Cache.Advance
import LeastRecent.Proofs.Cache.Coherence
import LeastRecent.Proofs.Cache.Kept
import LeastRecent.Proofs.Cache.Agreement
import LeastRecent.Proofs.Cache.Capacity
import LeastRecent.Proofs.Cache.Reference
import LeastRecent.Proofs.Interleave.Plain
import LeastRecent.Proofs.Cache.Alone
import LeastRecent.Proofs.Cache.Refinement
import LeastRecent.Proofs.Chain.Spine
import LeastRecent.Proofs.Cache.Effects
import LeastRecent.Proofs.Chain.Owners
import LeastRecent.Proofs.Accounts
import LeastRecent.Proofs.Cache.Moments
import LeastRecent.Proofs.Reclamation
import LeastRecent.Proofs.Chain.Dismantling
import LeastRecent.Proofs.Interleave.Histories
import LeastRecent.Proofs.Cache.Trace
import LeastRecent.Proofs.Cache.Closing
import LeastRecent.Proofs.Cache.Changes
import LeastRecent.Proofs.Cache.Lookups
import LeastRecent.Proofs.Index.Variety
import LeastRecent.Proofs.Chain.Coldest
import LeastRecent.Proofs.Cache.Victims
import LeastRecent.Proofs.Cache.Evictions
import LeastRecent.Proofs.Cache.Parties
import LeastRecent.Proofs.Cache.Overlap
import LeastRecent.Proofs.Chain.Healing
import LeastRecent.Proofs.Cache.Tidying
import LeastRecent.Proofs.Interleave.Interruptions
import LeastRecent.Proofs.Cache.View
import LeastRecent.Proofs.Cache.Outlook
import LeastRecent.Proofs.Cache.Bystanders
import LeastRecent.Proofs.Cache.Draining
import LeastRecent.Proofs.Chain.Dropping
import LeastRecent.Proofs.Chain.Pointers
import LeastRecent.Proofs.Chain.Unlinking
import LeastRecent.Proofs.Chain.Deletions
import LeastRecent.Proofs.Chain.Neat
import LeastRecent.Proofs.Chain.Collapse
import LeastRecent.Proofs.Interleave.Serial
import LeastRecent.Proofs.Cache.Prompt
import LeastRecent.Proofs.Index.Conservation
import LeastRecent.Proofs.Limbo
import LeastRecent.Proofs.Chain.Cascade
import LeastRecent.Proofs.Chain.Failures
import LeastRecent.Proofs.Interleave.Endings
import LeastRecent.Proofs.Chain.Chronicle
import LeastRecent.Proofs.Chain.Loops
import LeastRecent.Proofs.Cache.Headway
import LeastRecent.Proofs.Cache.Endings
import LeastRecent.Proofs.Termination
import LeastRecent.Proofs.Cache.Faults
