import SegregatedFit.Main
import SegregatedFit.Proofs.Bytes
import SegregatedFit.Proofs.Rounding
import SegregatedFit.Proofs.BoundaryTags
import SegregatedFit.Proofs.Links
import SegregatedFit.Proofs.MemoryMap
import SegregatedFit.Proofs.Described
import SegregatedFit.Proofs.Filling
import SegregatedFit.Proofs.PoolSpec
import SegregatedFit.Proofs.MapOps
import SegregatedFit.Proofs.Reading
import SegregatedFit.Proofs.Shifting
import SegregatedFit.Proofs.Outline
import SegregatedFit.Proofs.Simulation
import SegregatedFit.Proofs.Resizing
import SegregatedFit.Proofs.Calls
import SegregatedFit.Proofs.Creation
import SegregatedFit.Proofs.Pairing
import SegregatedFit.Proofs.Session
import SegregatedFit.Proofs.Contiguity
import SegregatedFit.Proofs.WellFormed
import SegregatedFit.Proofs.Ownership
import SegregatedFit.Proofs.Contents
import SegregatedFit.Proofs.Totality
import SegregatedFit.Proofs.Validation
import SegregatedFit.Proofs.Recounting
import SegregatedFit.Proofs.Atomicity
import SegregatedFit.Proofs.Alike
import SegregatedFit.Proofs.Noninterference
import SegregatedFit.Proofs.Canonical
import SegregatedFit.Proofs.Diagnosis
import SegregatedFit.Proofs.Requests
import SegregatedFit.Proofs.Accounting
import SegregatedFit.Proofs.GrowthPolicy
import SegregatedFit.Proofs.RoundTrip
import SegregatedFit.Proofs.Configuration
import SegregatedFit.Proofs.Fragmentation
import SegregatedFit.Proofs.Merging
import SegregatedFit.Proofs.Zeroing
import SegregatedFit.Proofs.ResizePaths
import SegregatedFit.Proofs.Takeover
import SegregatedFit.Proofs.Displacement
import SegregatedFit.Proofs.Sequences
import SegregatedFit.Proofs.FirstFit
import SegregatedFit.Proofs.Repetition
import SegregatedFit.Proofs.Reuse
