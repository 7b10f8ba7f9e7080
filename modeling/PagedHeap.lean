import PagedHeap.Main
import PagedHeap.Proofs.Page.History
import PagedHeap.Proofs.Lock.Books
import PagedHeap.Proofs.Lock.Rounds
import PagedHeap.Proofs.Lock.Draining
import PagedHeap.Proofs.Pool.WriteBack
import PagedHeap.Proofs.Database.Turns
import PagedHeap.Proofs.Database.Steps
import PagedHeap.Proofs.Database.Isolation
import PagedHeap.Proofs.Pool.Balance
import PagedHeap.Proofs.Pool.Closing
import PagedHeap.Proofs.Database.Durability
import PagedHeap.Proofs.Database.Answers
import PagedHeap.Proofs.Database.Caching
import PagedHeap.Proofs.Database.Logging
import PagedHeap.Proofs.Database.Committing
import PagedHeap.Proofs.Database.Transparency
import PagedHeap.Proofs.Database.Legs
import PagedHeap.Proofs.Pool.Records
import PagedHeap.Proofs.Database.Scanning
import PagedHeap.Proofs.Database.Snapshots
import PagedHeap.Proofs.Database.Insertions
import PagedHeap.Proofs.Pool.Blank
import PagedHeap.Proofs.Database.Phantoms
import PagedHeap.Proofs.Database.FirstFit
import PagedHeap.Proofs.Pool.Untouched
import PagedHeap.Proofs.Database.Refusals
import PagedHeap.Proofs.Page.Space
import PagedHeap.Proofs.WaitGraph.History
import PagedHeap.Proofs.Disk.Paging
import PagedHeap.Proofs.Database.Readmission
import PagedHeap.Proofs.Recency.History
import PagedHeap.Proofs.WaitGraph.Loop
import PagedHeap.Proofs.Page.Refusal
