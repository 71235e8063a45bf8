import Mnem.Prolly.Diff
import Mnem.Index.Incidence
import Mnem.Repo.Linearize
import Mnem.Repo.MergeView
import Mnem.Repo.ThreeWayLaw
import Mnem.Repo.Completeness
import Mnem.Repo.MergeEffects
import Mnem.Repo.Convergence
import Mnem.Repo.Integrity
import Mnem.Repo.Concurrent
import Mnem.Repo.StagedVectors
import Mnem.Repo.AppendIndexes
import Mnem.Repo.CallFold
import Mnem.Repo.Resolve
import Mnem.Repo.ContentCid
import Mnem.Codec.DagCbor
import Mnem.Cli.MergeInProgress
import Mnem.Transport.Export
import Mnem.Cli.Gc
import Mnem.Http.RateLimit
import Mnem.Http.GraphCache
import Mnem.Ingest.Pipeline
import Mnem.Ingest.Windows
import Mnem.Retrieve.Retriever
import Mnem.Codec.RoundTrip
import Mnem.Cli.Import
import Mnem.Http.BlockImport
import Mnem.Transport.Varint
import Mnem.Transport.HaveSet
import Mnem.Cli.Clone
import Mnem.Repo.TombstoneConflicts
import Mnem.Cli.Pull
import Mnem.Codec.Sign
import Mnem.Cli.Blame
import Mnem.Cli.Fsck
import Mnem.Http.NodeIdentity
import Mnem.Http.BlockExport
import Mnem.Retrieve.Packing
import Mnem.Retrieve.Community
import Mnem.Retrieve.Fusion
import Mnem.Retrieve.Admission
import Mnem.Retrieve.BestPath
import Mnem.Retrieve.Sparse
import Mnem.Index.Hybrid
import Mnem.Index.Ppr
import Mnem.Graphrag.Documented
import Mnem.Ingest.Session
import Mnem.Ingest.Bookkeeping
import Mnem.Ingest.Conversation
import Mnem.Ingest.Markdown
import Mnem.Index.Knn
import Mnem.Index.AnnCache
import Mnem.Extract.AuthorRate
import Mnem.Extract.Cooccurrence
import Mnem.Http.Traverse
import Mnem.Graphrag.SummaryOrder
import Mnem.Ingest.Breadcrumbs
import Mnem.Transport.Reachable
import Mnem.Graphrag.Calibration
import Mnem.Graphrag.SummaryMargin
import Mnem.Graphrag.Climb
import Mnem.Index.Vector
import Mnem.Http.Diff
import Mnem.Cli.Reindex
import Mnem.Http.BulkNodes
import Mnem.Cli.Push
import Mnem.Cli.RevertLaw
import Mnem.Backend.Agree
