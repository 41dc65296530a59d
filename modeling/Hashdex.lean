import Hashdex.Lib.ParentForest
import Hashdex.Lib.BitArray
import Hashdex.Lib.Dedup
import Hashdex.Lib.RecProg
import Hashdex.Lib.RecState
import Hashdex.Lib.RecTotal
import Hashdex.Lib.Tiling
import Hashdex.Lib.Steps
import Hashdex.Hex
import Hashdex.Coord
import Hashdex.Dcso
import Hashdex.Filter
import Hashdex.Fold
import Hashdex.FiltersCmd
import Hashdex.Probes
import Hashdex.FilterKeys
import Hashdex.Finding
import Hashdex.Walk
import Hashdex.Clustering
import Hashdex.Cache
import Hashdex.Verdicts
import Hashdex.Compressors
import Hashdex.IndexCmd
import Hashdex.Scan
import Hashdex.ScanRuns
import Hashdex.Pool
import Hashdex.PoolInv
import Hashdex.Descent
import Hashdex.DescentSlots
import Hashdex.Compact
import Hashdex.Recipe.Json
import Hashdex.Recipe.Spool
import Hashdex.Recipe.Check
import Hashdex.Recipe.CheckSound
import Hashdex.Recipe.CheckTerm
import Hashdex.Recipe.Tree
import Hashdex.Recipe.Plan
import Hashdex.Recipe.Pclusters
import Hashdex.Recipe.Planner
import Hashdex.Recipe.PlanInv
import Hashdex.Recipe.PlanTiles
import Hashdex.Outlook
import Hashdex.Survivors
import Hashdex.Cpio
import Hashdex.Sniff
import Hashdex.Contents
import Hashdex.Twins
import Hashdex.RangeStore
import Hashdex.WalkClosure
import Hashdex.Recipe.Jigdo
import Hashdex.Recipe.Emit
import Hashdex.Recipe.Flatten
import Hashdex.Erofs.Zplan
import Hashdex.Lib.Serving
import Hashdex.Erofs.Decode
import Hashdex.Erofs.Reading
import Hashdex.View
import Hashdex.Iso
import Hashdex.Stated
import Hashdex.Tally
import Hashdex.Counts
import Hashdex.Materialize
import Hashdex.Recipe.Coverage
import Hashdex.Recipe.Availability
import Hashdex.Recipe.Document
import Hashdex.Recipe.Cutting
import Hashdex.Recipe.OwnFile
import Hashdex.Recipe.Sweep
import Hashdex.Recipe.Image
import Hashdex.Recipe.Accounting
import Hashdex.FatTree
import Hashdex.Erofs.Packs
import Hashdex.Erofs.Chunked
import Hashdex.Erofs.Tree
import Hashdex.Lib.Firsts
import Hashdex.WalkCap
import Hashdex.Lib.StableSort
import Hashdex.ClusterOrder
import Hashdex.ViewLaws
import Hashdex.Recipe.Microcode
import Hashdex.Recipe.Matching
import Hashdex.Partition
import Hashdex.WalkOrder
import Hashdex.Resolve
import Hashdex.Lib.Spans
import Hashdex.Recipe.Overlap
import Hashdex.Erofs.Readers
import Hashdex.Lib.PathTree
import Hashdex.GitTree
import Hashdex.RemoteCursor
import Hashdex.Lib.Retry
import Hashdex.RangeDriver
import Hashdex.CacheWrites
import Hashdex.Alphabets
import Hashdex.CoordSpellings
import Hashdex.Lib.SortedMap
import Hashdex.Parquet.File
import Hashdex.Parquet.RowsAt
import Hashdex.Lib.SortedRuns
import Hashdex.Parquet.FindRows
import Hashdex.ZipWalks
import Hashdex.Lib.Placing
import Hashdex.Download
