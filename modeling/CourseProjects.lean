import CourseProjects.Lib.Bytes
import CourseProjects.Lib.CyclicList
import CourseProjects.Lib.Gap
import CourseProjects.Lib.SearchTree
import CourseProjects.Lib.TreeSearch
import CourseProjects.Lib.TreeHeap
import CourseProjects.Lib.Transition
import CourseProjects.Lib.Stride
import CourseProjects.Malloc.Heap
import CourseProjects.Malloc.Mm
import CourseProjects.Malloc.Primitive
import CourseProjects.Malloc.FreeList
import CourseProjects.Malloc.Layout
import CourseProjects.Malloc.Free
import CourseProjects.Malloc.BestFit
import CourseProjects.Malloc.Alloc
import CourseProjects.Malloc.Request
import CourseProjects.Malloc.Session
import CourseProjects.Malloc.Ownership
import CourseProjects.Malloc.SessionInv
import CourseProjects.Malloc.WellFormed
import CourseProjects.Malloc.Contract
import CourseProjects.Malloc.Extents
import CourseProjects.Malloc.Realloc
import CourseProjects.Database.Node
import CourseProjects.Database.Db
import CourseProjects.Database.Shape
import CourseProjects.Database.Remove
import CourseProjects.Database.Search
import CourseProjects.Database.Operations
import CourseProjects.Database.Contents
import CourseProjects.Database.Accounts
import CourseProjects.Performance.Poly
import CourseProjects.Lib.Carving
import CourseProjects.Lib.CInt
import CourseProjects.Maze.Room
import CourseProjects.Maze.Generator
import CourseProjects.Maze.Perfect
import CourseProjects.Maze.Solver
import CourseProjects.Lib.Backtrack
import CourseProjects.Maze.Full
import CourseProjects.Lib.Text
import CourseProjects.Lib.Stream
import CourseProjects.Maze.Encode
import CourseProjects.Shell.Parse
import CourseProjects.Shell.Command
import CourseProjects.Shell.Buffer
import CourseProjects.Shell.Outcome
import CourseProjects.Shell.Accept
import CourseProjects.Shell.Jobs
import CourseProjects.Shell.Control
import CourseProjects.Shell.JobInv
import CourseProjects.Database.Interpret
import CourseProjects.Database.Comm
import CourseProjects.Malloc.Copy
import CourseProjects.Malloc.Wrap
import CourseProjects.Malloc.Placement
import CourseProjects.Lib.Interval
import CourseProjects.Malloc.Ranges
import CourseProjects.Malloc.Driver
import CourseProjects.Malloc.Bump
import CourseProjects.Malloc.Validity
import CourseProjects.Lib.Linked
import CourseProjects.Database.Server
import CourseProjects.Database.Shutdown
import CourseProjects.Database.ClientList
import CourseProjects.Lib.Linearizable
import CourseProjects.Database.Threads
import CourseProjects.Database.Places
import CourseProjects.Database.Segments
import CourseProjects.Database.Interleaving
import CourseProjects.Database.Progress
import CourseProjects.Lib.CText
import CourseProjects.Strings.Span
import CourseProjects.Strings.Token
import CourseProjects.Strings.Compare
import CourseProjects.Strings.Search
import CourseProjects.Lib.Acyclic
import CourseProjects.Database.Requests
import CourseProjects.Database.Includes
import CourseProjects.Database.Responses
import CourseProjects.Lib.Preorder
import CourseProjects.Database.Print
import CourseProjects.Shell.Reaping
import CourseProjects.Shell.Builtins
import CourseProjects.Shell.Leftover
import CourseProjects.Malloc.Determined
import CourseProjects.Lib.Peak
import CourseProjects.Malloc.Package
import CourseProjects.Malloc.Utilization
import CourseProjects.Maze.Pruned
import CourseProjects.Maze.Programs
import CourseProjects.Maze.Pipeline
import CourseProjects.Malloc.CheckHeap
import CourseProjects.Database.Barrier
import CourseProjects.Database.Gate
import CourseProjects.Lib.Scan
import CourseProjects.Malloc.ReadTrace
import CourseProjects.Malloc.Mdriver
import CourseProjects.Lib.Smallest
import CourseProjects.Malloc.Fcyc
import CourseProjects.Lib.Descriptors
import CourseProjects.FirstShell.Parse
import CourseProjects.FirstShell.Reading
import CourseProjects.FirstShell.Repl
import CourseProjects.FirstShell.Runs
import CourseProjects.FirstShell.Commands
import CourseProjects.Lib.Paths
import CourseProjects.FirstShell.Directory
import CourseProjects.Lib.Words
import CourseProjects.Data.Bits
import CourseProjects.Lib.Rounding
import CourseProjects.Data.Btest
import CourseProjects.Data.Values
import CourseProjects.Data.Verdict
