import KernelTrg.Lib.Runs
import KernelTrg.Lib.LinkRing
import KernelTrg.Lib.Traversal
import KernelTrg.Lib.Bytes
import KernelTrg.Lib.Shell
import KernelTrg.Lib.Strict
import KernelTrg.Lib.Grep
import KernelTrg.Lib.Compound
import KernelTrg.Lib.Decimal
import KernelTrg.Lib.LongDouble
import KernelTrg.Lib.Errexit
import KernelTrg.Lib.Bubble
import KernelTrg.Lib.Turns
import KernelTrg.Lib.Linearize
import KernelTrg.Books.Memory
import KernelTrg.Books.Sequential
import KernelTrg.Books.Catalogue
import KernelTrg.Books.Refinement
import KernelTrg.Books.Strings
import KernelTrg.Books.Machine
import KernelTrg.Books.Steps
import KernelTrg.Books.History
import KernelTrg.Books.Invariant
import KernelTrg.Books.Preservation
import KernelTrg.Books.Contents
import KernelTrg.Books.Lending
import KernelTrg.Books.Retiring
import KernelTrg.Books.Readers
import KernelTrg.Books.Changes
import KernelTrg.Books.Progress
import KernelTrg.Books.Independent
import KernelTrg.Books.Commute
import KernelTrg.Books.Searches
import KernelTrg.Books.Lookups
import KernelTrg.Books.Custody
import KernelTrg.Books.Finishing
import KernelTrg.Books.Serial
import KernelTrg.Books.Entries
import KernelTrg.Books.Linearizable
import KernelTrg.TaskInfo.Driver
import KernelTrg.TaskInfo.Listing
import KernelTrg.TaskInfo.Contract
import KernelTrg.TaskInfo.Reader
import KernelTrg.FileIo.System
import KernelTrg.FileIo.Programs
import KernelTrg.FileIo.Copying
import KernelTrg.FileIo.Rounds
import KernelTrg.FileIo.Outcomes
import KernelTrg.FileIo.Source
import KernelTrg.FileIo.Termination
import KernelTrg.FileIo.Delivery
import KernelTrg.FileIo.Failures
import KernelTrg.FileIo.Restart
import KernelTrg.FileIo.Timed
import KernelTrg.NodeList.Nodes
import KernelTrg.NodeList.Showing
import KernelTrg.NodeList.Teardown
import KernelTrg.MmapSimple.HexDump
import KernelTrg.MmapSimple.Range
import KernelTrg.MmapSimple.Lines
import KernelTrg.MmapSimple.Labels
import KernelTrg.Counting.Threads
import KernelTrg.Counting.Schedules
import KernelTrg.KsizeTest.Loop
import KernelTrg.KsizeTest.Stops
import KernelTrg.KsizeTest.Ranges
import KernelTrg.ThreadShow.TaskList
import KernelTrg.ThreadShow.Lines
import KernelTrg.ThreadShow.Classification
import KernelTrg.Iomem.Script
import KernelTrg.Iomem.Format
import KernelTrg.Iomem.Parsing
import KernelTrg.Iomem.Sizes
import KernelTrg.Iomem.Span
import KernelTrg.Iomem.Boxes
import KernelTrg.Iomem.Heights
import KernelTrg.Iomem.Units
import KernelTrg.Iomem.Drawing
import KernelTrg.SchedApp.Sleepsafe
import KernelTrg.VmShow.Pattern
import KernelTrg.VmShow.Binary
import KernelTrg.Convenient.PrintCtx
import KernelTrg.Kbuild.Reply
import KernelTrg.Kbuild.Script
import KernelTrg.Kbuild.Plans
import KernelTrg.Kbuild.Stages
import KernelTrg.Kbuild.Installs
import KernelTrg.ProcTable.Countem
import KernelTrg.ProcTable.QueryOom
import KernelTrg.ProcTable.CoreRunning
import KernelTrg.CheckKabi.Verdicts
import KernelTrg.MemSequence.Table
import KernelTrg.SwapStuff.Toggle
