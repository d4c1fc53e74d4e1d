import IftopColor.BlockPool
import IftopColor.ChainTable
import IftopColor.RecordStore
import IftopColor.NetBytes
import IftopColor.AddrHash
import IftopColor.ProcInfo
import IftopColor.Options
import IftopColor.PacketDirection
import IftopColor.History
import IftopColor.FlowAccounting
import IftopColor.ByteConservation
import IftopColor.PhantomFlows
import IftopColor.NetFilter
import IftopColor.Screen
import IftopColor.ScreenTotals
import IftopColor.BarScale
import IftopColor.RingQueue
import IftopColor.Resolver
import IftopColor.ResolverCache
import IftopColor.GuardedRun
import IftopColor.ResolverWakeup
import IftopColor.RotationRace
import IftopColor.TablePublication
import IftopColor.ProcOwner
import IftopColor.ScreenList
import IftopColor.FrozenPeaks
import IftopColor.ReadLog
import IftopColor.LinkLayer
import IftopColor.CaptureBounds
import IftopColor.SearchTree
import IftopColor.ConfigFile
import IftopColor.OptionsMake
import IftopColor.Json
import IftopColor.Export
import IftopColor.TickClock
import IftopColor.PeakMaxima
import IftopColor.LinkedCells
import IftopColor.StableInsertion
import IftopColor.SortedList
import IftopColor.BatchInsertion
import IftopColor.LineOrder
import IftopColor.OptionsTwice
import IftopColor.ChainHeap
import IftopColor.PoolHeap
import IftopColor.AddrHeap
import IftopColor.PoolAliasing
import IftopColor.ChainLog
import IftopColor.GenericHash
import IftopColor.MapRefinement
import IftopColor.ExactRotation
import IftopColor.SlotTimes
import IftopColor.Fragments
import IftopColor.OptionTexts
import IftopColor.Csv
import IftopColor.CsvExport
import IftopColor.ScreenFilter
import IftopColor.TextBuffer
import IftopColor.ConfigBuffer
import IftopColor.ColorFile
import IftopColor.ColorLines
import IftopColor.ScreenText
import IftopColor.CellBlock
import IftopColor.Vector
import IftopColor.MapHistory
import IftopColor.ServHash
import IftopColor.InterfaceAddrs
import IftopColor.ScreenRows
import IftopColor.TextEdit
import IftopColor.Edline
import IftopColor.WordErase
import IftopColor.IntDirective
import IftopColor.Stringmap
import IftopColor.HostColumn
import IftopColor.GrowingArray
import IftopColor.ProcTable
import IftopColor.BoundedCopy
import IftopColor.TextFields
import IftopColor.Scanf
import IftopColor.ProcNet
import IftopColor.ProcRefresh
import IftopColor.RunCounters
import IftopColor.UiLoop
import IftopColor.UiSettings
import IftopColor.UiRun
import IftopColor.BusiestRows
import IftopColor.LockOrder
import IftopColor.TickMutex
import IftopColor.Getopt
import IftopColor.CommandLine
import IftopColor.StartUp
import IftopColor.DrawRace
import IftopColor.DisplayMemory
import IftopColor.ProcessNames
import IftopColor.ExportRun
import IftopColor.ForkingResolver
