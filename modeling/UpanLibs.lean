import UpanLibs.Transition
import UpanLibs.Mthread.RwLock
import UpanLibs.Mthread.RwLockSafety
import UpanLibs.Mthread.RwLockWakeup
import UpanLibs.TextArea.Fixed.FixedTextArea
import UpanLibs.Fallible
import UpanLibs.TextArea.Fixed.FixedLinesShape
import UpanLibs.TextArea.Fixed.FixedLinesRealign
import UpanLibs.TextArea.Fixed.FixedCoherence
import UpanLibs.TextArea.Fixed.FixedInvariant
import UpanLibs.Text.WrappedText
import UpanLibs.TextArea.Fixed.FixedLinesText
import UpanLibs.TextArea.Fixed.FixedEditor
import UpanLibs.TextArea.Fixed.FixedRefinement
import UpanLibs.TextArea.Styled.TextArea
import UpanLibs.TextArea.Styled.LinesValid
import UpanLibs.TextArea.Styled.LinesRealign
import UpanLibs.TextArea.Styled.AreaMoves
import UpanLibs.TextArea.Styled.AreaEdits
import UpanLibs.TextArea.Styled.AreaInvariant
import UpanLibs.Machine
import UpanLibs.RingWindow
import UpanLibs.Ds.Queue
import UpanLibs.Ds.Bitset
import UpanLibs.Infra.UniqPtr
import UpanLibs.Interleaving
import UpanLibs.Pthread.Mutex
import UpanLibs.Mem.MemPool
import UpanLibs.Mthread.Thread
import UpanLibs.Memory
import UpanLibs.RawSlots
import UpanLibs.Ds.Vector
import UpanLibs.Ds.VectorRefinement
import UpanLibs.CString
import UpanLibs.Ds.UString
import UpanLibs.Ds.UStringRefinement
import UpanLibs.NodeRing
import UpanLibs.Ds.LinkedList
import UpanLibs.Ds.LinkedListMethods
import UpanLibs.Ds.LinkedListRefinement
import UpanLibs.Infra.SharedPtr
import UpanLibs.Infra.SharedPtrCascade
import UpanLibs.Infra.SharedPtrCounting
import UpanLibs.Console.ConsoleBuffer
import UpanLibs.Console.ConsoleDisplay
import UpanLibs.Console.ConsolePage
import UpanLibs.Console.ConsoleBounds
import UpanLibs.Stream.FileStream
import UpanLibs.Stream.FileStreamLines
import UpanLibs.Ds.StringText
import UpanLibs.Util.ConfigFileDB
import UpanLibs.UiObject.ObjectTree
import UpanLibs.UiObject.TreeConsistency
import UpanLibs.TextArea.Styled.LinesText
import UpanLibs.TextArea.Styled.AreaTyping
import UpanLibs.TextArea.Styled.LinesRefill
import UpanLibs.TextArea.Styled.LinesRemove
import UpanLibs.TextArea.Styled.AreaDelete
import UpanLibs.TextArea.Styled.AreaBackspace
import UpanLibs.TextArea.Styled.AreaEnter
import UpanLibs.Ds.BitsetAllocate
import UpanLibs.Util.ConfigFileUpdate
import UpanLibs.TextArea.Styled.LinesReflow
import UpanLibs.TextArea.Styled.AreaResize
import UpanLibs.TextArea.Styled.AreaPaste
import UpanLibs.TextArea.Styled.AreaSelection
import UpanLibs.HeightTree
import UpanLibs.Ds.AvlTree
import UpanLibs.Ds.AvlTreeLinked
import UpanLibs.Ds.AvlTreeWalk
import UpanLibs.Ds.AvlTreeErase
import UpanLibs.BalancedTree
import UpanLibs.Ds.AvlTreeMethods
import UpanLibs.Ds.AvlTreeWorld
import UpanLibs.Ds.AvlTreeErasing
import UpanLibs.Ds.AvlTreeMap
import UpanLibs.Ds.BTree
import UpanLibs.LevelTree
import UpanLibs.Ds.BTreeLinked
import UpanLibs.Ds.BTreeRebalance
import UpanLibs.Pthread.ThreadKeys
import UpanLibs.UiObject.UIObjectImpl
import UpanLibs.UiObject.VerticalScroller
import UpanLibs.Net.Inet
import UpanLibs.TextArea.Fixed.ClickMapping
import UpanLibs.Net.InetGrammar
import UpanLibs.Stdlib.Dtime
import UpanLibs.Calendar
import UpanLibs.Stdlib.GmtimeCalendar
import UpanLibs.Stdlib.Env
import UpanLibs.Raster
import UpanLibs.UiObject.DrawBuffer
import UpanLibs.UiObject.RectangularLayout
import UpanLibs.UiObject.FillCache
import UpanLibs.Ds.BTreeRestore
import UpanLibs.Ds.BTreeShape
import UpanLibs.Ds.BTreeInsert
import UpanLibs.Ds.BTreeSearch
import UpanLibs.UiObject.HitTest
import UpanLibs.Image.BmpEncoder
import UpanLibs.Image.BmpDecoding
import UpanLibs.Ds.StringTokens
import UpanLibs.String.Strtok
import UpanLibs.Infra.Logger
import UpanLibs.Infra.LogRotation
import UpanLibs.Infra.LoggerCounts
import UpanLibs.Stream.FileStreamReach
import UpanLibs.Net.Netdb
import UpanLibs.Net.ServiceLines
import UpanLibs.Ds.AvlTreeBounds
import UpanLibs.Console.ClearLine
import UpanLibs.Ds.BTreeDescent
import UpanLibs.UiObject.PixelBlend
import UpanLibs.Infra.Result
import UpanLibs.TextArea.Fixed.FixedLinesPack
import UpanLibs.TextArea.Fixed.FixedRemoval
import UpanLibs.Ds.BTreeErase
import UpanLibs.Ds.BTreeContents
import UpanLibs.Ds.BTreeMap
import UpanLibs.Framing
import UpanLibs.Ds.LinkedListWorld
import UpanLibs.Ds.Containers
import UpanLibs.Text.LineEditor
import UpanLibs.TextArea.Fixed.Terminal
import UpanLibs.TextArea.Fixed.CommandLine
import UpanLibs.TextArea.Fixed.CommandLineRun
import UpanLibs.Image.PngFilter
import UpanLibs.Image.PngSimd
import UpanLibs.Image.PngSamples
import UpanLibs.Image.PngPasses
import UpanLibs.Image.PngCodec
import UpanLibs.Image.PngLines
import UpanLibs.Image.PngRows
import UpanLibs.Image.PngRoundTrip
import UpanLibs.Image.PngSafety
import UpanLibs.SquareRoot
import UpanLibs.Libm.Sqrt
import UpanLibs.Libm.SqrtNearest
import UpanLibs.UiObject.ResizeTree
import UpanLibs.UiObject.CornerLayout
import UpanLibs.UiObject.Dispatch
import UpanLibs.UiObject.DispatchRun
import UpanLibs.Pthread.Cond
import UpanLibs.GapSort
import UpanLibs.Stdlib.Sort
import UpanLibs.Stdlib.Strtol
import UpanLibs.Stdlib.IntegerText
import UpanLibs.String.Strstr
import UpanLibs.TextArea.Styled.LinesCharacters
import UpanLibs.TextArea.Styled.AreaCharacters
