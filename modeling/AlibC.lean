import AlibC.Lib.Machine
import AlibC.Lib.SizeT
import AlibC.AlibString
import AlibC.Error
import AlibC.BinaryBuffer
import AlibC.BinaryBufferInvariant
import AlibC.BinaryBufferGrowth
import AlibC.ComDataCheck
import AlibC.Lib.Framing
import AlibC.ComDataCheckStream
import AlibC.ComDataCheckReceive
import AlibC.ComDataCheckFrames
import AlibC.Lib.Ring
import AlibC.RBuff
import AlibC.RBuffStores
import AlibC.RBuffWindow
import AlibC.BinaryBufferErrors
import AlibC.ComDataCheckOutput
import AlibC.ComDataCheckSocket
import AlibC.Lib.Slots
import AlibC.ArrayList
import AlibC.ArrayListInvariant
import AlibC.ArrayListRuns
import AlibC.MemPool
import AlibC.MemPoolRuns
import AlibC.DList
import AlibC.DListItemEnds
import AlibC.DListInsert
import AlibC.DListDeque
import AlibC.DListDequeRuns
import AlibC.Lib.CString
import AlibC.Lib.RefCount
import AlibC.ListHistory
import AlibC.ListHistoryChain
import AlibC.ListHistoryRuns
import AlibC.ListItem
import AlibC.ListItemRefs
import AlibC.ProcWaiter
import AlibC.SignalDispatch
import AlibC.StringObject
import AlibC.StringObjectInvariant
import AlibC.StringObjectRuns
import AlibC.DListMove
import AlibC.DListItemSplice
import AlibC.BinaryBufferExpansion
import AlibC.DListForeign
import AlibC.DListMarks
import AlibC.DListMoveCount
import AlibC.DListRuns
import AlibC.Str
import AlibC.StrRuns
import AlibC.DListItemValues
import AlibC.Timer
import AlibC.TimerEventHandler
import AlibC.TimerEventHandlerSchedule
import AlibC.TimerEventHandlerRemoval
import AlibC.TimerEventHandlerRing
import AlibC.TimerEventHandlerRuns
import AlibC.BinaryBufferInsert
import AlibC.BinaryBufferDrain
import AlibC.BinaryBufferReplace
import AlibC.StrAppend
import AlibC.StrReplace
import AlibC.StrReplaceSubstrings
import AlibC.StrRemoveSubstring
import AlibC.StrSubstrings
import AlibC.StrCopy
import AlibC.StringObjectGrowth
import AlibC.Lib.Scan
import AlibC.StringObjectReplaceLoop
import AlibC.StringObjectReplace
import AlibC.AlibStringCopy
import AlibC.AlibStringSafe
import AlibC.AlibStringMatch
import AlibC.AlibStringScan
import AlibC.AlibFile
import AlibC.AlibTypes
import AlibC.AlibTypesGrammar
import AlibC.StrParser
import AlibC.Endianess
import AlibC.ArrayListSlots
import AlibC.ArrayListSearch
import AlibC.MemPoolBounds
import AlibC.MemPoolLock
import AlibC.MemPoolFailures
import AlibC.RBuffRuns
import AlibC.RBuffIncrement
import AlibC.RBuffIt
import AlibC.AlibTime
import AlibC.TimerStatus
import AlibC.TimerEventDrift
import AlibC.TimerEventHandlerStart
import AlibC.ListHistoryQueue
import AlibC.Zip
import AlibC.ZipInflate
import AlibC.ZipDeflate
import AlibC.ZipFiles
import AlibC.AlibFileRemove
import AlibC.AlibFileNames
import AlibC.Lib.Extremum
import AlibC.Lib.Strtoll
import AlibC.Lib.Send
import AlibC.Lib.Cursor
import AlibC.Epoll
import AlibC.AlibFileNumbers
import AlibC.MkdirEx
import AlibC.ErrorLoggerTruncate
import AlibC.ErrorLogger
import AlibC.TcpSend
import AlibC.FdServer
import AlibC.ClientListener
import AlibC.ClientListenerAdd
import AlibC.JsonArrayIterator
import AlibC.AlibMath
import AlibC.DListItemDelete
import AlibC.ThreadedTimerEvent
import AlibC.TcpServer
import AlibC.AlibFileOpen
import AlibC.ProcWaiterThreads
import AlibC.EventServer
import AlibC.UvTcpServer
