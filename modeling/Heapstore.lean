import Heapstore.Bytes
import Heapstore.Page
import Heapstore.Header
import Heapstore.HeapPage
import Heapstore.Directory
import Heapstore.Layout
import Heapstore.Compact
import Heapstore.Shift
import Heapstore.AddValue
import Heapstore.Insert
import Heapstore.DeleteValue
import Heapstore.Run
import Heapstore.Refinement
import Heapstore.ShiftTruncation
import Heapstore.Iter
import Heapstore.ComparePage
import Heapstore.Frame
import Heapstore.Dump
