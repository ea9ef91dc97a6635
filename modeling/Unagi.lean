import Unagi.Asyncio.LockWakes
import Unagi.Asyncio.QueueWakes
import Unagi.Asyncio.Semaphore
import Unagi.Build.StaticNames
import Unagi.Calls.BindSound
import Unagi.Emit.MixedCmp
import Unagi.Frontend.Mangle
import Unagi.Frontend.Print
import Unagi.Ir.CensusSound
import Unagi.Ir.FoldTrees
import Unagi.Objects.ExcGroup
import Unagi.Objects.HandledStack
import Unagi.Objects.HashModular
import Unagi.Objects.IntBytes
import Unagi.Objects.ListIter
import Unagi.Objects.ListSort
import Unagi.Objects.LruCache
import Unagi.Objects.Marshal
import Unagi.Objects.Mro
import Unagi.Objects.RLock
import Unagi.Objects.RangeSlices
import Unagi.Objects.SetCore
import Unagi.Objects.SetOrder
import Unagi.Objects.ThreadSemaphore
import Unagi.Objects.YieldFrom
import Unagi.Partition.HashSound
import Unagi.Runtime.Combinatorics
import Unagi.Runtime.JsonRoundTrip
import Unagi.Runtime.KernelsExact
import Unagi.Runtime.Product
import Unagi.Runtime.QuotedPrintable
import Unagi.Runtime.Random
import Unagi.Runtime.StreamSound
import Unagi.Runtime.StructRecords
import Unagi.Sre.Charset
import Unagi.Types.ClassTable
import Unagi.Types.Contagion
import Unagi.Types.MeetTuples
import Unagi.Types.SignatureKey
