import Libcad.Agree
import Libcad.CgiQuery
import Libcad.Dict
import Libcad.Proc
import Libcad.StacheTokens
import Libcad.Stream
import Libcad.CgiContentType
import Libcad.Hash
import Libcad.HashInvariant
import Libcad.HashRefines
import Libcad.Accessors
import Libcad.Array
import Libcad.ArrayBounds
import Libcad.ArrayGaps
import Libcad.ArrayRefines
import Libcad.CgiCookies
import Libcad.CgiCookiesRead
import Libcad.CgiFlush
import Libcad.CgiHandling
import Libcad.CgiHeaders
import Libcad.CgiLeftovers
import Libcad.EventQueue
import Libcad.EventQueueLocks
import Libcad.EventQueueRuns
import Libcad.EventQueueStarts
import Libcad.Events
import Libcad.EventsAgree
import Libcad.FreshEvents
import Libcad.FreshObjects
import Libcad.NestedLoops
import Libcad.StacheBounds
import Libcad.StacheDelimiters
import Libcad.StacheEnding
import Libcad.StacheTerminates
import Libcad.StreamInput
import Libcad.StreamOutput
import Libcad.CgiContext
import Libcad.CgiEnvironment
import Libcad.CgiFormEnds
import Libcad.CgiFormMemory
import Libcad.CgiFormPairs
import Libcad.CgiFormSegments
import Libcad.CgiJar
import Libcad.CgiRedirect
import Libcad.HashWellFormed
import Libcad.Ledger
import Libcad.StacheLedger
import Libcad.StacheRejects
import Libcad.StacheReleases
import Libcad.StacheSuppressed
import Libcad.CgiBody
import Libcad.CallLog
import Libcad.CgiJarRuns
import Libcad.CgiNameless
import Libcad.CgiOverflow
import Libcad.CgiSetters
import Libcad.StacheLists
import Libcad.StacheTruth
import Libcad.StacheNames
import Libcad.StreamString
import Libcad.StacheEscape
import Libcad.StacheLiteral
import Libcad.StacheNameless
import Libcad.ArraySizes
import Libcad.Calendar
import Libcad.CgiDates
import Libcad.StacheScan
import Libcad.StacheMemory
import Libcad.StacheSections
import Libcad.StacheBalance
import Libcad.StacheNameStores
import Libcad.CgiValues
import Libcad.StacheNested
import Libcad.StacheUnnested
import Libcad.StacheMissing
import Libcad.Weaving
import Libcad.StacheInterpreter
import Libcad.StacheEffects
import Libcad.StacheParallel
import Libcad.StacheComposition
import Libcad.StacheInjection
import Libcad.StacheOutline
import Libcad.Delivery
import Libcad.StacheDelivery
import Libcad.CgiFormDelivery
import Libcad.Fairness
import Libcad.EventQueueProgress
import Libcad.Client
import Libcad.HashMemory
import Libcad.ArrayClient
import Libcad.CgiSession
import Libcad.CgiExchange
import Libcad.StacheDropped
