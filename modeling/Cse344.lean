import Cse344.Final.Accounts
import Cse344.Final.Builders
import Cse344.Final.Lines
import Cse344.Final.LoadStocks
import Cse344.Final.Market
import Cse344.Final.Overlong
import Cse344.Final.Portfolio
import Cse344.Final.Receive
import Cse344.Final.Replies
import Cse344.Final.Server
import Cse344.Final.Shares
import Cse344.Final.Symbols
import Cse344.Final.Usernames
import Cse344.HW1.Filters
import Cse344.HW1.Options
import Cse344.HW1.Regex
import Cse344.HW1.Tree
import Cse344.HW2.Agreement
import Cse344.HW2.Collect
import Cse344.HW2.Deadlock
import Cse344.HW2.Interrupt
import Cse344.HW2.Matchers
import Cse344.HW2.Search
import Cse344.HW2.Summary
import Cse344.HW2.Tree
import Cse344.HW3.Admission
import Cse344.HW3.Arrivals
import Cse344.HW3.Capacity
import Cse344.HW3.Carriers
import Cse344.HW3.Elevator
import Cse344.HW3.Floors
import Cse344.HW3.Input
import Cse344.HW3.Letters
import Cse344.HW3.Load
import Cse344.HW3.NextLine
import Cse344.HW3.Output
import Cse344.HW3.Progress
import Cse344.HW3.Semaphores
import Cse344.HW3.Service
import Cse344.HW3.Sorting
import Cse344.HW3.Staffing
import Cse344.HW3.Stranded
import Cse344.HW3.System
import Cse344.HW3.Word
import Cse344.HW4.Analysis
import Cse344.HW4.Analyzer
import Cse344.HW4.Broken
import Cse344.HW4.Delivery
import Cse344.HW4.EndToEnd
import Cse344.HW4.Ends
import Cse344.HW4.Eofs
import Cse344.HW4.Hangs
import Cse344.HW4.HighPriority
import Cse344.HW4.Keywords
import Cse344.HW4.LineOwners
import Cse344.HW4.LogFormat
import Cse344.HW4.LogLine
import Cse344.HW4.Merges
import Cse344.HW4.NoLoss
import Cse344.HW4.Pipeline
import Cse344.HW4.Queues
import Cse344.HW4.Readers
import Cse344.HW4.Reading
import Cse344.HW4.Region
import Cse344.HW4.Report
import Cse344.HW4.Results
import Cse344.HW4.Safety
import Cse344.HW4.TextReport
import Cse344.HW4.TopSources
import Cse344.HW4.Totals
import Cse344.HW4.Watchdog
import Cse344.HW4.Work
import Cse344.HW5.Conservation
import Cse344.HW5.DispatchOrder
import Cse344.HW5.Ends
import Cse344.HW5.Parser
import Cse344.HW5.Phases
import Cse344.HW5.PriorityQueue
import Cse344.HW5.QueueCalls
import Cse344.HW5.Shift
import Cse344.HW6.Brewing
import Cse344.HW6.Clients
import Cse344.HW6.Commands
import Cse344.HW6.Exact
import Cse344.HW6.Framing
import Cse344.HW6.Hogwarts
import Cse344.HW6.Idle
import Cse344.HW6.Ingredients
import Cse344.HW6.Listings
import Cse344.HW6.Names
import Cse344.HW6.Overflow
import Cse344.HW6.Replies
import Cse344.HW6.Roles
import Cse344.HW6.Spellbook
import Cse344.HW6.Steps
import Cse344.HW6.Stock
import Cse344.HW6.Told
import Cse344.HW6.Usernames
import Cse344.Lib.BinaryHeap
import Cse344.Lib.CString
import Cse344.Lib.ExchangeSort
import Cse344.Lib.Fifo
import Cse344.Lib.FirstWins
import Cse344.Lib.Float
import Cse344.Lib.Forest
import Cse344.Lib.Framing
import Cse344.Lib.Interleave
import Cse344.Lib.Ledger
import Cse344.Lib.Locks
import Cse344.Lib.Machine
import Cse344.Lib.Marked
import Cse344.Lib.Outline
import Cse344.Lib.Pattern
import Cse344.Lib.Qsort
import Cse344.Lib.Receiver
import Cse344.Lib.RingBuffer
import Cse344.Lib.Separated
import Cse344.Lib.Slots
import Cse344.Lib.Stride
import Cse344.Lib.TextFile
import Cse344.Lib.TopSlots
import Cse344.Lib.Totals
