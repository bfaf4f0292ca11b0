import Engram.Routes
import Engram.Benchmark
import Engram.Degrading
import Engram.Runs
import Engram.History
import Engram.Calls
import Engram.Chains
import Engram.Comebacks
import Engram.Completeness
import Engram.Conversations
import Engram.Dsn
import Engram.Expiry
import Engram.Factories
import Engram.Inspection
import Engram.LastStatement
import Engram.Legacy
import Engram.Lib.Lines
import Engram.Lib.Unwinding
import Engram.Noninterference
import Engram.PrefixSearch
import Engram.Dedupe
import Engram.Settling
import Engram.Offline
import Engram.Paging
import Engram.Pasting
import Engram.Prompts
import Engram.Recall
import Engram.Reports
import Engram.Transcripts
import Engram.Untrusted
import Engram.Users
import Engram.WorkingList
import Engram.Races
import Engram.Lib.Steps
import Engram.Chats
import Engram.Executions
import Engram.Talks
import Engram.Notebook
import Engram.Beliefs
import Engram.Persistence
import Engram.Concurrency
import Engram.Auth
import Engram.Told
import Engram.Locomo
import Engram.Replays
import Engram.Sources
import Engram.Audit
import Engram.Lib.Relational
import Engram.Hostile
import Engram.Stub
import Engram.Sample
