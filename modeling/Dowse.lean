import Dowse.GuardedRuns
import Dowse.CyclicProbing
import Dowse.Crowding
import Dowse.ProbePlacement
import Dowse.SortedSearch
import Dowse.SeparatedIntervals
import Dowse.TrueDivision
import Dowse.ExpiringCounters
import Dowse.CStrings
import Dowse.Splitting
import Dowse.Strtol
import Dowse.Stdio
import Dowse.Scanf
import Dowse.NetworkAddresses
import Dowse.Crontab
import Dowse.CrontabMeaning
import Dowse.CrontabMemory
import Dowse.CrontabFaults
import Dowse.CrontabGrammar
import Dowse.CrontabMatching
import Dowse.CrontabFile
import Dowse.Seccrond
import Dowse.SeccrondJobs
import Dowse.RedisLock
import Dowse.Hashmap
import Dowse.HashmapRuns
import Dowse.HashmapRefinement
import Dowse.HashmapInvariant
import Dowse.HashmapLength
import Dowse.HashmapGrowth
import Dowse.HashmapTermination
import Dowse.HashmapMoves
import Dowse.HashmapOmem
import Dowse.Blocklist
import Dowse.BlocklistCoverage
import Dowse.BlocklistFind
import Dowse.BlocklistNames
import Dowse.BlocklistCanonical
import Dowse.BlocklistCount
import Dowse.BlocklistCapacity
import Dowse.BlocklistLoading
import Dowse.ListParser
import Dowse.ListText
import Dowse.ListGrammar
import Dowse.ListBinary
import Dowse.ListDump
import Dowse.ListEncoding
import Dowse.StreamReader
import Dowse.Nfqueue
import Dowse.NfqueueStatistics
import Dowse.KeyedHashes
import Dowse.ThingStore
import Dowse.ThingFirewall
import Dowse.FirewallAgreement
import Dowse.WebUi
import Dowse.WebUiAdmins
import Dowse.NameTables
import Dowse.WebUiNames
import Dowse.FirstAdmin
import Dowse.ElapsedTime
import Dowse.Discovery
import Dowse.CommandPipe
import Dowse.DnsPlugin
import Dowse.DnsGate
import Dowse.DomainList
import Dowse.DomainListFiles
import Dowse.RedisFormat
import Dowse.RedisArguments
import Dowse.RedisServer
import Dowse.DnsEvents
import Dowse.EventReaders
import Dowse.DnsAttribution
import Dowse.DnsAnswers
import Dowse.DnsDomains
import Dowse.DnsBuffers
import Dowse.DnsVerdicts
import Dowse.DnsFields
import Dowse.DnsCommands
import Dowse.DnsMessages
import Dowse.DnsHits
import Dowse.LeaseTable
import Dowse.LeaseNames
import Dowse.PartyMode
import Dowse.Sup
import Dowse.SupAuthorisation
import Dowse.SupIdentity
import Dowse.SupPath
import Dowse.BlockIteration
import Dowse.Sha256Standard
import Dowse.Sha256
import Dowse.Sha256Refinement
import Dowse.ExecutionRules
import Dowse.CommandActions
import Dowse.ThingWrites
import Dowse.AccessControl
import Dowse.RuleChains
import Dowse.FirewallRules
import Dowse.FirewallPolicy
