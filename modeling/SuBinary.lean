import SuBinary.Foundation.CString
import SuBinary.Foundation.Decoder
import SuBinary.Foundation.Fold
import SuBinary.Foundation.Loop
import SuBinary.Foundation.Runs
import SuBinary.Foundation.ValueIndex
import SuBinary.Foundation.PointerTable
import SuBinary.Foundation.Disk
import SuBinary.Foundation.Numeral
import SuBinary.Foundation.Getopt
import SuBinary.Foundation.Memory
import SuBinary.Foundation.Strtok
import SuBinary.Foundation.TokenLoop
import SuBinary.Foundation.ChainTable
import SuBinary.Sepol.Avtab
import SuBinary.Sepol.Policydb
import SuBinary.Sepol.Services
import SuBinary.Sepol.Ebitmap
import SuBinary.Sepol.Symtab
import SuBinary.Sepol.FilenameTrans
import SuBinary.Sepol.Policy
import SuBinary.Magiskpolicy.Sepolicy
import SuBinary.Magiskpolicy.RuleEffect
import SuBinary.Magiskpolicy.XpermEffect
import SuBinary.Magiskpolicy.EffectiveAccess
import SuBinary.Magiskpolicy.AuditdenyEffect
import SuBinary.Magiskpolicy.Parser
import SuBinary.Magiskpolicy.ParserWords
import SuBinary.Magiskpolicy.ParserTokens
import SuBinary.Magiskpolicy.Grammar
import SuBinary.Magiskpolicy.BracketedStatements
import SuBinary.Magiskpolicy.Main
import SuBinary.Magiskpolicy.StatementIsolation
import SuBinary.Magiskpolicy.Operations
import SuBinary.Magiskpolicy.OperationEffect
import SuBinary.Magiskpolicy.TypeNumbering
import SuBinary.Magiskpolicy.AttributeMaps
import SuBinary.Magiskpolicy.FailedOperations
import SuBinary.Magiskpolicy.Rules
import SuBinary.Magiskpolicy.XpermVersions
import SuBinary.Magiskpolicy.Wildcards
import SuBinary.Magiskpolicy.Commutation
import SuBinary.Magiskpolicy.AttributeAddition
import SuBinary.Magiskpolicy.XpermRange
import SuBinary.Magiskpolicy.NamedTransitions
import SuBinary.Magiskpolicy.Repatching
import SuBinary.Magiskpolicy.NullNames
import SuBinary.Magiskpolicy.PolicyStore
import SuBinary.Su.Protocol
import SuBinary.Su.ExitStatus
import SuBinary.Su.ClientRun
import SuBinary.Su.Terminal
import SuBinary.Su.Output
import SuBinary.Su.Segmentation
import SuBinary.Su.SuMain
import SuBinary.Su.ArgvSafety
import SuBinary.Su.CommandLine
import SuBinary.Su.Login
import SuBinary.Su.OptionOrder
import SuBinary.Foundation.Blocks
import SuBinary.Foundation.DataModel
import SuBinary.Foundation.FileSystem
import SuBinary.Foundation.Lines
import SuBinary.Foundation.Ring
import SuBinary.Foundation.Scanf
import SuBinary.Magiskpolicy.TokenLoops
import SuBinary.Su.DaemonExists
import SuBinary.Su.Property
import SuBinary.Su.PropertyLookup
import SuBinary.Su.Pump
import SuBinary.Su.SocketListing
import SuBinary.Utils.CopyGrowth
import SuBinary.Utils.Fdgets
import SuBinary.Utils.LineReader
import SuBinary.Utils.ListHead
import SuBinary.Utils.TreeCopy
import SuBinary.Utils.Vector
import SuBinary.Utils.TreePreserved
import SuBinary.Foundation.BlockSet
import SuBinary.Foundation.LittleEndian
import SuBinary.Sepol.EbitmapChain
import SuBinary.Sepol.EbitmapFile
import SuBinary.Sepol.EbitmapSets
import SuBinary.Foundation.ChainTableFill
import SuBinary.Magiskpolicy.LastRule
import SuBinary.Magiskpolicy.RuleLevels
import SuBinary.Magiskpolicy.StoredRules
import SuBinary.Foundation.SortedChain
import SuBinary.Sepol.HashtabChains
import SuBinary.Sepol.HashtabRuns
import SuBinary.Su.EndToEnd
import SuBinary.Foundation.PlacedString
import SuBinary.Su.ProcTitle
import SuBinary.Su.Initiator
