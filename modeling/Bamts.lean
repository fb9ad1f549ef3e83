import Bamts.BytecodeInit
import Bamts.BytecodeCanon
import Bamts.ProgramResolve
import Bamts.ProgramCanon
import Bamts.RuntimeCollect
import Bamts.RuntimeObject
import Bamts.RuntimeProperty
import Bamts.RuntimeArray
import Bamts.RuntimeAccount
import Bamts.RuntimeChange
import Bamts.RuntimeStore
import Bamts.RuntimeDefine
import Bamts.ProgramImport
import Bamts.RuntimeCollection
import Bamts.RuntimeSolvent
import Bamts.InsertionList
import Bamts.RuntimeKey
import Bamts.RuntimeIterate
import Bamts.RuntimeView
import Bamts.OrderedMap
import Bamts.RuntimeTimer
import Bamts.RuntimeTimerRun
import Bamts.RuntimePromise
import Bamts.RuntimeSettleRun
import Bamts.ModuleEvaluate
import Bamts.ModuleCount
import Bamts.ModuleStart
import Bamts.ModuleOrder
import Bamts.ModuleSequence
import Bamts.ModuleHistory
import Bamts.Worklist
import Bamts.CheckerType
import Bamts.CheckerTable
import Bamts.CheckerTuple
import Bamts.CheckerTupleRelates
import Bamts.CheckerFlow
import Bamts.CheckerAssignment
import Bamts.CheckerFacts
import Bamts.CheckerJoin
import Bamts.CheckerNarrow
import Bamts.CheckerValue
import Bamts.CheckerNarrowed
import Bamts.CheckerSignature
import Bamts.CheckerEnvironment
import Bamts.CheckerRestore
import Bamts.BytecodeHandlers
import Bamts.StringCodePoints
import Bamts.ProgramCycle
import Bamts.RuntimeLength
import Bamts.RuntimeDescriptor
import Bamts.RuntimePrototype
import Bamts.RuntimeAscii
import Bamts.RuntimeSpread
import Bamts.RuntimeProxy
import Bamts.RuntimeBoxing
import Bamts.RuntimeKeyOrder
import Bamts.RuntimeSearch
import Bamts.RuntimeBound
import Bamts.RuntimeCells
import Bamts.RuntimeLinked
import Bamts.RuntimeInstantiate
import Bamts.RuntimeConstant
import Bamts.UriOctets
import Bamts.UriCoding
import Bamts.ListStrip
import Bamts.RuntimeLiteral
import Bamts.RuntimeNumeric
import Bamts.Gather
import Bamts.RuntimePromiseAll
import Bamts.RuntimePromiseAllKeep
import Bamts.RuntimePromiseAllStep
import Bamts.RuntimePromiseAllRun
import Bamts.RuntimeUnwind
import Bamts.RuntimeUnwindThrow
import Bamts.RuntimeUnwindRun
import Bamts.LayerWalk
import Bamts.RuntimeForIn
import Bamts.RuntimeForInView
import Bamts.RuntimeForInStep
import Bamts.RuntimeForInRun
import Bamts.RuntimeForInEdit
import Bamts.RuntimeForInOwn
import Bamts.Tiering
import Bamts.Base64
import Bamts.Base64Coding
import Bamts.Base64Round
import Bamts.SpanClosure
import Bamts.SpanMerge
import Bamts.FoldTable
import Bamts.FoldFacts
import Bamts.FoldClosure
import Bamts.FoldExact
import Bamts.RegexpModel
import Bamts.RegexpParser
import Bamts.FirstKept
import Bamts.RegexpDedup
import Bamts.RegexpPlaced
import Bamts.RegexpSyntax
import Bamts.RegexpReads
import Bamts.RegexpReadsClass
import Bamts.RegexpReadsTree
import Bamts.RuntimeClone
import Bamts.RuntimeCloneKeep
import Bamts.RuntimeCloneRead
import Bamts.RuntimeCloneTransfer
import Bamts.RuntimeCloneExact
import Bamts.Limbs
import Bamts.Numeral
import Bamts.NumberBig
import Bamts.NumberDivision
import Bamts.NumberFixed
import Bamts.NumberSignificand
import Bamts.NumberRadix
import Bamts.BigIntLimbs
import Bamts.BigIntDivide
import Bamts.BigIntRange
import Bamts.BigIntValue
import Bamts.BigIntBits
import Bamts.BigIntExact
import Bamts.BigIntText
import Bamts.SourceMapVlq
import Bamts.SourceMapText
import Bamts.SourceMapBuilder
import Bamts.StableSort
import Bamts.TypedSort
import Bamts.TypedOrder
import Bamts.GraphOrder
import Bamts.ProjectGraph
import Bamts.ProjectCycle
import Bamts.ProjectOrder
import Bamts.ProjectCycle
import Bamts.ProjectOrder
import Bamts.ProjectIdentity
import Bamts.DateCalendar
import Bamts.DateRound
import Bamts.ByteText
import Bamts.DecimalText
import Bamts.DateNumber
import Bamts.DateZone
import Bamts.DateText
import Bamts.DateText
import Bamts.DateCast
import Bamts.DateParse
import Bamts.DateGrammar
import Bamts.DateReads
import Bamts.DateFormat
import Bamts.DateTextRound
import Bamts.DateSafe
import Bamts.SimplePath
import Bamts.ExportTable
import Bamts.ExportPaths
import Bamts.NearestPoint
import Bamts.BinaryFormat
import Bamts.CheckedWord
import Bamts.RadixLiteral
import Bamts.TypedHalf
import Bamts.BigIntLiteral
import Bamts.BigIntSpelling
import Bamts.SourceCoordinates
