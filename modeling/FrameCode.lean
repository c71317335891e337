import FrameCode.QuadraticProbing
import FrameCode.MachineInt
import FrameCode.OpenAddressing
import FrameCode.PrimeTable
import FrameCode.RegionMemory
import FrameCode.ImTypes
import FrameCode.ImHashtable
import FrameCode.ImVector
import FrameCode.ImSerialize
import FrameCode.ImInvariant
import FrameCode.ImSearch
import FrameCode.ImRehash
import FrameCode.Beai3Dict
import FrameCode.ImVectorGrowth
import FrameCode.DictMap
import FrameCode.LinkedList
import FrameCode.ThreadPool
import FrameCode.ThreadPoolQueue
import FrameCode.LibListMeaning
import FrameCode.BasEncString
import FrameCode.AsynccomTransactions
import FrameCode.AsynccomBancs
import FrameCode.ThreadPoolProgress
import FrameCode.ThreadPoolTeardown
import FrameCode.ThreadPoolWakeup
import FrameCode.ImSerialized
import FrameCode.DictSerialize
import FrameCode.DictText
import FrameCode.AsynccomServer
import FrameCode.AsynccomStream
import FrameCode.AsynccomBuffer
import FrameCode.ComextBancs
import FrameCode.ComextFragments
import FrameCode.LabelledRuns
import FrameCode.MonitorChildProcess
import FrameCode.AsynccomClear
import FrameCode.AsynccomClient
import FrameCode.DelCodeAnnotation
import FrameCode.DictSetters
import FrameCode.LibConfFile
import FrameCode.LibConfFilePieces
import FrameCode.YlSocket
import FrameCode.DictKeys
import FrameCode.LibFile
import FrameCode.LibFilePipelines
import FrameCode.ImVectorList
import FrameCode.ImDuplicate
import FrameCode.ImDuplicateCalls
import FrameCode.ImDuplicateForest
import FrameCode.ImDuplicateFaithful
import FrameCode.ImDuplicateAnswers
import FrameCode.ComextInvariant
import FrameCode.LibFileLines
import FrameCode.LibFilePasses
import FrameCode.LibFileIndent
import FrameCode.YlSocketHeads
import FrameCode.MonitorConfFile
import FrameCode.MonitorConfLoading
import FrameCode.CheckedCopy
import FrameCode.ComextHandlers
import FrameCode.ComextMerging
import FrameCode.ComextSafety
import FrameCode.ComextSafeRuns
import FrameCode.LibFileBlankLines
import FrameCode.LibHex
import FrameCode.LibStringClasses
import FrameCode.LibStringBrackets
import FrameCode.StringBlocks
import FrameCode.LibStringBuffers
import FrameCode.LibStringReplace
import FrameCode.LibXml
import FrameCode.BasEncStringBlocks
import FrameCode.BasEncStringBase64
import FrameCode.BasEncStringComplement
import FrameCode.BasEncrypt
import FrameCode.BasEncryptLog
