import RemoteFs.FileBytes
import RemoteFs.WriteLog
import RemoteFs.OsPaths
import RemoteFs.ClientAttributes
import RemoteFs.RemoteTree
import RemoteFs.ClientPageCache
import RemoteFs.ClientPageCacheLoops
import RemoteFs.ClientWriteBuffer
import RemoteFs.ClientPageCacheReads
import RemoteFs.ClientCache
import RemoteFs.ClientFileSystem
import RemoteFs.ClientWriteBack
import RemoteFs.ClientWriteBackInterleaving
import RemoteFs.ServerPaths
import RemoteFs.ClientProgramOrder
import RemoteFs.ClientMemory
import RemoteFs.ClientTruncation
import RemoteFs.ClientCalls
import RemoteFs.ClientReadYourWrites
import RemoteFs.PosixTree
import RemoteFs.ServerStorage
import RemoteFs.ServerAccess
import RemoteFs.ServerDatabase
import RemoteFs.ServerTokens
import RemoteFs.ServerUserAdministration
import RemoteFs.ServerXattributes
import RemoteFs.ClientAttributeCoherence
import RemoteFs.ClientKnowledge
import RemoteFs.ClientReadBufferCoherence
import RemoteFs.ClientDirectoryListing
import RemoteFs.ClientKnowledgeReads
import RemoteFs.ClientPagedListing
import RemoteFs.ClientRenameCoherence
import RemoteFs.ClientCallSteps
import RemoteFs.ClientFillSteps
import RemoteFs.ClientStaleFill
import RemoteFs.ClientStaleness
import RemoteFs.ClientRetries
import RemoteFs.ServerCallSteps
import RemoteFs.ServerExchangeInterleaving
import RemoteFs.ServerRenameAttributes
import RemoteFs.ServerRenameRace
import RemoteFs.ClientFrontEnds
import RemoteFs.ClientShutdown
import RemoteFs.CallRows
import RemoteFs.PercentEncoding
import RemoteFs.ServerAccessDecision
import RemoteFs.ServerAttributeCalls
import RemoteFs.ServerAttributeRequests
import RemoteFs.ServerFailedCreation
import RemoteFs.ServerNewUsers
import RemoteFs.ServerRevocation
import RemoteFs.ServerTimes
import RemoteFs.XattributeUrls
import RemoteFs.ClientCacheEviction
import RemoteFs.ClientCacheRecency
import RemoteFs.ClientPageCacheWrites
import RemoteFs.FileTimes
import RemoteFs.NormalizedPaths
import RemoteFs.ClientBufferedReads
import RemoteFs.ClientCacheCalls
import RemoteFs.ClientConfiguration
import RemoteFs.ClientCopyRange
import RemoteFs.ServerListing
import RemoteFs.ClientCacheSections
import RemoteFs.ClientListedNames
import RemoteFs.ClientMarkedListing
import RemoteFs.ClientPageCacheWords
import RemoteFs.ClientModeBits
import RemoteFs.UnixFrontEnd
import RemoteFs.UnixHandles
import RemoteFs.UnixWriteBack
import RemoteFs.ClientSessions
import RemoteFs.ServedRequests
import RemoteFs.WindowsNames
import RemoteFs.WireAnswers
import RemoteFs.UnixOnServer
import RemoteFs.XattributeCalls
import RemoteFs.WindowsFrontEnd
import RemoteFs.WindowsWriteBack
import RemoteFs.AccessCalls
import RemoteFs.ServerConfinement
