import EasyBD.TransitionRuns
import EasyBD.EasybdProtocol
import EasyBD.EasyioSendAll
import EasyBD.EasyioSendAllCalls
import EasyBD.EasyioMutex
import EasyBD.EasyioLockGuard
import EasyBD.SerializedFrames
import EasyBD.EasyioSenders
import EasyBD.EasyioFramedReader
import EasyBD.EasyioFramedReaderCalls
import EasyBD.CyclicWindow
import EasyBD.EasyioLibcQueue
import EasyBD.EasyioLibcStep
import EasyBD.EasyioLibcCompletions
import EasyBD.EasybdWorker
import EasyBD.EasybdWorkerTeardown
import EasyBD.EasyioLibcRecvStream
import EasyBD.EasyioUringRecvStream
import EasyBD.EasyioSingleShotRecvStream
import EasyBD.EasyioNextBatch
import EasyBD.EasyioRecvSink
import EasyBD.EasyioRecvSinkOwners
import EasyBD.EasyioUringResubmission
import EasyBD.EasyioBufferGroups
import EasyBD.EasyioFileOps
import EasyBD.EasyioFixedFile
import EasyBD.EasybdOffsets
import EasyBD.EasybdHandleConnection
import EasyBD.EasybdClient
import EasyBD.EasybdClientTable
import EasyBD.EasybdClientRefusals
import EasyBD.EasybdClientChannel
import EasyBD.EasybdClientCallbacks
import EasyBD.EasybdClientOrphans
import EasyBD.EasybdClientBuffers
import EasyBD.EasybdClientWait
import EasyBD.EasybdSession
import EasyBD.EasybdSessionTasks
import EasyBD.EasybdSessionParsing
import EasyBD.EasybdSessionChannel
import EasyBD.EasybdSessionResponses
import EasyBD.EasybdTornFrames
import EasyBD.EasybdSessionAnswers
import EasyBD.EasybdSessionWaitGroup
import EasyBD.EasybdAcceptLoop
import EasyBD.EasybdClientTeardown
import EasyBD.EasybdClientWaitErrors
import EasyBD.EasybdClientReliable
import EasyBD.EasybdSessionReliable
import EasyBD.EasybdEndToEnd
import EasyBD.EasybdEndToEndProgress
import EasyBD.EasybdEndToEndWork
import EasyBD.EasybdEndToEndMatching
import EasyBD.EasyioFallibleSenders
import EasyBD.EasybdClientFallible
import EasyBD.EasybdSessionFallible
import EasyBD.EasybdEndToEndFallible
import EasyBD.EasybdEndToEndOutcomes
import EasyBD.BlockDevice
import EasyBD.EasybdBlockService
import EasyBD.EasybdBlockServiceHistory
import EasyBD.EasybdBlockServiceDurability
import EasyBD.EasyioUringQueue
import EasyBD.EasybdServer
import EasyBD.EasyioFramedReaderStreams
import EasyBD.EasyioFramedReaderBackends
import EasyBD.CallStacks
import EasyBD.EasyioTask
import EasyBD.EasybdDetachedTasks
