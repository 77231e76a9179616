import Tokamak.SchedulerOwnership
import Tokamak.EngineCancel
import Tokamak.EngineStream
import Tokamak.EngineFinish
import Tokamak.EngineShutdown
import Tokamak.EngineLoop
import Tokamak.Loop
import Tokamak.SchedulerClock
import Tokamak.Simulation
import Tokamak.SimulationStep
import Tokamak.SimulationSound
import Tokamak.SimulationEnds
import Tokamak.Analysis
import Tokamak.SimulationResult
import Tokamak.SimulationDeadlines
import Tokamak.SchedulerOrder
import Tokamak.TokenChannelFifo
import Tokamak.SchedulerBudget
import Tokamak.SchedulerProgress
import Tokamak.SchedulerReport
import Tokamak.SimulationReport
import Tokamak.SchedulerIsolation
import Tokamak.SchedulerQuiet
import Tokamak.SimulationReplay
import Tokamak.SimulationTies
import Tokamak.SimulationTimes
import Tokamak.SimulationCost
import Tokamak.SimulationAdmission
import Tokamak.AnalysisCancelled
import Tokamak.EngineBackpressure
import Tokamak.MockBackendBatch
import Tokamak.SchedulerCancel
import Tokamak.SchedulerDeadline
import Tokamak.SchedulerDeadline64
import Tokamak.SchedulerOutcomes
import Tokamak.EngineRefinement
import Tokamak.EngineSafety
import Tokamak.EngineTotal
import Tokamak.SimulationTotal
import Tokamak.Codes
import Tokamak.Json
import Tokamak.EngineAnswers
import Tokamak.EngineDelivery
import Tokamak.EngineOrphan
import Tokamak.EngineService
import Tokamak.Lines
import Tokamak.Monitor
import Tokamak.Telemetry
import Tokamak.TokenChannelWaiters
import Tokamak.WorkloadFile
import Tokamak.Main
import Tokamak.Server
