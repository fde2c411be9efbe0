import AgentLoop.Config.Load
import AgentLoop.EventBus
import AgentLoop.Scripted.Hook
import AgentLoop.Scripted.Provider
import AgentLoop.Scripted.Tool
import AgentLoop.Serial.Event
import AgentLoop.Service.Scenario
import AgentLoop.Proofs.Played
import AgentLoop.Proofs.Timelines
import AgentLoop.Proofs.Pairing
import AgentLoop.Proofs.Rounds
import AgentLoop.Proofs.Turns
import AgentLoop.Proofs.Course
import AgentLoop.Proofs.Ceiling
import AgentLoop.Proofs.Requests
import AgentLoop.Proofs.Conversation
import AgentLoop.Proofs.Instant
import AgentLoop.Proofs.Steps
import AgentLoop.Proofs.Progress
import AgentLoop.Proofs.History
import AgentLoop.Proofs.Memory
import AgentLoop.Proofs.Slots
import AgentLoop.Proofs.Onward
import AgentLoop.Proofs.Horizon
import AgentLoop.Proofs.Lockstep
import AgentLoop.Proofs.Cut
import AgentLoop.Proofs.CleanCut
import AgentLoop.Proofs.Account
import AgentLoop.Proofs.Admission
import AgentLoop.Proofs.Crew
import AgentLoop.Proofs.SideBySide
import AgentLoop.Proofs.Streaming
import AgentLoop.Proofs.Consumption
import AgentLoop.Proofs.Reading
import AgentLoop.Proofs.Chronicle
import AgentLoop.Proofs.Records
import AgentLoop.Proofs.Metrics
import AgentLoop.Proofs.Gates
import AgentLoop.Proofs.Executions
import AgentLoop.Proofs.ToolCalls
import AgentLoop.Proofs.Rounding
import AgentLoop.Proofs.Delays
import AgentLoop.Proofs.Breakdown
import AgentLoop.Proofs.Trimming
import AgentLoop.Proofs.Permits
import AgentLoop.Proofs.Outage
import AgentLoop.Proofs.StandIn
import AgentLoop.Proofs.FailOpen
import AgentLoop.Proofs.Cancellation
import AgentLoop.Proofs.Nesting
import AgentLoop.Proofs.Doubling
import AgentLoop.Proofs.Ranges
import AgentLoop.Proofs.Retries
import AgentLoop.Proofs.Afresh
import AgentLoop.Proofs.Estimates
import AgentLoop.Proofs.Returns
import AgentLoop.Proofs.Tally
import AgentLoop.Proofs.ReadThrough
import AgentLoop.Proofs.Alongside
import AgentLoop.Proofs.Chunking
import AgentLoop.Proofs.Farewell
import AgentLoop.Proofs.Sessions
import AgentLoop.Proofs.Offers
import AgentLoop.Proofs.Classification
import AgentLoop.Proofs.Overriding
import AgentLoop.Proofs.Calendar
import AgentLoop.Proofs.Timestamps
import AgentLoop.Proofs.Copies
import AgentLoop.Proofs.Restoring
