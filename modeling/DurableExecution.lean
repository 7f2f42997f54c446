import DurableExecution.Library.Fuel
import DurableExecution.Engine.History
import DurableExecution.Library.System
import DurableExecution.Library.Steps
import DurableExecution.Engine.Run
import DurableExecution.Engine.Log
import DurableExecution.Engine.Proofs.LogProofs
import DurableExecution.Engine.Propagating
import DurableExecution.Engine.Straight
import DurableExecution.Engine.Proofs.CompletionProofs
import DurableExecution.Engine.Proofs.ShapeProofs
import DurableExecution.Engine.Proofs.AccountingProofs
import DurableExecution.Engine.Proofs.ResumeProofs
import DurableExecution.Engine.Crash
import DurableExecution.Engine.Proofs.CrashProofs
import DurableExecution.Engine.Handling
import DurableExecution.Engine.Proofs.HandlingProofs
import DurableExecution.Engine.Hosting
import DurableExecution.Engine.Nested
import DurableExecution.Engine.Proofs.NestedProofs
import DurableExecution.Engine.Overlap
import DurableExecution.Engine.Proofs.OverlapProofs
import DurableExecution.Engine.Proofs.ChildrenProofs
import DurableExecution.Engine.Proofs.RecoveryProofs
import DurableExecution.Library.Buckets
import DurableExecution.Wheel.TimingWheel
import DurableExecution.Wheel.World
import DurableExecution.Wheel.Proofs.WheelProofs
import DurableExecution.Wheel.Invariant
import DurableExecution.Wheel.Proofs.InvariantProofs
import DurableExecution.Wheel.Proofs.FiringProofs
import DurableExecution.Wheel.Proofs.OrderProofs
import DurableExecution.Wheel.Proofs.RepresentationProofs
import DurableExecution.Wheel.Proofs.CancelProofs
import DurableExecution.Wheel.Proofs.CommuteProofs
import DurableExecution.Wheel.Raising
import DurableExecution.Wheel.Proofs.RaisingProofs
import DurableExecution.Wheel.Numbers
import DurableExecution.Wheel.Proofs.NumbersProofs
import DurableExecution.Wheel.Proofs.RustProofs
import DurableExecution.Wheel.Proofs.TypeScriptProofs
import DurableExecution.Wheel.Reentrant
import DurableExecution.Wheel.Proofs.ReentrantProofs
import DurableExecution.Library.StableQueue
import DurableExecution.Library.Answers
import DurableExecution.Library.Fairness
import DurableExecution.Engine.Interrupted
import DurableExecution.Engine.Proofs.InterruptedProofs
import DurableExecution.Engine.Upgrade
import DurableExecution.Engine.Proofs.UpgradeProofs
import DurableExecution.Engine.StoreObject
import DurableExecution.Engine.Proofs.StoreObjectProofs
import DurableExecution.Engine.Effects
import DurableExecution.Engine.Fleet
import DurableExecution.Engine.Proofs.EffectsProofs
import DurableExecution.Engine.Proofs.FleetProofs
import DurableExecution.Wheel.Agenda
import DurableExecution.Wheel.Proofs.AgendaProofs
import DurableExecution.Library.Signed
import DurableExecution.Wheel.Wrapping
import DurableExecution.Wheel.Proofs.WrappingProofs
import DurableExecution.Wheel.Proofs.PortsProofs
import DurableExecution.Library.Amortized
import DurableExecution.Wheel.Span
import DurableExecution.Wheel.Work
import DurableExecution.Wheel.Proofs.SpanProofs
import DurableExecution.Wheel.Proofs.WorkProofs
import DurableExecution.Engine.Proofs.ReplayCostProofs
