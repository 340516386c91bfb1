import MindScript.Host.Probe
import MindScript.Main
import MindScript.Proofs.Interning
import MindScript.Proofs.Alike
import MindScript.Proofs.Alike.Calls
import MindScript.Proofs.Alike.Members
import MindScript.Proofs.Alike.Steps
import MindScript.Proofs.Scheduler.Cards
import MindScript.Proofs.Scheduler.Changes
import MindScript.Proofs.Scheduler.Actions
import MindScript.Proofs.Scheduler.Moments
import MindScript.Proofs.Scheduler.Families
import MindScript.Proofs.Scheduler.Settling
import MindScript.Proofs.Scheduler.Lifetimes
import MindScript.Proofs.Scheduler.Groups
import MindScript.Proofs.Scheduler.Search
import MindScript.Proofs.Scheduler.Waiting
import MindScript.Proofs.Continuation.Enacts
import MindScript.Proofs.Continuation.Immediate
import MindScript.Proofs.Continuation.Nodes
import MindScript.Proofs.Class.Dispatch
import MindScript.Proofs.Class.Kinds
import MindScript.Proofs.Continuation.Agreement
import MindScript.Proofs.Calls.Exits
import MindScript.Proofs.Scheduler.Listed
import MindScript.Proofs.Wakeups.Deeds
import MindScript.Proofs.Wakeups.Heedful
import MindScript.Proofs.Wakeups.Loops
import MindScript.Proofs.Class.Answers
import MindScript.Proofs.Calls.Bodies
import MindScript.Proofs.Class.Foundation
import MindScript.Proofs.Class.Order
import MindScript.Proofs.Custody.Ages
import MindScript.Proofs.Custody.Arguments
import MindScript.Proofs.Custody.Armed
import MindScript.Proofs.Custody.Calls
import MindScript.Proofs.Custody.Continue
import MindScript.Proofs.Custody.Contents
import MindScript.Proofs.Custody.Declarations
import MindScript.Proofs.Custody.Engine
import MindScript.Proofs.Custody.Hosts
import MindScript.Proofs.Destructors.Construction
import MindScript.Proofs.Destructors.Drains
import MindScript.Proofs.Custody.Restored
import MindScript.Proofs.Custody.Midway
import MindScript.Proofs.Custody.Wakeups
import MindScript.Proofs.Cursors
import MindScript.Proofs.Class.Layout
import MindScript.Proofs.Class.Declared
import MindScript.Proofs.Class.Inheritance
import MindScript.Proofs.Class.Refusals
import MindScript.Proofs.Wakeups.Naps
import MindScript.Proofs.Wakeups.Quiet
import MindScript.Proofs.Wakeups.Deferred
import MindScript.Proofs.Wakeups.Rounds
import MindScript.Proofs.Wakeups.Payloads
import MindScript.Proofs.Custody.Resumptions
import MindScript.Proofs.Custody.Ticks
import MindScript.Proofs.Custody.Payloads
import MindScript.Proofs.Custody.Counts
import MindScript.Proofs.Custody.Groups
import MindScript.Proofs.Continuation.Stages
import MindScript.Proofs.Continuation.Unwinding
import MindScript.Proofs.Custody.Recoveries
import MindScript.Proofs.Continuation.Operands
import MindScript.Proofs.Continuation.Results
import MindScript.Proofs.Custody.Results
import MindScript.Proofs.Expr.RoundTrip
import MindScript.Proofs.Custody.Variables
import MindScript.Proofs.Calls.Placing
import MindScript.Proofs.Custody.Names
import MindScript.Proofs.Custody.Parameters
import MindScript.Proofs.Scheduler.Notes
import MindScript.Proofs.Scheduler.Mishaps
import MindScript.Proofs.Scheduler.Tolls
import MindScript.Proofs.Custody.Handing
import MindScript.Proofs.Custody.Mishaps
import MindScript.Proofs.Expr.Durational
import MindScript.Proofs.Class.Founded
import MindScript.Proofs.Calls.Builtins
import MindScript.Proofs.Calls.Arithmetic
import MindScript.Proofs.Calls.Equality
import MindScript.Proofs.Destructors.Teardown
