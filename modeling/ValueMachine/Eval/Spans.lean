import ValueMachine.Eval.Trace
import ValueMachine.Store.Basic

/-! Trace events as nested spans in a log.

A run becomes a span, and every scope inside it a span inside that one. Scopes
that a fault or a fatal error has cut short are left when the run ends, the
innermost first; a run that starts while spans are still open leaves those first. -/
namespace ValueMachine

/-- How much attention a line of a log asks for. -/
inductive LogLevel
  | trace
  | debug
  | warn
deriving DecidableEq

def LogLevel.label : LogLevel → String
  | trace => "TRACE"
  | debug => "DEBUG"
  | warn => "WARN"

inductive SpanName
  | run
  | frame
  | deferral
deriving DecidableEq

def SpanName.label : SpanName → String
  | run => "run"
  | frame => "frame"
  | deferral => "deferral"

/-- The value of a named field of a log line. -/
inductive LogField
  | text (s : String)
  | number (n : Nat)
  | flag (b : Bool)
deriving DecidableEq

/-- A line of a log. -/
inductive LogLine
  | enter (level : LogLevel) (name : SpanName) (fields : List (String × LogField))
  | exit (name : SpanName)
  | event (level : LogLevel) (fields : List (String × LogField))
deriving DecidableEq

/-- A span that is open: its number among all spans that have been opened, and its name. -/
structure Span where
  number : Nat
  name : SpanName
deriving DecidableEq

/-- A sink that turns trace events into lines of a log. -/
structure SpanSink where
  mask : TraceMask
  /-- How many spans have been opened. -/
  opened : Nat
  /-- The span of the run, if it is open. -/
  run : Option Span
  /-- The spans of the open scopes, the innermost first. -/
  scopes : List Span
  log : Array LogLine

namespace SpanSink

/-- A sink for runs and calls. -/
def new : SpanSink := ⟨⟨true, false, true⟩, 0, none, [], #[]⟩

/-- A sink for instructions as well. -/
def withInstructions (sink : SpanSink) : SpanSink :=
  { sink with mask := sink.mask.union ⟨false, true, false⟩ }

def openScopes (sink : SpanSink) : Nat := sink.scopes.length

def write (sink : SpanSink) (line : LogLine) : SpanSink := { sink with log := sink.log.push line }

/-- The span that is opened next, if it gets this name. -/
def next (sink : SpanSink) (name : SpanName) : Span := ⟨sink.opened, name⟩

/-- Opens the span of a run. -/
def openRun (sink : SpanSink) (fields : List (String × LogField)) : SpanSink :=
  { sink with run := some (sink.next .run), opened := sink.opened + 1 }.write
    (.enter .debug .run fields)

/-- Opens the span of a scope inside those that are open. -/
def openScope (sink : SpanSink) (name : SpanName) (fields : List (String × LogField)) :
    SpanSink :=
  { sink with scopes := sink.next name :: sink.scopes, opened := sink.opened + 1 }.write
    (.enter .trace name fields)

/-- Leaves the innermost scope, if one is open. -/
def closeScope (sink : SpanSink) : SpanSink :=
  match sink.scopes with
  | [] => sink
  | span :: rest => { sink with scopes := rest }.write (.exit span.name)

/-- Leaves every open scope, the innermost first. -/
def closeScopes (sink : SpanSink) : SpanSink :=
  { sink with
    scopes := [], log := sink.scopes.foldl (fun log span => log.push (.exit span.name)) sink.log }

/-- Leaves the span of the run, if it is open. -/
def closeRun (sink : SpanSink) : SpanSink :=
  match sink.run with
  | none => sink
  | some span => { sink with run := none }.write (.exit span.name)

/-- Leaves everything when the sink is given up: the run first, and then the scopes
from the outermost in. -/
def close (sink : SpanSink) : SpanSink :=
  let sink := sink.closeRun
  { sink with scopes := sink.scopes.reverse }.closeScopes

/-- The span of a scope. -/
def spanOf : Scope → Nat → SpanName × List (String × LogField)
  | .frame func, depth => (.frame, [("func", .number func.index), ("depth", .number depth)])
  | .deferral func proved, depth =>
    (.deferral, [("func", .number func.index), ("proved", .flag proved), ("depth", .number depth)])

/-- The line at the end of a run. -/
def endLine (s : Store) : TraceEvent → LogLine
  | .runOk outcome =>
    .event .trace [("message", .text "run finished"), ("value", .text outcome.label)]
  | .runFault fault error =>
    .event .warn [("message", .text "run faulted"), ("fault", .text fault.message),
      ("error", .text ((s.text? error).getD ""))]
  | _ => .event .warn [("message", .text "run stopped")]

/-- Takes an event of an evaluation on a store. -/
def receive (s : Store) (sink : SpanSink) (e : TraceEvent) : SpanSink :=
  match e with
  | .runStart entry arg =>
    sink.closeScopes.closeRun.openRun
      [("entry", .text entry.label), ("arg", .text arg.label)]
  | .instr func place opcode =>
    sink.write (.event .trace
      [("func", .number func.index), ("ix", .number place), ("op", .text opcode.mnemonic)])
  | .enter scope depth => sink.openScope (spanOf scope depth).1 (spanOf scope depth).2
  | .exit _ _ => sink.closeScope
  | e => (sink.closeScopes.write (endLine s e)).closeRun

/-- Takes the events of an evaluation that ended with the given store. -/
def receiveAll (s : Store) (sink : SpanSink) (events : Array TraceEvent) : SpanSink :=
  events.foldl (receive s) sink

end SpanSink

end ValueMachine
