import LoxLang.Command
import Std.Time.DateTime.Timestamp

/-!
# The command line

Reads the file that a call names, carries the call out, and prints and writes what it replies. A
prompt reads and runs one line at a time. The clock of a run shows the seconds since the epoch.
-/

namespace LoxLang.Main

open Command

/-- What is found under a path. -/
def sourceAt (path : Path) : IO Source := do
  try
    return .file (← IO.FS.readBinFile path.text)
  catch
    | .noFileOrDirectory .. => return .missing
    | .invalidArgument .. => return .tooLong
    | _ => return .folder

/-- What is found under each of some paths. -/
def sourcesAt (paths : List Path) : IO (Path → Source) := do
  let found ← paths.mapM fun path => return (path, ← sourceAt path)
  return fun path => (found.lookup path).getD .missing

/-- The seconds since the epoch. -/
def secondsNow : IO Float := do
  let now ← Std.Time.Timestamp.now
  return .ofInt now.toNanosecondsSinceUnixEpoch.val / 1e9

/-- A clock with the given readings. One that is not there yet is later than any other. -/
def clockOf (readings : Array Float) : Clock where
  reading n := readings.getD n (1 / 0)

/-- Make a run whose clock is read each time that the run asks for it. A run is a function of its
clock, so it cannot wait for a reading: as long as it has asked for one that was not there, the time
is read once more and the run is made again. -/
partial def onTime {α : Type} (run : Clock → α) (taken : α → Nat) (readings : Array Float := #[]) :
    IO α := do
  let result := run (clockOf readings)
  if taken result ≤ readings.size then return result
  onTime run taken (readings.push (← secondsNow))

/-- Print and write what a call replies. -/
def deliver (reply : Reply) : IO UInt32 := do
  IO.print reply.out
  IO.eprint reply.err
  for (path, text) in reply.written do
    IO.FS.writeFile path.text text
  return reply.status.code.toUInt32

/-- How often the clock was read. -/
def readings {α : Type} : EStateM.Result Abort Session α → Nat
  | .ok _ s | .error _ s => s.machine.clock.taken

/-- Read and run lines until there are no more. Each line has a clock of its own. -/
partial def promptLoop (stdin : IO.FS.Stream) (s : Session) : IO Session := do
  IO.print promptText
  (← IO.getStdout).flush
  let line ← stdin.getLine
  if line.isEmpty then return s
  let text := String.ofList (line.toList.filter (· ≠ '\n'))
  let before := s.reporter.written.size
  let run (clock : Clock) := promptLine text { s with machine := { s.machine with clock } }
  match ← onTime run readings with
  | .ok shown s => do
    IO.print shown
    for d in s.reporter.written.toList.drop before do
      IO.eprintln d.text
    promptLoop stdin s
  | .error _ s => return s

/-- Run the prompt on the terminal. -/
def prompt (detail : Nat) : IO UInt32 := do
  let s ← promptLoop (← IO.getStdin) (.start detail (clockOf #[]))
  match s.machine.trace.text? with
  | some text => IO.FS.writeFile tracePath.text text
  | none => pure ()
  return 0

/-- Carry a call out. -/
def run (options : Options) : IO UInt32 := do
  match options.request with
  | .prompt detail => prompt detail
  | request => do
    let find ← sourcesAt request.paths
    deliver (← onTime (request.perform find "") Reply.readings)

end LoxLang.Main

/-- Carry out a call. -/
def main (arguments : List String) : IO UInt32 := do
  match LoxLang.Command.Options.ofArguments arguments with
  | .error refusal => LoxLang.Main.deliver refusal.reply
  | .ok options => LoxLang.Main.run options
