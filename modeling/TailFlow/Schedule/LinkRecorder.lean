import TailFlow.Schedule.Cause

/-!
# Recording links

A recorder keeps one link for each call. A second link for a call takes the place of the first, and
a warning notes it.
-/

namespace TailFlow

/-- The links recorded so far, and the warnings about links recorded twice. -/
structure LinkRecorder where
  links : IdMap Link
  warnings : List ScheduleWarning
  deriving DecidableEq

namespace LinkRecorder

def empty : LinkRecorder := ⟨.empty, []⟩

def record (recorder : LinkRecorder) (link : Link) : LinkRecorder where
  links := recorder.links.insert link.call link
  warnings :=
    if recorder.links.contains link.call then recorder.warnings ++ [.duplicateLink link.call]
    else recorder.warnings

def get? (recorder : LinkRecorder) (call : NodeId) : Option Link := recorder.links.get? call

end LinkRecorder

end TailFlow
