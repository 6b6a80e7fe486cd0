import NetworkEx.RtsChat

namespace NetworkEx.RtsInput
open ByteStreams CText ChatSockets TransitionRuns RtsChat

-- Main waits and no signal is queued: every connection has been accepted, and
-- every byte of a registered client has been read and broadcast.
def Served (s : State) : Prop :=
  s.pc = .wait → s.signals = [] → s.backlog = [] ∧
    ∀ fd c, s.userFds fd = 1 → s.conns fd = some c → c.unread = [] ∧ c.relayed = c.arrived

-- Input that one signal is enough for: a connection comes when the listener is
-- armed and is accepted on its signal, nothing has arrived on it before it is
-- armed, and what waits unread then is text that fits one read and one string.
def Timely (listenfd : Nat) (s : State) : Action → Prop
  | .connect => s.listenArmed = true
  | .peer fd event => ∀ c, s.conns fd = some c → c.armed = true →
      0 ∉ event.bytes ∧ c.unread.length + event.bytes.length < MAXLINE
  | .take accepted => ∀ rest, s.signals = listenfd :: rest → s.backlog ≠ [] → accepted ≠ none
  | .setupClient answers => ∀ fd c, s.pc = .accepted fd → s.conns fd = some c →
      setupSigio answers = 1 → c.unread = []
  | _ => True

end NetworkEx.RtsInput
