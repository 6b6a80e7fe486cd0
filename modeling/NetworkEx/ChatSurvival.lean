import NetworkEx.EpollChat
import NetworkEx.RtsChat

namespace NetworkEx.ChatSurvival
open ByteStreams ChatSockets TransitionRuns

-- What the printing of a message needs: %s finds a NUL in the buffer.
def Printable (chunk : Bytes) : Prop := chunk.length < MAXLINE ∨ 0 ∈ chunk

-- The steps of the real-time-signal server that it comes through.
def RtsSafe (listenfd : Nat) (s : RtsChat.State) : RtsChat.Action → Prop
  | .take _ => ∀ fd rest c chunk, s.pc = .wait → s.signals = fd :: rest → fd ≠ listenfd →
      s.conns fd = some c → c.read = .data chunk → Printable chunk
  | .setupClient answers => ∀ fd, s.pc = .accepted fd → RtsChat.setupSigio answers = 1 → fd < maxClients
  | .write answer => ∀ fd msg text i c, s.pc = .broadcast fd msg text i → i < maxClients → s.userFds i = 1 →
      s.conns i = some c → c.failed = true → answer ≠ .sigpipe
  | _ => True

theorem rts_printable (valid : RtsChat.Pending listenfd s) (opened : s.conns fd = some c)
    (data : Conn.read c.toConn = .data chunk) : (RtsChat.chatText fd chunk).isSome ↔ Printable chunk :=
  RtsChat.chatText_isSome (valid.apart fd (by simp [opened])).2 (read_length data)

theorem rts_take_safe (waiting : s.pc = .wait) (head : s.signals = fd :: rest) (other : fd ≠ listenfd)
    (opened : s.conns fd = some c) :
    RtsSafe listenfd s (.take answer) ↔ ∀ chunk, Conn.read c.toConn = .data chunk → Printable chunk := by
  constructor
  · intro safe chunk data
    exact safe _ _ _ _ waiting head other opened data
  · intro printable fd rest c chunk _ queued _ found data
    cases head.symm.trans queued
    cases opened.symm.trans found
    exact printable chunk data

theorem rts_write_safe (looping : s.pc = .broadcast fd msg text i) :
    RtsSafe listenfd s (.write answer) ↔
      ∀ c, i < maxClients → s.userFds i = 1 → s.conns i = some c → c.failed = true → answer ≠ .sigpipe := by
  constructor
  · intro safe c
    exact safe _ _ _ _ c looping
  · intro whole fd msg text i c there
    cases looping.symm.trans there
    exact whole c

theorem rts_safe_iff (valid : RtsChat.Pending listenfd s) (live : s.pc.live = true)
    (stepped : RtsChat.Stepped listenfd s action next) : next.pc.live = true ↔ RtsSafe listenfd s action := by
  cases stepped with
  | connect _ => simp [RtsSafe,live]
  | pendingPeer _ pending moved => simp [RtsSafe,live]
  | peer _ opened moved => simp [RtsSafe,live]
  | setupListener starting => simp [RtsSafe,RtsChat.Pc.live]
  | acceptFails waiting head =>
    refine iff_of_true live ?_
    intro fd rest c chunk _ queued other
    cases head.symm.trans queued
    exact absurd rfl other
  | accepts waiting head first other small free =>
    refine iff_of_true rfl ?_
    intro fd rest c chunk _ queued client
    cases head.symm.trans queued
    exact absurd rfl client
  | stale waiting head other gone =>
    refine iff_of_true (by simpa [RtsChat.drop] using live) ?_
    intro fd rest c chunk _ queued _ opened
    cases head.symm.trans queued
    cases gone.symm.trans opened
  | overreads waiting head other opened data unprinted =>
    rw [rts_take_safe waiting head other opened]
    refine iff_of_false (by simp [RtsChat.Pc.live]) ?_
    intro safe
    have printable := safe _ data
    rw [← rts_printable valid opened data,unprinted] at printable
    cases printable
  | reads waiting head other opened data printed =>
    rw [rts_take_safe waiting head other opened]
    refine iff_of_true rfl ?_
    intro chunk result
    cases data.symm.trans result
    exact (rts_printable valid opened data).mp (by simp [printed])
  | drops waiting head other opened ended =>
    rw [rts_take_safe waiting head other opened]
    refine iff_of_true (by simpa [RtsChat.drop] using live) ?_
    intro chunk result
    simp [result] at ended
  | registers here opened ready small =>
    refine iff_of_true rfl ?_
    intro fd there _
    cases here.symm.trans there
    exact small
  | overindexes here opened ready large =>
    exact iff_of_false (by simp [RtsChat.Pc.live]) fun safe => large (safe _ here ready)
  | setupFails here opened unready => exact iff_of_true rfl fun fd _ ready => absurd ready unready
  | skips looping inside silent =>
    rw [rts_write_safe looping]
    exact iff_of_true rfl fun c _ member => absurd member silent
  | misses looping inside member gone =>
    rw [rts_write_safe looping]
    refine iff_of_true rfl ?_
    intro c _ _ opened
    cases gone.symm.trans opened
  | refuses looping inside member opened why =>
    rw [rts_write_safe looping]
    exact iff_of_true rfl fun c _ _ _ _ => by simp
  | breaks looping inside member opened broken =>
    rw [rts_write_safe looping]
    refine iff_of_false (by simp [RtsChat.Pc.live]) ?_
    intro safe
    exact safe _ inside member opened broken rfl
  | writes looping inside member opened whole fits =>
    rw [rts_write_safe looping]
    exact iff_of_true rfl fun c _ _ _ _ => by simp
  | finishes looping outside =>
    rw [rts_write_safe looping]
    exact iff_of_true rfl fun c inside => absurd inside outside

def rtsReset : List RtsChat.Action :=
  [.setupListener RtsChat.answered,.connect,.take (some 4),.setupClient RtsChat.answered,.connect,.take (some 5),
    .setupClient RtsChat.answered,.peer 5 (.data (CText.ascii "hi")),.take none,.peer 4 .fin,.peer 4 .reset] ++
  List.replicate 5 (.write .sigpipe)

theorem rtsReset_ends : (run (RtsChat.step 3) RtsChat.initial rtsReset).map (·.pc) = some .killed := by decide +kernel

end NetworkEx.ChatSurvival
