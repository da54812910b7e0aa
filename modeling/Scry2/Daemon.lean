import Scry2.Lines
import Scry2.Lib.Threads

/-!
# The daemon

`serve` of `server.rs` takes one connection after the other, and `client_call` is its client. Any
number of callers and of other clients, which may send anything, run beside it.
-/

open Scry2.Lib

namespace Scry2

/-- How the daemon let go of a connection. -/
inductive Drop where
  /-- `try_clone` failed. -/
  | refused
  | eof
  /-- A line was not UTF-8. -/
  | failed
  /-- The client was gone when a reply was written, or when more was read. -/
  | broken
deriving DecidableEq

/-- A connection: what the client wrote and the daemon has not read yet, and all that the daemon wrote. -/
structure Conn where
  toServer : Bytes := []
  toClient : Bytes := []
  closed : Bool := false
  dropped : Option Drop := none

/-- What `read_line` takes off the bytes that were read: a line, or what is left when the stream has ended. -/
inductive Conn.Reads (c : Conn) : Bytes → Bytes → Bytes → Prop
  | line {line rest : Bytes} (hno : newline ∉ line) : Reads c (line ++ newline :: rest) (line ++ [newline]) rest
  | last {buf : Bytes} (hno : newline ∉ buf) (hne : buf ≠ []) (hread : c.toServer = []) (hclosed : c.closed = true) :
      Reads c buf buf []

/-- The process, and the connections by the numbers of the clients. While it serves a connection it
holds the bytes that it has read and not answered yet. -/
structure Daemon where
  down : Bool := false
  /-- The client because of which the process has ended. -/
  endedBy : Option Nat := none
  serving : Option (Nat × Bytes) := none
  backlog : List Nat := []
  /-- How often `accept` is still to fail. -/
  accept_errors : Nat := 0
  conns : List Conn

/-- Where `client_call` is. -/
inductive CallPc where
  | connecting
  | sending (rest : Bytes)
  | waiting
  | returned (r : Res WireReply)
  /-- `SIGPIPE` has ended the process, which `main` leaves to do so. -/
  | killed

/-- Where another client is, with what it has written. -/
inductive PeerPc where
  | away (script : Bytes)
  | writing (written rest : Bytes)
  | gone (written : Bytes)

def PeerPc.written : PeerPc → Bytes
  | .away _ => []
  | .writing written _ => written
  | .gone written => written

inductive Party where
  | serve
  | caller (req : WireRequest) (pc : CallPc)
  | peer (pc : PeerPc)

namespace Daemon

def put (s : Daemon) (i : Nat) (c : Conn) : Daemon := { s with conns := s.conns.set i c }

/-- The client gets no answer on the connection any more. -/
def Lost (s : Daemon) (c : Conn) : Prop := s.down = true ∨ c.dropped ≠ none

/-- After a line of the connection that is being served. -/
def answered (s : Daemon) (i : Nat) (c : Conn) (rest : Bytes) : Res (Option Bytes) → Daemon
  | .ok none => { s with serving := some (i, rest) }
  | .ok (some out) => { s with serving := some (i, rest) }.put i { c with toClient := c.toClient ++ out }
  | .error (.err _) => { s with serving := none }.put i { c with dropped := some .failed }
  | .error .panic => { s with down := true, endedBy := some i, serving := none }

/-- A step of the daemon or of a client. Whatever can fail does so at any time it may: `main` has reset
`SIGPIPE`, so a write to a connection that the other side has closed may end the process. -/
inductive Move [LineJson] (answer : WireRequest → Res WireReply) : Moves Daemon Party
  | connect {w : Nat} {s : Daemon} {req : WireRequest} (hup : s.down = false) :
      Move answer w s (.caller req .connecting) { s with backlog := s.backlog ++ [w] }
        (.caller req (.sending (requestLine req)))
  | noConnect {w : Nat} {s : Daemon} {req : WireRequest} (msg : String) (hdown : s.down = true) :
      Move answer w s (.caller req .connecting) s (.caller req (.returned (.error (.err msg))))
  | write {w : Nat} {s : Daemon} {req : WireRequest} {c : Conn} {chunk rest : Bytes} (hc : s.conns[w]? = some c)
      (hopen : ¬ s.Lost c) (hne : chunk ≠ []) :
      Move answer w s (.caller req (.sending (chunk ++ rest))) (s.put w { c with toServer := c.toServer ++ chunk })
        (.caller req (.sending rest))
  | noWrite {w : Nat} {s : Daemon} {req : WireRequest} {c : Conn} {rest : Bytes} (msg : String)
      (hc : s.conns[w]? = some c) (hlost : s.Lost c) :
      Move answer w s (.caller req (.sending rest)) (s.put w { c with closed := true })
        (.caller req (.returned (.error (.err msg))))
  | writeKilled {w : Nat} {s : Daemon} {req : WireRequest} {c : Conn} {rest : Bytes} (hc : s.conns[w]? = some c)
      (hlost : s.Lost c) :
      Move answer w s (.caller req (.sending rest)) (s.put w { c with closed := true }) (.caller req .killed)
  | sent {w : Nat} {s : Daemon} {req : WireRequest} :
      Move answer w s (.caller req (.sending [])) s (.caller req .waiting)
  | receive {w : Nat} {s : Daemon} {req : WireRequest} {c : Conn} {line rest : Bytes} (hc : s.conns[w]? = some c)
      (hline : c.toClient = line ++ newline :: rest) (hno : newline ∉ line) :
      Move answer w s (.caller req .waiting) (s.put w { c with closed := true })
        (.caller req (.returned (readReplyLine (line ++ [newline]))))
  /-- The stream ends without a line. -/
  | hangUp {w : Nat} {s : Daemon} {req : WireRequest} {c : Conn} (hc : s.conns[w]? = some c) (hlost : s.Lost c)
      (hno : newline ∉ c.toClient) :
      Move answer w s (.caller req .waiting) (s.put w { c with closed := true })
        (.caller req (.returned (readReplyLine c.toClient)))
  | reset {w : Nat} {s : Daemon} {req : WireRequest} {c : Conn} (msg : String) (hc : s.conns[w]? = some c)
      (hlost : s.Lost c) :
      Move answer w s (.caller req .waiting) (s.put w { c with closed := true })
        (.caller req (.returned (.error (.err msg))))
  | peerConnect {w : Nat} {s : Daemon} {script : Bytes} (hup : s.down = false) :
      Move answer w s (.peer (.away script)) { s with backlog := s.backlog ++ [w] } (.peer (.writing [] script))
  | peerWrite {w : Nat} {s : Daemon} {c : Conn} {written chunk rest : Bytes} (hc : s.conns[w]? = some c)
      (hopen : ¬ s.Lost c) (hne : chunk ≠ []) :
      Move answer w s (.peer (.writing written (chunk ++ rest))) (s.put w { c with toServer := c.toServer ++ chunk })
        (.peer (.writing (written ++ chunk) rest))
  | peerClose {w : Nat} {s : Daemon} {c : Conn} {written rest : Bytes} (hc : s.conns[w]? = some c) :
      Move answer w s (.peer (.writing written rest)) (s.put w { c with closed := true }) (.peer (.gone written))
  | accept {w : Nat} {s : Daemon} {i : Nat} {rest : List Nat} (hup : s.down = false) (hidle : s.serving = none)
      (hbacklog : s.backlog = i :: rest) :
      Move answer w s .serve { s with backlog := rest, serving := some (i, []) } .serve
  | acceptFailed {w : Nat} {s : Daemon} {n : Nat} (hup : s.down = false) (hidle : s.serving = none)
      (herrors : s.accept_errors = n + 1) : Move answer w s .serve { s with accept_errors := n } .serve
  | refuse {w : Nat} {s : Daemon} {i : Nat} {rest : List Nat} {c : Conn} (hup : s.down = false)
      (hidle : s.serving = none) (hbacklog : s.backlog = i :: rest) (hc : s.conns[i]? = some c) :
      Move answer w s .serve ({ s with backlog := rest }.put i { c with dropped := some .refused }) .serve
  | pull {w : Nat} {s : Daemon} {i : Nat} {buf chunk rest : Bytes} {c : Conn} (hup : s.down = false)
      (hserving : s.serving = some (i, buf)) (hno : newline ∉ buf) (hc : s.conns[i]? = some c)
      (hread : c.toServer = chunk ++ rest) (hne : chunk ≠ []) :
      Move answer w s .serve ({ s with serving := some (i, buf ++ chunk) }.put i { c with toServer := rest }) .serve
  | line {w : Nat} {s : Daemon} {i : Nat} {buf line rest : Bytes} {c : Conn} (hup : s.down = false)
      (hserving : s.serving = some (i, buf)) (hc : s.conns[i]? = some c) (hline : c.Reads buf line rest) :
      Move answer w s .serve (s.answered i c rest (answerLine answer line)) .serve
  | eof {w : Nat} {s : Daemon} {i : Nat} {c : Conn} (hup : s.down = false) (hserving : s.serving = some (i, []))
      (hc : s.conns[i]? = some c) (hread : c.toServer = []) (hclosed : c.closed = true) :
      Move answer w s .serve ({ s with serving := none }.put i { c with dropped := some .eof }) .serve
  | brokenPipe {w : Nat} {s : Daemon} {i : Nat} {buf line rest out : Bytes} {c : Conn} (hup : s.down = false)
      (hserving : s.serving = some (i, buf)) (hc : s.conns[i]? = some c) (hclosed : c.closed = true)
      (hline : c.Reads buf line rest) (hout : answerLine answer line = .ok (some out)) :
      Move answer w s .serve ({ s with serving := none }.put i { c with dropped := some .broken }) .serve
  | sigpipe {w : Nat} {s : Daemon} {i : Nat} {buf line rest out : Bytes} {c : Conn} (hup : s.down = false)
      (hserving : s.serving = some (i, buf)) (hc : s.conns[i]? = some c) (hclosed : c.closed = true)
      (hline : c.Reads buf line rest) (hout : answerLine answer line = .ok (some out)) :
      Move answer w s .serve { s with down := true, endedBy := some i } .serve
  | readFailed {w : Nat} {s : Daemon} {i : Nat} {buf : Bytes} {c : Conn} (hup : s.down = false)
      (hserving : s.serving = some (i, buf)) (hc : s.conns[i]? = some c) (hclosed : c.closed = true) :
      Move answer w s .serve ({ s with serving := none }.put i { c with dropped := some .broken }) .serve

/-- The daemon when it listens, and its clients. -/
def listening (accept_errors n : Nat) : Daemon where
  accept_errors := accept_errors
  conns := List.replicate n {}

end Daemon

/-- A client before it has done anything. -/
def Party.Fresh : Party → Prop
  | .serve => False
  | .caller _ pc => pc = .connecting
  | .peer pc => ∃ script, pc = .away script

/-- The daemon and its clients, which are the threads from 1 on. -/
def Daemon.start (accept_errors : Nat) (clients : List Party) : Threads Daemon Party where
  shared := listening accept_errors (clients.length + 1)
  locals := .serve :: clients

/-! ## One connection -/

section

variable [LineJson] {answer : WireRequest → Res WireReply} {s s' : Daemon} {w i : Nat} {x buf text rest : Bytes}
  {c c' : Conn}

/-- Nothing more comes of a connection that the client has closed. -/
def Conn.MayCome (c : Conn) (more : Bytes) : Prop := c.closed = true → more = []

theorem Conn.Reads.handle_lines {more : Bytes} (h : c.Reads buf text rest) (hmore : c.MayCome more) :
    handle_lines answer (buf ++ c.toServer ++ more) =
      goOn (answerLine answer text) (Scry2.handle_lines answer (rest ++ c.toServer ++ more)) := by
  cases h with
  | line hno => rw [List.append_assoc, List.append_assoc, List.cons_append, handle_lines_line hno, List.append_assoc]
  | last hno hne hread hclosed =>
    rw [hread, hmore hclosed, List.append_nil, List.append_nil, handle_lines_last hno hne]
    rfl

omit [LineJson] in
theorem Conn.Reads.suffix (h : c.Reads buf text rest) : rest ++ c.toServer <:+ buf ++ c.toServer := by
  cases h with
  | @line line _ hno => exact ⟨line ++ [newline], by simp⟩
  | last hno hne hread hclosed =>
    rw [List.nil_append]
    exact List.suffix_append _ _

omit [LineJson] in
theorem Conn.Reads.length_lt {text : Bytes} (h : c.Reads buf text rest) : rest.length < buf.length := by
  cases h with
  | line hno =>
    rw [List.length_append, List.length_cons]
    omega
  | last hno hne _ _ => exact List.length_pos_iff.mpr hne

/-- What is to come is answered like the rest of all that comes. -/
def Conn.Answered (answer : WireRequest → Res WireReply) (c : Conn) (x rest : Bytes) : Prop :=
  ∀ more, c.MayCome more → handle_lines answer (x ++ more) =
    (c.toClient ++ (handle_lines answer (rest ++ more)).1, (handle_lines answer (rest ++ more)).2)

/-- A connection that the daemon has let go of, after the client has written `x`. -/
def Conn.Ended (answer : WireRequest → Res WireReply) (c : Conn) (x : Bytes) : Drop → Prop
  | .refused => c.toClient = []
  | .eof => c.closed = true ∧ handle_lines answer x = (c.toClient, .ok ())
  | .failed => ∀ more, c.MayCome more → ∃ msg, handle_lines answer (x ++ more) = (c.toClient, .error (.err msg))
  | .broken => c.closed = true ∧ c.toClient <+: (handle_lines answer x).1

namespace Daemon

def Serves (s : Daemon) (w : Nat) : Prop := ∃ buf, s.serving = some (w, buf)

/-- The daemon knows nothing of the client. -/
def Away (s : Daemon) (w : Nat) : Prop := s.backlog.count w = 0 ∧ ¬ s.Serves w

/-- Where the daemon is with the connection of a client that has written `x`. -/
inductive Phase (answer : WireRequest → Res WireReply) (s : Daemon) (w : Nat) (x : Bytes) (c : Conn) : Prop
  | queued (hcount : s.backlog.count w = 1) (hserves : ¬ s.Serves w) (hread : c.toServer = x) (hout : c.toClient = [])
      (hdrop : c.dropped = none)
  | served {buf : Bytes} (hcount : s.backlog.count w = 0) (hserving : s.serving = some (w, buf))
      (hdrop : c.dropped = none) (hsuffix : buf ++ c.toServer <:+ x)
      (hanswered : c.Answered answer x (buf ++ c.toServer))
  | ended {d : Drop} (haway : s.Away w) (hdrop : c.dropped = some d) (hend : c.Ended answer x d)
  | died (hdown : s.down = true) (hdrop : c.dropped = none)
      (hbegins : ∀ more, c.MayCome more → c.toClient <+: (handle_lines answer (x ++ more)).1)

/-- The daemon writes whole lines. -/
structure Talk (answer : WireRequest → Res WireReply) (s : Daemon) (w : Nat) (x : Bytes) (c : Conn) : Prop where
  whole : c.toClient = [] ∨ ∃ l, c.toClient = l ++ [newline]
  phase : s.Phase answer w x c

theorem Phase.begins (h : s.Phase answer w x c) (more : Bytes) (hmore : c.MayCome more) :
    c.toClient <+: (handle_lines answer (x ++ more)).1 := by
  cases h with
  | queued _ _ _ hout _ =>
    rw [hout]
    exact List.nil_prefix
  | served _ _ _ _ hanswered =>
    rw [hanswered more hmore]
    exact List.prefix_append _ _
  | @ended d _ _ hend =>
    cases d with
    | refused => rw [show c.toClient = [] from hend]; exact List.nil_prefix
    | eof =>
      obtain ⟨hclosed, hall⟩ := hend
      rw [hmore hclosed, List.append_nil, hall]
    | failed =>
      obtain ⟨msg, hmsg⟩ := hend more hmore
      rw [hmsg]
    | broken =>
      obtain ⟨hclosed, hbegins⟩ := hend
      rwa [hmore hclosed, List.append_nil]
  | died _ _ hbegins => exact hbegins more hmore

/-- Nothing has changed for a client. -/
structure Same (s s' : Daemon) (v : Nat) : Prop where
  count : s'.backlog.count v = s.backlog.count v
  serving : ∀ buf, s'.serving = some (v, buf) ↔ s.serving = some (v, buf)
  down : s.down = true → s'.down = true
  endedBy : s'.endedBy = some v → s.endedBy = some v
  conn : s'.conns[v]? = s.conns[v]?

omit [LineJson] in
theorem Same.serves (h : Same s s' w) : s'.Serves w ↔ s.Serves w := exists_congr h.serving

omit [LineJson] in
theorem Same.away (h : Same s s' w) : s'.Away w ↔ s.Away w := by
  unfold Away
  rw [h.count, h.serves]

theorem Phase.same (hsame : Same s s' w) (h : s.Phase answer w x c) : s'.Phase answer w x c := by
  cases h with
  | queued hcount hserves hread hout hdrop =>
    exact .queued (hsame.count.trans hcount) (mt hsame.serves.mp hserves) hread hout hdrop
  | served hcount hserving hdrop hsuffix hanswered =>
    exact .served (hsame.count.trans hcount) ((hsame.serving _).mpr hserving) hdrop hsuffix hanswered
  | ended haway hdrop hend => exact .ended (hsame.away.mpr haway) hdrop hend
  | died hdown hdrop hbegins => exact .died (hsame.down hdown) hdrop hbegins

theorem Talk.same (hsame : Same s s' w) (h : s.Talk answer w x c) : s'.Talk answer w x c :=
  ⟨h.whole, h.phase.same hsame⟩

/-- A step that is about one client. -/
structure About (s s' : Daemon) (i : Nat) : Prop where
  lt : i < s.conns.length
  others : ∀ v, v ≠ i → Same s s' v
  length : s'.conns.length = s.conns.length

/-! ## What a client does to its connection -/

omit [LineJson] in
theorem conn_put (hc : s.conns[i]? = some c) (c' : Conn) : (s.put i c').conns[i]? = some c' :=
  List.getElem?_set_self (List.getElem?_eq_some_iff.mp hc).1

omit [LineJson] in
theorem conns_set_same (hc : s.conns[i]? = some c) : s.conns.set i c = s.conns := by
  obtain ⟨hi, hget⟩ := List.getElem?_eq_some_iff.mp hc
  rw [← hget, List.set_getElem_self]

omit [LineJson] in
theorem About.put (hc : s.conns[i]? = some c) (c' : Conn) : About s (s.put i c') i :=
  ⟨(List.getElem?_eq_some_iff.mp hc).1,
    fun _ hne => ⟨rfl, fun _ => Iff.rfl, id, id, List.getElem?_set_ne (Ne.symm hne)⟩, List.length_set⟩

omit [LineJson] in
theorem About.connect (hc : s.conns[i]? = some c) : About s { s with backlog := s.backlog ++ [i] } i := by
  refine ⟨(List.getElem?_eq_some_iff.mp hc).1, fun v hne => ⟨?_, fun _ => Iff.rfl, id, id, rfl⟩, rfl⟩
  rw [List.count_append, List.count_singleton, if_neg (by simpa using Ne.symm hne), Nat.add_zero]

omit [LineJson] in
theorem About.nothing (hc : s.conns[i]? = some c) : About s s i :=
  ⟨(List.getElem?_eq_some_iff.mp hc).1, fun _ _ => ⟨rfl, fun _ => Iff.rfl, id, id, rfl⟩, rfl⟩

theorem Talk.connect (haway : s.Away w) : Talk answer { s with backlog := s.backlog ++ [w] } w [] {} := by
  refine ⟨.inl rfl, .queued ?_ haway.2 rfl rfl rfl⟩
  rw [List.count_append, haway.1, List.count_singleton_self]

theorem Talk.died (hdown : s.down = true) : s.Talk answer w x {} :=
  ⟨.inl rfl, .died hdown rfl fun _ _ => List.nil_prefix⟩

theorem Talk.write (h : s.Talk answer w x c) (hopen : ¬ s.Lost c) (hclosed : c.closed = false) (chunk : Bytes) :
    (s.put w { c with toServer := c.toServer ++ chunk }).Talk answer w (x ++ chunk)
      { c with toServer := c.toServer ++ chunk } := by
  refine ⟨h.whole, ?_⟩
  cases h.phase with
  | queued hcount hserves hread hout hdrop => exact .queued hcount hserves (by rw [hread]) hout hdrop
  | @served buf hcount hserving hdrop hsuffix hanswered =>
    refine .served hcount hserving hdrop ?_ fun more _ => ?_
    · obtain ⟨pre, hpre⟩ := hsuffix
      exact ⟨pre, by simp [← hpre]⟩
    · have hmore := hanswered (chunk ++ more) fun hc => absurd (hclosed.symm.trans hc) Bool.false_ne_true
      simpa only [List.append_assoc] using hmore
  | ended _ hdrop _ => exact absurd (.inr (by rw [hdrop]; exact Option.some_ne_none _)) hopen
  | died hdown _ _ => exact absurd (.inl hdown) hopen

theorem Talk.close (h : s.Talk answer w x c) :
    (s.put w { c with closed := true }).Talk answer w x { c with closed := true } := by
  have hmay : ∀ more, Conn.MayCome { c with closed := true } more → c.MayCome more := fun more hmore _ => hmore rfl
  refine ⟨h.whole, ?_⟩
  cases h.phase with
  | queued hcount hserves hread hout hdrop => exact .queued hcount hserves hread hout hdrop
  | served hcount hserving hdrop hsuffix hanswered =>
    exact .served hcount hserving hdrop hsuffix fun more hmore => hanswered more (hmay more hmore)
  | @ended d haway hdrop hend =>
    refine .ended haway hdrop ?_
    cases d with
    | refused => exact hend
    | eof => exact ⟨rfl, hend.2⟩
    | failed => exact fun more hmore => hend more (hmay more hmore)
    | broken => exact ⟨rfl, hend.2⟩
  | died hdown hdrop hbegins => exact .died hdown hdrop fun more hmore => hbegins more (hmay more hmore)

/-- A caller whose connection is lost had no chance. -/
theorem Talk.lost {req : WireRequest} {rest : Bytes} (h : s.Talk answer w x c) (hspoken : Spoken answer req)
    (hx : x ++ rest = requestLine req) (hclosed : c.closed = false) (hlost : s.Lost c) :
    s.down = true ∨ c.dropped = some .refused := by
  have hopen : c.closed ≠ true := by simp [hclosed]
  rcases hlost with hdown | hdropped
  · exact .inl hdown
  · cases h.phase with
    | queued _ _ _ _ hdrop => exact absurd hdrop hdropped
    | served _ _ hdrop _ _ => exact absurd hdrop hdropped
    | died hdown _ _ => exact .inl hdown
    | @ended d _ hdrop hend =>
      cases d with
      | refused => exact .inr hdrop
      | eof => exact absurd hend.1 hopen
      | broken => exact absurd hend.1 hopen
      | failed =>
        obtain ⟨msg, hmsg⟩ := hend rest fun hc => absurd hc hopen
        rw [hx, handle_lines_request hspoken] at hmsg
        have hres := congrArg Prod.snd hmsg
        cases hreq : answer req with
        | ok reply =>
          rw [hreq] at hres
          cases hres
        | error e =>
          rw [hreq] at hres
          cases hres

/-! ## What the daemon does -/

/-- The client is gone, and there is a reply to it. -/
structure Due (answer : WireRequest → Res WireReply) (s : Daemon) (i : Nat) (c : Conn) (buf text rest out : Bytes) :
    Prop where
  up : s.down = false
  serving : s.serving = some (i, buf)
  closed : c.closed = true
  reads : c.Reads buf text rest
  reply : answerLine answer text = .ok (some out)

/-- A line of the client is answered with a panic. -/
structure Panicked (answer : WireRequest → Res WireReply) (s : Daemon) (i : Nat) (c : Conn) (buf : Bytes) : Prop where
  up : s.down = false
  serving : s.serving = some (i, buf)
  lines : ∀ x, s.Talk answer i x c → ∀ more, c.MayCome more → (handle_lines answer (x ++ more)).2 = .error .panic

/-- The process ends, because of the client. -/
def Ends (answer : WireRequest → Res WireReply) (s s' : Daemon) (i : Nat) (c : Conn) : Prop :=
  s'.down = true ∧ s'.endedBy = some i ∧
    ((∃ buf text rest out, s.Due answer i c buf text rest out) ∨ ∃ buf, s.Panicked answer i c buf)

/-- A step of the daemon, which is about one connection that it knows. -/
structure Advances (answer : WireRequest → Res WireReply) (s s' : Daemon) (i : Nat) : Prop where
  known : ¬ s.Away i
  about : About s s' i
  up : s.down = false
  talk : ∃ c c', s.conns[i]? = some c ∧ s'.conns[i]? = some c' ∧ c'.closed = c.closed ∧
    c.toClient <+: c'.toClient ∧ (s'.down = false ∧ s'.endedBy = s.endedBy ∨ s.Ends answer s' i c) ∧
    ∀ x, s.Talk answer i x c → s'.Talk answer i x c' ∧ (c.dropped ≠ none → c'.dropped = c.dropped)

theorem Advances.fallen (h : Advances answer s s' i) (hdown : s'.down = true) : s'.endedBy = some i := by
  obtain ⟨c, c', -, -, -, -, hends, -⟩ := h.talk
  rcases hends with ⟨hup, -⟩ | ⟨-, hi, -⟩
  · exact absurd (hup.symm.trans hdown) Bool.false_ne_true
  · exact hi

omit [LineJson] in
theorem Serves.known (h : s.Serves i) : ¬ s.Away i := fun haway => haway.2 h

theorem answerLine_whole {out : Bytes} (h : answerLine answer text = .ok (some out)) : ∃ l, out = l ++ [newline] := by
  unfold answerLine at h
  have hend : ∀ t : String, ∃ l, as_bytes (t ++ "\n") = l ++ [newline] := fun t => ⟨_, OneLine.line_bytes t⟩
  split at h
  · cases h
  · simp only at h
    split_ifs at h with hblank
    · cases h
    · split at h
      · cases h
        exact hend _
      · split at h
        · cases h
          exact hend _
        · cases h

/-- A connection in the backlog is not served yet. -/
theorem Talk.queued (h : s.Talk answer w x c) (hup : s.down = false) (hcount : s.backlog.count w ≠ 0) :
    s.backlog.count w = 1 ∧ c.toServer = x ∧ c.toClient = [] ∧ c.dropped = none := by
  cases h.phase with
  | queued hone _ hread hout hdrop => exact ⟨hone, hread, hout, hdrop⟩
  | served hzero _ _ _ _ => exact absurd hzero hcount
  | ended haway _ _ => exact absurd haway.1 hcount
  | died hdown _ _ => exact absurd (hup.symm.trans hdown) Bool.false_ne_true

theorem Talk.served (h : s.Talk answer w x c) (hup : s.down = false) (hserving : s.serving = some (w, buf)) :
    s.backlog.count w = 0 ∧ c.dropped = none ∧ buf ++ c.toServer <:+ x ∧
      c.Answered answer x (buf ++ c.toServer) := by
  cases h.phase with
  | queued _ hserves _ _ _ => exact absurd ⟨buf, hserving⟩ hserves
  | served hzero hserving' hdrop hsuffix hanswered =>
    cases hserving.symm.trans hserving'
    exact ⟨hzero, hdrop, hsuffix, hanswered⟩
  | ended haway _ _ => exact absurd ⟨buf, hserving⟩ haway.2
  | died hdown _ _ => exact absurd (hup.symm.trans hdown) Bool.false_ne_true

theorem Advances.accept {rest : List Nat} (hup : s.down = false) (hidle : s.serving = none)
    (hbacklog : s.backlog = i :: rest) (hc : s.conns[i]? = some c) :
    Advances answer s { s with backlog := rest, serving := some (i, []) } i := by
  have hcount : s.backlog.count i = rest.count i + 1 := by rw [hbacklog, List.count_cons_self]
  have hlt := (List.getElem?_eq_some_iff.mp hc).1
  refine ⟨fun h => by have := h.1; omega, ⟨hlt, fun v hne => ⟨?_, fun buf => ?_, id, id, rfl⟩, rfl⟩, hup,
    c, c, hc, hc, rfl, List.prefix_rfl, .inl ⟨hup, rfl⟩, fun x h => ⟨⟨h.whole, ?_⟩, fun _ => rfl⟩⟩
  · rw [hbacklog, List.count_cons_of_ne (Ne.symm hne)]
  · simp [hidle, Ne.symm hne]
  · obtain ⟨hone, hread, hout, hdrop⟩ := h.queued hup (by omega)
    refine .served (by change rest.count i = 0; omega) rfl hdrop (by rw [hread]; exact List.suffix_rfl) fun more _ => ?_
    rw [hout, hread]
    rfl

theorem Advances.refuse {rest : List Nat} (hup : s.down = false) (hidle : s.serving = none)
    (hbacklog : s.backlog = i :: rest) (hc : s.conns[i]? = some c) :
    Advances answer s ({ s with backlog := rest }.put i { c with dropped := some .refused }) i := by
  have hcount : s.backlog.count i = rest.count i + 1 := by rw [hbacklog, List.count_cons_self]
  have hlt := (List.getElem?_eq_some_iff.mp hc).1
  refine ⟨fun h => by have := h.1; omega, ⟨hlt, fun v hne => ⟨?_, fun _ => Iff.rfl, id, id, ?_⟩, List.length_set⟩, hup,
    c, _, hc, conn_put (s := { s with backlog := rest }) hc _, rfl, List.prefix_rfl, .inl ⟨hup, rfl⟩, fun x h => ?_⟩
  · rw [hbacklog, List.count_cons_of_ne (Ne.symm hne)]
    rfl
  · exact List.getElem?_set_ne (Ne.symm hne)
  · obtain ⟨hone, -, hout, hdrop⟩ := h.queued hup (by omega)
    refine ⟨⟨h.whole, .ended (d := .refused) ⟨by change rest.count i = 0; omega, ?_⟩ rfl hout⟩,
      fun hne => absurd hdrop hne⟩
    rintro ⟨buf, hbuf⟩
    cases hidle.symm.trans hbuf

/-- A step about the connection that is being served, after which it is served on or done with. -/
theorem Advances.of_serving (hup : s.down = false) (hserving : s.serving = some (i, buf))
    (hbacklog : s'.backlog = s.backlog) (hconns : s'.conns = s.conns.set i c')
    (hnext : ∀ v b, s'.serving = some (v, b) → v = i)
    (hends : s'.down = false ∧ s'.endedBy = s.endedBy ∨ s.Ends answer s' i c) (hc : s.conns[i]? = some c)
    (hclosed : c'.closed = c.closed) (hgrows : c.toClient <+: c'.toClient)
    (htalk : ∀ x, s.Talk answer i x c → s'.Talk answer i x c' ∧ c.dropped = none) : Advances answer s s' i := by
  have hnot : ∀ v, v ≠ i → ∀ b, s.serving ≠ some (v, b) := by
    intro v hne b hb
    cases hserving.symm.trans hb
    exact hne rfl
  have hlt := (List.getElem?_eq_some_iff.mp hc).1
  have hother : ∀ v, v ≠ i → Same s s' v := by
    refine fun v hne => ⟨by rw [hbacklog], fun b => ?_, fun hd => ?_, fun hv => ?_, ?_⟩
    · exact ⟨fun hb => absurd (hnext v b hb) hne, fun hb => absurd hb (hnot v hne b)⟩
    · exact absurd (hup.symm.trans hd) Bool.false_ne_true
    · rcases hends with ⟨-, heq⟩ | ⟨-, hi, -⟩
      · rwa [← heq]
      · exact absurd (Option.some.inj (hv.symm.trans hi)) hne
    · rw [hconns]
      exact List.getElem?_set_ne (Ne.symm hne)
  refine ⟨Serves.known ⟨buf, hserving⟩, ⟨hlt, hother, by rw [hconns, List.length_set]⟩, hup, c, c', hc, ?_, hclosed,
    hgrows, hends, fun x h => ?_⟩
  · rw [hconns]
    exact List.getElem?_set_self hlt
  · obtain ⟨h', hdrop⟩ := htalk x h
    exact ⟨h', fun hne => absurd hdrop hne⟩

theorem Advances.pull {chunk rest : Bytes} (hup : s.down = false) (hserving : s.serving = some (i, buf))
    (hc : s.conns[i]? = some c) (hread : c.toServer = chunk ++ rest) :
    Advances answer s ({ s with serving := some (i, buf ++ chunk) }.put i { c with toServer := rest }) i := by
  refine of_serving hup hserving rfl rfl (fun v b h => by cases h; rfl) (.inl ⟨hup, rfl⟩) hc rfl List.prefix_rfl
    fun x h => ?_
  obtain ⟨hzero, hdrop, hsuffix, hanswered⟩ := h.served hup hserving
  rw [hread, ← List.append_assoc] at hsuffix hanswered
  exact ⟨⟨h.whole, .served hzero rfl hdrop hsuffix hanswered⟩, hdrop⟩

theorem Advances.line {rest : Bytes} (hup : s.down = false) (hserving : s.serving = some (i, buf))
    (hc : s.conns[i]? = some c) (hline : c.Reads buf text rest) :
    Advances answer s (s.answered i c rest (answerLine answer text)) i := by
  have hone : ∀ v (b : Bytes), some (i, rest) = some (v, b) → v = i := fun v b h => by cases h; rfl
  have hnone : ∀ v (b : Bytes), none = some (v, b) → v = i := fun v b h => nomatch h
  cases hout : answerLine answer text with
  | ok out =>
    cases out with
    | none =>
      refine of_serving hup hserving rfl (conns_set_same hc).symm hone (.inl ⟨hup, rfl⟩) hc rfl List.prefix_rfl
        fun x h => ?_
      obtain ⟨hzero, hdrop, hsuffix, hanswered⟩ := h.served hup hserving
      refine ⟨⟨h.whole, .served hzero rfl hdrop (hline.suffix.trans hsuffix) fun more hmore => ?_⟩, hdrop⟩
      rw [hanswered more hmore, hline.handle_lines hmore, hout]
      rfl
    | some out =>
      refine of_serving hup hserving rfl rfl hone (.inl ⟨hup, rfl⟩) hc rfl (List.prefix_append _ _) fun x h => ?_
      obtain ⟨hzero, hdrop, hsuffix, hanswered⟩ := h.served hup hserving
      obtain ⟨l, rfl⟩ := answerLine_whole hout
      refine ⟨⟨.inr ⟨c.toClient ++ l, (List.append_assoc ..).symm⟩,
        .served hzero rfl hdrop (hline.suffix.trans hsuffix) fun more hmore => ?_⟩, hdrop⟩
      rw [hanswered more hmore, hline.handle_lines hmore, hout]
      simp only [goOn, Option.getD_some, List.append_assoc]
  | error e =>
    have hend : ∀ x more, s.Talk answer i x c → c.MayCome more →
        handle_lines answer (x ++ more) = (c.toClient, .error e) := by
      intro x more h hmore
      obtain ⟨-, -, -, hanswered⟩ := h.served hup hserving
      rw [hanswered more hmore, hline.handle_lines hmore, hout]
      simp only [goOn, List.append_nil]
    cases e with
    | err msg =>
      refine of_serving hup hserving rfl rfl hnone (.inl ⟨hup, rfl⟩) hc rfl List.prefix_rfl fun x h => ?_
      obtain ⟨hzero, hdrop, -, -⟩ := h.served hup hserving
      refine ⟨⟨h.whole, .ended (d := .failed) ⟨hzero, ?_⟩ rfl fun more hmore => ⟨msg, hend x more h hmore⟩⟩, hdrop⟩
      rintro ⟨b, hb⟩
      cases hb
    | panic =>
      have hlines : s.Panicked answer i c buf :=
        ⟨hup, hserving, fun x h more hmore => by rw [hend x more h hmore]⟩
      refine of_serving hup hserving rfl (conns_set_same hc).symm hnone (.inr ⟨rfl, rfl, .inr ⟨_, hlines⟩⟩) hc rfl
        List.prefix_rfl fun x h => ?_
      refine ⟨⟨h.whole, .died rfl (h.served hup hserving).2.1 fun more hmore => ?_⟩, (h.served hup hserving).2.1⟩
      rw [hend x more h hmore]

theorem Advances.eof (hup : s.down = false) (hserving : s.serving = some (i, [])) (hc : s.conns[i]? = some c)
    (hread : c.toServer = []) (hclosed : c.closed = true) :
    Advances answer s ({ s with serving := none }.put i { c with dropped := some .eof }) i := by
  refine of_serving hup hserving rfl rfl (fun v b h => nomatch h) (.inl ⟨hup, rfl⟩) hc rfl List.prefix_rfl
    fun x h => ?_
  obtain ⟨hzero, hdrop, -, hanswered⟩ := h.served hup hserving
  refine ⟨⟨h.whole, .ended (d := .eof) ⟨hzero, ?_⟩ rfl ⟨hclosed, ?_⟩⟩, hdrop⟩
  · rintro ⟨b, hb⟩
    cases hb
  · have hall := hanswered [] fun _ => rfl
    rw [hread] at hall
    simpa [handle_lines_nil] using hall

theorem Advances.brokenPipe (hup : s.down = false) (hserving : s.serving = some (i, buf)) (hc : s.conns[i]? = some c)
    (hclosed : c.closed = true) :
    Advances answer s ({ s with serving := none }.put i { c with dropped := some .broken }) i := by
  refine of_serving hup hserving rfl rfl (fun v b h => nomatch h) (.inl ⟨hup, rfl⟩) hc rfl List.prefix_rfl
    fun x h => ?_
  obtain ⟨hzero, hdrop, -, -⟩ := h.served hup hserving
  refine ⟨⟨h.whole, .ended (d := .broken) ⟨hzero, ?_⟩ rfl ⟨hclosed, ?_⟩⟩, hdrop⟩
  · rintro ⟨b, hb⟩
    cases hb
  · have hbegins := h.phase.begins [] fun _ => rfl
    rwa [List.append_nil] at hbegins

theorem Advances.sigpipe {out : Bytes} (h : s.Due answer i c buf text rest out) (hc : s.conns[i]? = some c) :
    Advances answer s { s with down := true, endedBy := some i } i := by
  refine of_serving h.up h.serving rfl (conns_set_same hc).symm (fun v b hb => ?_)
    (.inr ⟨rfl, rfl, .inl ⟨buf, text, rest, out, h⟩⟩) hc rfl List.prefix_rfl fun x ht => ?_
  · exact congrArg Prod.fst (Option.some.inj (hb.symm.trans h.serving))
  · obtain ⟨hzero, hdrop, hsuffix, hanswered⟩ := ht.served h.up h.serving
    exact ⟨⟨ht.whole, .served hzero h.serving hdrop hsuffix hanswered⟩, hdrop⟩

end Daemon

end

end Scry2
