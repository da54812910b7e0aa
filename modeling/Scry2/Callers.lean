import Scry2.Daemon

/-!
# What the clients of the daemon get

Whatever the others send and however the steps fall, each caller gets the answer to its own request and
each connection the replies to its own lines. No call waits for ever.
-/

open Scry2.Lib

namespace Scry2.Daemon

section

variable [LineJson] {answer : WireRequest → Res WireReply} {s s' : Daemon} {w i : Nat} {x buf rest : Bytes}
  {c c' : Conn}

/-! ## Each party -/

/-- Where a caller and its connection are. -/
inductive Called (answer : WireRequest → Res WireReply) (s : Daemon) (w : Nat) (req : WireRequest) (c : Conn) :
    CallPc → Prop
  | connecting (haway : s.Away w) (hnew : c = {}) : Called answer s w req c .connecting
  | sending {sent rest : Bytes} (hopen : c.closed = false) (hsent : sent ++ rest = requestLine req)
      (htalk : s.Talk answer w sent c) : Called answer s w req c (.sending rest)
  | waiting (hopen : c.closed = false) (htalk : s.Talk answer w (requestLine req) c) : Called answer s w req c .waiting
  | replied {reply : WireReply} (hclosed : c.closed = true) (htalk : s.Talk answer w (requestLine req) c)
      (hreply : answer req = .ok reply) (hout : c.toClient ≠ []) : Called answer s w req c (.returned (.ok reply))
  | failed {sent : Bytes} {e : Fault} (hdone : s.down = true ∨ c.closed = true) (htalk : s.Talk answer w sent c)
      (hlost : s.down = true ∨ c.dropped = some .refused) : Called answer s w req c (.returned (.error e))
  | killed {sent : Bytes} (hdone : s.down = true ∨ c.closed = true) (htalk : s.Talk answer w sent c)
      (hlost : s.down = true ∨ c.dropped = some .refused) : Called answer s w req c .killed

/-- Where another client and its connection are. -/
inductive Met (answer : WireRequest → Res WireReply) (s : Daemon) (w : Nat) (c : Conn) : PeerPc → Prop
  | away {script : Bytes} (haway : s.Away w) (hnew : c = {}) : Met answer s w c (.away script)
  | writing {written rest : Bytes} (hopen : c.closed = false) (htalk : s.Talk answer w written c) :
      Met answer s w c (.writing written rest)
  | gone {written : Bytes} (hclosed : c.closed = true) (htalk : s.Talk answer w written c) :
      Met answer s w c (.gone written)

/-- The client is such that the process may end because of it: a caller whose request panics, or another
client that has sent a line that does, or that has hung up. -/
def Fatal (answer : WireRequest → Res WireReply) : Party → Prop
  | .serve => False
  | .caller req _ => ∃ e, answer req = .error e
  | .peer pc => (∃ written, pc = .gone written) ∨ (handle_lines answer pc.written).2 = .error .panic

/-- What the daemon knows. If it is down, that is because of some client. -/
structure Knows (clients : List Party) (w : Nat) (s : Daemon) : Prop where
  away : s.Away w
  length : s.conns.length = clients.length + 1
  lt : ∀ i, ¬ s.Away i → i < s.conns.length
  fallen : s.down = true → ∃ i, s.endedBy = some i ∧ i ≠ w ∧ i < s.conns.length

/-- What holds of each party. -/
def Inv (answer : WireRequest → Res WireReply) (clients : List Party) (w : Nat) (s : Daemon) : Party → Prop
  | .serve => s.Knows clients w
  | .caller req pc => (Party.serve :: clients)[w]? = some (.caller req .connecting) ∧
      (s.endedBy = some w → Fatal answer (.caller req pc)) ∧
      ∃ c, s.conns[w]? = some c ∧ s.Called answer w req c pc
  | .peer pc => w ≠ 0 ∧ (s.endedBy = some w → s.down = true ∧ Fatal answer (.peer pc)) ∧
      ∃ c, s.conns[w]? = some c ∧ s.Met answer w c pc

variable {clients : List Party} {p : Party} {req : WireRequest} {errors : Nat}

theorem Called.same {pc : CallPc} (hsame : Same s s' w) (h : s.Called answer w req c pc) :
    s'.Called answer w req c pc := by
  cases h with
  | connecting haway hnew => exact .connecting (hsame.away.mpr haway) hnew
  | sending hopen hsent htalk => exact .sending hopen hsent (htalk.same hsame)
  | waiting hopen htalk => exact .waiting hopen (htalk.same hsame)
  | replied hclosed htalk hreply hout => exact .replied hclosed (htalk.same hsame) hreply hout
  | failed hdone htalk hlost => exact .failed (hdone.imp_left hsame.down) (htalk.same hsame) (hlost.imp_left hsame.down)
  | killed hdone htalk hlost => exact .killed (hdone.imp_left hsame.down) (htalk.same hsame) (hlost.imp_left hsame.down)

theorem Met.same {pc : PeerPc} (hsame : Same s s' w) (h : s.Met answer w c pc) : s'.Met answer w c pc := by
  cases h with
  | away haway hnew => exact .away (hsame.away.mpr haway) hnew
  | writing hopen htalk => exact .writing hopen (htalk.same hsame)
  | gone hclosed htalk => exact .gone hclosed (htalk.same hsame)

/-- A step about one client disturbs nobody else. -/
theorem Inv.frame (habout : About s s' i) (hfallen : s'.down = true → s.down = true ∧ s'.endedBy = s.endedBy ∨
      s'.endedBy = some i) (hne : w ≠ i) (h : Inv answer clients w s p) :
    Inv answer clients w s' p := by
  have hsame := habout.others w hne
  cases p with
  | serve =>
    refine ⟨hsame.away.mpr h.away, habout.length.trans h.length, fun j hj => ?_, fun hd => ?_⟩
    · rw [habout.length]
      by_cases hji : j = i
      · rw [hji]
        exact habout.lt
      · exact h.lt j (mt (habout.others j hji).away.mpr hj)
    · rw [habout.length]
      rcases hfallen hd with ⟨hdown, heq⟩ | hi
      · rw [heq]
        exact h.fallen hdown
      · exact ⟨i, hi, hne.symm, habout.lt⟩
  | caller req pc =>
    obtain ⟨hreq, hfatal, c, hc, hcalled⟩ := h
    exact ⟨hreq, fun hv => hfatal (hsame.endedBy hv), c, hsame.conn.trans hc, hcalled.same hsame⟩
  | peer pc =>
    obtain ⟨hw, hfatal, c, hc, hmet⟩ := h
    exact ⟨hw, fun hv => (hfatal (hsame.endedBy hv)).imp_left hsame.down, c, hsame.conn.trans hc, hmet.same hsame⟩

/-- A step in which the daemon knows nothing new of anyone. -/
theorem Inv.still (hsame : ∀ v, Same s s' v) (hlength : s'.conns.length = s.conns.length) (hup : s'.down = false)
    (h : Inv answer clients w s p) : Inv answer clients w s' p := by
  cases p with
  | serve =>
    refine ⟨(hsame w).away.mpr h.away, hlength.trans h.length, fun j hj => ?_, fun hd => ?_⟩
    · rw [hlength]
      exact h.lt j (mt (hsame j).away.mpr hj)
    · exact absurd (hup.symm.trans hd) Bool.false_ne_true
  | caller req pc =>
    obtain ⟨hreq, hfatal, c, hc, hcalled⟩ := h
    exact ⟨hreq, fun hv => hfatal ((hsame w).endedBy hv), c, (hsame w).conn.trans hc, hcalled.same (hsame w)⟩
  | peer pc =>
    obtain ⟨hw, hfatal, c, hc, hmet⟩ := h
    exact ⟨hw, fun hv => (hfatal ((hsame w).endedBy hv)).imp_left (hsame w).down, c, (hsame w).conn.trans hc,
      hmet.same (hsame w)⟩

/-- A client that is being served has not lost the daemon. -/
theorem Talk.not_lost (h : s.Talk answer w x c) (hup : s.down = false) (hserving : s.serving = some (w, buf)) :
    ¬ (s.down = true ∨ c.dropped = some .refused) := by
  rintro (hdown | hdrop)
  · exact Bool.false_ne_true (hup.symm.trans hdown)
  · exact nomatch (h.served hup hserving).2.1.symm.trans hdrop

/-- A whole line is followed by nothing that is a reply. -/
theorem Talk.no_more {text rest out : Bytes} (h : s.Talk answer w (requestLine req) c) (hspoken : Spoken answer req)
    {reply : WireReply} (hreply : answer req = .ok reply) (hout : c.toClient ≠ [])
    (hdue : s.Due answer w c buf text rest out) : False := by
  obtain ⟨-, -, -, hanswered⟩ := h.served hdue.up hdue.serving
  have hmore : c.MayCome [] := fun _ => rfl
  have hall := congrArg Prod.fst (hanswered [] hmore)
  rw [hdue.reads.handle_lines hmore, hdue.reply, List.append_nil, handle_lines_request hspoken, hreply] at hall
  simp only [goOn, Option.getD_some] at hall
  obtain ⟨l, hl⟩ := h.whole.resolve_left hout
  obtain ⟨l', rfl⟩ := answerLine_whole hdue.reply
  -- The reply is one line, and what is there and what is due are two.
  have hcount := congrArg (List.count newline) hall
  rw [OneLine.line_bytes, hl] at hcount
  simp only [List.count_append, List.count_singleton_self] at hcount
  rw [List.count_eq_zero.mpr (hspoken.reply reply hreply).newline_not_mem] at hcount
  omega

/-- No caller hangs up with a reply to come. -/
theorem Called.not_due {pc : CallPc} {text rest out : Bytes} (hspoken : Spoken answer req)
    (h : s.Called answer w req c pc) : ¬ s.Due answer w c buf text rest out := by
  intro hdue
  cases h with
  | connecting haway _ => exact haway.2 ⟨_, hdue.serving⟩
  | sending hopen _ _ => exact Bool.false_ne_true (hopen.symm.trans hdue.closed)
  | waiting hopen _ => exact Bool.false_ne_true (hopen.symm.trans hdue.closed)
  | replied _ htalk hreply hout => exact htalk.no_more hspoken hreply hout hdue
  | failed _ htalk hlost => exact htalk.not_lost hdue.up hdue.serving hlost
  | killed _ htalk hlost => exact htalk.not_lost hdue.up hdue.serving hlost

/-- A line of a caller that panics is its request. -/
theorem Called.fatal {pc : CallPc} (hspoken : Spoken answer req) (h : s.Called answer w req c pc)
    (hpanic : s.Panicked answer w c buf) : ∃ e, answer req = .error e := by
  have hreq : ∀ sent rest, s.Talk answer w sent c → c.MayCome rest → sent ++ rest = requestLine req →
      ∃ e, answer req = .error e := by
    intro sent rest htalk hrest hline
    have hres := hpanic.lines sent htalk rest hrest
    rw [hline, handle_lines_request hspoken] at hres
    cases hreq : answer req with
    | error e => exact ⟨e, rfl⟩
    | ok reply =>
      rw [hreq] at hres
      cases hres
  cases h with
  | connecting haway _ => exact absurd ⟨_, hpanic.serving⟩ haway.2
  | sending hopen hsent htalk =>
    exact hreq _ _ htalk (fun hclosed => absurd (hopen.symm.trans hclosed) Bool.false_ne_true) hsent
  | waiting _ htalk => exact hreq _ [] htalk (fun _ => rfl) (List.append_nil _)
  | replied _ htalk _ _ => exact hreq _ [] htalk (fun _ => rfl) (List.append_nil _)
  | failed _ htalk hlost => exact absurd hlost (htalk.not_lost hpanic.up hpanic.serving)
  | killed _ htalk hlost => exact absurd hlost (htalk.not_lost hpanic.up hpanic.serving)

/-- A step of the daemon keeps what holds of the client that it is about. -/
theorem Advances.inv (hspoken : ∀ req, .caller req .connecting ∈ clients → Spoken answer req)
    (h : Advances answer s s' i) (hp : Inv answer clients i s p) : Inv answer clients i s' p := by
  obtain ⟨c, c', hc, hc', hclosed, hgrows, hends, htalk⟩ := h.talk
  have hgrown : c.toClient ≠ [] → c'.toClient ≠ [] := by
    rintro hne hnil
    rw [hnil, List.prefix_nil] at hgrows
    exact hne hgrows
  have hrefused : ∀ {x : Bytes}, s.Talk answer i x c → s.down = true ∨ c.dropped = some .refused →
      s'.down = true ∨ c'.dropped = some .refused := by
    rintro x ht (hd | hd)
    · exact absurd (h.up.symm.trans hd) Bool.false_ne_true
    · refine .inr ?_
      rw [(htalk _ ht).2 (by rw [hd]; exact Option.some_ne_none _), hd]
  have hdone : s.down = true ∨ c.closed = true → s'.down = true ∨ c'.closed = true := by
    rintro (hd | hd)
    · exact absurd (h.up.symm.trans hd) Bool.false_ne_true
    · exact .inr (hclosed.trans hd)
  cases p with
  | serve => exact absurd hp.away h.known
  | caller req pc =>
    obtain ⟨hreq, hfatal, d, hd, hcalled⟩ := hp
    cases hc.symm.trans hd
    have hmem : .caller req .connecting ∈ clients := by simpa using List.mem_of_getElem? hreq
    refine ⟨hreq, fun hv => ?_, c', hc', ?_⟩
    · rcases hends with ⟨-, heq⟩ | ⟨-, -, ⟨buf, text, rest, out, hdue⟩ | ⟨buf, hpanic⟩⟩
      · exact hfatal (heq ▸ hv)
      · exact absurd hdue (hcalled.not_due (hspoken req hmem))
      · exact hcalled.fatal (hspoken req hmem) hpanic
    cases hcalled with
    | connecting haway _ => exact absurd haway h.known
    | sending hopen hsent ht => exact .sending (hclosed.trans hopen) hsent (htalk _ ht).1
    | waiting hopen ht => exact .waiting (hclosed.trans hopen) (htalk _ ht).1
    | replied hcl ht hreply hout => exact .replied (hclosed.trans hcl) (htalk _ ht).1 hreply (hgrown hout)
    | failed hd' ht hlost => exact .failed (hdone hd') (htalk _ ht).1 (hrefused ht hlost)
    | killed hd' ht hlost => exact .killed (hdone hd') (htalk _ ht).1 (hrefused ht hlost)
  | peer pc =>
    obtain ⟨hw, hfatal, d, hd, hmet⟩ := hp
    cases hc.symm.trans hd
    refine ⟨hw, fun hv => ?_, c', hc', ?_⟩
    · rcases hends with ⟨-, heq⟩ | ⟨hdown, -, hend⟩
      · exact absurd (h.up.symm.trans (hfatal (heq ▸ hv)).1) Bool.false_ne_true
      · refine ⟨hdown, ?_⟩
        cases hmet with
        | away haway _ => exact absurd haway h.known
        | gone _ _ => exact .inl ⟨_, rfl⟩
        | writing hopen ht =>
          rcases hend with ⟨buf, text, rest, out, hdue⟩ | ⟨buf, hpanic⟩
          · exact absurd (hopen.symm.trans hdue.closed) Bool.false_ne_true
          · have hres := hpanic.lines _ ht [] fun _ => rfl
            rw [List.append_nil] at hres
            exact .inr hres
    cases hmet with
    | away haway _ => exact absurd haway h.known
    | writing hopen ht => exact .writing (hclosed.trans hopen) (htalk _ ht).1
    | gone hg ht => exact .gone (hclosed.trans hg) (htalk _ ht).1

/-! ## Each step -/

theorem Move.advances (h : Move answer w s .serve s' p) (hknown : ∀ i, ¬ s.Away i → i < s.conns.length) :
    p = .serve ∧ ((∀ v, Same s s' v) ∧ s'.conns.length = s.conns.length ∧ s'.down = false ∨
      ∃ i, Advances answer s s' i) := by
  cases h with
  | @accept _ _ i rest hup hidle hbacklog =>
    have hi : i < s.conns.length := hknown i fun haway => by
      have hzero := haway.1
      rw [hbacklog, List.count_cons_self] at hzero
      omega
    exact ⟨rfl, .inr ⟨i, .accept hup hidle hbacklog (List.getElem?_eq_getElem hi)⟩⟩
  | acceptFailed hup hidle herrors => exact ⟨rfl, .inl ⟨fun v => ⟨rfl, fun _ => Iff.rfl, id, id, rfl⟩, rfl, hup⟩⟩
  | refuse hup hidle hbacklog hc => exact ⟨rfl, .inr ⟨_, .refuse hup hidle hbacklog hc⟩⟩
  | pull hup hserving hno hc hread hne => exact ⟨rfl, .inr ⟨_, .pull hup hserving hc hread⟩⟩
  | line hup hserving hc hline => exact ⟨rfl, .inr ⟨_, .line hup hserving hc hline⟩⟩
  | eof hup hserving hc hread hclosed => exact ⟨rfl, .inr ⟨_, .eof hup hserving hc hread hclosed⟩⟩
  | brokenPipe hup hserving hc hclosed hline hout => exact ⟨rfl, .inr ⟨_, .brokenPipe hup hserving hc hclosed⟩⟩
  | sigpipe hup hserving hc hclosed hline hout =>
    exact ⟨rfl, .inr ⟨_, .sigpipe ⟨hup, hserving, hclosed, hline, hout⟩ hc⟩⟩
  | readFailed hup hserving hc hclosed => exact ⟨rfl, .inr ⟨_, .brokenPipe hup hserving hc hclosed⟩⟩

/-- A caller that reads a line has read its reply. -/
theorem Talk.received {line : Bytes} (h : s.Talk answer w (requestLine req) c) (hspoken : Spoken answer req)
    (hline : c.toClient = line ++ newline :: rest) :
    ∃ reply, answer req = .ok reply ∧ readReplyLine (line ++ [newline]) = .ok reply := by
  have hbegins := h.phase.begins [] fun _ => rfl
  rw [List.append_nil, handle_lines_request hspoken, hline] at hbegins
  cases hreq : answer req with
  | error e =>
    simp only [hreq, List.prefix_nil] at hbegins
    exact absurd hbegins (by simp)
  | ok reply =>
    simp only [hreq] at hbegins
    rw [OneLine.line_bytes] at hbegins
    obtain ⟨more, hmore⟩ := hbegins
    rw [List.append_assoc, List.cons_append] at hmore
    have hno := (hspoken.reply reply hreq).newline_not_mem
    obtain ⟨heq, -⟩ := (List.append_cons_inj_of_notMem hno List.not_mem_nil).mp hmore.symm
    rw [← heq, ← OneLine.line_bytes]
    exact ⟨reply, rfl, readReplyLine_reply hspoken hreq⟩

theorem readReplyLine_nil : readReplyLine [] = .error (.err "daemon closed connection") := rfl

/-- A step of a caller. -/
theorem Called.move {pc : CallPc} (hspoken : Spoken answer req) (hc : s.conns[w]? = some c)
    (h : s.Called answer w req c pc) (hm : Move answer w s (.caller req pc) s' p) :
    ∃ pc' c', p = .caller req pc' ∧ About s s' w ∧ s'.down = s.down ∧ s'.endedBy = s.endedBy ∧
      s'.conns[w]? = some c' ∧ s'.Called answer w req c' pc' := by
  cases hm with
  | connect hup =>
    cases h with
    | connecting haway hnew =>
      subst hnew
      exact ⟨_, _, rfl, .connect hc, rfl, rfl, hc, .sending rfl (List.nil_append _) (.connect haway)⟩
  | noConnect msg hdown =>
    cases h with
    | connecting haway hnew =>
      subst hnew
      exact ⟨_, _, rfl, .nothing hc, rfl, rfl, hc, .failed (.inl hdown) (.died (x := []) hdown) (.inl hdown)⟩
  | write hc' hopen hne =>
    cases hc.symm.trans hc'
    cases h with
    | sending hclosed hsent htalk =>
      refine ⟨_, _, rfl, .put hc _, rfl, rfl, conn_put hc _, .sending hclosed ?_ (htalk.write hopen hclosed _)⟩
      rw [List.append_assoc, hsent]
  | noWrite msg hc' hlost =>
    cases hc.symm.trans hc'
    cases h with
    | sending hclosed hsent htalk =>
      exact ⟨_, _, rfl, .put hc _, rfl, rfl, conn_put hc _,
        .failed (.inr rfl) htalk.close (htalk.lost hspoken hsent hclosed hlost)⟩
  | writeKilled hc' hlost =>
    cases hc.symm.trans hc'
    cases h with
    | sending hclosed hsent htalk =>
      exact ⟨_, _, rfl, .put hc _, rfl, rfl, conn_put hc _,
        .killed (.inr rfl) htalk.close (htalk.lost hspoken hsent hclosed hlost)⟩
  | sent =>
    cases h with
    | sending hclosed hsent htalk =>
      rw [List.append_nil] at hsent
      exact ⟨_, _, rfl, .nothing hc, rfl, rfl, hc, .waiting hclosed (hsent ▸ htalk)⟩
  | receive hc' hline hno =>
    cases hc.symm.trans hc'
    cases h with
    | waiting hclosed htalk =>
      obtain ⟨reply, hreply, hread⟩ := htalk.received hspoken hline
      rw [hread]
      exact ⟨_, _, rfl, .put hc _, rfl, rfl, conn_put hc _, .replied rfl htalk.close hreply (by simp [hline])⟩
  | hangUp hc' hlost hno =>
    cases hc.symm.trans hc'
    cases h with
    | waiting hclosed htalk =>
      have hnone : c.toClient = [] := by
        rcases htalk.whole with hnil | ⟨l, hl⟩
        · exact hnil
        · exact absurd (by simp [hl]) hno
      rw [hnone, readReplyLine_nil]
      exact ⟨_, _, rfl, .put hc _, rfl, rfl, conn_put hc _,
        hnone ▸ .failed (.inr rfl) htalk.close (htalk.lost hspoken (List.append_nil _) hclosed hlost)⟩
  | reset msg hc' hlost =>
    cases hc.symm.trans hc'
    cases h with
    | waiting hclosed htalk =>
      exact ⟨_, _, rfl, .put hc _, rfl, rfl, conn_put hc _,
        .failed (.inr rfl) htalk.close (htalk.lost hspoken (List.append_nil _) hclosed hlost)⟩

/-- A step of another client. -/
theorem Met.move {pc : PeerPc} (hc : s.conns[w]? = some c) (h : s.Met answer w c pc)
    (hm : Move answer w s (.peer pc) s' p) :
    ∃ pc' c', p = .peer pc' ∧ About s s' w ∧ s'.down = s.down ∧ s'.endedBy = s.endedBy ∧
      (s.down = true → ∃ written, pc' = .gone written) ∧
      s'.conns[w]? = some c' ∧ s'.Met answer w c' pc' := by
  cases hm with
  | peerConnect hup =>
    cases h with
    | away haway hnew =>
      subst hnew
      exact ⟨_, _, rfl, .connect hc, rfl, rfl, fun hd => absurd (hup.symm.trans hd) Bool.false_ne_true, hc,
        .writing rfl (.connect haway)⟩
  | peerWrite hc' hopen hne =>
    cases hc.symm.trans hc'
    cases h with
    | writing hclosed htalk =>
      exact ⟨_, _, rfl, .put hc _, rfl, rfl, fun hd => absurd (.inl hd) hopen, conn_put hc _,
        .writing hclosed (htalk.write hopen hclosed _)⟩
  | peerClose hc' =>
    cases hc.symm.trans hc'
    cases h with
    | writing hclosed htalk =>
      exact ⟨_, _, rfl, .put hc _, rfl, rfl, fun _ => ⟨_, rfl⟩, conn_put hc _, .gone rfl htalk.close⟩

/-- Each step keeps what holds of every party. -/
theorem Move.inv {q : Party} (hspoken : ∀ req, .caller req .connecting ∈ clients → Spoken answer req)
    (hp : Inv answer clients w s p) (hm : Move answer w s p s' q) :
    Inv answer clients w s' q ∧ ∀ v z, v ≠ w → Inv answer clients v s z → Inv answer clients v s' z := by
  cases p with
  | serve =>
    obtain ⟨rfl, ⟨hsame, hlength, hup⟩ | ⟨i, hi⟩⟩ := hm.advances hp.lt
    · exact ⟨hp.still hsame hlength hup, fun v z _ hz => hz.still hsame hlength hup⟩
    · have hne : w ≠ i := fun heq => hi.known (heq ▸ hp.away)
      have hfallen := fun hd => Or.inr (a := s.down = true ∧ s'.endedBy = s.endedBy) (hi.fallen hd)
      refine ⟨hp.frame hi.about hfallen hne, fun v z _ hz => ?_⟩
      by_cases hv : v = i
      · subst hv
        exact hi.inv hspoken hz
      · exact hz.frame hi.about hfallen hv
  | caller req pc =>
    obtain ⟨hreq, hfatal, c, hc, hcalled⟩ := hp
    have hmem : .caller req .connecting ∈ clients := by simpa using List.mem_of_getElem? hreq
    obtain ⟨pc', c', rfl, habout, hdown, hsame, hc', hcalled'⟩ := hcalled.move (hspoken req hmem) hc hm
    exact ⟨⟨hreq, fun hv => hfatal (hsame ▸ hv), c', hc', hcalled'⟩,
      fun v z hv hz => hz.frame habout (fun hd => .inl ⟨hdown ▸ hd, hsame⟩) hv⟩
  | peer pc =>
    obtain ⟨hw, hfatal, c, hc, hmet⟩ := hp
    obtain ⟨pc', c', rfl, habout, hdown, hsame, hgone, hc', hmet'⟩ := hmet.move hc hm
    refine ⟨⟨hw, fun hv => ?_, c', hc', hmet'⟩, fun v z hv hz => ?_⟩
    · have hd := (hfatal (hsame ▸ hv)).1
      exact ⟨hdown ▸ hd, .inl (hgone hd)⟩
    · exact hz.frame habout (fun hd => .inl ⟨hdown ▸ hd, hsame⟩) hv

/-! ## Every run -/

theorem start_inv (hfresh : ∀ q ∈ clients, q.Fresh) (w : Nat) (x : Party)
    (hx : (start errors clients).locals[w]? = some x) : Inv answer clients w (start errors clients).shared x := by
  have haway : ∀ v, (listening errors (clients.length + 1)).Away v := by
    refine fun v => ⟨rfl, ?_⟩
    rintro ⟨buf, hbuf⟩
    cases hbuf
  cases w with
  | zero =>
    cases hx
    exact ⟨haway 0, List.length_replicate, fun i hi => absurd (haway i) hi, fun hdown => nomatch hdown⟩
  | succ w =>
    have hx : clients[w]? = some x := hx
    have hconn : (listening errors (clients.length + 1)).conns[w + 1]? = some {} := by
      have hlt := (List.getElem?_eq_some_iff.mp hx).1
      change (List.replicate (clients.length + 1) ({} : Conn))[w + 1]? = _
      rw [List.getElem?_replicate, if_pos (by omega)]
    have hf := hfresh x (List.mem_of_getElem? hx)
    cases x with
    | serve => exact absurd hf id
    | caller req pc =>
      cases (show pc = .connecting from hf)
      exact ⟨hx, nofun, {}, hconn, .connecting (haway _) rfl⟩
    | peer pc =>
      obtain ⟨script, rfl⟩ := hf
      exact ⟨Nat.succ_ne_zero w, nofun, {}, hconn, .away (haway _) rfl⟩

/-- The daemon and its clients in some run. -/
structure Running (answer : WireRequest → Res WireReply) (clients : List Party) (t : Threads Daemon Party) : Prop where
  length : t.locals.length = clients.length + 1
  each : ∀ (w : Nat) (x : Party), t.locals[w]? = some x → Inv answer clients w t.shared x

variable {n : Nat} {t : Threads Daemon Party}

theorem running (hfresh : ∀ q ∈ clients, q.Fresh)
    (hspoken : ∀ req, .caller req .connecting ∈ clients → Spoken answer req)
    (h : Threads.Runs (Move answer) (start errors clients) n t) : Running answer clients t :=
  ⟨h.length, h.each (fun _ _ _ _ _ => Move.inv hspoken) (start_inv hfresh)⟩

theorem Running.serve (h : Running answer clients t) : t.locals[0]? = some .serve := by
  have hlt : 0 < t.locals.length := by rw [h.length]; exact Nat.succ_pos _
  have hget := List.getElem?_eq_getElem hlt
  have hinv := h.each 0 _ hget
  cases hz : t.locals[0] with
  | serve => rw [hget, hz]
  | caller req pc =>
    rw [hz] at hinv
    exact nomatch hinv.1
  | peer pc =>
    rw [hz] at hinv
    exact absurd rfl hinv.1

/-- The daemon is down because of some client. -/
theorem Running.fallen (h : Running answer clients t) (hdown : t.shared.down = true) :
    ∃ v p, t.shared.endedBy = some v ∧ t.locals[v]? = some p ∧ Fatal answer p := by
  have hknows : t.shared.Knows clients 0 := h.each 0 _ h.serve
  obtain ⟨v, hv, -, hlt⟩ := hknows.fallen hdown
  have hv' : v < t.locals.length := by
    rw [h.length, ← hknows.length]
    exact hlt
  have hget := List.getElem?_eq_getElem hv'
  have hinv := h.each v _ hget
  refine ⟨v, _, hv, hget, ?_⟩
  cases hz : t.locals[v] with
  | serve =>
    rw [hz] at hinv
    obtain ⟨i, hi, hne, -⟩ := Knows.fallen hinv hdown
    exact absurd (Option.some.inj (hi.symm.trans hv)) hne
  | caller req pc =>
    rw [hz] at hinv
    exact hinv.2.1 hv
  | peer pc =>
    rw [hz] at hinv
    exact (hinv.2.1 hv).2

theorem Talk.ended {d : Drop} (h : s.Talk answer w x c) (hdrop : c.dropped = some d) : c.Ended answer x d := by
  cases h.phase with
  | queued _ _ _ _ hnone => exact nomatch hdrop.symm.trans hnone
  | served _ _ hnone _ _ => exact nomatch hdrop.symm.trans hnone
  | ended _ hd hend =>
    cases hdrop.symm.trans hd
    exact hend
  | died _ hnone _ => exact nomatch hdrop.symm.trans hnone

/-! ## A client alone -/

/-- All that is left can be sent at once. -/
theorem Move.writeAll {msg : Bytes} (hc : s.conns[w]? = some c) (hopen : ¬ s.Lost c) (hne : msg ≠ []) :
    Move answer w s (.caller req (.sending msg)) (s.put w { c with toServer := c.toServer ++ msg })
      (.caller req (.sending [])) := by
  have hm := @Move.write _ answer w s req c msg [] hc hopen hne
  rwa [List.append_nil] at hm

theorem Move.peerWriteAll {msg : Bytes} (hc : s.conns[w]? = some c) (hopen : ¬ s.Lost c) (hne : msg ≠ []) :
    Move answer w s (.peer (.writing [] msg)) (s.put w { c with toServer := c.toServer ++ msg })
      (.peer (.writing msg [])) := by
  have hm := @Move.peerWrite _ answer w s c [] msg [] hc hopen hne
  rwa [List.append_nil] at hm

omit [LineJson] in
theorem not_lost_new (hup : s.down = false) : ¬ s.Lost {} := by
  rintro (hdown | hdrop)
  · exact Bool.false_ne_true (hup.symm.trans hdown)
  · exact hdrop rfl

theorem requestLine_ne_nil : requestLine req ≠ [] := by simp [requestLine, OneLine.line_bytes]

theorem answerLine_spoken (hspoken : Spoken answer req) {reply : WireReply} (hreply : answer req = .ok reply) :
    answerLine answer (as_bytes (LineJson.request req) ++ [newline]) =
      .ok (some (as_bytes (LineJson.reply reply ++ "\n"))) := by
  rw [← OneLine.line_bytes]
  exact (answerLine_request hspoken).trans (by rw [hreply])

/-- Two callers of one request: the second one has written before the daemon, after an error of `accept`,
takes the connection of the first one. -/
theorem two_calls (hspoken : Spoken answer req) {reply : WireReply} (hreply : answer req = .ok reply) :
    ∃ t, Threads.Runs (Move answer) (start 1 [.caller req .connecting, .caller req .connecting]) 17 t ∧
      t.locals = [.serve, .caller req (.returned (.ok reply)), .caller req (.returned (.ok reply))] ∧
      t.shared.serving = none ∧ t.shared.backlog = [] ∧ t.shared.accept_errors = 0 := by
  have hno := hspoken.request.newline_not_mem
  have hline : requestLine req = as_bytes (LineJson.request req) ++ [newline] := OneLine.line_bytes _
  have hread : readReplyLine (as_bytes (LineJson.reply reply) ++ [newline]) = .ok reply := by
    rw [← OneLine.line_bytes, readReplyLine_reply hspoken hreply]
  have hpull := hline.trans (List.append_nil _).symm
  have hnotmem := (hspoken.reply reply hreply).newline_not_mem
  let calls : List Party := [.caller req .connecting, .caller req .connecting]
  have hr : Threads.Runs (Move answer) (start 1 calls) 0 _ := .refl
  have hr := hr.step (.move (w := 1) rfl (.connect rfl))
  have hr := hr.step (.move (w := 2) rfl (.connect rfl))
  have hr := hr.step (.move (w := 2) rfl (.writeAll rfl (not_lost_new rfl) requestLine_ne_nil))
  have hr := hr.step (.move (w := 0) rfl (.acceptFailed rfl rfl rfl))
  have hr : Threads.Runs (Move answer) (start 1 calls) 5
    ⟨⟨false, none, some (1, []), [2], 0, [{}, {}, ⟨requestLine req, [], false, none⟩]⟩,
      [.serve, .caller req (.sending (requestLine req)), .caller req (.sending [])]⟩ :=
    hr.step (.move (w := 0) rfl (.accept rfl rfl rfl))
  have hr := hr.step (.move (w := 1) rfl (.writeAll rfl (not_lost_new rfl) requestLine_ne_nil))
  have hr := hr.step (.move (w := 0) rfl (.pull rfl rfl List.not_mem_nil rfl hpull (by simp)))
  have hr := hr.step (.move (w := 2) rfl .sent)
  have hr := hr.step (.move (w := 0) rfl (.line rfl rfl rfl (.line hno)))
  rw [answerLine_spoken hspoken hreply] at hr
  have hr : Threads.Runs (Move answer) (start 1 calls) 9
    ⟨⟨false, none, some (1, []), [2], 0, [{}, ⟨[], as_bytes (LineJson.reply reply ++ "\n"), false, none⟩,
      ⟨requestLine req, [], false, none⟩]⟩, [.serve, .caller req (.sending []), .caller req .waiting]⟩ := hr
  have hr := hr.step (.move (w := 1) rfl .sent)
  have hr := hr.step (.move (w := 1) rfl (.receive rfl (OneLine.line_bytes _) hnotmem))
  rw [hread] at hr
  have hr := hr.step (.move (w := 0) rfl (.eof rfl rfl rfl rfl rfl))
  have hr : Threads.Runs (Move answer) (start 1 calls) 13
    ⟨⟨false, none, some (2, []), [], 0, [{}, ⟨[], as_bytes (LineJson.reply reply ++ "\n"), true, some .eof⟩,
      ⟨requestLine req, [], false, none⟩]⟩, [.serve, .caller req (.returned (.ok reply)), .caller req .waiting]⟩ :=
    hr.step (.move (w := 0) rfl (.accept rfl rfl rfl))
  have hr := hr.step (.move (w := 0) rfl (.pull rfl rfl List.not_mem_nil rfl hpull (by simp)))
  have hr := hr.step (.move (w := 0) rfl (.line rfl rfl rfl (.line hno)))
  rw [answerLine_spoken hspoken hreply] at hr
  have hr := hr.step (.move (w := 2) rfl (.receive rfl (OneLine.line_bytes _) hnotmem))
  rw [hread] at hr
  have hr := hr.step (.move (w := 0) rfl (.eof rfl rfl rfl rfl rfl))
  exact ⟨_, hr, rfl, rfl, rfl, rfl⟩

/-- Two other clients: one sends a request and hangs up, the other one sends a line that is not UTF-8. -/
theorem two_peers (hspoken : Spoken answer req) {reply : WireReply} (hreply : answer req = .ok reply) {bad : Bytes}
    (hbad : newline ∉ bad) {msg : String} (hnot : answerLine answer (bad ++ [newline]) = .error (.err msg)) :
    ∃ t c d, Threads.Runs (Move answer)
        (start 0 [.peer (.away (requestLine req)), .peer (.away (bad ++ [newline]))]) 12 t ∧
      t.locals[1]? = some (.peer (.gone (requestLine req))) ∧ t.shared.conns[1]? = some c ∧ c.dropped = some .eof ∧
      c.toClient = as_bytes (LineJson.reply reply ++ "\n") ∧
      t.locals[2]? = some (.peer (.writing (bad ++ [newline]) [])) ∧ t.shared.conns[2]? = some d ∧
      d.dropped = some .failed ∧ d.toClient = [] := by
  have hno := hspoken.request.newline_not_mem
  have hline : requestLine req = as_bytes (LineJson.request req) ++ [newline] := OneLine.line_bytes _
  have hpull := hline.trans (List.append_nil _).symm
  let peers : List Party := [.peer (.away (requestLine req)), .peer (.away (bad ++ [newline]))]
  have hr : Threads.Runs (Move answer) (start 0 peers) 0 _ := .refl
  have hr := hr.step (.move (w := 2) rfl (.peerConnect rfl))
  have hr := hr.step (.move (w := 1) rfl (.peerConnect rfl))
  have hr := hr.step (.move (w := 2) rfl (.peerWriteAll rfl (not_lost_new rfl) (by simp)))
  have hr := hr.step (.move (w := 0) rfl (.accept rfl rfl rfl))
  have hr : Threads.Runs (Move answer) (start 0 peers) 5
    ⟨⟨false, none, some (2, []), [1], 0, [{}, ⟨requestLine req, [], false, none⟩, ⟨bad ++ [newline], [], false, none⟩]⟩,
      [.serve, .peer (.writing (requestLine req) []), .peer (.writing (bad ++ [newline]) [])]⟩ :=
    hr.step (.move (w := 1) rfl (.peerWriteAll rfl (not_lost_new rfl) requestLine_ne_nil))
  have hr := hr.step (.move (w := 0) rfl (.pull rfl rfl List.not_mem_nil rfl (List.append_nil _).symm (by simp)))
  have hr := hr.step (.move (w := 0) rfl (.line rfl rfl rfl (.line hbad)))
  rw [show answerLine answer (bad ++ [newline]) = .error (.err msg) from hnot] at hr
  have hr := hr.step (.move (w := 1) rfl (.peerClose rfl))
  have hr : Threads.Runs (Move answer) (start 0 peers) 9
    ⟨⟨false, none, some (1, []), [], 0, [{}, ⟨requestLine req, [], true, none⟩, ⟨[], [], false, some .failed⟩]⟩,
      [.serve, .peer (.gone (requestLine req)), .peer (.writing (bad ++ [newline]) [])]⟩ :=
    hr.step (.move (w := 0) rfl (.accept rfl rfl rfl))
  have hr := hr.step (.move (w := 0) rfl (.pull rfl rfl List.not_mem_nil rfl hpull (by simp)))
  have hr := hr.step (.move (w := 0) rfl (.line rfl rfl rfl (.line hno)))
  rw [answerLine_spoken hspoken hreply] at hr
  have hr := hr.step (.move (w := 0) rfl (.eof rfl rfl rfl rfl rfl))
  exact ⟨_, _, _, hr, rfl, rfl, rfl, rfl, rfl, rfl, rfl, rfl⟩

end

/-! ## A request of no arguments -/

def statRequest : String := "\x7b\"cmd\":\"stat\"\x7d"

def statReply : String := "\x7b\"cmd\":\"stat\",\"xrefs\":1,\"syms\":3,\"files\":1,\"inhs\":2,\"calls\":0\x7d"

/-- A coder that is right about one request and its reply. -/
@[reducible] def statJson : LineJson where
  request _ := statRequest
  readRequest text := if text = statRequest then .ok .Stat else .error "not this text"
  reply _ := statReply
  readReply text := if text = statReply then .ok (.Stat 1 3 1 2 0) else .error "not this text"

theorem statRequest_oneLine : OneLine statRequest := ⟨by decide, by decide, by decide⟩

theorem statReply_oneLine : OneLine statReply := ⟨by decide, by decide, by decide⟩

attribute [local instance] statJson in
theorem stat_spoken {answer : WireRequest → Res WireReply} (h : answer .Stat = .ok (.Stat 1 3 1 2 0)) :
    Spoken answer .Stat := by
  refine ⟨statRequest_oneLine, if_pos rfl, fun _ _ => statReply_oneLine, fun r hr => ?_⟩
  cases h.symm.trans hr
  exact if_pos rfl

attribute [local instance] statJson in
theorem stat_caller {answer : WireRequest → Res WireReply} (h : answer .Stat = .ok (.Stat 1 3 1 2 0))
    (req : WireRequest)
    (hreq : Party.caller req .connecting ∈ [Party.caller .Stat .connecting, .caller .Stat .connecting]) :
    Spoken answer req := by
  rcases List.mem_pair.mp hreq with hreq | hreq
  all_goals
    cases hreq
    exact stat_spoken h

theorem twoParents_stat [Memmem] : ∃ f ix, twoParents.finish = .ok f ∧ open_index f = .ok ix ∧
    dispatchWire ix 1 .Stat = .ok (.Stat 1 3 1 2 0) := by
  obtain ⟨hf, ix, hopen, hix⟩ := twoParents.opens (by decide +kernel)
  refine ⟨_, ix, hf, hopen, ?_⟩
  rw [dispatchWire, hix.hdr]
  rfl

/-! ## What is replied -/

variable {ix : Index} {parallelism : Nat} {clients : List Party} {errors n w : Nat} {t : Threads Daemon Party}

/-- In any interleaving with other callers and with clients that may send anything, `client_call`
returns the answer to its own request, or fails because the daemon is down or has refused the connection.
It is down because of one client, whose lines panic or which has hung up. -/
theorem client_call_replies [LineJson] [Memmem] {req : WireRequest} (hfresh : ∀ q ∈ clients, q.Fresh)
    (hspoken : ∀ req, .caller req .connecting ∈ clients → Spoken (dispatchWire ix parallelism) req)
    (h : Threads.Runs (Move (dispatchWire ix parallelism)) (start errors clients) n t) {r : Res WireReply}
    (hw : t.locals[w]? = some (.caller req (.returned r))) :
    (Party.serve :: clients)[w]? = some (.caller req .connecting) ∧
    (∀ reply, r = .ok reply → dispatchWire ix parallelism req = .ok reply) ∧
    (∀ e, r = .error e → t.shared.down = true ∨ ∃ c, t.shared.conns[w]? = some c ∧ c.dropped = some .refused) ∧
    (t.shared.down = true → ∃ v p, t.shared.endedBy = some v ∧ t.locals[v]? = some p ∧
      Fatal (dispatchWire ix parallelism) p) := by
  have hrun := running hfresh hspoken h
  obtain ⟨hreq, -, c, hc, hcalled⟩ := hrun.each w _ hw
  refine ⟨hreq, ?_, ?_, hrun.fallen⟩
  · rintro reply rfl
    cases hcalled with
    | replied _ _ hreply _ => exact hreply
  · rintro e rfl
    cases hcalled with
    | failed _ _ hlost => exact hlost.imp_right fun hdrop => ⟨c, hc, hdrop⟩

section

attribute [local instance] statJson naiveMemmem

theorem client_call_replies_stat :
    ∃ f ix t, twoParents.finish = .ok f ∧ open_index f = .ok ix ∧
      Threads.Runs (Move (dispatchWire ix 1)) (start 1 [.caller .Stat .connecting, .caller .Stat .connecting]) 17 t ∧
      t.locals[2]? = some (.caller .Stat (.returned (.ok (.Stat 1 3 1 2 0)))) ∧
      dispatchWire ix 1 .Stat = .ok (.Stat 1 3 1 2 0) := by
  obtain ⟨f, ix, hf, hopen, hstat⟩ := twoParents_stat
  obtain ⟨t, hr, hlocals, -⟩ := two_calls (stat_spoken hstat) hstat
  have hreturned : t.locals[2]? = some (.caller .Stat (.returned (.ok (.Stat 1 3 1 2 0)))) := by
    rw [hlocals]
    rfl
  have hfresh : ∀ q ∈ [Party.caller .Stat .connecting, .caller .Stat .connecting], q.Fresh :=
    List.forall_mem_cons.mpr ⟨rfl, List.forall_mem_singleton.mpr rfl⟩
  exact ⟨f, ix, t, hf, hopen, hr, hreturned, (client_call_replies hfresh (stat_caller hstat) hr hreturned).2.1 _ rfl⟩

end

/-- Whatever has been written on a connection is answered as `handle_lines` answers it alone. -/
theorem serve_replies [LineJson] [Memmem] (hfresh : ∀ q ∈ clients, q.Fresh)
    (hspoken : ∀ req, .caller req .connecting ∈ clients → Spoken (dispatchWire ix parallelism) req)
    (h : Threads.Runs (Move (dispatchWire ix parallelism)) (start errors clients) n t) {pc : PeerPc}
    (hw : t.locals[w]? = some (.peer pc)) :
    ∃ c, t.shared.conns[w]? = some c ∧
      c.toClient <+: (handle_lines (dispatchWire ix parallelism) pc.written).1 ∧
      (c.dropped = some .eof → handle_lines (dispatchWire ix parallelism) pc.written = (c.toClient, .ok ())) ∧
      (c.dropped = some .failed →
        ∃ msg, handle_lines (dispatchWire ix parallelism) pc.written = (c.toClient, .error (.err msg))) := by
  obtain ⟨-, -, c, hc, hmet⟩ := (running hfresh hspoken h).each w _ hw
  have htalk : c = {} ∨ t.shared.Talk (dispatchWire ix parallelism) w pc.written c := by
    cases hmet with
    | away _ hnew => exact .inl hnew
    | writing _ htalk => exact .inr htalk
    | gone _ htalk => exact .inr htalk
  rcases htalk with rfl | htalk
  · exact ⟨{}, hc, List.nil_prefix, fun hd => (nomatch hd), fun hd => (nomatch hd)⟩
  · have hbegins := htalk.phase.begins [] fun _ => rfl
    rw [List.append_nil] at hbegins
    refine ⟨c, hc, hbegins, fun hd => (htalk.ended hd).2, fun hd => ?_⟩
    obtain ⟨msg, hmsg⟩ := htalk.ended hd [] fun _ => rfl
    rw [List.append_nil] at hmsg
    exact ⟨msg, hmsg⟩

section

attribute [local instance] statJson naiveMemmem

theorem serve_replies_stat :
    ∃ f ix t msg, twoParents.finish = .ok f ∧ open_index f = .ok ix ∧
      Threads.Runs (Move (dispatchWire ix 1))
        (start 0 [.peer (.away (requestLine .Stat)), .peer (.away ([0xff] ++ [newline]))]) 12 t ∧
      handle_lines (dispatchWire ix 1) (requestLine .Stat) = (as_bytes (statReply ++ "\n"), .ok ()) ∧
      handle_lines (dispatchWire ix 1) ([0xff] ++ [newline]) = ([], .error (.err msg)) := by
  obtain ⟨f, ix, hf, hopen, hstat⟩ := twoParents_stat
  obtain ⟨msg, hbad⟩ : ∃ msg, answerLine (dispatchWire ix 1) ([0xff] ++ [newline]) = .error (.err msg) :=
    ⟨_, rfl⟩
  obtain ⟨t, c, d, hr, hgone, hc, hdrop, hout, hbadgone, hd, hfailed, hnothing⟩ :=
    two_peers (stat_spoken hstat) hstat (by decide) hbad
  have hfresh : ∀ q ∈ [Party.peer (.away (requestLine .Stat)), .peer (.away ([0xff] ++ [newline]))], q.Fresh :=
    List.forall_mem_cons.mpr ⟨⟨_, rfl⟩, List.forall_mem_singleton.mpr ⟨_, rfl⟩⟩
  have hspoken : ∀ req, Party.caller req .connecting ∈
      [Party.peer (.away (requestLine .Stat)), .peer (.away ([0xff] ++ [newline]))] →
      Spoken (dispatchWire ix 1) req := fun req hreq => by
    rcases List.mem_pair.mp hreq with hreq | hreq
    all_goals cases hreq
  obtain ⟨c', hc', -, heof, -⟩ := serve_replies hfresh hspoken hr hgone
  cases hc.symm.trans hc'
  obtain ⟨d', hd', -, -, hfail⟩ := serve_replies hfresh hspoken hr hbadgone
  cases hd.symm.trans hd'
  obtain ⟨msg', hmsg⟩ := hfail hfailed
  exact ⟨f, ix, t, msg', hf, hopen, hr, (heof hdrop).trans (by rw [hout]; rfl), hmsg.trans (by rw [hnothing])⟩

end

/-! ## An end -/

section

variable [LineJson] {answer : WireRequest → Res WireReply} {s s' : Daemon} {i : Nat} {x buf rest : Bytes} {c c' : Conn}
  {p : Party} {req : WireRequest}

/-- What has been written and not been read. -/
def unread (conns : List Conn) : Nat := (conns.map fun c => c.toServer.length).sum

/-- The steps that are left for the daemon if no client does anything more. -/
def pending (s : Daemon) : Nat :=
  2 * s.backlog.length + (s.serving.elim 0 fun i => i.2.length + 1) + 2 * unread s.conns + s.accept_errors +
    (!s.down).toNat

/-- The steps in which so many bytes are sent. Each byte gives the daemon two. -/
def sendWork (N len : Nat) : Nat := len + N * (2 * len)

/-- The steps that are left for one party among `N`. -/
def work (N : Nat) (s : Daemon) : Party → Nat
  | .serve => s.pending
  | .caller req .connecting => sendWork N (requestLine req).length + N * 2 + 3
  | .caller _ (.sending rest) => sendWork N rest.length + 2
  | .caller _ .waiting => 1
  | .caller _ (.returned _) => 0
  | .caller _ .killed => 0
  | .peer (.away script) => sendWork N script.length + N * 2 + 2
  | .peer (.writing _ rest) => sendWork N rest.length + 1
  | .peer (.gone _) => 0

omit [LineJson] in
theorem unread_set {conns : List Conn} (hc : conns[i]? = some c) (c' : Conn) :
    unread (conns.set i c') + c.toServer.length = unread conns + c'.toServer.length :=
  Threads.total_set (fun c : Conn => c.toServer.length) hc

omit [LineJson] in
/-- Only what a client writes is to be read. -/
theorem unread_same {conns : List Conn} {out : Bytes} {closed : Bool} {dropped : Option Drop}
    (hc : conns[i]? = some c) :
    unread (conns.set i ⟨c.toServer, out, closed, dropped⟩) = unread conns :=
  Nat.add_right_cancel (unread_set hc _)

omit [LineJson] in
theorem sendWork_append {chunk rest : Bytes} (N : Nat) :
    sendWork N (chunk ++ rest).length = sendWork N chunk.length + sendWork N rest.length := by
  unfold sendWork
  rw [List.length_append, Nat.mul_add, Nat.mul_add]
  omega

theorem work_le {N rise : Nat} (h : s'.pending ≤ s.pending + rise) (z : Party) : work N s' z ≤ work N s z + rise := by
  cases z with
  | serve => exact h
  | caller req pc => cases pc <;> exact Nat.le_add_right _ _
  | peer pc => cases pc <;> exact Nat.le_add_right _ _

omit [LineJson] in
theorem pending_write (hc : s.conns[w]? = some c) (chunk : Bytes) :
    (s.put w { c with toServer := c.toServer ++ chunk }).pending = s.pending + 2 * chunk.length := by
  have hset := unread_set hc { c with toServer := c.toServer ++ chunk }
  simp only [List.length_append] at hset
  simp only [pending, put]
  omega

omit [LineJson] in
theorem pending_close (hc : s.conns[w]? = some c) : (s.put w { c with closed := true }).pending = s.pending := by
  unfold pending put
  simp only [unread_same hc]

omit [LineJson] in
theorem pending_answered (hserving : s.serving = some (i, buf)) (hc : s.conns[i]? = some c)
    (hlt : rest.length < buf.length) (out : Res (Option Bytes)) : (s.answered i c rest out).pending < s.pending := by
  match out with
  | .ok none =>
    simp only [answered, pending, hserving, Option.elim_some]
    omega
  | .ok (some out) =>
    simp only [answered, put, pending, unread_same hc, hserving, Option.elim_some]
    omega
  | .error (.err _) =>
    simp only [answered, put, pending, unread_same hc, hserving, Option.elim_some, Option.elim_none]
    omega
  | .error .panic =>
    simp only [answered, pending, hserving, Option.elim_some, Option.elim_none, Bool.not_true, Bool.toNat_false]
    omega

omit [LineJson] in
theorem pending_dropped (hserving : s.serving = some (i, buf)) (hc : s.conns[i]? = some c) :
    ({ s with serving := none }.put i { c with dropped := some .broken }).pending < s.pending := by
  simp only [pending, put, unread_same hc, hserving, Option.elim_some, Option.elim_none]
  omega

/-- Each step is one of those that are left, and what it gives the daemon is paid for. -/
theorem Move.pays {q : Party} (N : Nat) (h : Move answer w s p s' q) :
    ∃ rise, (∀ z, work N s' z ≤ work N s z + rise) ∧ work N s' q + N * rise < work N s p := by
  have hclient : ∀ rise : Nat, s'.pending ≤ s.pending + rise → work N s' q + N * rise < work N s p →
      ∃ rise, (∀ z, work N s' z ≤ work N s z + rise) ∧ work N s' q + N * rise < work N s p :=
    fun rise hrise hlt => ⟨rise, work_le hrise, hlt⟩
  have hserve : s'.pending < s.pending → p = .serve → q = .serve →
      ∃ rise, (∀ z, work N s' z ≤ work N s z + rise) ∧ work N s' q + N * rise < work N s p := by
    rintro hlt rfl rfl
    exact ⟨0, work_le (by omega), hlt⟩
  cases h with
  | connect hup =>
    refine hclient 2 ?_ ?_
    · simp only [pending, List.length_append, List.length_singleton]
      omega
    · simp only [work]
      omega
  | noConnect msg hdown => exact ⟨0, work_le (by omega), by simp only [work]; omega⟩
  | @write _ _ _ _ chunk rest hc hopen hne =>
    have hpos := List.length_pos_iff.mpr hne
    refine hclient _ (pending_write hc chunk).le ?_
    simp only [work, sendWork_append]
    unfold sendWork
    omega
  | noWrite msg hc hlost => exact ⟨0, work_le (pending_close hc).le, by simp only [work]; omega⟩
  | writeKilled hc hlost => exact ⟨0, work_le (pending_close hc).le, by simp only [work]; omega⟩
  | sent => exact ⟨0, work_le (by omega), by simp only [work]; omega⟩
  | receive hc hline hno => exact ⟨0, work_le (pending_close hc).le, by simp only [work]; omega⟩
  | hangUp hc hlost hno => exact ⟨0, work_le (pending_close hc).le, by simp only [work]; omega⟩
  | reset msg hc hlost => exact ⟨0, work_le (pending_close hc).le, by simp only [work]; omega⟩
  | peerConnect hup =>
    refine hclient 2 ?_ ?_
    · simp only [pending, List.length_append, List.length_singleton]
      omega
    · simp only [work]
      omega
  | @peerWrite _ _ _ _ chunk rest hc hopen hne =>
    have hpos := List.length_pos_iff.mpr hne
    refine hclient _ (pending_write hc chunk).le ?_
    simp only [work, sendWork_append]
    unfold sendWork
    omega
  | peerClose hc => exact ⟨0, work_le (pending_close hc).le, by simp only [work]; omega⟩
  | accept hup hidle hbacklog =>
    refine hserve ?_ rfl rfl
    simp only [pending, hidle, hbacklog, List.length_cons, List.length_nil, Option.elim_some, Option.elim_none]
    omega
  | acceptFailed hup hidle herrors =>
    refine hserve ?_ rfl rfl
    simp only [pending, herrors]
    omega
  | refuse hup hidle hbacklog hc =>
    refine hserve ?_ rfl rfl
    simp only [pending, put, unread_same hc, hbacklog, List.length_cons]
    omega
  | @pull _ _ i buf chunk rest c hup hserving hno hc hread hne =>
    refine hserve ?_ rfl rfl
    have hpos := List.length_pos_iff.mpr hne
    have hset := unread_set hc { c with toServer := rest }
    simp only [hread, List.length_append] at hset
    simp only [pending, put, hserving, Option.elim_some, List.length_append]
    omega
  | line hup hserving hc hline => exact hserve (pending_answered hserving hc hline.length_lt _) rfl rfl
  | eof hup hserving hc hread hclosed =>
    refine hserve ?_ rfl rfl
    simp only [pending, put, unread_same hc, hserving, Option.elim_some, Option.elim_none, List.length_nil]
    omega
  | brokenPipe hup hserving hc hclosed hline hout => exact hserve (pending_dropped hserving hc) rfl rfl
  | sigpipe hup hserving hc hclosed hline hout =>
    refine hserve ?_ rfl rfl
    simp only [pending, hup, Bool.not_true, Bool.toNat_false, Bool.not_false, Bool.toNat_true]
    omega
  | readFailed hup hserving hc hclosed => exact hserve (pending_dropped hserving hc) rfl rfl

theorem exists_move_connecting : ∃ s' q, Move answer w s (.caller req .connecting) s' q := by
  cases hdown : s.down with
  | false => exact ⟨_, _, .connect hdown⟩
  | true => exact ⟨_, _, .noConnect "" hdown⟩

theorem exists_move_sending (hc : s.conns[w]? = some c) (rest : Bytes) :
    ∃ s' q, Move answer w s (.caller req (.sending rest)) s' q := by
  by_cases hlost : s.Lost c
  · exact ⟨_, _, .noWrite "" hc hlost⟩
  · by_cases hne : rest = []
    · subst hne
      exact ⟨_, _, .sent⟩
    · exact ⟨_, _, .writeAll hc hlost hne⟩

/-- With something to read, or at the end of the stream, the daemon goes on. -/
theorem exists_move_serving (hup : s.down = false) (hserving : s.serving = some (i, buf)) (hc : s.conns[i]? = some c)
    (hmore : newline ∈ buf ∨ c.toServer ≠ [] ∨ c.closed = true) : ∃ s' q, Move answer w s .serve s' q := by
  by_cases hno : newline ∈ buf
  · obtain ⟨line, rest, rfl, hline⟩ := List.eq_append_cons_of_mem hno
    exact ⟨_, _, .line hup hserving hc (.line hline)⟩
  · by_cases hread : c.toServer = []
    · have hclosed : c.closed = true := (hmore.resolve_left hno).resolve_left (not_not.mpr hread)
      by_cases hbuf : buf = []
      · subst hbuf
        exact ⟨_, _, .eof hup hserving hc hread hclosed⟩
      · exact ⟨_, _, .line hup hserving hc (.last hno hbuf hread hclosed)⟩
    · exact ⟨_, _, .pull hup hserving hno hc (List.append_nil _).symm hread⟩

/-- A caller that waits with all of its line read has its reply. -/
theorem Talk.replied (h : s.Talk answer w (requestLine req) c) (hspoken : Spoken answer req) (hup : s.down = false)
    (hserving : s.serving = some (w, buf)) (hno : newline ∉ buf) (hread : c.toServer = []) : newline ∈ c.toClient := by
  obtain ⟨-, -, hsuffix, hanswered⟩ := h.served hup hserving
  rw [hread, List.append_nil] at hsuffix hanswered
  have hbuf : buf = [] := by
    obtain ⟨pre, hpre⟩ := hsuffix
    by_contra hne
    have hlast := congrArg List.getLast? hpre
    rw [requestLine, OneLine.line_bytes, List.getLast?_append_of_ne_nil _ hne, List.getLast?_concat] at hlast
    exact hno (List.mem_of_getLast? hlast)
  have hall := hanswered [] fun _ => rfl
  rw [hbuf, List.append_nil, List.append_nil, handle_lines_request hspoken, handle_lines_nil] at hall
  cases hreq : answer req with
  | error e =>
    simp only [hreq, Prod.mk.injEq, reduceCtorEq, and_false] at hall
  | ok reply =>
    simp only [hreq, List.append_nil, Prod.mk.injEq, and_true] at hall
    rw [← hall, OneLine.line_bytes]
    exact List.mem_append_right _ (List.mem_singleton.mpr rfl)

/-- Nobody can do anything. -/
def Stuck (answer : WireRequest → Res WireReply) (t : Threads Daemon Party) : Prop :=
  ∀ u, ¬ Threads.Step (Move answer) t u

theorem Stuck.no_move (h : Stuck answer t) (hw : t.locals[w]? = some p) : ¬ ∃ s' q, Move answer w t.shared p s' q := by
  rintro ⟨s', q, hm⟩
  exact h _ (.move hw hm)

/-- When nobody can do anything the daemon is idle, unless it is down. -/
theorem Running.idle (h : Running answer clients t)
    (hspoken : ∀ req, .caller req .connecting ∈ clients → Spoken answer req) (hstuck : Stuck answer t)
    (hup : t.shared.down = false) : t.shared.serving = none ∧ t.shared.backlog = [] := by
  have hknows : t.shared.Knows clients 0 := h.each 0 _ h.serve
  cases hserving : t.shared.serving with
  | none =>
    refine ⟨rfl, ?_⟩
    cases hbacklog : t.shared.backlog with
    | nil => rfl
    | cons i rest => exact absurd ⟨_, _, .accept hup hserving hbacklog⟩ (hstuck.no_move h.serve)
  | some served =>
    exfalso
    obtain ⟨i, buf⟩ := served
    have hserves : ¬ t.shared.Away i := Serves.known ⟨buf, hserving⟩
    have hi : i < t.shared.conns.length := hknows.lt i hserves
    -- The daemon waits for a client that is still there, so it is for that client to go on.
    have hwait : ∀ c, t.shared.conns[i]? = some c → newline ∉ buf ∧ c.toServer = [] ∧ c.closed = false := by
      intro c hc
      by_contra hnot
      refine hstuck.no_move h.serve (exists_move_serving hup hserving hc ?_)
      by_cases hno : newline ∈ buf
      · exact .inl hno
      · by_cases hread : c.toServer = []
        · exact .inr (.inr (by simpa [hno, hread] using hnot))
        · exact .inr (.inl hread)
    have hlt : i < t.locals.length := by rw [h.length, ← hknows.length]; exact hi
    have hget := List.getElem?_eq_getElem hlt
    have hinv := h.each i _ hget
    cases hz : t.locals[i] with
    | serve =>
      rw [hz] at hinv
      exact hserves hinv.away
    | caller req pc =>
      rw [hz] at hinv hget
      obtain ⟨hreq, -, c, hc, hcalled⟩ := hinv
      obtain ⟨hno, hread, hopen⟩ := hwait c hc
      cases hcalled with
      | connecting haway _ => exact hserves haway
      | sending _ _ _ => exact hstuck.no_move hget (exists_move_sending hc _)
      | waiting _ htalk =>
        have hmem : .caller req .connecting ∈ clients := by simpa using List.mem_of_getElem? hreq
        obtain ⟨line, rest, hline, hnot⟩ :=
          List.eq_append_cons_of_mem (htalk.replied (hspoken req hmem) hup hserving hno hread)
        exact hstuck.no_move hget ⟨_, _, .receive hc hline hnot⟩
      | replied hclosed _ _ _ => exact Bool.false_ne_true (hopen.symm.trans hclosed)
      | failed hdone _ _ =>
        rw [hup, hopen] at hdone
        simp at hdone
      | killed hdone _ _ =>
        rw [hup, hopen] at hdone
        simp at hdone
    | peer pc =>
      rw [hz] at hinv hget
      obtain ⟨-, -, c, hc, hmet⟩ := hinv
      obtain ⟨-, -, hopen⟩ := hwait c hc
      cases hmet with
      | away haway _ => exact hserves haway
      | writing _ _ => exact hstuck.no_move hget ⟨_, _, .peerClose hc⟩
      | gone hclosed _ => exact absurd (hopen.symm.trans hclosed) Bool.false_ne_true

/-- A caller that waits for an idle daemon has lost it. -/
theorem Talk.lost_of_idle (h : s.Talk answer w x c) (hserving : s.serving = none) (hbacklog : s.backlog = []) :
    s.Lost c := by
  cases h.phase with
  | queued hcount _ _ _ _ =>
    rw [hbacklog] at hcount
    cases hcount
  | served _ hserving' _ _ _ => exact nomatch hserving.symm.trans hserving'
  | ended _ hdrop _ => exact .inr (by rw [hdrop]; exact Option.some_ne_none _)
  | died hdown _ _ => exact .inl hdown

end

/-- Every run ends, and with it every call: when nobody can do anything any more, every caller has
returned, or `SIGPIPE` has ended it because the daemon is down or refused it, and the daemon is idle or down. -/
theorem client_call_returns [LineJson] [Memmem] (hfresh : ∀ q ∈ clients, q.Fresh)
    (hspoken : ∀ req, .caller req .connecting ∈ clients → Spoken (dispatchWire ix parallelism) req)
    (h : Threads.Runs (Move (dispatchWire ix parallelism)) (start errors clients) n t) :
    n ≤ Threads.total (work (clients.length + 1) (start errors clients).shared) (start errors clients) ∧
    (Stuck (dispatchWire ix parallelism) t →
      (t.shared.down = true ∨ t.shared.serving = none ∧ t.shared.backlog = []) ∧
      ∀ (w : Nat) (req : WireRequest) (pc : CallPc), t.locals[w]? = some (.caller req pc) → (∃ r, pc = .returned r) ∨
        pc = .killed ∧ (t.shared.down = true ∨ ∃ c, t.shared.conns[w]? = some c ∧ c.dropped = some .refused)) := by
  have hrun := running hfresh hspoken h
  have hlen : (start errors clients).locals.length ≤ clients.length + 1 := le_rfl
  have hbound := h.bounded (f := work (clients.length + 1)) (clients.length + 1)
    (fun _ _ _ _ _ hm => Move.pays (clients.length + 1) hm) hlen
  refine ⟨by omega, fun hstuck => ?_⟩
  have hidle : t.shared.down = true ∨ t.shared.serving = none ∧ t.shared.backlog = [] := by
    cases hdown : t.shared.down with
    | true => exact .inl rfl
    | false => exact .inr (hrun.idle hspoken hstuck hdown)
  refine ⟨hidle, fun w req pc hw => ?_⟩
  obtain ⟨-, -, c, hc, hcalled⟩ := hrun.each w _ hw
  cases hcalled with
  | connecting _ _ => exact absurd exists_move_connecting (hstuck.no_move hw)
  | sending _ _ _ => exact absurd (exists_move_sending hc _) (hstuck.no_move hw)
  | waiting _ htalk =>
    have hlost : t.shared.Lost c := hidle.elim .inl fun hi => htalk.lost_of_idle hi.1 hi.2
    exact absurd ⟨_, _, .reset "" hc hlost⟩ (hstuck.no_move hw)
  | replied _ _ _ _ => exact .inl ⟨_, rfl⟩
  | failed _ _ _ => exact .inl ⟨_, rfl⟩
  | killed _ _ hlost => exact .inr ⟨rfl, hlost.imp_right fun hdrop => ⟨c, hc, hdrop⟩⟩

/-- Nothing is left to an idle daemon whose callers have returned. -/
theorem stuck_of_idle [LineJson] {answer : WireRequest → Res WireReply} (hserving : t.shared.serving = none)
    (hbacklog : t.shared.backlog = []) (herrors : t.shared.accept_errors = 0)
    (hclients : ∀ x ∈ t.locals, x = .serve ∨ ∃ req r, x = .caller req (.returned r)) : Stuck answer t := by
  rintro u ⟨hw, hm⟩
  rcases hclients _ (List.mem_of_getElem? hw) with rfl | ⟨req, r, rfl⟩
  · cases hm with
    | accept _ _ hb => cases hbacklog.symm.trans hb
    | refuse _ _ hb _ => cases hbacklog.symm.trans hb
    | acceptFailed _ _ he => cases herrors.symm.trans he
    | pull _ hs => cases hserving.symm.trans hs
    | line _ hs => cases hserving.symm.trans hs
    | eof _ hs => cases hserving.symm.trans hs
    | brokenPipe _ hs => cases hserving.symm.trans hs
    | sigpipe _ hs => cases hserving.symm.trans hs
    | readFailed _ hs => cases hserving.symm.trans hs
  · cases hm

section

attribute [local instance] statJson naiveMemmem

theorem client_call_returns_stat :
    ∃ f ix t, twoParents.finish = .ok f ∧ open_index f = .ok ix ∧
      Threads.Runs (Move (dispatchWire ix 1)) (start 1 [.caller .Stat .connecting, .caller .Stat .connecting]) 17 t ∧
      17 ≤ Threads.total (work 3 (start 1 [.caller .Stat .connecting, .caller .Stat .connecting]).shared)
        (start 1 [.caller .Stat .connecting, .caller .Stat .connecting]) ∧
      Stuck (dispatchWire ix 1) t ∧ (t.shared.down = true ∨ t.shared.serving = none ∧ t.shared.backlog = []) ∧
      ∀ (w : Nat) (req : WireRequest) (pc : CallPc), t.locals[w]? = some (.caller req pc) → (∃ r, pc = .returned r) ∨
        pc = .killed ∧ (t.shared.down = true ∨ ∃ c, t.shared.conns[w]? = some c ∧ c.dropped = some .refused) := by
  obtain ⟨f, ix, hf, hopen, hstat⟩ := twoParents_stat
  obtain ⟨t, hr, hlocals, hserving, hbacklog, herrors⟩ := two_calls (stat_spoken hstat) hstat
  have hfresh : ∀ q ∈ [Party.caller .Stat .connecting, .caller .Stat .connecting], q.Fresh :=
    List.forall_mem_cons.mpr ⟨rfl, List.forall_mem_singleton.mpr rfl⟩
  have hstuck : Stuck (dispatchWire ix 1) t := by
    refine stuck_of_idle hserving hbacklog herrors fun x hx => ?_
    rw [hlocals] at hx
    rcases List.mem_cons.mp hx with rfl | hx
    · exact .inl rfl
    · rcases List.mem_pair.mp hx with rfl | rfl
      all_goals exact .inr ⟨_, _, rfl⟩
  obtain ⟨hbound, hend⟩ := client_call_returns hfresh (stat_caller hstat) hr
  exact ⟨f, ix, t, hf, hopen, hr, hbound, hstuck, hend hstuck⟩

end

end Scry2.Daemon
