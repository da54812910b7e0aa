import Scry2.Lib.Lines
import Scry2.Inherited
import Scry2.JsonText
import Mathlib.Data.List.TakeWhile

/-!
# Requests and replies as lines

`handle_lines` of `server.rs` answers one request a line, for the daemon and for the REPL alike.
`client_call` sends one line and reads one.
-/

open Scry2.Lib

namespace Scry2

/-! ## What is sent -/

/-- The requests of the wire: the verbs, and those that are answered otherwise. -/
inductive WireRequest where
  | Stat
  | Super (name : String) (substr : Bool) (limit : Nat) (in_ not_in : Option String)
  | Sub (name : String) (substr : Bool) (limit : Nat) (in_ not_in : Option String)
  | verb (req : Request)

inductive WireReply where
  | Stat (xrefs syms files inhs calls : Nat)
  | Inh (hits : List InhHit) (total : Nat)
  | Error (error : String)
  | verb (reply : Reply)
  deriving DecidableEq

def dispatchWire [Memmem] (ix : Index) (parallelism : Nat) : WireRequest → Res WireReply
  | .Stat => .ok (.Stat ix.hdr.xrefs_n ix.hdr.syms_n ix.hdr.files_n ix.hdr.inh_n ix.hdr.calls_n)
  | .Super name substr limit in_ not_in => do
    let (hits, total) ← (ix.queries parallelism).do_inh name substr limit false ⟨in_, not_in, none⟩
    return .Inh hits total
  | .Sub name substr limit in_ not_in => do
    let (hits, total) ← (ix.queries parallelism).do_inh name substr limit true ⟨in_, not_in, none⟩
    return .Inh hits total
  | .verb req => do return .verb (← dispatch (ix.queries parallelism) req)

/-- `serde_json` on requests and replies. -/
class LineJson where
  request : WireRequest → String
  readRequest : String → Except String WireRequest
  reply : WireReply → String
  readReply : String → Except String WireReply

/-- `'\n'`. -/
def newline : UInt8 := 0x0A

/-! ## `handle_lines` -/

section

variable [LineJson] (answer : WireRequest → Res WireReply)

/-- What is written for one line. A request that panics takes the whole process with it. -/
def answerLine (line : Bytes) : Res (Option Bytes) :=
  match from_utf8 line with
  | none => .error (.err "stream did not contain valid UTF-8")
  | some text =>
    let trimmed := String.ofList (trim text)
    if trimmed = "" then .ok none
    else
      match LineJson.readRequest trimmed with
      | .error e => .ok (some (as_bytes (LineJson.reply (.Error ("bad request: " ++ e)) ++ "\n")))
      | .ok req =>
        match answer req with
        | .ok reply => .ok (some (as_bytes (LineJson.reply reply ++ "\n")))
        | .error _ => .error .panic

/-- After a line: the loop goes on, or ends with its error. -/
def goOn (out : Res (Option Bytes)) (rest : Bytes × Res Unit) : Bytes × Res Unit :=
  match out with
  | .error e => ([], .error e)
  | .ok out => (out.getD [] ++ rest.1, rest.2)

/-- The loop: what is written, and how it ends. -/
def answerLines : List Bytes → Bytes × Res Unit
  | [] => ([], .ok ())
  | line :: rest => goOn (answerLine answer line) (answerLines rest)

/-- On a stream that ends. -/
def handle_lines (input : Bytes) : Bytes × Res Unit := answerLines answer (lines newline input)

end

/-! ## `client_call` -/

section

variable [LineJson]

def requestLine (req : WireRequest) : Bytes := as_bytes (LineJson.request req ++ "\n")

/-- The reply in the line that was read, which is empty when the stream has ended. -/
def readReplyLine (line : Bytes) : Res WireReply :=
  match from_utf8 line with
  | none => .error (.err "stream did not contain valid UTF-8")
  | some text =>
    let trimmed := String.ofList (trim text)
    if trimmed = "" then .error (.err "daemon closed connection")
    else
      match LineJson.readReply trimmed with
      | .error e => .error (.err e)
      | .ok reply => .ok reply

end

/-! ## Lines of JSON -/

/-- A text that fills one line, as compact JSON does. -/
structure OneLine (s : String) : Prop where
  no_newline : '\n' ∉ s.toList
  trim : trim s = s.toList
  ne : s ≠ ""

theorem trim_snoc_newline (s : String) : trim (s ++ "\n") = trim s := by
  have hnl : is_whitespace '\n' = true := by decide
  have hlist : (s ++ "\n").toList = s.toList ++ ['\n'] := by simp
  unfold Scry2.trim
  rw [hlist]
  by_cases hall : s.toList.dropWhile is_whitespace = []
  · have hws := List.dropWhile_eq_nil_iff.mp hall
    have hboth : (s.toList ++ ['\n']).dropWhile is_whitespace = [] := by
      refine List.dropWhile_eq_nil_iff.mpr fun c hc => ?_
      rcases List.mem_append.mp hc with hc | hc
      · exact hws c hc
      · rw [List.mem_singleton.mp hc]
        exact hnl
    rw [hall, hboth]
  · rw [List.dropWhile_append, if_neg (by simpa using hall), List.reverse_append, List.reverse_singleton,
      List.singleton_append, List.dropWhile_cons_of_pos hnl]

/-- A byte of a string below 128 is a character of it. -/
theorem newline_mem_as_bytes {s : String} (h : newline ∈ as_bytes s) : '\n' ∈ s.toList := by
  rw [← String.ofList_toList (s := s), as_bytes_ofList, List.mem_flatMap] at h
  obtain ⟨c, hc, hb⟩ := h
  by_cases hlow : c.toNat < 0x80
  · rw [utf8EncodeChar_ascii hlow, List.mem_singleton] at hb
    have hten : c.toNat = 10 := by
      have hnat := congrArg UInt8.toNat hb
      rw [UInt8.toNat_ofNat'] at hnat
      change 10 = _ at hnat
      omega
    have heq : c = '\n' := Char.toNat_inj.mp hten
    exact heq ▸ hc
  · exact absurd (le_of_mem_utf8EncodeChar hlow hb) (by decide)

namespace OneLine

variable {s : String} (h : OneLine s)
include h

theorem newline_not_mem : newline ∉ as_bytes s := fun hmem => h.no_newline (newline_mem_as_bytes hmem)

omit h in
theorem line_bytes (s : String) : as_bytes (s ++ "\n") = as_bytes s ++ [newline] := as_bytes_append s "\n"

theorem trimmed : String.ofList (Scry2.trim (s ++ "\n")) = s := by
  rw [trim_snoc_newline, h.trim, String.ofList_toList]

end OneLine

/-- A request that the daemon can read, with a reply that the client can. -/
structure Spoken [LineJson] (answer : WireRequest → Res WireReply) (req : WireRequest) : Prop where
  request : OneLine (LineJson.request req)
  readRequest : LineJson.readRequest (LineJson.request req) = .ok req
  reply : ∀ r, answer req = .ok r → OneLine (LineJson.reply r)
  readReply : ∀ r, answer req = .ok r → LineJson.readReply (LineJson.reply r) = .ok r

section

variable [LineJson] {answer : WireRequest → Res WireReply} {req : WireRequest} {line rest : Bytes}

theorem answerLine_request (h : Spoken answer req) :
    answerLine answer (requestLine req) = match answer req with
      | .ok reply => .ok (some (as_bytes (LineJson.reply reply ++ "\n")))
      | .error _ => .error .panic := by
  unfold answerLine requestLine
  simp only [from_utf8_as_bytes, h.request.trimmed, if_neg h.request.ne, h.readRequest]

theorem readReplyLine_reply (h : Spoken answer req) {r : WireReply} (hr : answer req = .ok r) :
    readReplyLine (as_bytes (LineJson.reply r ++ "\n")) = .ok r := by
  unfold readReplyLine
  simp only [from_utf8_as_bytes, (h.reply r hr).trimmed, if_neg (h.reply r hr).ne, h.readReply r hr]

/-! ## The loop line by line -/

theorem handle_lines_nil : handle_lines answer [] = ([], .ok ()) := rfl

theorem handle_lines_line (h : newline ∉ line) (rest : Bytes) :
    handle_lines answer (line ++ newline :: rest) =
      goOn (answerLine answer (line ++ [newline])) (handle_lines answer rest) := by
  unfold handle_lines
  rw [lines_line h, answerLines]

theorem handle_lines_last (h : newline ∉ line) (hne : line ≠ []) :
    handle_lines answer line = goOn (answerLine answer line) ([], .ok ()) := by
  unfold handle_lines
  rw [lines_last h hne, answerLines, answerLines]

theorem handle_lines_request (h : Spoken answer req) :
    handle_lines answer (requestLine req) = match answer req with
      | .ok reply => (as_bytes (LineJson.reply reply ++ "\n"), .ok ())
      | .error _ => ([], .error .panic) := by
  have hline := answerLine_request h
  have hbytes : requestLine req = as_bytes (LineJson.request req) ++ newline :: [] := OneLine.line_bytes _
  rw [hbytes] at hline ⊢
  rw [handle_lines_line h.request.newline_not_mem, hline, handle_lines_nil]
  cases answer req with
  | error e => rfl
  | ok reply => simp only [goOn, Option.getD_some, List.append_nil]

end

end Scry2
