import Landbase.Lib.Transition
import Landbase.Net.PlainCommunicator

/-! # A client and its server

`obclient/client.cpp` at one end of a connection and `PlainCommunicator` with `SessionStage::handle_request` at the other.
The connection takes up to `cap` bytes in either direction and delivers them in whatever pieces; what the server does with a
query is a parameter, and so is its state. The client is the one that is built without `USE_READLINE`. When `write_result`
asks for it, `handle_request` closes the connection and then still writes to `sev->session()`, which has been deleted with
the communicator; that write is not modelled.

`Dialogue` says what the two should come to, in whole messages. A request counts as done when its reply has left the writer.
-/

namespace Landbase.Net.Plain
open Relation
set_option autoImplicit false

/-! ## The client -/

def maxMemBufferSize : ℕ := 70000

/-- `fgets` with room for `n` bytes: through the end of the line, and what is left of the input. -/
def fgets : ℕ → Bytes → Bytes × Bytes
  | 0, stdin => ([], stdin)
  | _ + 1, [] => ([], [])
  | n + 1, b :: stdin =>
    if b = 10 then ([b], stdin)
    else
      let (line, stdin) := fgets n stdin
      (b :: line, stdin)

def myReadline (stdin : Bytes) : Option (Bytes × Bytes) :=
  if stdin.isEmpty then none
  else
    let (line, stdin) := fgets (maxMemBufferSize - 1) stdin
    some (cString line, stdin)

def toLower (b : UInt8) : UInt8 := if 65 ≤ b ∧ b ≤ 90 then b + 32 else b

/-- `0 == strncasecmp(word, cmd, strlen(word))`, for a word of small letters. -/
def startsWith (word cmd : Bytes) : Bool := (cmd.take word.length).map toLower == word

def isExitCommand (cmd : Bytes) : Bool :=
  startsWith (ascii "exit") cmd || startsWith (ascii "bye") cmd || startsWith (ascii "\\q") cmd

def promptStr : Bytes := ascii "miniob > "

def connectionClosed : Bytes := ascii "Connection has been closed\n"

/-- Where the client is in its `main`: before `my_readline`, in `::write`, in the loop of `recv`, or at its end. -/
inductive Client
  | prompting (stdin : Bytes)
  | writing (rest stdin : Bytes)
  | receiving (stdin : Bytes)
  | closed

/-- From `my_readline` to the next call that may wait. -/
def Client.readline (stdin : Bytes) : Client :=
  match myReadline stdin with
  | none => .closed
  | some (inputCommand, stdin) =>
    if isBlank inputCommand then .prompting stdin
    else if isExitCommand inputCommand then .closed
    else .writing (inputCommand ++ [0]) stdin

def Client.afterWrite (rest stdin : Bytes) : Client := if rest = [] then .receiving stdin else .writing rest stdin

def Client.afterRecv (data stdin : Bytes) : Client := if 0 ∈ data then .prompting stdin else .receiving stdin

/-! ## The server -/

/-- Where the server is: in `read_event`, with the bytes in `buf`, in `write_result`, or behind `close_connection`. -/
inductive Server (σ : Type*)
  | reading (st : σ) (buf : Bytes)
  | writing (st : σ) (rest : Bytes) (needDisconnect : Bool)
  | closed (st : σ)

section
variable {σ : Type*}

def Server.afterWrite (st : σ) (rest : Bytes) (needDisconnect : Bool) : Server σ :=
  if rest = [] then if needDisconnect then .closed st else .reading st [] else .writing st rest needDisconnect

/-- The reply, and the delimiter unless the connection is given up. -/
def delimited (text : Bytes) (needDisconnect : Bool) : Bytes := text ++ if needDisconnect then [] else [0]

/-! ## The connection -/

/-- The two parties, the bytes on their way in either direction, what the user sees and what the server was asked. -/
structure World (σ : Type*) where
  client : Client
  server : Server σ
  up : Bytes
  down : Bytes
  output : Bytes
  handled : List Bytes

def World.start (st : σ) (stdin : Bytes) : World σ := ⟨.prompting stdin, .reading st [], [], [], [], []⟩

/-- What the stages make of a query: the result, the debug messages that are asked for, and the state they leave. -/
abbrev Handler (σ : Type*) := σ → Bytes → SqlResult → List CString → σ → Prop

variable (cap : ℕ) (handle : Handler σ)

inductive Step : World σ → World σ → Prop
  | readline {stdin server up down output handled} :
    Step ⟨.prompting stdin, server, up, down, output, handled⟩
      ⟨.readline stdin, server, up, down, output ++ promptStr, handled⟩
  | write {pending data rest stdin server up down output handled} (hpending : pending = data ++ rest) (hdata : data ≠ [])
      (hcap : (up ++ data).length ≤ cap) (hopen : ∀ st, server ≠ .closed st) :
    Step ⟨.writing pending stdin, server, up, down, output, handled⟩
      ⟨.afterWrite rest stdin, server, up ++ data, down, output, handled⟩
  | recv {down data rest stdin server up output handled} (hdown : down = data ++ rest) (hdata : data ≠ [])
      (hsize : data.length ≤ maxMemBufferSize) :
    Step ⟨.receiving stdin, server, up, down, output, handled⟩
      ⟨.afterRecv data stdin, server, up, rest, output ++ cString data, handled⟩
  | recvEnd {stdin st up output handled} :
    Step ⟨.receiving stdin, .closed st, up, [], output, handled⟩
      ⟨.closed, .closed st, up, [], output ++ connectionClosed, handled⟩
  | read {up data rest client st buf down output handled} (hup : up = data ++ rest) (hdata : data ≠ [])
      (hsize : (buf ++ data).length ≤ maxPacketSize) (hmore : readEvent buf data = none) :
    Step ⟨client, .reading st buf, up, down, output, handled⟩
      ⟨client, .reading st (buf ++ data), rest, down, output, handled⟩
  | readBlank {up data rest client st buf down output handled query} (hup : up = data ++ rest)
      (hsize : (buf ++ data).length ≤ maxPacketSize) (hend : readEvent buf data = some query)
      (hblank : isBlank query = true) :
    Step ⟨client, .reading st buf, up, down, output, handled⟩ ⟨client, .reading st [], rest, down, output, handled⟩
  | handleRequest {up data rest client st buf down output handled query result infos st' text} (hup : up = data ++ rest)
      (hsize : (buf ++ data).length ≤ maxPacketSize) (hend : readEvent buf data = some query)
      (hblank : isBlank query = false) (hhandle : handle st query result infos st')
      (htext : (writeResult result infos).Sends text) :
    Step ⟨client, .reading st buf, up, down, output, handled⟩
      ⟨client, .afterWrite st' (delimited text (writeResult result infos).needDisconnect)
        (writeResult result infos).needDisconnect, rest, down, output, handled ++ [query]⟩
  | send {pending data rest needDisconnect client st up down output handled} (hpending : pending = data ++ rest)
      (hdata : data ≠ []) (hcap : (down ++ data).length ≤ cap) (hopen : client ≠ .closed) :
    Step ⟨client, .writing st pending needDisconnect, up, down, output, handled⟩
      ⟨client, .afterWrite st rest needDisconnect, up, down ++ data, output, handled⟩
  | readEnd {st buf down output handled} :
    Step ⟨.closed, .reading st buf, [], down, output, handled⟩ ⟨.closed, .closed st, [], down, output, handled⟩
  | readFull {client st buf up down output handled} (hfull : buf.length = maxPacketSize) :
    Step ⟨client, .reading st buf, up, down, output, handled⟩ ⟨client, .closed st, up, down, output, handled⟩

/-! ## What the two say to each other -/

/-- From a console with some input and a server in some state: the queries, all that the user sees, and the last state. -/
inductive Dialogue : σ → Bytes → List Bytes → Bytes → σ → Prop
  | eof {st stdin} (hline : myReadline stdin = none) : Dialogue st stdin [] promptStr st
  | blank {st stdin line stdin' queries output st'} (hline : myReadline stdin = some (line, stdin'))
      (hblank : isBlank line = true) (hrest : Dialogue st stdin' queries output st') :
    Dialogue st stdin queries (promptStr ++ output) st'
  | exit {st stdin line stdin'} (hline : myReadline stdin = some (line, stdin')) (hblank : isBlank line = false)
      (hexit : isExitCommand line = true) : Dialogue st stdin [] promptStr st
  | command {st stdin line stdin' result infos st' text queries output st''}
      (hline : myReadline stdin = some (line, stdin')) (hblank : isBlank line = false)
      (hexit : isExitCommand line = false) (hhandle : handle st line result infos st')
      (htext : (writeResult result infos).Sends text) (hstays : (writeResult result infos).needDisconnect = false)
      (hrest : Dialogue st' stdin' queries output st'') :
    Dialogue st stdin (line :: queries) (promptStr ++ text ++ output) st''
  | disconnect {st stdin line stdin' result infos st' text} (hline : myReadline stdin = some (line, stdin'))
      (hblank : isBlank line = false) (hexit : isExitCommand line = false) (hhandle : handle st line result infos st')
      (htext : (writeResult result infos).Sends text) (hleaves : (writeResult result infos).needDisconnect = true) :
    Dialogue st stdin [line] (promptStr ++ text ++ connectionClosed) st'

variable {cap handle} {st₀ : σ} {stdin₀ : Bytes}

/-! ## Lines -/

theorem fgets_append (n : ℕ) (stdin : Bytes) : (fgets n stdin).1 ++ (fgets n stdin).2 = stdin := by
  induction n generalizing stdin with
  | zero => rfl
  | succ n ih =>
    cases stdin with
    | nil => rfl
    | cons b stdin =>
      rw [fgets]
      split
      · rfl
      · simp [ih stdin]

theorem length_fgets_le (n : ℕ) (stdin : Bytes) : (fgets n stdin).1.length ≤ n := by
  induction n generalizing stdin with
  | zero => exact le_rfl
  | succ n ih =>
    cases stdin with
    | nil => exact Nat.zero_le _
    | cons b stdin =>
      rw [fgets]
      split
      · simp
      · simpa using ih stdin

theorem fgets_ne_nil (n : ℕ) {stdin : Bytes} (h : stdin ≠ []) : (fgets (n + 1) stdin).1 ≠ [] := by
  cases stdin with
  | nil => exact absurd rfl h
  | cons b stdin =>
    rw [fgets]
    split <;> simp

/-- A line is a C string that fits into the buffers of both sides, and takes something off the input. -/
theorem myReadline_eq_some {stdin line stdin' : Bytes} (h : myReadline stdin = some (line, stdin')) :
    0 ∉ line ∧ line.length < maxPacketSize ∧ stdin'.length < stdin.length := by
  unfold myReadline at h
  split at h
  · cases h
  · next hempty =>
    simp only [Option.some.injEq, Prod.mk.injEq] at h
    obtain ⟨rfl, rfl⟩ := h
    have hle : (cString (fgets (maxMemBufferSize - 1) stdin).1).length ≤ maxMemBufferSize - 1 :=
      (List.takeWhile_sublist _).length_le.trans (length_fgets_le _ _)
    have happend := congrArg List.length (fgets_append (maxMemBufferSize - 1) stdin)
    have hpos := List.length_pos_of_ne_nil (fgets_ne_nil (maxMemBufferSize - 2) (List.isEmpty_eq_false_iff.mp
      (Bool.eq_false_iff.mpr hempty)))
    rw [show maxMemBufferSize - 2 + 1 = maxMemBufferSize - 1 from rfl] at hpos
    rw [List.length_append] at happend
    refine ⟨not_mem_cString _, ?_, by omega⟩
    exact hle.trans_lt (by decide)

/-! ## Messages in pieces -/

theorem message_end {buf data more text : Bytes} (h : buf ++ data ++ more = text ++ [0]) (htext : 0 ∉ text) (hbuf : 0 ∉ buf)
    (hdata : 0 ∈ data) : cString (buf ++ data) = text ∧ more = [] := by
  obtain ⟨rest, hrest⟩ := eq_cString_append hdata
  rw [cString_append_of_not_mem hbuf]
  have hsplit : (buf ++ cString data) ++ 0 :: (rest ++ more) = text ++ 0 :: [] := by
    rw [← h]
    conv_rhs => rw [hrest]
    simp
  have hclean : 0 ∉ buf ++ cString data := by simp [hbuf, not_mem_cString]
  have hsame : buf ++ cString data = text := by
    rw [← cString_append_zero hclean (rest ++ more), hsplit, cString_append_zero htext]
  rw [hsame] at hsplit
  have hnil : rest ++ more = [] := by simpa using hsplit
  exact ⟨hsame, (List.append_eq_nil_iff.mp hnil).2⟩

theorem message_more {data more text : Bytes} {leaves : Bool} (h : data ++ more = delimited text leaves) (hdata : 0 ∉ data) :
    ∃ text', text = data ++ text' ∧ more = delimited text' leaves := by
  cases List.append_eq_append_iff.mp h with
  | inl hlonger =>
    obtain ⟨text', htext, hmore⟩ := hlonger
    exact ⟨text', htext, hmore⟩
  | inr hshorter =>
    obtain ⟨piece, hpiece, hend⟩ := hshorter
    have hnil : piece = [] := by
      cases leaves
      · cases piece with
        | nil => rfl
        | cons b piece =>
          simp only [Bool.false_eq_true, if_false, List.cons_append, List.cons.injEq] at hend
          exact absurd (by rw [hpiece, ← hend.1]; simp) hdata
      · exact (List.append_eq_nil_iff.mp hend.symm).1
    subst hnil
    exact ⟨[], by simpa using hpiece.symm, hend.symm⟩

theorem readEvent_eq_none {buf data : Bytes} (h : readEvent buf data = none) : 0 ∉ data := by
  intro hmem
  rw [readEvent, if_pos hmem] at h
  cases h

theorem readEvent_eq_some {buf data query : Bytes} (h : readEvent buf data = some query) :
    0 ∈ data ∧ query = cString (buf ++ data) := by
  unfold readEvent at h
  split at h
  · next hmem => exact ⟨hmem, (Option.some.inj h).symm⟩
  · cases h

/-! ## Dialogues -/

theorem exists_dialogue (hhandle : ∀ st query, ∃ result infos st', handle st query result infos st') (stdin : Bytes) (st : σ) :
    ∃ queries output st', Dialogue handle st stdin queries output st' := by
  induction h : stdin.length using Nat.strong_induction_on generalizing stdin st with
  | _ n ih =>
    cases hline : myReadline stdin with
    | none => exact ⟨[], promptStr, st, .eof hline⟩
    | some got =>
      obtain ⟨line, stdin'⟩ := got
      have hless : stdin'.length < n := h ▸ (myReadline_eq_some hline).2.2
      cases hblank : isBlank line with
      | true =>
        obtain ⟨queries, output, st', hrest⟩ := ih _ hless stdin' st rfl
        exact ⟨queries, _, st', .blank hline hblank hrest⟩
      | false =>
        cases hexit : isExitCommand line with
        | true => exact ⟨[], promptStr, st, .exit hline hblank hexit⟩
        | false =>
          obtain ⟨result, infos, st', hresult⟩ := hhandle st line
          have htext : (writeResult result infos).Sends (writeResult result infos).text := ⟨[], List.nil_prefix, rfl⟩
          cases hleaves : (writeResult result infos).needDisconnect with
          | true => exact ⟨[line], _, st', .disconnect hline hblank hexit hresult htext hleaves⟩
          | false =>
            obtain ⟨queries, output, st'', hrest⟩ := ih _ hless stdin' st' rfl
            exact ⟨line :: queries, _, st'', .command hline hblank hexit hresult htext hleaves hrest⟩

variable (handle st₀ stdin₀) in
/-- However the rest is said, or the connection is given up here: with what was said before, it is a dialogue. -/
def Goes (st : σ) (stdin : Bytes) (leaves : Bool) (handled : List Bytes) (output : Bytes) : Prop :=
  if leaves then Dialogue handle st₀ stdin₀ handled (output ++ connectionClosed) st
  else ∀ queries rest st', Dialogue handle st stdin queries rest st' →
    Dialogue handle st₀ stdin₀ (handled ++ queries) (output ++ rest) st'

variable (handle st₀ stdin₀) in
/-- The dialogue is as far as the server has handled queries and the user has seen output. -/
def Reaches (handled : List Bytes) (output : Bytes) : Prop :=
  ∃ queries whole st, Dialogue handle st₀ stdin₀ queries whole st ∧ handled <+: queries ∧ output <+: whole

namespace Goes

variable {st : σ} {stdin : Bytes} {leaves : Bool} {handled : List Bytes} {output : Bytes}

theorem readline (h : Goes handle st₀ stdin₀ st stdin false handled output) {line stdin' : Bytes}
    (hline : myReadline stdin = some (line, stdin')) (hblank : isBlank line = false) (hexit : isExitCommand line = false)
    {result : SqlResult} {infos : List CString} {st' : σ} {text : Bytes} (hhandle : handle st line result infos st')
    (htext : (writeResult result infos).Sends text) :
    Goes handle st₀ stdin₀ st' stdin' (writeResult result infos).needDisconnect (handled ++ [line])
      (output ++ promptStr ++ text) := by
  unfold Goes
  split
  · next hleaves =>
    have hrest := h _ _ _ (.disconnect hline hblank hexit hhandle htext hleaves)
    rw [List.append_assoc, List.append_assoc, ← List.append_assoc promptStr]
    exact hrest
  · next hstays =>
    intro queries rest st'' hrest
    have hall := h _ _ _ (.command hline hblank hexit hhandle htext (Bool.eq_false_iff.mpr hstays) hrest)
    simpa using hall

theorem reaches (h : Goes handle st₀ stdin₀ st stdin leaves handled output)
    (hhandle : ∀ st query, ∃ result infos st', handle st query result infos st') : Reaches handle st₀ stdin₀ handled output := by
  cases leaves with
  | true => exact ⟨handled, _, st, h, List.prefix_rfl, List.prefix_append _ _⟩
  | false =>
    obtain ⟨queries, rest, st', hrest⟩ := exists_dialogue hhandle stdin st
    exact ⟨_, _, st', h queries rest st' hrest, List.prefix_append _ _, List.prefix_append _ _⟩

end Goes

/-! ## One party at a time -/

variable (handle st₀ stdin₀) in
/-- Either party waits for the other one, or both are through. -/
inductive Inv : World σ → Prop
  | prompting {stdin st output handled} (hgoes : Goes handle st₀ stdin₀ st stdin false handled output) :
    Inv ⟨.prompting stdin, .reading st [], [], [], output, handled⟩
  | asking {client rest stdin st buf up cmd output handled} (hclient : client = .afterWrite rest stdin)
      (hmessage : buf ++ up ++ rest = cmd ++ [0]) (hcmd : 0 ∉ cmd) (hbuf : 0 ∉ buf) (hlength : cmd.length < maxPacketSize)
      (hblank : isBlank cmd = false)
      (hgoes : ∀ result infos st' text, handle st cmd result infos st' → (writeResult result infos).Sends text →
        Goes handle st₀ stdin₀ st' stdin (writeResult result infos).needDisconnect (handled ++ [cmd]) (output ++ text)) :
    Inv ⟨client, .reading st buf, up, [], output, handled⟩
  | answering {server stdin st rest down text leaves output handled} (hserver : server = .afterWrite st rest leaves)
      (hmessage : down ++ rest = delimited text leaves) (htext : 0 ∉ text)
      (hgoes : Goes handle st₀ stdin₀ st stdin leaves handled (output ++ text)) :
    Inv ⟨.receiving stdin, server, [], down, output, handled⟩
  | leaving {st output handled} (hend : Dialogue handle st₀ stdin₀ handled output st) :
    Inv ⟨.closed, .reading st [], [], [], output, handled⟩
  | closed {st output handled} (hend : Dialogue handle st₀ stdin₀ handled output st) :
    Inv ⟨.closed, .closed st, [], [], output, handled⟩

theorem inv_start : Inv handle st₀ stdin₀ (.start st₀ stdin₀) :=
  .prompting fun _ _ _ h => h

/-- Of a message that has no end yet, something is still to come, and there is room for it. -/
theorem message_room {buf more cmd : Bytes} (h : buf ++ more = cmd ++ [0]) (hbuf : 0 ∉ buf) :
    more ≠ [] ∧ buf.length ≤ cmd.length := by
  have hmore : more ≠ [] := by
    rintro rfl
    rw [List.append_nil] at h
    exact hbuf (h ▸ by simp)
  have hlength := congrArg List.length h
  have hpos := List.length_pos_of_ne_nil hmore
  rw [List.length_append, List.length_append, List.length_singleton] at hlength
  exact ⟨hmore, by omega⟩

theorem inv_readline {stdin : Bytes} {st : σ} {output : Bytes} {handled : List Bytes}
    (hgoes : Goes handle st₀ stdin₀ st stdin false handled output) :
    Inv handle st₀ stdin₀ ⟨.readline stdin, .reading st [], [], [], output ++ promptStr, handled⟩ := by
  unfold Client.readline
  cases hline : myReadline stdin with
  | none =>
    have hend := hgoes _ _ _ (.eof hline)
    rw [List.append_nil] at hend
    exact .leaving hend
  | some got =>
    obtain ⟨line, stdin'⟩ := got
    obtain ⟨hclean, hlength, -⟩ := myReadline_eq_some hline
    cases hblank : isBlank line with
    | true =>
      simp only [hblank, if_true]
      refine .prompting fun queries rest st' hrest => ?_
      have hall := hgoes _ _ _ (.blank hline hblank hrest)
      rwa [← List.append_assoc] at hall
    | false =>
      cases hexit : isExitCommand line with
      | true =>
        have hend := hgoes _ _ _ (.exit hline hblank hexit)
        rw [List.append_nil] at hend
        simpa [hblank, hexit] using Inv.leaving hend
      | false =>
        simp only [hblank, hexit, Bool.false_eq_true, if_false]
        have hclient : Client.writing (line ++ [0]) stdin' = .afterWrite (line ++ [0]) stdin' := by
          rw [Client.afterWrite, if_neg (by simp)]
        refine .asking hclient rfl hclean List.not_mem_nil hlength hblank fun result infos st' text hhandle htext => ?_
        exact hgoes.readline hline hblank hexit hhandle htext

theorem inv_recv {data more stdin : Bytes} {server : Server σ} {st : σ} {rest text : Bytes} {leaves : Bool} {output : Bytes}
    {handled : List Bytes} (hserver : server = .afterWrite st rest leaves)
    (hmessage : data ++ more ++ rest = delimited text leaves) (htext : 0 ∉ text)
    (hgoes : Goes handle st₀ stdin₀ st stdin leaves handled (output ++ text)) :
    Inv handle st₀ stdin₀ ⟨.afterRecv data stdin, server, [], more, output ++ cString data, handled⟩ := by
  rw [Client.afterRecv]
  rw [List.append_assoc] at hmessage
  split
  · next hdata =>
    cases leaves with
    | true =>
      have hmem : (0 : UInt8) ∈ delimited text true := hmessage ▸ List.mem_append_left _ hdata
      simp [delimited, htext] at hmem
    | false =>
      obtain ⟨htext', hnil⟩ := message_end hmessage htext (List.not_mem_nil (a := 0)) hdata
      obtain ⟨rfl, rfl⟩ := List.append_eq_nil_iff.mp hnil
      rw [List.nil_append] at htext'
      rw [hserver, htext']
      exact .prompting hgoes
  · next hdata =>
    obtain ⟨text', rfl, hmore⟩ := message_more hmessage hdata
    rw [cString_of_not_mem hdata]
    rw [← List.append_assoc] at hgoes
    exact .answering hserver hmore (fun h => htext (List.mem_append_right _ h)) hgoes

theorem inv_step {w w' : World σ} (hstep : Step cap handle w w') (hinv : Inv handle st₀ stdin₀ w) :
    Inv handle st₀ stdin₀ w' := by
  cases hinv with
  | prompting hgoes =>
    cases hstep with
    | readline => exact inv_readline hgoes
    | read hup hdata => exact absurd (List.append_eq_nil_iff.mp hup.symm).1 hdata
    | readBlank hup _ hend =>
      obtain ⟨rfl, rfl⟩ := List.append_eq_nil_iff.mp hup.symm
      cases hend
    | handleRequest hup _ hend =>
      obtain ⟨rfl, rfl⟩ := List.append_eq_nil_iff.mp hup.symm
      cases hend
    | readFull hfull => cases hfull
  | @asking _ rest _ _ buf _ cmd _ _ hclient hmessage hcmd hbuf hlength hblank hgoes =>
    cases hstep with
    | readline =>
      unfold Client.afterWrite at hclient
      split at hclient <;> cases hclient
    | write hpending =>
      unfold Client.afterWrite at hclient
      split at hclient
      · cases hclient
      · obtain ⟨rfl, rfl⟩ := Client.writing.inj hclient
        refine .asking rfl ?_ hcmd hbuf hlength hblank hgoes
        rw [← hmessage, hpending]
        simp
    | recv hdown hdata => exact absurd (List.append_eq_nil_iff.mp hdown.symm).1 hdata
    | read hup _ _ hmore =>
      refine .asking hclient ?_ hcmd ?_ hlength hblank hgoes
      · rw [← hmessage, hup]
        simp
      · simp [hbuf, readEvent_eq_none hmore]
    | @readBlank _ data more _ _ _ _ _ _ _ hup _ hend hblank' =>
      obtain ⟨hdata, rfl⟩ := readEvent_eq_some hend
      have hwhole : buf ++ data ++ (more ++ rest) = cmd ++ [0] := by
        rw [← hmessage, hup]
        simp
      rw [(message_end hwhole hcmd hbuf hdata).1, hblank] at hblank'
      cases hblank'
    | @handleRequest _ data more _ _ _ _ _ _ _ _ _ _ text hup _ hend _ hhandle htext =>
      obtain ⟨hdata, rfl⟩ := readEvent_eq_some hend
      have hwhole : buf ++ data ++ (more ++ rest) = cmd ++ [0] := by
        rw [← hmessage, hup]
        simp
      obtain ⟨hquery, hnil⟩ := message_end hwhole hcmd hbuf hdata
      obtain ⟨rfl, rfl⟩ := List.append_eq_nil_iff.mp hnil
      rw [hquery] at hhandle ⊢
      rw [hclient]
      exact .answering rfl rfl (not_mem_writeResult _ _ htext) (hgoes _ _ _ _ hhandle htext)
    | readEnd =>
      unfold Client.afterWrite at hclient
      split at hclient <;> cases hclient
    | readFull hfull =>
      rw [List.append_assoc] at hmessage
      have hroom := message_room hmessage hbuf
      omega
  | @answering _ _ st rest _ _ leaves _ _ hserver hmessage htext hgoes =>
    have hreading : ∀ {st' buf}, Server.reading st' buf = .afterWrite st rest leaves → buf = [] := by
      intro st' buf h
      unfold Server.afterWrite at h
      split at h
      · split at h
        · cases h
        · exact (Server.reading.inj h).2
      · cases h
    cases hstep with
    | recv hdown =>
      rw [hdown] at hmessage
      exact inv_recv hserver hmessage htext hgoes
    | recvEnd =>
      unfold Server.afterWrite at hserver
      split at hserver
      · next hrest =>
        split at hserver
        · next hleaves =>
          obtain rfl := Server.closed.inj hserver
          subst hleaves
          obtain rfl : _ = [] := by simpa [delimited, hrest] using hmessage.symm
          rw [Goes, if_pos rfl, List.append_nil] at hgoes
          exact .closed hgoes
        · cases hserver
      · cases hserver
    | read hup hdata => exact absurd (List.append_eq_nil_iff.mp hup.symm).1 hdata
    | readBlank hup _ hend =>
      obtain ⟨rfl, rfl⟩ := List.append_eq_nil_iff.mp hup.symm
      cases hend
    | handleRequest hup _ hend =>
      obtain ⟨rfl, rfl⟩ := List.append_eq_nil_iff.mp hup.symm
      cases hend
    | send hpending =>
      unfold Server.afterWrite at hserver
      split at hserver
      · split at hserver <;> cases hserver
      · obtain ⟨rfl, rfl, rfl⟩ := Server.writing.inj hserver
        rw [hpending, ← List.append_assoc] at hmessage
        exact .answering rfl hmessage htext hgoes
    | readFull hfull =>
      rw [hreading hserver] at hfull
      cases hfull
  | leaving hend =>
    cases hstep with
    | read hup hdata => exact absurd (List.append_eq_nil_iff.mp hup.symm).1 hdata
    | readBlank hup _ hend =>
      obtain ⟨rfl, rfl⟩ := List.append_eq_nil_iff.mp hup.symm
      cases hend
    | handleRequest hup _ hend =>
      obtain ⟨rfl, rfl⟩ := List.append_eq_nil_iff.mp hup.symm
      cases hend
    | readEnd => exact .closed hend
    | readFull hfull => cases hfull
  | closed hend => cases hstep

/-! ## Somebody can always go on -/

theorem exists_step (hcap : 0 < cap) (hhandle : ∀ st query, ∃ result infos st', handle st query result infos st') {w : World σ}
    (hinv : Inv handle st₀ stdin₀ w) : (∃ w', Step cap handle w w') ∨ (w.client = .closed ∧ ∃ st, w.server = .closed st) := by
  cases hinv with
  | prompting => exact .inl ⟨_, .readline⟩
  | @asking _ rest _ st buf up cmd _ _ hclient hmessage hcmd hbuf hlength hblank =>
    left
    rw [List.append_assoc] at hmessage
    obtain ⟨hmore, hroom⟩ := message_room hmessage hbuf
    cases up with
    | nil =>
      cases rest with
      | nil => exact absurd rfl hmore
      | cons b rest =>
        rw [hclient, Client.afterWrite, if_neg (List.cons_ne_nil _ _)]
        exact ⟨_, .write List.singleton_append.symm (List.cons_ne_nil _ _) hcap fun _ h => nomatch h⟩
    | cons b up =>
      have hsize : (buf ++ [b]).length ≤ maxPacketSize := by
        rw [List.length_append, List.length_singleton]
        omega
      cases hend : readEvent buf [b] with
      | none => exact ⟨_, .read List.singleton_append.symm (List.cons_ne_nil _ _) hsize hend⟩
      | some query =>
        obtain ⟨hdata, hquery⟩ := readEvent_eq_some hend
        have hwhole : buf ++ [b] ++ (up ++ rest) = cmd ++ [0] := by
          rw [← hmessage]
          simp
        rw [(message_end hwhole hcmd hbuf hdata).1] at hquery
        subst hquery
        obtain ⟨result, infos, st', hresult⟩ := hhandle st query
        exact ⟨_, .handleRequest List.singleton_append.symm hsize hend hblank hresult ⟨[], List.nil_prefix, rfl⟩⟩
  | @answering _ stdin st rest down text leaves _ _ hserver hmessage =>
    left
    cases down with
    | cons b down =>
      have hsize : [b].length ≤ maxMemBufferSize := by
        rw [List.length_singleton]
        decide
      exact ⟨_, .recv List.singleton_append.symm (List.cons_ne_nil _ _) hsize⟩
    | nil =>
      rw [hserver, Server.afterWrite]
      cases rest with
      | nil =>
        cases leaves with
        | true => exact ⟨_, .recvEnd⟩
        | false => simp [delimited] at hmessage
      | cons b rest =>
        rw [if_neg (List.cons_ne_nil _ _)]
        exact ⟨_, .send List.singleton_append.symm (List.cons_ne_nil _ _) hcap fun h => nomatch h⟩
  | leaving => exact .inl ⟨_, .readEnd⟩
  | closed => exact .inr ⟨rfl, _, rfl⟩

theorem Inv.reaches (hhandle : ∀ st query, ∃ result infos st', handle st query result infos st') {w : World σ}
    (hinv : Inv handle st₀ stdin₀ w) : Reaches handle st₀ stdin₀ w.handled w.output := by
  cases hinv with
  | prompting hgoes => exact hgoes.reaches hhandle
  | @asking _ _ _ st _ _ cmd _ _ hclient hmessage hcmd hbuf hlength hblank hgoes =>
    obtain ⟨result, infos, st', hresult⟩ := hhandle st cmd
    obtain ⟨queries, whole, st'', hall, hqueries, hwhole⟩ :=
      (hgoes result infos st' _ hresult ⟨[], List.nil_prefix, rfl⟩).reaches hhandle
    exact ⟨queries, whole, st'', hall, (List.prefix_append _ _).trans hqueries, (List.prefix_append _ _).trans hwhole⟩
  | answering hserver hmessage htext hgoes =>
    obtain ⟨queries, whole, st', hall, hqueries, hwhole⟩ := hgoes.reaches hhandle
    exact ⟨queries, whole, st', hall, hqueries, (List.prefix_append _ _).trans hwhole⟩
  | leaving hend => exact ⟨_, _, _, hend, List.prefix_rfl, List.prefix_rfl⟩
  | closed hend => exact ⟨_, _, _, hend, List.prefix_rfl, List.prefix_rfl⟩

/-! ## No run goes on for ever -/

/-- Twice the input that has not been read, and one while the client runs. -/
def Client.input : Client → ℕ
  | .prompting stdin => 2 * stdin.length + 1
  | .writing _ stdin => 2 * stdin.length + 1
  | .receiving stdin => 2 * stdin.length + 1
  | .closed => 0

def Client.rest : Client → ℕ
  | .writing rest _ => rest.length
  | _ => 0

def Server.buf : Server σ → ℕ
  | .reading _ buf => buf.length
  | _ => 0

/-- Twice the bytes that have not been sent, and one while the connection is open. -/
def Server.rest : Server σ → ℕ
  | .reading _ _ => 1
  | .writing _ rest _ => 2 * rest.length + 1
  | .closed _ => 0

/-- The input, then the way of the request to the server, then the way of the reply back. -/
def World.measure (w : World σ) : ℕ ×ₗ ℕ ×ₗ ℕ :=
  toLex (w.client.input, toLex (3 * w.client.rest + 2 * w.up.length + w.server.buf, w.server.rest + w.down.length))

@[simp] theorem Client.input_afterWrite (rest stdin : Bytes) : (Client.afterWrite rest stdin).input = 2 * stdin.length + 1 := by
  unfold Client.afterWrite
  split <;> rfl

@[simp] theorem Client.rest_afterWrite (rest stdin : Bytes) : (Client.afterWrite rest stdin).rest = rest.length := by
  unfold Client.afterWrite
  split
  · next hnil =>
    rw [hnil]
    rfl
  · rfl

@[simp] theorem Client.input_afterRecv (data stdin : Bytes) : (Client.afterRecv data stdin).input = 2 * stdin.length + 1 := by
  unfold Client.afterRecv
  split <;> rfl

@[simp] theorem Client.rest_afterRecv (data stdin : Bytes) : (Client.afterRecv data stdin).rest = 0 := by
  unfold Client.afterRecv
  split <;> rfl

@[simp] theorem Server.buf_afterWrite (st : σ) (rest : Bytes) (leaves : Bool) :
    (Server.afterWrite st rest leaves).buf = 0 := by
  unfold Server.afterWrite
  split
  · split <;> rfl
  · rfl

theorem Server.rest_afterWrite_le (st : σ) (rest : Bytes) (leaves : Bool) :
    (Server.afterWrite st rest leaves).rest ≤ 2 * rest.length + 1 := by
  unfold Server.afterWrite
  split
  · split
    · exact Nat.zero_le _
    · exact Nat.le_add_left _ _
  · exact le_rfl

theorem Client.input_readline (stdin : Bytes) : (Client.readline stdin).input < 2 * stdin.length + 1 := by
  unfold Client.readline
  cases hline : myReadline stdin with
  | none => exact Nat.succ_pos _
  | some got =>
    obtain ⟨line, stdin'⟩ := got
    have hless := (myReadline_eq_some hline).2.2
    have hinput : 2 * stdin'.length + 1 < 2 * stdin.length + 1 := by omega
    dsimp only
    split
    · exact hinput
    · split
      · exact Nat.succ_pos _
      · exact hinput

theorem measure_lt {w w' : World σ} (hstep : Step cap handle w w') : w'.measure < w.measure := by
  unfold World.measure
  rw [Prod.Lex.toLex_lt_toLex, Prod.Lex.toLex_lt_toLex]
  cases hstep with
  | readline => exact .inl (Client.input_readline _)
  | write hpending hdata =>
    have hpos := List.length_pos_of_ne_nil hdata
    refine .inr ⟨Client.input_afterWrite _ _, .inl ?_⟩
    simp only [Client.rest_afterWrite]
    simp only [hpending, Client.rest, List.length_append]
    omega
  | recv hdown hdata =>
    have hpos := List.length_pos_of_ne_nil hdata
    refine .inr ⟨Client.input_afterRecv _ _, .inr ⟨?_, ?_⟩⟩
    · simp only [Client.rest_afterRecv]
      simp only [Client.rest]
    · simp only [hdown, List.length_append]
      omega
  | recvEnd => exact .inl (Nat.succ_pos _)
  | read hup hdata =>
    have hpos := List.length_pos_of_ne_nil hdata
    refine .inr ⟨rfl, .inl ?_⟩
    simp only [hup, Server.buf, List.length_append]
    omega
  | readBlank hup hsize hend =>
    have hpos := List.length_pos_of_mem (readEvent_eq_some hend).1
    refine .inr ⟨rfl, .inl ?_⟩
    simp only [hup, Server.buf, List.length_append, List.length_nil]
    omega
  | handleRequest hup hsize hend =>
    have hpos := List.length_pos_of_mem (readEvent_eq_some hend).1
    refine .inr ⟨rfl, .inl ?_⟩
    simp only [Server.buf_afterWrite]
    simp only [hup, List.length_append]
    omega
  | @send _ data rest leaves _ st _ _ _ _ hpending hdata =>
    have hpos := List.length_pos_of_ne_nil hdata
    have hrest := Server.rest_afterWrite_le st rest leaves
    refine .inr ⟨rfl, .inr ⟨?_, ?_⟩⟩
    · simp only [Server.buf_afterWrite]
      simp only [Server.buf]
    · have hbefore : (Server.writing st (data ++ rest) leaves).rest = 2 * (data ++ rest).length + 1 := rfl
      simp only [hpending, hbefore, List.length_append]
      omega
  | @readEnd _ buf =>
    refine .inr ⟨rfl, ?_⟩
    cases buf with
    | nil => exact .inr ⟨rfl, by simp only [Server.rest]; omega⟩
    | cons b buf =>
      left
      simp only [Server.buf, List.length_cons]
      omega
  | readFull hfull =>
    refine .inr ⟨rfl, .inl ?_⟩
    simp only [Server.buf, hfull, maxPacketSize]
    omega

/-! ## The conversation -/

/-- Whatever pieces the messages come in: what has been handled and seen is the start of a dialogue, no run goes on for
ever, and where nothing can happen any more, both sides are closed and the dialogue is complete. -/
theorem run_dialogue (cap : ℕ) (hcap : 0 < cap) (handle : Handler σ)
    (hhandle : ∀ st query, ∃ result infos st', handle st query result infos st') (st₀ : σ) (stdin₀ : Bytes) {w : World σ}
    (hrun : ReflTransGen (Step cap handle) (World.start st₀ stdin₀) w) :
    (∃ queries output st, Dialogue handle st₀ stdin₀ queries output st ∧ w.handled <+: queries ∧ w.output <+: output) ∧
      Acc (fun w' w => Step cap handle w w') w ∧
      ((∀ w', ¬Step cap handle w w') →
        w.client = .closed ∧ ∃ st, w.server = .closed st ∧ Dialogue handle st₀ stdin₀ w.handled w.output st) := by
  have hinv := Lib.keeps_run (I := Inv handle st₀ stdin₀) (fun _ _ hstep => inv_step hstep) hrun inv_start
  have hwf : WellFounded fun w' w : World σ => Step cap handle w w' :=
    Subrelation.wf (fun h => measure_lt h) (InvImage.wf World.measure wellFounded_lt)
  refine ⟨hinv.reaches hhandle, hwf.apply w, fun hstuck => ?_⟩
  cases exists_step hcap hhandle hinv with
  | inl hnext =>
    obtain ⟨w', hstep⟩ := hnext
    exact absurd hstep (hstuck w')
  | inr hclosed =>
    obtain ⟨hclient, st, hserver⟩ := hclosed
    refine ⟨hclient, st, hserver, ?_⟩
    cases hinv with
    | prompting => cases hclient
    | asking => cases hserver
    | answering => cases hclient
    | leaving => cases hserver
    | closed hend =>
      obtain rfl := Server.closed.inj hserver
      exact hend

/-- A server that counts its queries and says so. -/
def counting : Handler ℕ := fun n _ result infos n' =>
  n' = n + 1 ∧ infos = [] ∧ result = ⟨.success, ⟨[], List.not_mem_nil⟩, none⟩

theorem run_dialogue_begin :
    ∃ w : World ℕ, ReflTransGen (Step 1 counting) (World.start 0 (ascii "begin\nbye\n")) w ∧ w.client = .closed ∧
      ∃ n, w.server = .closed n ∧ Dialogue counting 0 (ascii "begin\nbye\n") w.handled w.output n := by
  have hall : ∀ n query, ∃ result infos n', counting n query result infos n' := fun _ _ => ⟨_, _, _, rfl, rfl, rfl⟩
  obtain ⟨-, hends, -⟩ := run_dialogue 1 one_pos counting hall 0 (ascii "begin\nbye\n") ReflTransGen.refl
  obtain ⟨w, hrun, hstuck⟩ := Lib.exists_stuck hends
  exact ⟨w, hrun, (run_dialogue 1 one_pos counting hall 0 (ascii "begin\nbye\n") hrun).2.2 hstuck⟩

end

end Landbase.Net.Plain
