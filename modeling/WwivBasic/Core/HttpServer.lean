import Mathlib.Data.Char
import WwivBasic.Core.IniFile
import WwivBasic.Core.SocketConnection
import WwivBasic.Core.StringUtils
import WwivBasic.Foundations.LongestPrefix
import WwivBasic.Value

/-!
# The HTTP server

`core/http_server.cpp` answers one request on a connection. The handlers are kept in a map by the
root of the paths that they are for; `HttpServer::Run` searches it from the front for a root that
the path begins with, and sends what the handler returns.

## Main definitions

* `HttpResponse`, `HttpHandler`, `HttpServer`: the responses, what makes them, and the server
* `HttpServer.add`, `HttpServer.sendResponse`, `HttpServer.run`: the operations
* `Routes`: the handler that is for a path
* `HttpServer.Serves`: what a run sends, from what it reads
* `HttpResponse.head`, `HttpResponse.reads`: the lines before the text, and how a client reads it

## Main results

* `HttpServer.run_routes`: whatever is sent is one response, of the first handler that was added for
  the shortest root of the path
* `HttpServer.run_request`: a request is answered by its handler, which is given the lines as they
  were sent, and a client reads the response as the handler made it
-/

namespace WwivBasic

/-! ## Requests and responses -/

inductive HttpMethod
  | options
  | get
  | head
  | post
  | put
  | delete
  | trace
  | connect
  deriving DecidableEq

/-- `HttpResponse`, without its headers, which are not sent. -/
structure HttpResponse where
  status : Int32
  text : Str
  deriving DecidableEq

/-- `HttpHandler::Handle`, of the method, the path and the headers. -/
abbrev HttpHandler := HttpMethod → Str → List Str → HttpResponse

/-- `CreateHttpStatusMap`. -/
def statuses : List (Int32 × String) :=
  [(200, "OK"), (204, "No Content"), (301, "Moved Permanently"), (302, "Found"),
    (304, "Not Modified"), (307, "Temporary Redirect"), (400, "Bad Request"),
    (401, "Unauthorized"), (403, "Forbidden"), (404, "Not Found"), (405, "Method Not Allowed"),
    (406, "Not Acceptable"), (408, "Request Time-out"), (412, "Precondition Failed"),
    (500, "Internal Server Error"), (501, "Not Implemented"), (503, "Service Unavailable")]

/-- The exceptions that `Run` lets pass. -/
inductive HttpFault
  | socket (e : SocketFault)
  | outOfRange
  deriving DecidableEq

structure HttpServer where
  conn_ : SocketConnection
  get_ : StrMap HttpHandler := ∅

/-- What a response needs besides: the time of the day, the version of the program, and how much of
each text the system accepts. -/
structure ServerEnv where
  current_time_as_string : Str
  full_version : Str
  accepted : ℕ → Option ℕ

/-! ## The operations -/

/-- Texts that are sent one after the other, with the bytes that go out. An exception ends it. -/
def SocketConnection.sendAll (c : SocketConnection) (accepted : ℕ → Option ℕ) :
    List Str → Except SocketFault Unit × Str
  | [] => (.ok (), [])
  | s :: texts =>
    match c.send s (accepted 0) with
    | (.error e, out) => (.error e, out)
    | (.ok _, out) =>
      let (r, rest) := c.sendAll (fun i => accepted (i + 1)) texts
      (r, out ++ rest)

/-- The lines that are sent before the text of a response, without their ends. -/
def HttpResponse.head (env : ServerEnv) (reason : String) (r : HttpResponse) : List Str :=
  ["HTTP/1.1 ".toList ++ Value.intToString r.status ++ ' ' :: reason.toList,
    "Date: ".toList ++ env.current_time_as_string,
    "Server: wwivd/".toList ++ env.full_version,
    if r.text ≠ [] then "Content-Length: ".toList ++ Nat.toDigits 10 r.text.length
      else "Connection: close".toList,
    []]

/-- The bytes of a response. -/
def HttpResponse.bytes (env : ServerEnv) (reason : String) (r : HttpResponse) : Str :=
  ((r.head env reason).flatMap fun t => t ++ ['\r', '\n']) ++ r.text

namespace HttpServer

/-- The loop of `read_lines`, for at most `n` lines. -/
def readLinesUpTo : ℕ → SocketConnection →
    Option (Except SocketFault (List Str) × SocketConnection)
  | 0, c => some (.ok [], c)
  | n + 1, c =>
    (c.readLine 1024).bind fun (s, c) =>
      match s with
      | .error e => some (.error e, c)
      | .ok [] => some (.ok [], c)
      | .ok s => (readLinesUpTo n c).map fun (lines, c) => (lines.map (s :: ·), c)

/-- `read_lines`. -/
def readLines (c : SocketConnection) : Option (Except SocketFault (List Str) × SocketConnection) :=
  readLinesUpTo (c.unread.length + 1) c

/-- `add`. -/
def add (method : HttpMethod) (root : Str) (handler : HttpHandler) (server : HttpServer) :
    Bool × HttpServer :=
  if method ≠ .get then (false, server)
  else (true, { server with get_ := server.get_.emplace root handler })

/-- `SendResponse`. The reason of the status is looked up before the first line is sent, and there
may be none. -/
def sendResponse (env : ServerEnv) (r : HttpResponse) (c : SocketConnection) :
    Except HttpFault Unit × Str :=
  match statuses.lookup r.status with
  | none => (.error .outOfRange, [])
  | some reason =>
    let texts := (r.head env reason).map (· ++ ['\r', '\n']) ++ if r.text ≠ [] then [r.text] else []
    match c.sendAll env.accepted texts with
    | (.error e, out) => (.error (.socket e), out)
    | (.ok (), out) => (.ok (), out)

/-- The response of `Run` to a request, and what it returns then. -/
def respond (get_ : StrMap HttpHandler) (cmd path : Str) (headers : List Str) :
    HttpResponse × Bool :=
  if cmd = "GET".toList then
    match get_.entries.find? fun e => e.1.isPrefixOf path with
    | some e => (e.2 .get path headers, true)
    | none => (⟨404, []⟩, true)
  else (⟨405, []⟩, false)

/-- `Run`, with the bytes that it sends. -/
def run (env : ServerEnv) (server : HttpServer) :
    Option (Except HttpFault Bool × Str × SocketConnection) :=
  (server.conn_.readLine 1024).bind fun (inital_requestline, c) =>
    match inital_requestline with
    | .error e => some (.error (.socket e), [], c)
    | .ok inital_requestline =>
      if inital_requestline = [] then some (.ok false, [], c)
      else
        match splitString inital_requestline [' '] true with
        | cmd :: path :: _ :: _ =>
          (readLines c).map fun (headers, c) =>
            match headers with
            | .error e => (.error (.socket e), [], c)
            | .ok headers =>
              let (r, answered) := respond server.get_ cmd path headers
              let (sent, out) := sendResponse env r c
              (sent.map fun _ => answered, out, c)
        | _ => some (.ok false, [], c)

end HttpServer

/-! ## The lines of a request -/

/-- A line with its end, or a part of one: what `read_line` returns of at most 1024 bytes. -/
structure IsPiece (s : Str) : Prop where
  ne_nil : s ≠ []
  length_le : s.length ≤ 1025
  newline : '\n' ∉ s.dropLast

theorem isPiece_of_isPrefix {s p : Str} {n : ℕ} (h : s <+: SocketConnection.firstLine n p)
    (hn : n ≤ 1025) (hs : s ≠ []) : IsPiece s := by
  have hdropLast : s.dropLast <+: (SocketConnection.firstLine n p).dropLast := by
    refine List.prefix_of_prefix_length_le ((List.dropLast_prefix s).trans h)
      (List.dropLast_prefix _) ?_
    rw [List.length_dropLast, List.length_dropLast]
    exact Nat.sub_le_sub_right h.length_le 1
  exact ⟨hs, (h.length_le.trans (SocketConnection.length_firstLine_le n p)).trans hn,
    fun hmem => SocketConnection.not_mem_dropLast_firstLine n p (hdropLast.subset hmem)⟩

namespace HttpServer

theorem readLinesUpTo_unread {n : ℕ} {c c' : SocketConnection}
    {r : Except SocketFault (List Str)} (h : readLinesUpTo n c = some (r, c'))
    (hopen : c.open_ = true) :
    ∃ lines, r = .ok lines ∧ c.unread = lines.flatten ++ c'.unread ∧ c'.open_ = true ∧
      ∀ s ∈ lines, IsPiece s := by
  induction n generalizing c r with
  | zero =>
    obtain ⟨rfl, rfl⟩ := Prod.mk.inj (Option.some.inj h)
    exact ⟨[], rfl, rfl, hopen, nofun⟩
  | succ n ih =>
    obtain ⟨⟨r₁, c₁⟩, hread, hrest⟩ := Option.bind_eq_some_iff.mp h
    obtain ⟨taken, hunread, rfl, hprefix, hopen₁⟩ := SocketConnection.readLine_unread hread hopen
    cases taken with
    | nil =>
      -- A read that gives nothing ends the loop.
      obtain ⟨rfl, rfl⟩ := Prod.mk.inj (Option.some.inj hrest)
      exact ⟨[], rfl, hunread, hopen₁, nofun⟩
    | cons ch taken =>
      obtain ⟨⟨r₂, c₂⟩, hlines, heq⟩ := Option.map_eq_some_iff.mp hrest
      obtain ⟨rfl, rfl⟩ := Prod.mk.inj heq
      obtain ⟨lines, rfl, hunread', hopen', hpieces⟩ := ih hlines hopen₁
      refine ⟨(ch :: taken) :: lines, rfl, ?_, hopen', List.forall_mem_cons.mpr ⟨?_, hpieces⟩⟩
      · rw [hunread, hunread', List.flatten_cons, List.append_assoc]
      · exact isPiece_of_isPrefix hprefix le_rfl (List.cons_ne_nil _ _)

/-- A connection that is not open has no lines. -/
theorem readLine_closed {n : ℕ} {c c' : SocketConnection} {r : Except SocketFault Str}
    (h : c.readLine n = some (r, c')) (hopen : c.open_ = false) : ∀ s, r = .ok s → s = [] := by
  rintro s rfl
  obtain ⟨⟨r₁, c₁⟩, hread, hrest⟩ := Option.bind_eq_some_iff.mp h
  obtain ⟨taken, -, -, hopen₁, rfl | ⟨rfl, -⟩⟩ := SocketConnection.readType_unread hread
  · dsimp only at hrest
    rw [if_pos (hopen₁.trans hopen)] at hrest
    cases hrest
  · cases hrest
    rfl

/-- The bound of the loop is not reached. -/
theorem readLinesUpTo_succ {n : ℕ} {c : SocketConnection} (hn : c.unread.length < n) :
    readLinesUpTo n c = readLinesUpTo (n + 1) c := by
  induction n generalizing c with
  | zero => exact absurd hn (Nat.not_lt_zero _)
  | succ n ih =>
    rw [readLinesUpTo, readLinesUpTo]
    refine Option.bind_congr fun ⟨r, c'⟩ hread => ?_
    cases r with
    | error e => rfl
    | ok s =>
      cases s with
      | nil => rfl
      | cons ch s =>
        cases hopen : c.open_ with
        | false => cases readLine_closed hread hopen _ rfl
        | true =>
          obtain ⟨taken, hunread, heq, -⟩ := SocketConnection.readLine_unread hread hopen
          obtain rfl := Except.ok.inj heq
          -- A line that is read leaves less to be read.
          rw [hunread, List.length_append, List.length_cons] at hn
          dsimp only
          rw [ih (by omega)]

theorem readLinesUpTo_eq {n : ℕ} {c : SocketConnection} (hn : c.unread.length < n) :
    readLinesUpTo n c = readLines c := by
  induction n with
  | zero => exact absurd hn (Nat.not_lt_zero _)
  | succ n ih =>
    rcases Nat.lt_or_ge c.unread.length n with hlt | hge
    · rw [← readLinesUpTo_succ hlt, ih hlt]
    · rw [readLines, Nat.le_antisymm (Nat.lt_succ_iff.mp hn) hge]

end HttpServer

/-! ## The handler for a path -/

/-- A call of `add`. -/
structure Added where
  method : HttpMethod
  root : Str
  handler : HttpHandler

/-- **The handler for a path**, of those that are added: the first one that is added for the
shortest root that the path begins with. -/
structure Routes (adds : List Added) (path root : Str) (handler : HttpHandler) : Prop where
  first : (adds.find? fun a => a.method = .get ∧ a.root = root).map (·.handler) = some handler
  isPrefix : root <+: path
  shortest : ∀ a ∈ adds, a.method = .get → a.root <+: path → root.length ≤ a.root.length

theorem Routes.exists_mem {adds : List Added} {path root : Str} {handler : HttpHandler}
    (h : Routes adds path root handler) : ∃ a ∈ adds, a.method = .get ∧ a.root = root := by
  obtain ⟨a, hfind, -⟩ := Option.map_eq_some_iff.mp h.first
  exact ⟨a, List.mem_of_find?_eq_some hfind, by simpa using List.find?_some hfind⟩

theorem Routes.unique {adds : List Added} {path root root' : Str} {handler handler' : HttpHandler}
    (h : Routes adds path root handler) (h' : Routes adds path root' handler') :
    handler = handler' := by
  obtain ⟨a, ha, hget, rfl⟩ := h.exists_mem
  obtain ⟨a', ha', hget', rfl⟩ := h'.exists_mem
  have hle := h.shortest a' ha' hget' h'.isPrefix
  have hge := h'.shortest a ha hget h.isPrefix
  have heq : a.root = a'.root :=
    (List.prefix_of_prefix_length_le h.isPrefix h'.isPrefix hle).eq_of_length_le hge
  exact Option.some.inj (h.first.symm.trans (heq ▸ h'.first))

/-- What `Run` answers to a request: the method of the request line, the response, and what `Run`
returns. -/
inductive Answer (adds : List Added) (path : Str) (headers : List Str) :
    Str → HttpResponse → Bool → Prop
  | handler {root : Str} {handler : HttpHandler} (h : Routes adds path root handler) :
    Answer adds path headers "GET".toList (handler .get path headers) true
  | notFound (h : ∀ a ∈ adds, a.method = .get → ¬ a.root <+: path) :
    Answer adds path headers "GET".toList ⟨404, []⟩ true
  | notAllowed {cmd : Str} (h : cmd ≠ "GET".toList) :
    Answer adds path headers cmd ⟨405, []⟩ false

theorem lt_of_compare {a b : Str} (h : compare a b = .lt) : a < b := by
  induction a generalizing b with
  | nil =>
    cases b with
    | nil => cases h
    | cons y b => exact List.nil_lt_cons y b
  | cons x a ih =>
    cases b with
    | nil => cases h
    | cons y b =>
      rw [List.compare_eq_compareLex, List.compareLex_cons_cons, Ordering.then_eq_lt] at h
      rcases h with hlt | ⟨heq, hlt⟩
      · exact List.Lex.rel (compareOfLessAndEq_eq_lt.mp hlt)
      · rw [Std.LawfulEqOrd.compare_eq_iff_eq] at heq
        subst heq
        exact List.cons_lt_cons_self.mpr (ih hlt)

namespace HttpServer

/-- The server with the handlers that are added. -/
def addAll (adds : List Added) (server : HttpServer) : HttpServer :=
  adds.foldl (fun server a => (server.add a.method a.root a.handler).2) server

theorem conn_addAll (adds : List Added) (server : HttpServer) :
    (server.addAll adds).conn_ = server.conn_ := by
  induction adds generalizing server with
  | nil => rfl
  | cons a adds ih =>
    rw [addAll, List.foldl_cons, ← addAll, ih, add]
    split_ifs <;> rfl

/-- The map holds the first handler of each root. -/
theorem find?_addAll (adds : List Added) (server : HttpServer) (root : Str) :
    (server.addAll adds).get_.find? root = (server.get_.find? root).or
      ((adds.find? fun a => a.method = .get ∧ a.root = root).map (·.handler)) := by
  induction adds generalizing server with
  | nil => simp [addAll]
  | cons a adds ih =>
    rw [addAll, List.foldl_cons, ← addAll, ih, add]
    by_cases hget : a.method = .get
    · rw [if_neg (not_not.mpr hget)]
      dsimp only
      rw [OrderedMap.emplace, StrMap.find?_insertWith]
      -- The handler that was added first is kept.
      by_cases hroot : root = a.root
      · subst hroot
        rw [if_pos rfl, List.find?_cons_of_pos (by simp [hget])]
        cases server.get_.find? a.root <;> simp
      · rw [if_neg hroot, List.find?_cons_of_neg (by simp [Ne.symm hroot])]
    · rw [if_pos hget, List.find?_cons_of_neg (by simp [hget])]

/-- The search of the map finds the handler for the path. -/
theorem respond_answer (adds : List Added) (c : SocketConnection) (cmd path : Str)
    (headers : List Str) : Answer adds path headers cmd
      (respond ((HttpServer.mk c ∅).addAll adds).get_ cmd path headers).1
      (respond ((HttpServer.mk c ∅).addAll adds).get_ cmd path headers).2 := by
  have hfind (root : Str) : ((HttpServer.mk c ∅).addAll adds).get_.find? root =
      (adds.find? fun a => a.method = .get ∧ a.root = root).map (·.handler) :=
    find?_addAll adds _ root
  generalize ((HttpServer.mk c ∅).addAll adds).get_ = get_ at hfind
  -- A root that is added is a key of the map.
  have hkey : ∀ a ∈ adds, a.method = .get → ∃ e ∈ get_.entries, e.1 = a.root := by
    intro a ha hget
    obtain ⟨handler, hhandler⟩ : ∃ handler, get_.find? a.root = some handler := by
      rw [hfind, ← Option.isSome_iff_exists, Option.isSome_map, List.find?_isSome]
      exact ⟨a, ha, by simpa using hget⟩
    exact ⟨(a.root, handler), get_.mem_entries_iff.mpr hhandler, rfl⟩
  by_cases hcmd : cmd = "GET".toList
  · subst hcmd
    rw [respond, if_pos rfl]
    cases hsearch : get_.entries.find? fun e => e.1.isPrefixOf path with
    | none =>
      refine .notFound fun a ha hget hprefix => ?_
      obtain ⟨e, he, heq⟩ := hkey a ha hget
      exact List.find?_eq_none.mp hsearch e he
        (List.isPrefixOf_iff_prefix.mpr (by rwa [heq]))
    | some e =>
      -- The roots are in order, so that the first one found is the shortest.
      obtain ⟨he, hprefix, hshortest⟩ := LongestPrefix.find?_isPrefixOf_key
        (get_.sorted.imp lt_of_compare) hsearch
      have hroutes : Routes adds path e.1 e.2 := by
        refine ⟨?_, hprefix, fun a ha hget hroot => ?_⟩
        · rw [← hfind]
          exact get_.mem_entries_iff.mp he
        · obtain ⟨e', he', heq⟩ := hkey a ha hget
          rw [← heq] at hroot ⊢
          exact hshortest e' he' hroot
      exact .handler hroutes
  · rw [respond, if_neg hcmd]
    exact .notAllowed hcmd

theorem respond_of_routes {adds : List Added} {path root : Str} {handler : HttpHandler}
    (h : Routes adds path root handler) (c : SocketConnection) (headers : List Str) :
    respond ((HttpServer.mk c ∅).addAll adds).get_ "GET".toList path headers =
      (handler .get path headers, true) := by
  have hanswer := respond_answer adds c "GET".toList path headers
  generalize respond _ _ _ _ = answer at hanswer ⊢
  obtain ⟨r, answered⟩ := answer
  cases hanswer with
  | handler h' => rw [h'.unique h]
  | notFound hnone =>
    obtain ⟨a, ha, hget, hroot⟩ := h.exists_mem
    exact absurd (hroot ▸ h.isPrefix) (hnone a ha hget)
  | notAllowed hcmd => exact absurd rfl hcmd

/-! ## The answer -/

/-- What is sent depends on the connection only as it is open. -/
theorem sendResponse_congr (env : ServerEnv) (r : HttpResponse) {c c' : SocketConnection}
    (h : c.open_ = c'.open_) : sendResponse env r c = sendResponse env r c' := by
  have hsendAll (accepted : ℕ → Option ℕ) (texts : List Str) :
      c.sendAll accepted texts = c'.sendAll accepted texts := by
    induction texts generalizing accepted with
    | nil => rfl
    | cons s texts ih =>
      have hsend : c.send s (accepted 0) = c'.send s (accepted 0) := by
        unfold SocketConnection.send
        rw [h]
      rw [SocketConnection.sendAll, SocketConnection.sendAll, hsend, ih]
  simp only [sendResponse, hsendAll]

/-- Texts that the system accepts go out as they are. -/
theorem sendAll_accepted {c : SocketConnection} {accepted : ℕ → Option ℕ} {texts : List Str}
    (h : ∀ i, ∃ n, accepted i = some n ∧ texts.flatten.length ≤ n) :
    c.sendAll accepted texts = (.ok (), texts.flatten) := by
  induction texts generalizing accepted with
  | nil => rfl
  | cons s texts ih =>
    obtain ⟨n, hn, hle⟩ := h 0
    rw [List.flatten_cons, List.length_append] at hle
    have hrest : ∀ i, ∃ n, accepted (i + 1) = some n ∧ texts.flatten.length ≤ n := by
      intro i
      obtain ⟨n, hn, hle⟩ := h (i + 1)
      rw [List.flatten_cons, List.length_append] at hle
      exact ⟨n, hn, by omega⟩
    have hs : c.send s (some n) = (.ok s.length, s) := by
      have htake : s.take n = s := List.take_of_length_le (by omega)
      exact Prod.ext rfl htake
    rw [SocketConnection.sendAll, hn, hs, ih hrest, List.flatten_cons]

theorem sendResponse_accepted {env : ServerEnv} {r : HttpResponse} {reason : String}
    {c : SocketConnection} (hreason : statuses.lookup r.status = some reason)
    (h : ∀ i, ∃ n, env.accepted i = some n ∧ (r.bytes env reason).length ≤ n) :
    sendResponse env r c = (.ok (), r.bytes env reason) := by
  have hbytes : ((r.head env reason).map (· ++ ['\r', '\n']) ++
      if r.text ≠ [] then [r.text] else []).flatten = r.bytes env reason := by
    rw [List.flatten_append, ← List.flatMap_def, HttpResponse.bytes]
    by_cases htext : r.text = []
    · simp [htext]
    · simp [htext]
  rw [← hbytes] at h
  rw [sendResponse, hreason]
  dsimp only
  rw [sendAll_accepted h, hbytes]

/-- **One response.** `Run` sends the response and returns its result. Nothing is sent where the
status has no reason, and all of it where the system accepts what is sent. -/
structure Responds (env : ServerEnv) (c : SocketConnection) (r : HttpResponse) (answered : Bool)
    (result : Except HttpFault Bool) (sent : Str) : Prop where
  result_eq : result = (sendResponse env r c).1.map fun _ => answered
  sent_eq : sent = (sendResponse env r c).2
  unlisted : statuses.lookup r.status = none → result = .error .outOfRange ∧ sent = []
  whole : ∀ reason, statuses.lookup r.status = some reason →
    (∀ i, ∃ n, env.accepted i = some n ∧ (r.bytes env reason).length ≤ n) →
    result = .ok answered ∧ sent = r.bytes env reason

theorem responds_sendResponse (env : ServerEnv) (c : SocketConnection) (r : HttpResponse)
    (answered : Bool) : Responds env c r answered
      ((sendResponse env r c).1.map fun _ => answered) (sendResponse env r c).2 where
  result_eq := rfl
  sent_eq := rfl
  unlisted h := by
    rw [sendResponse, h]
    exact ⟨rfl, rfl⟩
  whole reason hreason haccepted := by
    rw [sendResponse_accepted hreason haccepted]
    exact ⟨rfl, rfl⟩

/-- What `Run` does on a connection, by what `read_line` and `read_lines` return there. -/
inductive Serves (env : ServerEnv) (adds : List Added) (c : SocketConnection) :
    Except HttpFault Bool → Str → SocketConnection → Prop
  /-- The request line has fewer than three parts, and nothing is sent. -/
  | refused {line : Str} {c' : SocketConnection} (hline : c.readLine 1024 = some (.ok line, c'))
    (hunread : c.unread = line ++ c'.unread)
    (hparts : (splitString line [' '] true).length < 3) : Serves env adds c (.ok false) [] c'
  /-- The lines after it go to the handler, and one response is sent. -/
  | responds {line cmd path protocol sent : Str} {rest headers : List Str} {r : HttpResponse}
    {answered : Bool} {result : Except HttpFault Bool} {c₁ c' : SocketConnection}
    (hline : c.readLine 1024 = some (.ok line, c₁)) (hunread : c.unread = line ++ c₁.unread)
    (hparts : splitString line [' '] true = cmd :: path :: protocol :: rest)
    (hlines : readLines c₁ = some (.ok headers, c'))
    (hheaders : c₁.unread = headers.flatten ++ c'.unread) (hpieces : ∀ s ∈ headers, IsPiece s)
    (hanswer : Answer adds path headers cmd r answered)
    (hresponds : Responds env c r answered result sent) : Serves env adds c result sent c'

/-- **Whatever is sent is one response**, whenever the bytes of the request arrive: that of the
first handler which was added for the shortest root of the path. The handler is given what is read
after the request line, each byte once and in order, in lines. -/
theorem run_routes (env : ServerEnv) (adds : List Added) (c c' : SocketConnection)
    (result : Except HttpFault Bool) (sent : Str) (hopen : c.open_ = true)
    (h : run env ((HttpServer.mk c ∅).addAll adds) = some (result, sent, c')) :
    Serves env adds c result sent c' := by
  obtain ⟨⟨r₁, c₁⟩, hread, hrest⟩ := Option.bind_eq_some_iff.mp h
  rw [conn_addAll] at hread
  obtain ⟨line, hunread, rfl, -, hopen₁⟩ := SocketConnection.readLine_unread hread hopen
  dsimp only at hrest
  -- A request line of less than three parts gets no answer.
  have hshort (hlt : (splitString line [' '] true).length < 3)
      (heq : some (Except.ok false, ([] : Str), c₁) = some (result, sent, c')) :
      Serves env adds c result sent c' := by
    obtain ⟨rfl, rfl, rfl⟩ : _ ∧ _ ∧ _ := by simpa using heq
    exact .refused hread hunread hlt
  split_ifs at hrest with hnil
  · subst hnil
    exact hshort (by decide) hrest
  rcases hparts : splitString line [' '] true with - | ⟨cmd, - | ⟨path, - | ⟨protocol, rest⟩⟩⟩
  all_goals rw [hparts] at hrest
  case cons.cons.cons =>
    obtain ⟨⟨r₂, c₂⟩, hlines, heq⟩ := Option.map_eq_some_iff.mp hrest
    obtain ⟨headers, rfl, hunread', hopen₂, hpieces⟩ := readLinesUpTo_unread hlines hopen₁
    obtain ⟨rfl, rfl, rfl⟩ : _ ∧ _ ∧ _ := by simpa using heq
    rw [sendResponse_congr env _ (hopen₂.trans hopen.symm)]
    exact .responds hread hunread hparts hlines hunread' hpieces
      (respond_answer adds c cmd path headers) (responds_sendResponse env c _ _)
  all_goals exact hshort (by rw [hparts]; simp) hrest

/-- The handlers of a server: the one for `/x` also gets the paths under `/x/y`. -/
def pathHandlers : List Added :=
  [⟨.post, ['/'], fun _ _ _ => ⟨500, []⟩⟩, ⟨.get, ['/', 'x', '/', 'y'], fun _ _ _ => ⟨204, []⟩⟩,
    ⟨.get, ['/', 'x'], fun _ path _ => ⟨200, path⟩⟩]

/-- The request comes in two parts, and the end of its last line does not come in time. -/
theorem run_routes_pathHandlers : Serves ⟨['n', 'o', 'w'], ['5'], fun _ => some 99⟩ pathHandlers
    ⟨true, ['G', 'E', 'T', ' ', '/'],
      List.replicate 5 Turn.idle ++ [⟨['z', ' ', '1', '\n', 'h'], false, false, false⟩] ++
        List.replicate 5 Turn.idle ++ [⟨['i'], true, false, false⟩, Turn.idle,
          ⟨[], true, false, false⟩, ⟨[], true, false, false⟩]⟩ (.ok true)
    ("HTTP/1.1 404 Not Found\r\nDate: now\r\nServer: wwivd/5\r\n" ++
      "Connection: close\r\n\r\n").toList ⟨true, [], [⟨[], true, false, false⟩]⟩ :=
  run_routes _ pathHandlers _ _ _ _ rfl rfl

end HttpServer

/-! ## A request and its response -/

section Response

open SocketConnection

/-- The lines of a request, without their ends. -/
def requestLines (path protocol : Str) (fields : List Str) : List Str :=
  ("GET".toList ++ ' ' :: path ++ ' ' :: protocol) :: fields

/-- How a client reads a response: line by line, and then the text. -/
def HttpResponse.reads (max_size : ℕ) (env : ServerEnv) (reason : String) (r : HttpResponse) :
    List ReadCall :=
  ((r.head env reason).map fun _ => .line max_size) ++
    if r.text ≠ [] then [.exactly r.text.length] else []

/-- What the client reads then. -/
def HttpResponse.parts (max_size : ℕ) (env : ServerEnv) (reason : String) (r : HttpResponse) :
    List (ReadCall × Except SocketFault Str) :=
  ((r.head env reason).map fun t => (.line max_size, .ok (t ++ ['\r', '\n']))) ++
    if r.text ≠ [] then [(.exactly r.text.length, .ok r.text)] else []

namespace HttpServer

/-- A client reads the bytes of a response as the response was made. -/
theorem runReads_bytes {max_size : ℕ} {env : ServerEnv} {r : HttpResponse} {reason : String}
    {d : SocketConnection} (hnewline : ∀ t ∈ r.head env reason, '\n' ∉ t)
    (hsize : ∀ t ∈ r.head env reason, t.length + 2 ≤ max_size + 1)
    (hunread : d.unread = r.bytes env reason) (hprompt : d.Prompt d.unread.length) :
    ∃ d', runReads d (r.reads max_size env reason) = some (r.parts max_size env reason, d') ∧
      d'.unread = [] := by
  have hlen : d.unread.length = r.text.length +
      ((r.head env reason).flatMap fun t => t ++ ['\r', '\n']).length := by
    rw [hunread, HttpResponse.bytes, List.length_append, Nat.add_comm]
  rw [hlen] at hprompt
  obtain ⟨d₁, hlines, hunread₁, hprompt₁⟩ := runReads_lines hnewline hsize hunread hprompt
  by_cases htext : r.text = []
  · -- there is no body
    refine ⟨d₁, ?_, hunread₁.trans htext⟩
    rw [HttpResponse.reads, HttpResponse.parts, if_neg (not_not.mpr htext),
      if_neg (not_not.mpr htext)]
    exact runReads_append hlines rfl
  · -- the body is received by its length
    rw [← Nat.zero_add r.text.length] at hprompt₁
    obtain ⟨d', hread, hnil, hprompt'⟩ :=
      readType_prompt hprompt₁ htext (hunread₁.trans (List.append_nil _).symm) true
    have hexec : (ReadCall.exactly r.text.length).exec d₁ = some (.ok r.text, d') := by
      rw [ReadCall.exec, receive, hread]
      simp [htext]
    refine ⟨d', ?_, hnil⟩
    rw [HttpResponse.reads, HttpResponse.parts, if_pos htext, if_pos htext]
    refine runReads_append hlines ?_
    exact Option.bind_eq_some_iff.mpr ⟨_, hexec, rfl⟩

theorem not_mem_toDigits (n : ℕ) : '\n' ∉ Nat.toDigits 10 n := by
  intro hmem
  have hdigit := Nat.isDigit_of_mem_toDigits (by decide) (by decide) hmem
  revert hdigit
  decide

/-- No line of a response has a line break, where the time and the version have none. -/
theorem not_mem_head {env : ServerEnv} {r : HttpResponse} {reason : String}
    (hreason : statuses.lookup r.status = some reason)
    (htime : '\n' ∉ env.current_time_as_string) (hversion : '\n' ∉ env.full_version) :
    ∀ t ∈ r.head env reason, '\n' ∉ t := by
  have hreason' : '\n' ∉ reason.toList := by
    have hstatuses : ∀ e ∈ statuses, '\n' ∉ e.2.toList := by decide
    obtain ⟨before, after, heq, -⟩ := List.lookup_eq_some_iff.mp hreason
    exact hstatuses (r.status, reason) (by rw [heq]; simp)
  have hint (i : Int32) : '\n' ∉ Value.intToString i := by
    rw [Value.intToString]
    split_ifs
    · rw [List.mem_cons, not_or]
      exact ⟨by decide, not_mem_toDigits _⟩
    · exact not_mem_toDigits _
  intro t ht
  simp only [HttpResponse.head, List.mem_cons, List.not_mem_nil, or_false] at ht
  -- One case for each line of the head.
  rcases ht with rfl | rfl | rfl | rfl | rfl
  · simp [hint, hreason']
  · simp [htime]
  · simp [hversion]
  · split_ifs
    · simp [not_mem_toDigits]
    · simp
  · simp

/-- `read_lines` reads what reads of a line return one after the other, up to one that returns
nothing. -/
theorem readLinesUpTo_of_runReads {lines : List Str} {c c₁ c₂ : SocketConnection} {n : ℕ}
    (hlines : ∀ s ∈ lines, s ≠ [])
    (h : runReads c (lines.map fun _ => .line 1024) =
      some (lines.map fun s => (.line 1024, .ok s), c₁))
    (hend : c₁.readLine 1024 = some (.ok [], c₂)) (hn : lines.length < n) :
    readLinesUpTo n c = some (.ok lines, c₂) := by
  induction lines generalizing c n with
  | nil =>
    obtain ⟨n, rfl⟩ : ∃ k, n = k + 1 := ⟨n - 1, by omega⟩
    obtain ⟨-, rfl⟩ := Prod.mk.inj (Option.some.inj h)
    rw [readLinesUpTo, hend]
    rfl
  | cons s lines ih =>
    obtain ⟨n, rfl⟩ : ∃ k, n = k + 1 := ⟨n - 1, by omega⟩
    obtain ⟨hs, hlines'⟩ := List.forall_mem_cons.mp hlines
    obtain ⟨⟨r, c'⟩, hcall, hrest⟩ := Option.bind_eq_some_iff.mp h
    obtain ⟨⟨rs, c''⟩, hcalls, heq⟩ := Option.bind_eq_some_iff.mp hrest
    obtain ⟨hresults, rfl⟩ := Prod.mk.inj (Option.some.inj heq)
    obtain ⟨hr, rfl⟩ := List.cons.inj hresults
    obtain rfl : r = .ok s := (Prod.mk.inj hr).2
    have hread : c.readLine 1024 = some (.ok s, c') := hcall
    rw [readLinesUpTo, hread]
    obtain ⟨ch, s, rfl⟩ := List.exists_cons_of_ne_nil hs
    show (readLinesUpTo n c').map _ = _
    rw [ih hlines' hcalls (Nat.lt_of_succ_lt_succ hn)]
    rfl

/-- The parts of a request line. -/
theorem splitString_request {cmd path protocol : Str} (hcmd : ' ' ∉ cmd) (hcmd' : cmd ≠ [])
    (hpath : ' ' ∉ path) (hpath' : path ≠ []) (hprotocol : ' ' ∉ protocol) :
    splitString (cmd ++ ' ' :: path ++ ' ' :: protocol ++ ['\r', '\n']) [' '] true =
      [cmd, path, protocol ++ ['\r', '\n']] := by
  have hlast : ' ' ∉ protocol ++ ['\r', '\n'] := by simp [hprotocol]
  rw [List.append_assoc, List.append_assoc, List.cons_append, List.cons_append,
    splitString_append hcmd, splitString_append hpath,
    splitString_of_not_mem hlast (List.append_ne_nil_of_right_ne_nil _ (List.cons_ne_nil _ _))]
  simp [hcmd', hpath']

/-- The server reads the lines of a request, up to the end. -/
theorem read_request {path protocol : Str} {fields : List Str} {c : SocketConnection} {last : Turn}
    (hnewline : ∀ t ∈ requestLines path protocol fields, '\n' ∉ t)
    (hsize : ∀ t ∈ requestLines path protocol fields, t.length + 2 ≤ 1025)
    (hunread : c.unread = (requestLines path protocol fields).flatMap fun t => t ++ ['\r', '\n'])
    (hprompt : c.Prompt (c.unread.length + 1)) (hlast : last.Final) :
    ∃ c₁ c₂, (c.later [last]).readLine 1024 =
        some (.ok ("GET".toList ++ ' ' :: path ++ ' ' :: protocol ++ ['\r', '\n']), c₁) ∧
      readLines c₁ = some (.ok (fields.map (· ++ ['\r', '\n'])), c₂) ∧ c₂.unread = [] := by
  -- The lines are read one by one, and after them nothing is left.
  obtain ⟨c', hreads, hunread', hprompt'⟩ := @runReads_lines 1024 1 _ [] c hnewline hsize
    (by rw [hunread, List.append_nil]) (by rwa [Nat.add_comm, ← hunread])
  obtain ⟨c₂, hend, hunread₂⟩ := @readLine_final 1024 0 c' last hprompt' hunread' hlast
  have hlater := runReads_later hreads [last]
  rw [requestLines, List.map_cons, List.map_cons] at hlater
  obtain ⟨⟨r, c₁⟩, hcall, hrest⟩ := Option.bind_eq_some_iff.mp hlater
  obtain ⟨⟨rs, c₃⟩, hcalls, heq⟩ := Option.bind_eq_some_iff.mp hrest
  obtain ⟨hresults, rfl⟩ := Prod.mk.inj (Option.some.inj heq)
  obtain ⟨hr, rfl⟩ := List.cons.inj hresults
  obtain rfl := (Prod.mk.inj hr).2
  refine ⟨c₁, c₂, hcall, ?_, hunread₂⟩
  rw [← @readLinesUpTo_eq (c₁.unread.length + fields.length + 1) c₁ (by omega)]
  refine readLinesUpTo_of_runReads (fun s hs => ?_) ?_ hend ?_
  · obtain ⟨t, -, rfl⟩ := List.mem_map.mp hs
    exact List.append_ne_nil_of_right_ne_nil _ (List.cons_ne_nil _ _)
  · rw [List.map_map, List.map_map]
    exact hcalls
  · rw [List.length_map]
    omega

/-- The bytes of a request are answered with the bytes of the response. -/
theorem run_bytes {env : ServerEnv} {adds : List Added} {path protocol root : Str}
    {fields : List Str} {handler : HttpHandler} {r : HttpResponse} {reason : String}
    {c : SocketConnection} {last : Turn} (hroutes : Routes adds path root handler)
    (hr : handler .get path (fields.map (· ++ ['\r', '\n'])) = r)
    (hpath : path ≠ []) (hpath' : ' ' ∉ path) (hprotocol : ' ' ∉ protocol)
    (hnewline : ∀ t ∈ requestLines path protocol fields, '\n' ∉ t)
    (hsize : ∀ t ∈ requestLines path protocol fields, t.length + 2 ≤ 1025)
    (hunread : c.unread = (requestLines path protocol fields).flatMap fun t => t ++ ['\r', '\n'])
    (hprompt : c.Prompt (c.unread.length + 1)) (hlast : last.Final)
    (hreason : statuses.lookup r.status = some reason)
    (haccepted : ∀ i, ∃ n, env.accepted i = some n ∧ (r.bytes env reason).length ≤ n) :
    ∃ c', run env ((HttpServer.mk (c.later [last]) ∅).addAll adds) =
      some (.ok true, r.bytes env reason, c') ∧ c'.unread = [] := by
  obtain ⟨c₁, c₂, hline, hlines, hunread₂⟩ :=
    read_request hnewline hsize hunread hprompt hlast
  refine ⟨c₂, ?_, hunread₂⟩
  have hne : "GET".toList ++ ' ' :: path ++ ' ' :: protocol ++ ['\r', '\n'] ≠ [] :=
    List.append_ne_nil_of_right_ne_nil _ (List.cons_ne_nil _ _)
  rw [run, conn_addAll, hline]
  dsimp only [Option.bind_some]
  rw [if_neg hne, splitString_request (by decide) (by decide) hpath' hpath hprotocol, hlines]
  show some (Except.map _ (sendResponse ..).1, (sendResponse ..).2, c₂) = _
  rw [respond_of_routes hroutes, hr, sendResponse_accepted hreason haccepted]
  rfl

/-- **A request and its response.** However the request and the response are cut up on the way, as
long as no read of them times out, the handler that is for the path is given the lines of the
request as they were sent, and a client reads the lines and the text of what the handler returns.
The client sends nothing after its request, and the server waits for more until the time is over. -/
theorem run_request (env : ServerEnv) (adds : List Added) (path protocol root : Str)
    (fields : List Str) (handler : HttpHandler) (r : HttpResponse) (reason : String)
    (c : SocketConnection) (last : Turn) (max_size : ℕ) (hroutes : Routes adds path root handler)
    (hr : handler .get path (fields.map (· ++ ['\r', '\n'])) = r)
    (hpath : path ≠ []) (hpath' : ' ' ∉ path) (hprotocol : ' ' ∉ protocol)
    (hnewline : ∀ t ∈ requestLines path protocol fields, '\n' ∉ t)
    (hsize : ∀ t ∈ requestLines path protocol fields, t.length + 2 ≤ 1025)
    (hunread : c.unread = (requestLines path protocol fields).flatMap fun t => t ++ ['\r', '\n'])
    (hprompt : c.Prompt (c.unread.length + 1)) (hlast : last.Final)
    (hreason : statuses.lookup r.status = some reason)
    (htime : '\n' ∉ env.current_time_as_string) (hversion : '\n' ∉ env.full_version)
    (haccepted : ∀ i, ∃ n, env.accepted i = some n ∧ (r.bytes env reason).length ≤ n)
    (hhead : ∀ t ∈ r.head env reason, t.length + 2 ≤ max_size + 1) :
    ∃ sent c', run env ((HttpServer.mk (c.later [last]) ∅).addAll adds) =
        some (.ok true, sent, c') ∧ c'.unread = [] ∧
      ∀ d : SocketConnection, d.unread = sent → d.Prompt d.unread.length →
        ∃ d', runReads d (r.reads max_size env reason) =
          some (r.parts max_size env reason, d') ∧ d'.unread = [] := by
  obtain ⟨c', hrun, hnil⟩ := run_bytes hroutes hr hpath hpath' hprotocol hnewline hsize hunread
    hprompt hlast hreason haccepted
  refine ⟨_, c', hrun, hnil, fun d hd hdprompt => ?_⟩
  exact runReads_bytes (not_mem_head hreason htime hversion) hhead hd hdprompt

theorem run_request_pathHandlers :
    let env : ServerEnv := ⟨['n', 'o', 'w'], ['5'], fun _ => some 99⟩
    let path := ['/', 'x', '/', 'y']
    let c : SocketConnection := ⟨true, (requestLines path ['1'] [[]]).flatMap (· ++ ['\r', '\n']),
      List.replicate 15 Turn.idle⟩
    let last : Turn := ⟨[], false, true, false⟩
    ∃ sent c', run env ((HttpServer.mk (c.later [last]) ∅).addAll pathHandlers) =
        some (.ok true, sent, c') ∧ c'.unread = [] ∧
      ∀ d : SocketConnection, d.unread = sent → d.Prompt d.unread.length →
        ∃ d', runReads d ((HttpResponse.mk 200 path).reads 99 env "OK") =
          some ((HttpResponse.mk 200 path).parts 99 env "OK", d') ∧ d'.unread = [] :=
  run_request _ pathHandlers _ ['1'] ['/', 'x'] [[]] (fun _ path _ => ⟨200, path⟩) _ "OK" _ _ 99
    ⟨rfl, by decide, by decide⟩ rfl (by decide) (by decide) (by decide) (by decide) (by decide)
    (by decide) ⟨rfl, [], 15, rfl, by decide, nofun⟩ ⟨rfl, .inr rfl⟩ (by decide) (by decide)
    (by decide) (fun _ => ⟨99, rfl, by decide⟩) (by decide)

end HttpServer

end Response

end WwivBasic
