/-
The web host: one terminal, the page that shows it in a browser, and the answers to the requests of the
browser. A request whose handling fails is answered as a server failure, on whatever state the failure left.
-/
import SimUnix.Json.Parser
import SimUnix.Terminal.Completion
import SimUnix.Terminal.Window
import SimUnix.Web.Address

namespace SimUnix.Web

/-! ## The page -/

/-- The way a character is written in markup. -/
def escapeChar (c : Char) : String :=
  if c = '&' then "&amp;"
  else if c = '<' then "&lt;"
  else if c = '>' then "&gt;"
  else if c = '"' then "&#34;"
  else if c = '\'' then "&#39;"
  else c.toString

/-- The way a text is written in markup. -/
def escape (s : String) : String := String.join (s.toList.map escapeChar)

/-- The values that a page shows. -/
structure Page where
  bootLog : String
  diagnostic : String
  prompt : String
  deriving Repr, DecidableEq

/-- The markup of the screen and of the line below it. -/
def Page.markup (p : Page) : String :=
  let banner :=
    if p.diagnostic = "" then "" else "<div class=\"banner\">" ++ escape p.diagnostic ++ "</div>"
  "<div id=\"screen\"><div>AuroraOS</div><div>" ++ escape p.bootLog ++ "</div>" ++ banner
    ++ "</div>\n"
    ++ "  <div id=\"line\"><span id=\"prompt\">" ++ escape p.prompt ++ "</span>&nbsp;"
    ++ "<input id=\"input\" autofocus autocomplete=\"off\"></div>"

/-! ## Requests and replies -/

/-- The host: its terminal, and what its page shows of the start. -/
structure Host where
  window : Window
  bootLog : String
  diagnostic : String

/-- A request. -/
structure Request where
  method : String
  path : String
  mediaType : String
  body : String

/-- The content of a reply. -/
inductive Content where
  | none
  | json (value : Json)
  | page (page : Page)

/-- A reply. -/
structure Reply where
  status : Nat
  content : Content := .none

/-- The user for whom the terminal is opened where nobody is logged in. -/
def defaultUser : String := Machine.factoryUser

/-- How many of the applications that were started are listed. -/
def maxLaunched : Nat := 20

/-- Opens the host on a system, which is started if it is down. -/
def Host.start (s : Machine) : Except Fault Host × Machine :=
  match if s.phase = .shutdown then Machine.boot.run s else (.ok (), s) with
  | (.error e, s) => (.error e, s)
  | (.ok _, s) =>
    let user : Json := if s.currentUser.truthy then s.currentUser else defaultUser
    match s.openTerminal (some user) true true with
    | .error e => (.error e, s)
    | .ok terminal =>
      match Station.start.run { machine := s, terminal } with
      | (.error e, st) => (.error e, st.machine)
      | (.ok _, st) =>
        ((bannerText st.machine.diagnostic).map fun diagnostic => {
          window := { terminal := st.terminal }, bootLog := Text.joinLines st.machine.bootLog
          diagnostic }, st.machine)

/-! ## Bodies -/

/-- Whether a media type says that a body is a stored value; parameters may follow a semicolon. -/
def isJsonType (mediaType : String) : Bool :=
  let name := (Text.trim (Text.cutAt ';' mediaType).1).map Char.toLower
  name == "application/json" || (Text.startsWith name "application/" && Text.endsWith name "+json")

/-- The text of a body without the mark of its byte order. -/
def unmarked (body : String) : String :=
  if Text.startsWith body "\uFEFF" then Text.dropFirst 1 body else body

/-- The value of a body; nothing where it is missing or not in order. -/
def Request.value (r : Request) : Except Fault Json :=
  if isJsonType r.mediaType then
    match Json.parse (unmarked r.body) with
    | .error (.badValue _) => .ok .null
    | value? => value?.map (·.getD .null)
  else .ok .null

/-- What a body says about a field. -/
inductive FieldCheck where
  | missing
  | present
  | failure

/-- Looks for a field in a body. -/
def checkField (word : String) (body : Json) : FieldCheck :=
  match body with
  | .null => .missing
  | body => match body.holds word with
    | .ok true => .present
    | .ok false => .missing
    | .error _ => .failure

/-- The reply to a body without the field that is needed. -/
def missingField (field : String) : Reply :=
  { status := 400, content := .json (.obj [("error", .str s!"Missing '{field}' field")]) }

/-- The reply to a request whose handling failed. -/
def serverFailure : Reply := { status := 500 }

/-! ## Handlers -/

/-- The reply to a line when the terminal is no longer there. -/
def windowClosed : Json :=
  .obj [("output", .str "Window closed."), ("error", .bool false), ("prompt", .null),
    ("closed", .bool true)]

/-- The reply to a line that was taken. -/
def responseJson (shellPrompt : String) : Response → Except Fault Json
  | .finished f closed => do
    .ok (.obj [("output", .str (Text.joinLines (← f.block.plainOutput))),
      ("error", .bool f.block.error), ("prompt", .null), ("password", .bool false),
      ("cleared", .bool f.cleared), ("closed", .bool closed),
      ("shell_prompt", .str shellPrompt)])
  | .asks message kind =>
    .ok <| .obj [("output", .str ""), ("error", .bool false), ("prompt", .str message),
      ("password", .bool (kind = .password)), ("cleared", .bool false), ("closed", .bool false),
      ("shell_prompt", .str shellPrompt)]

namespace Host

/-- Takes a line for the terminal. -/
def submitLine (h : Host) (s : Machine) (line : String) : Reply × Host × Machine :=
  let (result, window, s) := h.window.submit s line
  let h := { h with window }
  let answer := do
    responseJson (← Station.promptText { machine := s, terminal := window.terminal }) (← result)
  match answer with
  | .ok json => ({ status := 200, content := .json json }, h, s)
  | .error _ => (serverFailure, h, s)

/-- Runs a command line or answers a question. -/
def execute (h : Host) (s : Machine) (body : Json) : Reply × Host × Machine :=
  match checkField "command" body with
  | .missing => (missingField "command", h, s)
  | .failure => (serverFailure, h, s)
  | .present =>
    if h.window.terminal.closed || s.phase != .running then
      ({ status := 200, content := .json windowClosed }, h, s)
    else match body.get? "command" with
      | some value => h.submitLine s value.plain
      | none => (serverFailure, h, s)

/-- Completes a line. -/
def complete (h : Host) (s : Machine) (body : Json) : Reply :=
  match checkField "line" body, body.get? "line" with
  | .missing, _ => missingField "line"
  | .failure, _ | .present, none => serverFailure
  | .present, some value =>
    let t := h.window.terminal
    match Completion.ofLine s t value.plain, Completion.ghost s t value.plain with
    | .ok c, .ok ghost =>
      { status := 200, content := .json (.obj [("line", .str c.line),
          ("candidates", Json.texts c.candidates), ("ghost", .str ghost)]) }
    | _, _ => serverFailure

/-- An application that was started, as a value. -/
def launchJson (launch : String × String) : Json :=
  .obj [("app", .str launch.1), ("user", .str launch.2)]

/-- The state of the system. -/
def status (h : Host) (s : Machine) : Reply :=
  let t := h.window.terminal
  match s.hostname with
  | .error _ => serverFailure
  | .ok hostname =>
    let launched := t.launched.drop (t.launched.length - maxLaunched)
    { status := 200, content := .json (.obj [
        ("running", .bool (s.phase = .running)), ("user", .str t.user), ("hostname", .str hostname),
        ("safe_mode", .bool s.safeMode),
        ("launched", .arr (launched.map launchJson))]) }

/-- The page. -/
def index (h : Host) (s : Machine) : Reply :=
  match Station.promptText { machine := s, terminal := h.window.terminal } with
  | .error _ => serverFailure
  | .ok prompt =>
    { status := 200, content := .page { bootLog := h.bootLog, diagnostic := h.diagnostic, prompt } }

/-- Answers a request for a route. -/
def answer (h : Host) (s : Machine) (r : Request) : Route → Reply × Host × Machine
  | .page => (h.index s, h, s)
  | .status => (h.status s, h, s)
  | .execute =>
    match r.value with
    | .error _ => (serverFailure, h, s)
    | .ok body => h.execute s body
  | .complete =>
    match r.value with
    | .error _ => (serverFailure, h, s)
    | .ok body => (h.complete s body, h, s)

/-- Answers a request. A path with too many slashes is referred to the one that is meant. -/
def handle (h : Host) (s : Machine) (r : Request) : Reply × Host × Machine :=
  let fits (route : Route) : Bool := r.method.map Char.toUpper == route.method
  match Address.target r.path with
  | .nothing => ({ status := 404 }, h, s)
  | .route route => if fits route then h.answer s r route else ({ status := 405 }, h, s)
  | .elsewhere route => ({ status := if fits route then 308 else 405 }, h, s)

end Host

end SimUnix.Web
