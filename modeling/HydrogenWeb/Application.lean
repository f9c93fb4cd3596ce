import HydrogenWeb.HttpServer

set_option autoImplicit false

/-!
# The web application

`onRequest` of the server program, with the pages it serves and its database. What the
operating system, sqlite and bcrypt answer is given by a `Host`; a handler returns the
response and, in order, the calls that matter outside: the file names opened, the SQL texts
and what opens and closes a database.
-/
namespace HydrogenWeb
open ListSearch

namespace HttpResponse

def setStatusCode (r : HttpResponse) (statusCode : HttpStatusCode) : HttpResponse :=
  { r with statusCode }

def setStatusMsg (r : HttpResponse) (statusMsg : List UInt8) : HttpResponse := { r with statusMsg }

def setCloseConnection (r : HttpResponse) (closeConnection : Bool) : HttpResponse :=
  { r with closeConnection }

def addHeader (r : HttpResponse) (key value : List UInt8) : HttpResponse :=
  { r with headers := r.headers.insert key value }

def setContentType (r : HttpResponse) (contentType : List UInt8) : HttpResponse :=
  r.addHeader (bytes "Content-Type") contentType

def setBody (r : HttpResponse) (body : List UInt8) : HttpResponse := { r with body }

def appendToBody (r : HttpResponse) (msg : List UInt8) : HttpResponse :=
  { r with body := r.body ++ msg }

end HttpResponse

namespace Application

/-- The constants of config.h; a string literal ends at its first NUL. -/
structure Config where
  htmlPath : List UInt8
  objectPath : List UInt8
  databasePath : List UInt8
  literals : 0 ∉ htmlPath ∧ 0 ∉ objectPath

/-- The string that `c_str()` passes on. -/
def cString (s : List UInt8) : List UInt8 := s.takeWhile (· ≠ 0)

/-- What `open`, `fstat` and `mmap` make of a file. Where `fstat` fails, the size is
whatever the memory held. -/
inductive FileResult where
  | openFailed
  | mapped (contents : List UInt8)
  | mapFailed (size : ℕ)
deriving DecidableEq

/-- `sqlite3_open` returns a code, and also with an error it may set the handle. -/
structure DbResult where
  ret : ℤ
  handle : Bool
  opened : ret = 0 → handle = true

/-- A column is a C string or NULL. -/
abbrev Row : Type := List (Option (List UInt8))

/-- The answers while one request is handled, which asks for each at most once. `execRows`
are the rows for the callback of `sqlite3_exec`, and `execRet` is its code if the callback
takes them all. `generateHash` throws where it is `none`. -/
structure Host where
  now : ℕ
  file : FileResult
  db : DbResult
  prepareRet : ℤ
  stepRet : ℤ
  execRows : List Row
  execRet : ℤ
  generateHash : List UInt8 → Option (List UInt8)
  validatePassword : List UInt8 → List UInt8 → Bool

inductive HostCall where
  | open (path : List UInt8) (ok : Bool)
  | sqlite3_open (path : List UInt8) (handle : Bool)
  | sql (text : List UInt8)
  | sqlite3_close
deriving DecidableEq

/-- `result` is `none` where the process dies, by a signal or by an exception. -/
structure HostRun (α : Type) where
  calls : List HostCall
  result : Option α

namespace HostRun

variable {α β : Type}

def died : HostRun α := ⟨[], none⟩

def call (c : HostCall) : HostRun Unit := ⟨[c], some ()⟩

def bind (m : HostRun α) (f : α → HostRun β) : HostRun β :=
  match m.result with
  | none => ⟨m.calls, none⟩
  | some a => ⟨m.calls ++ (f a).calls, (f a).result⟩

instance : Monad HostRun where
  pure a := ⟨[], some a⟩
  bind := bind

theorem bind_of_some {m : HostRun α} {a : α} (h : m.result = some a) (f : α → HostRun β) :
    m >>= f = ⟨m.calls ++ (f a).calls, (f a).result⟩ := by
  change bind m f = _
  rw [bind, h]

theorem bind_of_none {m : HostRun α} (h : m.result = none) (f : α → HostRun β) :
    m >>= f = ⟨m.calls, none⟩ := by
  change bind m f = _
  rw [bind, h]

end HostRun

def SQLITE_OK : ℤ := 0
def SQLITE_ABORT : ℤ := 4
def SQLITE_ROW : ℤ := 100
def SQLITE_DONE : ℤ := 101

namespace Detail
open HttpResponse HostRun

def openDb (config : Config) (host : Host) : HostRun ℤ := do
  call (.sqlite3_open (cString config.databasePath) host.db.handle)
  pure host.db.ret

/-- `sqlite3_exec` on the rows: whether the callback has taken them all. -/
def feed {δ : Type} (callback : δ → Row → Option (ℤ × δ)) : δ → List Row → Option (Bool × δ)
  | data, [] => some (true, data)
  | data, row :: rows =>
    match callback data row with
    | none => none
    | some (ret, data) => if ret = 0 then feed callback data rows else some (false, data)

def execSql {δ : Type} (host : Host) (sql : List UInt8) (callback : δ → Row → Option (ℤ × δ))
    (data : δ) : HostRun (ℤ × δ) := do
  call (.sql sql)
  match feed callback data host.execRows with
  | none => died
  | some (taken, data) => pure (if taken then host.execRet else SQLITE_ABORT, data)

def doSql (host : Host) (sql : List UInt8) : HostRun ℤ := do
  call (.sql sql)
  pure (if host.prepareRet = SQLITE_OK then host.stepRet else host.prepareRet)

def fillMimeType (mimeTypes : StringMap) : StringMap :=
  mimeTypes.insert (bytes ".html") (bytes "text/html")
    |>.insert (bytes ".mp4") (bytes "video/mpeg")
    |>.insert (bytes ".png") (bytes "image/png")
    |>.insert (bytes ".jpg") (bytes "image/jpeg")
    |>.insert (bytes ".jpeg") (bytes "image/jpeg")
    |>.insert (bytes ".gif") (bytes "image/gif")
    |>.insert (bytes ".mp3") (bytes "audio/mpeg")
    |>.insert (bytes "default") (bytes "text/html")

def responseOK (resp : HttpResponse) (contentType : List UInt8) : HttpResponse :=
  (((resp.setStatusCode .OK200).setStatusMsg (bytes "OK")).setContentType contentType).addHeader
    (bytes "Server") (bytes "HydrogenWeb")

def response404 (resp : HttpResponse) : HttpResponse :=
  (((((resp.setStatusCode .NOTFOUND404).setStatusMsg (bytes "Not Found")).setContentType
    (bytes "")).addHeader (bytes "Server") (bytes "HydrogenWeb")).setCloseConnection true).setBody
      (bytes "404 NOTFOUND")

def response500 (resp : HttpResponse) : HttpResponse :=
  (((((resp.setStatusCode .INTERNAL500).setStatusMsg (bytes "Internal Server Error")).setContentType
    (bytes "")).addHeader (bytes "Server") (bytes "HydrogenWeb")).setCloseConnection true).setBody
      (bytes "500 INTERNAL ERROR")

end Detail

open HttpResponse HostRun Detail

/-- The map that `main` fills before it serves. -/
def mimeTypes : StringMap := fillMimeType ∅

/-- `snprintf(buf, 256, "<td>%s</td>", argv[i])`; for NULL it prints `(null)`. -/
def tableData (column : Option (List UInt8)) : List UInt8 :=
  (bytes "<td>" ++ cString (column.getD (bytes "(null)")) ++ bytes "</td>").take 255

def fillData (resp : HttpResponse) (row : Row) : Option (ℤ × HttpResponse) :=
  let resp := resp.appendToBody (bytes "<tr>")
  let resp := row.foldl (fun resp column => resp.appendToBody (tableData column)) resp
  some (0, resp.appendToBody (bytes "</tr>"))

/-- A string cannot be made of a null pointer. -/
def checkPassword (host : Host) (password : List UInt8) (row : Row) : Option (ℤ × List UInt8) :=
  match row with
  | some hash :: _ => some (if host.validatePassword password hash then 0 else -1, password)
  | _ => none

/-- The descriptor is not closed on any way out. -/
def serveFile (host : Host) (path : List UInt8) (resp : HttpResponse) (mimeType : List UInt8) :
    HostRun HttpResponse := do
  call (.open (cString path) (host.file ≠ .openFailed))
  match host.file with
  | .openFailed => pure (response500 resp)
  | .mapped contents => pure (responseOK (resp.setBody contents) mimeType)
  | .mapFailed size =>
    -- `MAP_FAILED` is read as the body, unless there is nothing to read
    if size = 0 then pure (responseOK (resp.setBody []) mimeType) else died

/-- `path.substr(path.find('.'), path.length() - 1)` throws where there is no dot. -/
def serveStatic (config : Config) (host : Host) (path : List UInt8) (resp : HttpResponse) :
    HostRun HttpResponse :=
  match find (byte '.') path with
  | none => died
  | some dot => do
    let suffix := (path.drop dot).take (path.length - 1)
    let mimeType := match mimeTypes[suffix]? with
      | some mimeType => mimeType
      | none => (mimeTypes[bytes "default"]?).getD []
    let filePath := if mimeType = bytes "text/html" then config.htmlPath ++ path
      else config.objectPath ++ path
    let resp ← serveFile host filePath resp mimeType
    pure (resp.setCloseConnection true)

/-- `"%" PRId64 ".%06" PRId64` of the seconds and the microseconds. -/
def timestampString (microSec : ℕ) : List UInt8 :=
  let micros := bytes (toString (microSec % 1000000))
  bytes (toString (microSec / 1000000)) ++ bytes "." ++
    List.replicate (6 - micros.length) (byte '0') ++ micros

/-- A month has 30.5 days. -/
def time (host : Host) (resp : HttpResponse) : HttpResponse :=
  let resp := responseOK resp (bytes "text/html")
  let days := host.now / 1000000 / (60 * 60 * 24)
  let resp := resp.setBody (bytes "<html><head><title>Welcome!</title></head>")
  let resp := resp.appendToBody (bytes "<body><h1>Long time no see!</h1>")
  let resp := resp.appendToBody (bytes "<p>Now is " ++ timestampString host.now ++
    bytes " seconds from 1970/00/00 00:00:00</p>")
  let resp := resp.appendToBody (bytes "<p>" ++ bytes (toString days) ++ bytes " days</p>")
  let resp := resp.appendToBody (bytes "<p>about " ++ bytes (toString (2 * days / 61)) ++
    bytes " months</p>")
  let resp := resp.appendToBody (bytes "<p>about " ++ bytes (toString (2 * days / 61 / 12)) ++
    bytes " years</p>")
  let resp := resp.appendToBody (bytes "</html>")
  resp.setCloseConnection true

def booklist (config : Config) (host : Host) (resp : HttpResponse) : HostRun HttpResponse := do
  let resp := responseOK resp (bytes "text/html")
  let resp := resp.setBody (bytes "<html><head><title>Book list!!</title></head>")
  let resp := resp.appendToBody (bytes "<table border=\"1\">")
  let ret ← openDb config host
  if ret ≠ 0 then return response500 resp
  let (ret, resp) ← execSql host (bytes "SELECT * from booklist") fillData resp
  if ret ≠ SQLITE_OK then return response500 resp
  let resp := resp.appendToBody (bytes "</table>")
  let resp := resp.appendToBody (bytes "</html>")
  call .sqlite3_close
  pure (resp.setCloseConnection true)

def selectUser (username : List UInt8) : List UInt8 :=
  bytes "SELECT * from users WHERE username='" ++ username ++ bytes "'"

def insertUser (username hash : List UInt8) : List UInt8 :=
  bytes "INSERT INTO users (username, password) " ++ bytes "VALUES ('" ++ username ++
    bytes "', '" ++ hash ++ bytes "')"

def selectPassword (username : List UInt8) : List UInt8 :=
  bytes "SELECT password from users WHERE username='" ++ username ++ bytes "'"

def noCallback (data : Unit) (_ : Row) : Option (ℤ × Unit) := some (0, data)

def signup (config : Config) (host : Host) (req : HttpRequest) (resp : HttpResponse) :
    HostRun HttpResponse := do
  let ret ← openDb config host
  if ret ≠ SQLITE_OK then return response500 resp
  let ret ← doSql host (selectUser (req.getBody (bytes "username")))
  let resp ←
    if ret = SQLITE_DONE then
      match host.generateHash (req.getBody (bytes "password")) with
      | none => died
      | some hash => do
        let (ret, _) ← execSql host (insertUser (req.getBody (bytes "username")) hash) noCallback ()
        if ret ≠ SQLITE_OK then pure resp
        else serveStatic config host (bytes "/signin.html") resp
    else if ret = SQLITE_ROW then
      serveStatic config host (req.path ++ bytes "_error.html") resp
    else pure resp
  call .sqlite3_close
  pure resp

def signin (config : Config) (host : Host) (req : HttpRequest) (resp : HttpResponse) :
    HostRun HttpResponse := do
  let ret ← openDb config host
  if ret ≠ SQLITE_OK then return response500 resp
  let ret ← doSql host (selectUser (req.getBody (bytes "username")))
  let resp ←
    if ret = SQLITE_DONE then serveStatic config host (req.path ++ bytes "_error.html") resp
    else if ret = SQLITE_ROW then do
      let (ret, _) ← execSql host (selectPassword (req.getBody (bytes "username")))
        (checkPassword host) (req.getBody (bytes "password"))
      if ret ≠ SQLITE_OK then serveStatic config host (req.path ++ bytes "_error.html") resp
      else serveStatic config host (bytes "/selection.html") resp
    else pure resp
  call .sqlite3_close
  pure resp

def isStatic (path : List UInt8) : Bool := path = bytes "/" || find (byte '.') path ≠ none

def onRequest (config : Config) (host : Host) (req : HttpRequest) (resp : HttpResponse) :
    HostRun HttpResponse :=
  let path := req.path
  if isStatic path then
    if path = bytes "/" ∨ path = [] then serveStatic config host (bytes "/home.html") resp
    else serveStatic config host path resp
  else if path = bytes "/time" then pure (time host resp)
  else if path = bytes "/booklist" then booklist config host resp
  else if path = bytes "/signup" then signup config host req resp
  else if path = bytes "/signin" then signin config host req resp
  else pure (response404 resp)

end Application
end HydrogenWeb
