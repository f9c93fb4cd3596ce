import HydrogenWeb.ApplicationCalls
import HydrogenWeb.TransitionRuns

set_option autoImplicit false

/-!
# Descriptors and database handles over a run of requests

Each request is handled with its own answers of the host, and a run ends where the process
dies. `Handling.Clean` says of the answers when what is open is afterwards the same.
-/
namespace HydrogenWeb.Application
open HostRun Detail TransitionRuns

structure Resources where
  descriptors : ℕ
  handles : ℕ
deriving DecidableEq

namespace Resources

def apply (r : Resources) : HostCall → Resources
  | .open _ ok => { r with descriptors := r.descriptors + ok.toNat }
  | .sqlite3_open _ handle => { r with handles := r.handles + handle.toNat }
  | .sql _ => r
  | .sqlite3_close => { r with handles := r.handles - 1 }

def after (r : Resources) (calls : List HostCall) : Resources := calls.foldl apply r

def withDb (r : Resources) (db : DbResult) : Resources :=
  { r with handles := r.handles + db.handle.toNat }

def withoutDb (r : Resources) : Resources := { r with handles := r.handles - 1 }

def withFile (r : Resources) : Resources := { r with descriptors := r.descriptors + 1 }

end Resources

/-- The descriptor stays behind, and so does the process. -/
def FileResult.kept : FileResult → Bool
  | .openFailed => false
  | .mapped _ => true
  | .mapFailed size => size = 0

def Resources.served (r : Resources) (file : FileResult) : Option Resources :=
  match file with
  | .openFailed => some r
  | .mapped _ => some r.withFile
  | .mapFailed size => if size = 0 then some r.withFile else none

namespace HostRun

variable {α β : Type}

/-- What is open where the run returns. -/
def ends (m : HostRun α) (r : Resources) : Option Resources := m.result.map fun _ => r.after m.calls

theorem ends_pure (a : α) (r : Resources) : (pure a : HostRun α).ends r = some r := rfl

theorem ends_died (r : Resources) : (died : HostRun α).ends r = none := rfl

theorem ends_bind_of_some {m : HostRun α} {a : α} (h : m.result = some a) (f : α → HostRun β)
    (r : Resources) : (m >>= f).ends r = (f a).ends (r.after m.calls) := by
  rw [bind_of_some h, ends, ends, Resources.after, List.foldl_append]
  rfl

theorem ends_bind_of_none {m : HostRun α} (h : m.result = none) (f : α → HostRun β)
    (r : Resources) : (m >>= f).ends r = none := by
  rw [bind_of_none h, ends]
  rfl

/-- What follows does not depend on what is returned. -/
theorem ends_bind {m : HostRun α} {f : α → HostRun β} {g : Resources → Option Resources}
    (h : ∀ a s, (f a).ends s = g s) (r : Resources) : (m >>= f).ends r = (m.ends r).bind g := by
  cases hresult : m.result with
  | none => rw [ends_bind_of_none hresult, ends, hresult, Option.map_none, Option.bind_none]
  | some a =>
    rw [ends_bind_of_some hresult, h, ends, hresult, Option.map_some, Option.bind_some]

end HostRun

section Handlers

variable {config : Config} {host : Host} {r : Resources}

theorem ends_serveFile (path mimeType : List UInt8) (resp : HttpResponse) :
    (serveFile host path resp mimeType).ends r = r.served host.file := by
  rw [serveFile, ends_bind_of_some rfl]
  cases hfile : host.file with
  | openFailed => rfl
  | mapped _ => rfl
  | mapFailed size =>
    dsimp only
    split_ifs with hsize
    · rw [ends_pure, Resources.served, if_pos hsize]
      rfl
    · rw [ends_died, Resources.served, if_neg hsize]

theorem ends_serveStatic {path : List UInt8} (hdot : byte '.' ∈ path) (resp : HttpResponse) :
    (serveStatic config host path resp).ends r = r.served host.file := by
  obtain ⟨root, -, mimeType, heq⟩ := serveStatic_eq hdot config host resp
  rw [heq, ends_bind fun _ s => ends_pure _ s, ends_serveFile, Option.bind_fun_some]

theorem ends_close (m : HostRun HttpResponse) (r : Resources) : (do
      let resp ← m
      call .sqlite3_close
      pure resp).ends r = (m.ends r).map Resources.withoutDb := by
  rw [ends_bind (g := fun s => some s.withoutDb) fun _ _ => rfl, Option.map_eq_bind]
  rfl

theorem ends_openDb_bind {α : Type} (f : ℤ → HostRun α) (r : Resources) :
    (openDb config host >>= f).ends r = (f host.db.ret).ends (r.withDb host.db) :=
  ends_bind_of_some rfl f r

theorem ends_doSql_bind {α : Type} (sql : List UInt8) (f : ℤ → HostRun α) (r : Resources) :
    (doSql host sql >>= f).ends r = (f host.queried).ends r :=
  ends_bind_of_some rfl f r

/-- A callback that always answers 0 takes every row. -/
theorem feed_of_zero {δ : Type} {callback : δ → Row → Option (ℤ × δ)} {next : δ → Row → δ}
    (h : ∀ data row, callback data row = some (0, next data row)) (data : δ) (rows : List Row) :
    feed callback data rows = some (true, rows.foldl next data) := by
  induction rows generalizing data with
  | nil => rfl
  | cons row rows ih =>
    rw [feed, h]
    exact ih (next data row)

theorem ends_execSql_bind {δ α : Type} {callback : δ → Row → Option (ℤ × δ)} {data data' : δ}
    {taken : Bool} (h : feed callback data host.execRows = some (taken, data')) (sql : List UInt8)
    (f : ℤ × δ → HostRun α) (r : Resources) : (execSql host sql callback data >>= f).ends r =
      (f (if taken then host.execRet else SQLITE_ABORT, data')).ends r := by
  have hrun : execSql host sql callback data =
      ⟨[.sql sql], some (if taken then host.execRet else SQLITE_ABORT, data')⟩ := by
    rw [execSql, h]
    rfl
  rw [hrun]
  exact ends_bind_of_some rfl f r

theorem ends_execSql_bind_of_zero {δ α : Type} {callback : δ → Row → Option (ℤ × δ)}
    {next : δ → Row → δ} (h : ∀ data row, callback data row = some (0, next data row))
    (sql : List UInt8) (data : δ) (f : ℤ × δ → HostRun α) (r : Resources) :
    (execSql host sql callback data >>= f).ends r =
      (f (host.execRet, host.execRows.foldl next data)).ends r := by
  rw [ends_execSql_bind (feed_of_zero h data host.execRows), if_pos rfl]

theorem ends_execSql_bind_of_none {δ α : Type} {callback : δ → Row → Option (ℤ × δ)} {data : δ}
    (h : feed callback data host.execRows = none) (sql : List UInt8) (f : ℤ × δ → HostRun α)
    (r : Resources) : (execSql host sql callback data >>= f).ends r = none := by
  have hrun : (execSql host sql callback data).result = none := by
    rw [execSql, h]
    rfl
  exact ends_bind_of_none hrun f r

end Handlers

/-- /signup goes on to a page: the user has been inserted, or exists. -/
def Host.SignupServes (host : Host) (password : List UInt8) : Prop :=
  (host.queried = SQLITE_DONE ∧ host.generateHash password ≠ none ∧ host.execRet = SQLITE_OK) ∨
    host.queried = SQLITE_ROW

/-- /signin goes on to a page: there is no such user, or the password has been compared. -/
def Host.SigninServes (host : Host) (password : List UInt8) : Prop :=
  host.queried = SQLITE_DONE ∨
    (host.queried = SQLITE_ROW ∧ feed (checkPassword host) password host.execRows ≠ none)

/-- Where `sqlite3_open` reports an error it leaves no handle, and else `P`. -/
def Host.CleanDb (host : Host) (P : Prop) : Prop :=
  if host.db.ret = SQLITE_OK then P else host.db.handle = false

def Unchanged (r : Resources) (o : Option Resources) : Prop := ∀ r', o = some r' → r' = r

section Unchanged

variable {config : Config} {host : Host} {req : HttpRequest} {resp : HttpResponse} {r : Resources}
  {db : DbResult} {file : FileResult}

theorem unchanged_none : Unchanged r none := by
  intro r' h
  cases h

theorem unchanged_some {s : Resources} : Unchanged r (some s) ↔ s = r := by
  constructor
  · intro h
    exact h s rfl
  · rintro rfl r' h
    exact (Option.some.inj h).symm

theorem withFile_ne (r : Resources) : r.withFile ≠ r := by
  intro h
  have hcount := congrArg Resources.descriptors h
  exact absurd hcount (Nat.succ_ne_self _)

theorem unchanged_served : Unchanged r (r.served file) ↔ file.kept = false := by
  cases file with
  | openFailed => exact iff_of_true (unchanged_some.2 rfl) rfl
  | mapped _ => exact iff_of_false (fun h => withFile_ne r (unchanged_some.1 h)) (by simp [FileResult.kept])
  | mapFailed size =>
    rw [Resources.served, FileResult.kept, decide_eq_false_iff_not]
    split_ifs with hsize
    · exact iff_of_false (fun h => withFile_ne r (unchanged_some.1 h)) (not_not.2 hsize)
    · exact iff_of_true unchanged_none hsize

theorem unchanged_withDb : Unchanged r (some (r.withDb db)) ↔ db.handle = false := by
  rw [unchanged_some]
  cases hhandle : db.handle with
  | false =>
    rw [Resources.withDb, hhandle]
    exact iff_of_true rfl rfl
  | true =>
    refine iff_of_false (fun h => ?_) Bool.noConfusion
    have hcount := congrArg Resources.handles h
    rw [Resources.withDb, hhandle] at hcount
    exact absurd hcount (Nat.succ_ne_self _)

theorem withoutDb_withDb (h : db.handle = true) : (r.withDb db).withoutDb = r := by
  rw [Resources.withDb, h]
  rfl

theorem served_withDb (h : db.handle = true) :
    ((r.withDb db).served file).map Resources.withoutDb = r.served file := by
  have hfile : (r.withDb db).withFile.withoutDb = r.withFile := by
    rw [Resources.withDb, h]
    rfl
  cases file with
  | openFailed => exact congrArg some (withoutDb_withDb h)
  | mapped _ => exact congrArg some hfile
  | mapFailed size =>
    rw [Resources.served, Resources.served]
    split_ifs
    · exact congrArg some hfile
    · rfl

theorem unchanged_page (h : host.db.handle = true) {path : List UInt8} (hdot : byte '.' ∈ path) :
    Unchanged r ((do
      let resp ← serveStatic config host path resp
      call .sqlite3_close
      pure resp).ends (r.withDb host.db)) ↔ host.file.kept = false := by
  rw [ends_close, ends_serveStatic hdot, served_withDb h, unchanged_served]

theorem unchanged_noPage (h : host.db.handle = true) : Unchanged r ((do
      let resp ← pure resp
      call .sqlite3_close
      pure resp : HostRun HttpResponse).ends (r.withDb host.db)) := by
  rw [ends_close, ends_pure, Option.map_some, withoutDb_withDb h, unchanged_some]

def fillRow (resp : HttpResponse) (row : Row) : HttpResponse :=
  (row.foldl (fun resp column => resp.appendToBody (tableData column))
    (resp.appendToBody (bytes "<tr>"))).appendToBody (bytes "</tr>")

theorem fillData_eq (resp : HttpResponse) (row : Row) :
    fillData resp row = some (0, fillRow resp row) := rfl

theorem noCallback_eq (data : Unit) (row : Row) : noCallback data row = some (0, data) := rfl

theorem unchanged_booklist : Unchanged r ((booklist config host resp).ends r) ↔
    host.CleanDb (host.execRet = SQLITE_OK) := by
  rw [booklist]
  dsimp only
  rw [ends_openDb_bind]
  by_cases hdb : host.db.ret = SQLITE_OK
  · have hopened := host.db.opened hdb
    have hcode : host.db.ret = 0 := hdb
    rw [if_neg (not_not.2 hcode), ends_execSql_bind_of_zero fillData_eq,
      Host.CleanDb, if_pos hdb]
    by_cases hexec : host.execRet = SQLITE_OK
    · rw [if_neg (not_not.2 hexec), ends_bind_of_some rfl, ends_pure]
      exact iff_of_true (unchanged_some.2 (withoutDb_withDb hopened)) hexec
    · rw [if_pos hexec, ends_pure, unchanged_withDb, hopened]
      exact iff_of_false Bool.noConfusion hexec
  · have hcode : host.db.ret ≠ 0 := hdb
    rw [if_pos hcode, ends_pure, Host.CleanDb, if_neg hdb, unchanged_withDb]

theorem unchanged_signup : Unchanged r ((signup config host req resp).ends r) ↔
    host.CleanDb (host.SignupServes (req.getBody (bytes "password")) → host.file.kept = false) := by
  rw [signup, ends_openDb_bind]
  by_cases hdb : host.db.ret = SQLITE_OK
  · have hopened := host.db.opened hdb
    rw [if_neg (not_not.2 hdb), ends_doSql_bind, Host.CleanDb, if_pos hdb, Host.SignupServes]
    dsimp only
    by_cases hdone : host.queried = SQLITE_DONE
    · have hrow : host.queried ≠ SQLITE_ROW := by
        rw [hdone]
        decide
      rw [if_pos hdone]
      cases hhash : host.generateHash (req.getBody (bytes "password")) with
      | none =>
        dsimp only
        rw [ends_close, ends_died, Option.map_none]
        simp [unchanged_none, hrow]
      | some hash =>
        dsimp only
        rw [ends_execSql_bind_of_zero noCallback_eq]
        by_cases hexec : host.execRet = SQLITE_OK
        · rw [if_neg (not_not.2 hexec), unchanged_page hopened (by decide)]
          simp [hdone, hexec]
        · rw [if_pos hexec]
          simp [unchanged_noPage hopened, hrow, hexec]
    · rw [if_neg hdone]
      by_cases hrow : host.queried = SQLITE_ROW
      · rw [if_pos hrow, unchanged_page hopened (List.mem_append_right _ (by decide))]
        simp [hrow]
      · rw [if_neg hrow]
        simp [unchanged_noPage hopened, hdone, hrow]
  · rw [if_pos hdb, ends_pure, Host.CleanDb, if_neg hdb, unchanged_withDb]

theorem unchanged_signin : Unchanged r ((signin config host req resp).ends r) ↔
    host.CleanDb (host.SigninServes (req.getBody (bytes "password")) → host.file.kept = false) := by
  rw [signin, ends_openDb_bind]
  by_cases hdb : host.db.ret = SQLITE_OK
  · have hopened := host.db.opened hdb
    have herror : byte '.' ∈ req.path ++ bytes "_error.html" :=
      List.mem_append_right _ (by decide)
    rw [if_neg (not_not.2 hdb), ends_doSql_bind, Host.CleanDb, if_pos hdb, Host.SigninServes]
    dsimp only
    by_cases hdone : host.queried = SQLITE_DONE
    · rw [if_pos hdone, unchanged_page hopened herror]
      simp [hdone]
    · rw [if_neg hdone]
      by_cases hrow : host.queried = SQLITE_ROW
      · rw [if_pos hrow]
        cases hfeed : feed (checkPassword host) (req.getBody (bytes "password")) host.execRows with
        | none =>
          rw [ends_execSql_bind_of_none hfeed]
          simp [unchanged_none, hdone]
        | some answer =>
          rw [ends_execSql_bind hfeed]
          simp only [hrow, ne_eq, reduceCtorEq, not_false_eq_true, and_self, or_true, true_implies]
          split_ifs
          · exact unchanged_page hopened (by decide)
          · exact unchanged_page hopened herror
          · exact unchanged_page hopened (by decide)
          · exact unchanged_page hopened herror
      · rw [if_neg hrow]
        simp [unchanged_noPage hopened, hdone, hrow]
  · rw [if_pos hdb, ends_pure, Host.CleanDb, if_neg hdb, unchanged_withDb]

end Unchanged

structure Handling where
  host : Host
  req : HttpRequest
  resp : HttpResponse

/-- No file of the roots stays open, and what `sqlite3_open` sets is closed again. -/
def Handling.Clean (a : Handling) : Prop :=
  let password := a.req.getBody (bytes "password")
  if isStatic a.req.path then a.host.file.kept = false
  else if a.req.path = bytes "/booklist" then a.host.CleanDb (a.host.execRet = SQLITE_OK)
  else if a.req.path = bytes "/signup" then
    a.host.CleanDb (a.host.SignupServes password → a.host.file.kept = false)
  else if a.req.path = bytes "/signin" then
    a.host.CleanDb (a.host.SigninServes password → a.host.file.kept = false)
  else True

def handle (config : Config) (r : Resources) (a : Handling) : Option Resources :=
  (onRequest config a.host a.req a.resp).ends r

theorem unchanged_handle (config : Config) (r : Resources) (a : Handling) :
    Unchanged r (handle config r a) ↔ a.Clean := by
  rw [handle, Handling.Clean]
  by_cases hstatic : isStatic a.req.path = true
  · rw [if_pos hstatic, onRequest, if_pos hstatic]
    split_ifs with hhome
    · rw [ends_serveStatic (by decide), unchanged_served]
    · have hdot := (isStatic_iff.1 hstatic).resolve_left fun heq => hhome (Or.inl heq)
      rw [ends_serveStatic hdot, unchanged_served]
  · rw [if_neg hstatic]
    split_ifs with hbooklist hsignup hsignin
    · rw [onRequest_booklist _ _ _ hbooklist, unchanged_booklist]
    · rw [onRequest_signup _ _ _ hsignup, unchanged_signup]
    · rw [onRequest_signin _ _ _ hsignin, unchanged_signin]
    · rw [onRequest, if_neg hstatic, if_neg hbooklist, if_neg hsignup, if_neg hsignin]
      split_ifs
      · exact iff_of_true (unchanged_some.2 rfl) trivial
      · exact iff_of_true (unchanged_some.2 rfl) trivial

theorem unchanged_along_iff (config : Config) (r : Resources) (as : List Handling) :
    Along (handle config) (fun r _ o => Unchanged r o) r as ↔
      Along (handle config) (fun _ a _ => a.Clean) r as :=
  along_iff (R := fun _ _ _ => True) (fun _ => True) (fun r a _ _ => unchanged_handle config r a)
    (fun _ _ _ _ _ _ _ => trivial) as trivial (along_true _ _ _)

def fileHost : Host := { barrenHost with file := .mapped (bytes "<html>") }

/-- A page is asked for, and its descriptor stays open. -/
theorem page_leaves_descriptor : ∃ (o : HttpContext.Outcome) (c : HttpContext) (b : List UInt8),
    HttpContext.parseRequest 0 HttpContext.fresh (bytes "GET /a.html HTTP/1.1\r\n\r\n") =
      some (o, c, b) ∧ c.state = .ALLOK ∧
    ¬ Along (handle ⟨[], [], [], List.not_mem_nil, List.not_mem_nil⟩) (fun r _ o => Unchanged r o)
      ⟨0, 0⟩ [⟨fileHost, c.request, HttpResponse.create false⟩] := by
  obtain ⟨o, c, b, hrun, hstate, hpath⟩ := exists_request HttpRequest.path
    (bytes "GET /a.html HTTP/1.1\r\n\r\n") (bytes "/a.html") (by decide +kernel)
  refine ⟨o, c, b, hrun, hstate, fun halong => ?_⟩
  have hclean := (unchanged_handle _ _ _).1 halong.1
  have hstatic : isStatic c.request.path = true := by
    rw [hpath]
    decide
  rw [Handling.Clean, if_pos hstatic] at hclean
  exact Bool.noConfusion hclean

end HydrogenWeb.Application
