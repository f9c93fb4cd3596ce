import HydrogenWeb.Application

set_option autoImplicit false

/-!
# What a request can ask of the host

`Serves` are the paths that a request hands to `serveStatic` and `Asks` the calls that
handling it can make; no handler makes another one.
-/
namespace HydrogenWeb.Application
open ListSearch HttpResponse HostRun Detail

namespace HostRun

variable {α β : Type} {P : HostCall → Prop}

def Every (P : HostCall → Prop) (m : HostRun α) : Prop := ∀ c ∈ m.calls, P c

theorem every_pure (a : α) : Every P (pure a : HostRun α) := by
  intro c hc
  cases hc

theorem every_died : Every P (died : HostRun α) := by
  intro c hc
  cases hc

theorem every_call {c : HostCall} (h : P c) : Every P (call c) := by
  intro c' hc'
  rw [List.mem_singleton.1 hc']
  exact h

theorem every_bind {m : HostRun α} {f : α → HostRun β} (h : Every P m) (hf : ∀ a, Every P (f a)) :
    Every P (m >>= f) := by
  intro c hc
  cases hresult : m.result with
  | none =>
    rw [bind_of_none hresult] at hc
    exact h c hc
  | some a =>
    rw [bind_of_some hresult] at hc
    rcases List.mem_append.1 hc with hc | hc
    · exact h c hc
    · exact hf a c hc

theorem mem_bind_left {m : HostRun α} {f : α → HostRun β} {c : HostCall} (h : c ∈ m.calls) :
    c ∈ (m >>= f).calls := by
  cases hresult : m.result with
  | none =>
    rw [bind_of_none hresult]
    exact h
  | some a =>
    rw [bind_of_some hresult]
    exact List.mem_append_left _ h

theorem mem_bind_right {m : HostRun α} {f : α → HostRun β} {c : HostCall} {a : α}
    (hresult : m.result = some a) (h : c ∈ (f a).calls) : c ∈ (m >>= f).calls := by
  rw [bind_of_some hresult]
  exact List.mem_append_right _ h

end HostRun

inductive Serves (path : List UInt8) : List UInt8 → Prop where
  | home : path = bytes "/" → Serves path (bytes "/home.html")
  | path : byte '.' ∈ path → Serves path path
  | signin : path = bytes "/signup" → Serves path (bytes "/signin.html")
  | selection : path = bytes "/signin" → Serves path (bytes "/selection.html")
  | error : path = bytes "/signup" ∨ path = bytes "/signin" →
      Serves path (path ++ bytes "_error.html")

/-- The code that `doSql` returns. -/
def Host.queried (host : Host) : ℤ :=
  if host.prepareRet = SQLITE_OK then host.stepRet else host.prepareRet

def Config.roots (config : Config) : List (List UInt8) := [config.htmlPath, config.objectPath]

inductive Asks (config : Config) (host : Host) (req : HttpRequest) : HostCall → Prop where
  | open {root path : List UInt8} : root ∈ config.roots → Serves req.path path →
      Asks config host req (.open (cString (root ++ path)) (host.file ≠ .openFailed))
  | sqlite3_open :
      req.path = bytes "/booklist" ∨ req.path = bytes "/signup" ∨ req.path = bytes "/signin" →
      Asks config host req (.sqlite3_open (cString config.databasePath) host.db.handle)
  | booklist : req.path = bytes "/booklist" →
      Asks config host req (.sql (bytes "SELECT * from booklist"))
  | selectUser : req.path = bytes "/signup" ∨ req.path = bytes "/signin" →
      Asks config host req (.sql (selectUser (req.getBody (bytes "username"))))
  | insertUser {hash : List UInt8} : req.path = bytes "/signup" →
      host.generateHash (req.getBody (bytes "password")) = some hash →
      Asks config host req (.sql (insertUser (req.getBody (bytes "username")) hash))
  | selectPassword : req.path = bytes "/signin" →
      Asks config host req (.sql (selectPassword (req.getBody (bytes "username"))))
  | sqlite3_close : Asks config host req .sqlite3_close

theorem isStatic_iff {path : List UInt8} :
    isStatic path = true ↔ path = bytes "/" ∨ byte '.' ∈ path := by
  rw [isStatic, Bool.or_eq_true, decide_eq_true_eq, decide_eq_true_eq, ne_eq, find_eq_none, not_not]

theorem Serves.dot_mem {path served : List UInt8} (h : Serves path served) : byte '.' ∈ served := by
  cases h with
  | home _ => decide
  | path hdot => exact hdot
  | signin _ => decide
  | selection _ => decide
  | error _ => exact List.mem_append_right _ (by decide)

theorem serveStatic_eq {path : List UInt8} (hdot : byte '.' ∈ path) (config : Config) (host : Host)
    (resp : HttpResponse) : ∃ root ∈ config.roots, ∃ mimeType,
      serveStatic config host path resp = (do
        let resp ← serveFile host (root ++ path) resp mimeType
        pure (resp.setCloseConnection true)) := by
  have hobject : config.objectPath ∈ config.roots := List.mem_cons_of_mem _ List.mem_cons_self
  rw [serveStatic]
  split
  · rename_i hnone
    exact absurd hdot (find_eq_none.1 hnone)
  · dsimp only
    split_ifs
    · exact ⟨config.htmlPath, List.mem_cons_self, _, rfl⟩
    · exact ⟨config.objectPath, hobject, _, rfl⟩

section Routes

variable {req : HttpRequest} (config : Config) (host : Host) (resp : HttpResponse)

theorem onRequest_booklist (h : req.path = bytes "/booklist") :
    onRequest config host req resp = booklist config host resp := by
  rw [onRequest, if_neg (by rw [h]; decide), if_neg (by rw [h]; decide), if_pos h]

theorem onRequest_signup (h : req.path = bytes "/signup") :
    onRequest config host req resp = signup config host req resp := by
  rw [onRequest, if_neg (by rw [h]; decide), if_neg (by rw [h]; decide),
    if_neg (by rw [h]; decide), if_pos h]

theorem onRequest_signin (h : req.path = bytes "/signin") :
    onRequest config host req resp = signin config host req resp := by
  rw [onRequest, if_neg (by rw [h]; decide), if_neg (by rw [h]; decide),
    if_neg (by rw [h]; decide), if_neg (by rw [h]; decide), if_pos h]

end Routes

section Handlers

variable {config : Config} {host : Host} {req : HttpRequest}

theorem asks_serveFile {root path : List UInt8} (hroot : root ∈ config.roots)
    (hserves : Serves req.path path) (resp : HttpResponse) (mimeType : List UInt8) :
    Every (Asks config host req) (serveFile host (root ++ path) resp mimeType) := by
  refine every_bind (every_call (Asks.open hroot hserves)) fun _ => ?_
  split
  · exact every_pure _
  · exact every_pure _
  · split
    · exact every_pure _
    · exact every_died

theorem asks_serveStatic {path : List UInt8} (hserves : Serves req.path path)
    (resp : HttpResponse) : Every (Asks config host req) (serveStatic config host path resp) := by
  obtain ⟨root, hroot, mimeType, heq⟩ := serveStatic_eq hserves.dot_mem config host resp
  rw [heq]
  exact every_bind (asks_serveFile hroot hserves _ _) fun _ => every_pure _

theorem asks_openDb
    (h : req.path = bytes "/booklist" ∨ req.path = bytes "/signup" ∨ req.path = bytes "/signin") :
    Every (Asks config host req) (openDb config host) :=
  every_bind (every_call (Asks.sqlite3_open h)) fun _ => every_pure _

theorem asks_doSql {sql : List UInt8} (h : Asks config host req (.sql sql)) :
    Every (Asks config host req) (doSql host sql) :=
  every_bind (every_call h) fun _ => every_pure _

theorem asks_execSql {δ : Type} {sql : List UInt8} (h : Asks config host req (.sql sql))
    (callback : δ → Row → Option (ℤ × δ)) (data : δ) :
    Every (Asks config host req) (execSql host sql callback data) := by
  refine every_bind (every_call h) fun _ => ?_
  split
  · exact every_died
  · exact every_pure _

theorem asks_close (resp : HttpResponse) :
    Every (Asks config host req) (do call .sqlite3_close; pure resp) :=
  every_bind (every_call .sqlite3_close) fun _ => every_pure _

theorem asks_booklist (h : req.path = bytes "/booklist") (resp : HttpResponse) :
    Every (Asks config host req) (booklist config host resp) := by
  rw [booklist]
  refine every_bind (asks_openDb (Or.inl h)) fun ret => ?_
  split
  · exact every_pure _
  · refine every_bind (asks_execSql (.booklist h) _ _) fun answer => ?_
    dsimp only
    split
    · exact every_pure _
    · exact asks_close _

theorem asks_signup (h : req.path = bytes "/signup") (resp : HttpResponse) :
    Every (Asks config host req) (signup config host req resp) := by
  rw [signup]
  refine every_bind (asks_openDb (Or.inr (Or.inl h))) fun ret => ?_
  split
  · exact every_pure _
  · refine every_bind (asks_doSql (.selectUser (Or.inl h))) fun ret => ?_
    dsimp only
    split
    · split
      · exact every_bind every_died asks_close
      · rename_i hash hhash
        refine every_bind (asks_execSql (.insertUser h hhash) _ _) fun answer => ?_
        split
        · exact every_bind (every_pure _) asks_close
        · exact every_bind (asks_serveStatic (.signin h) _) asks_close
    · split
      · exact every_bind (asks_serveStatic (.error (Or.inl h)) _) asks_close
      · exact every_bind (every_pure _) asks_close

theorem asks_signin (h : req.path = bytes "/signin") (resp : HttpResponse) :
    Every (Asks config host req) (signin config host req resp) := by
  rw [signin]
  refine every_bind (asks_openDb (Or.inr (Or.inr h))) fun ret => ?_
  split
  · exact every_pure _
  · refine every_bind (asks_doSql (.selectUser (Or.inr h))) fun ret => ?_
    dsimp only
    split
    · exact every_bind (asks_serveStatic (.error (Or.inr h)) _) asks_close
    · split
      · refine every_bind (asks_execSql (.selectPassword h) _ _) fun answer => ?_
        split
        · exact every_bind (asks_serveStatic (.error (Or.inr h)) _) asks_close
        · exact every_bind (asks_serveStatic (.selection h) _) asks_close
      · exact every_bind (every_pure _) asks_close

end Handlers

theorem asks_of_mem {config : Config} {host : Host} {req : HttpRequest} {resp : HttpResponse}
    {c : HostCall} (h : c ∈ (onRequest config host req resp).calls) : Asks config host req c := by
  suffices hevery : Every (Asks config host req) (onRequest config host req resp) from hevery c h
  rw [onRequest]
  split_ifs with hstatic hhome htime hbooklist hsignup hsignin
  · rw [isStatic_iff] at hstatic
    rcases hhome with hhome | hempty
    · exact asks_serveStatic (.home hhome) resp
    · rw [hempty] at hstatic
      rcases hstatic with hstatic | hstatic
      · cases hstatic
      · cases hstatic
  · have hdot := (isStatic_iff.1 hstatic).resolve_left fun heq => hhome (Or.inl heq)
    exact asks_serveStatic (.path hdot) resp
  · exact every_pure _
  · exact asks_booklist hbooklist resp
  · exact asks_signup hsignup resp
  · exact asks_signin hsignin resp
  · exact every_pure _

/-- A text that is parsed to its end has a request, and `f` may be computed of it. -/
theorem exists_request {α : Type} (f : HttpRequest → α) (text : List UInt8) (a : α)
    (h : (HttpContext.parseRequest 0 HttpContext.fresh text).map (fun r =>
      (r.2.1.state, f r.2.1.request)) = some (.ALLOK, a)) :
    ∃ (o : HttpContext.Outcome) (c : HttpContext) (b : List UInt8),
      HttpContext.parseRequest 0 HttpContext.fresh text = some (o, c, b) ∧ c.state = .ALLOK ∧
        f c.request = a := by
  obtain ⟨⟨o, c, b⟩, hrun, hpair⟩ := Option.map_eq_some_iff.1 h
  rw [Prod.mk.injEq] at hpair
  exact ⟨o, c, b, hrun, hpair⟩

def barrenHost : Host where
  now := 0
  file := .openFailed
  db := ⟨14, false, by decide⟩
  prepareRet := 1
  stepRet := 1
  execRows := []
  execRet := 1
  generateHash := fun _ => none
  validatePassword := fun _ _ => false

end HydrogenWeb.Application
